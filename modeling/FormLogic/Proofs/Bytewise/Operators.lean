import FormLogic.Proofs.Bytewise.Literals
import FormLogic.Proofs.Operators
import FormLogic.Proofs.Requoting
import Mathlib.Data.List.DropRight

/-!
Operators by their offsets. Text that has not been copied yet may end in white space, which is left
out when a boolean word follows; white space behind the word is skipped in the same turn. So the state
of the loop stands for the text that has been written, the white space that is still to be decided on,
and the rest of the source.
-/
namespace FormLogic.Bytewise

open Text Operator

/-- Whether a text begins with a boolean word and the word ends there. -/
def beginsWithWord (v : Text) (word : BooleanWord) : Bool :=
  word.render.isPrefixOf v && endsWord (v.drop word.render.length)

/-- The boolean word that starts at offset `i`, if one does. -/
def booleanWordAt? (t : Text) (i : Nat) : Option (Option BooleanWord) := do
  let before ← byteBefore? t i
  if startsWord before then
    return [BooleanWord.conjunction, .disjunction].find? (beginsWithWord ((bytes t).drop i))
  else return none

def normalizeTurn (t : Text) (i : Nat) (o : Output) : Option (Flow Output) := do
  let b ← (bytes t)[i]?
  if isQuote b then
    match ← literalEnd? t i with
    | none => return .stop o
    | some stop => return .go stop o
  else if b = '=' then
    if standsAlone (← byteBefore? t i) ((bytes t).drop (i + 1)) then
      return .go (i + 1) ⟨i + 1, (← o.upTo? t i) ++ ['=', '=']⟩
    else return .go (i + 1) o
  else
    match ← booleanWordAt? t i with
    | none => return .go (i + 1) o
    | some word =>
      let gap ← (⟨o.last, i⟩ : Span).slice? t
      let stop := runEnd isSpace t (i + byteLength word.render)
      return .go stop
        ⟨stop, o.text ++ gap.rdropWhile isSpace ++ [' ', ' '] ++ word.render ++ [' ', ' ']⟩

/-- Gives the operators of an expression their form in the target grammar. -/
def normalize? (t : Text) : Option Text := do
  let o ← loop (byteLength t) (normalizeTurn t) 0 ⟨0, []⟩
  o.finish? t

theorem isAscii_of_mem_word {word : BooleanWord} {c : Char} (member : c ∈ word.render) :
    isAscii c = true := by
  cases word <;> revert c <;> decide

theorem isAscii_of_isSpace {c : Char} (space : isSpace c = true) : isAscii c = true := by
  simp only [isSpace, Bool.or_eq_true, beq_iff_eq] at space
  rcases space with (((rfl | rfl) | rfl) | rfl) | rfl <;> rfl

theorem byteLength_word (word : BooleanWord) : byteLength word.render = word.render.length := by
  cases word <;> rfl

/-- A boolean word begins with a letter. -/
theorem word_cons (word : BooleanWord) : ∃ c more, word.render = c :: more ∧ isAscii c = true ∧
    isQuote c = false ∧ c ≠ '=' := by
  cases word with
  | conjunction => exact ⟨'a', _, rfl, rfl, rfl, by simp⟩
  | disjunction => exact ⟨'o', _, rfl, rfl, rfl, by simp⟩

theorem endsWord_bytes (v : Text) : endsWord (bytes v) = endsWord v := by
  rw [endsWord, endsWord, coarse_isNameChar.any_head?]

theorem startsWord_bytes (u : Text) : startsWord (bytes u).getLast? = startsWord u.getLast? := by
  have coarse : Coarse fun c => isNameChar c || c == '$' || c == '.' :=
    (coarse_isNameChar.or (.eq rfl)).or (.eq rfl)
  rw [startsWord, startsWord, coarse.any_getLast?]

theorem standsAlone_bytes (u v : Text) :
    standsAlone (bytes u).getLast? (bytes v) = standsAlone u.getLast? v := by
  have coarse : Coarse fun c => c == '!' || c == '<' || c == '>' || c == '=' :=
    (((Coarse.eq rfl).or (.eq rfl)).or (.eq rfl)).or (.eq rfl)
  have equals (w : Text) : (w.head? != some '=') = !w.head?.any (· == '=') := by
    cases w <;> rfl
  have same : (bytes v).head?.any (· == '=') = v.head?.any (· == '=') :=
    (Coarse.eq (d := '=') rfl).any_head? v
  rw [standsAlone, standsAlone, coarse.any_getLast?, equals, equals, same]

theorem beginsWithWord_bytes (v : Text) (word : BooleanWord) :
    beginsWithWord (bytes v) word = beginsWithWord v word := by
  have ascii : ∀ c ∈ word.render, isAscii c = true := fun c => isAscii_of_mem_word
  rw [beginsWithWord, beginsWithWord, isPrefixOf_bytes ascii]
  cases front : word.render.isPrefixOf v with
  | false => rfl
  | true =>
    obtain ⟨rest, rfl⟩ := List.isPrefixOf_iff_prefix.1 front
    have behind : (bytes (word.render ++ rest)).drop word.render.length = bytes rest := by
      rw [← byteLength_word, drop_bytes_append]
    rw [behind, List.drop_left, endsWord_bytes]

theorem booleanWord?_eq (before : Option Char) (v : Text) :
    (booleanWord? before v).map Prod.fst =
      if startsWord before then [BooleanWord.conjunction, .disjunction].find? (beginsWithWord v)
      else none := by
  cases starts : startsWord before with
  | false =>
    rw [if_neg Bool.false_ne_true, Option.map_eq_none_iff]
    cases found : booleanWord? before v with
    | none => rfl
    | some parts =>
      obtain ⟨word, rest⟩ := parts
      rw [(Token.ends_of_booleanWord? found).1] at starts
      cases starts
  | true =>
    unfold booleanWord?
    split
    · next after =>
      cases ends : endsWord after <;> simp [beginsWithWord, BooleanWord.render, starts, ends]
    · next after =>
      cases ends : endsWord after <;> simp [beginsWithWord, BooleanWord.render, starts, ends]
    · next noAnd noOr =>
      have absent (word : BooleanWord) : beginsWithWord v word = false := by
        rw [← Bool.not_eq_true, beginsWithWord, Bool.and_eq_true, List.isPrefixOf_iff_prefix]
        rintro ⟨⟨rest, rfl⟩, -⟩
        cases word with
        | conjunction => exact noAnd rest rfl
        | disjunction => exact noOr rest rfl
      simp [absent]

theorem booleanWordAt?_append (u v : Text) :
    booleanWordAt? (u ++ v) (byteLength u) = some ((booleanWord? u.getLast? v).map Prod.fst) := by
  have same := funext (beginsWithWord_bytes v)
  simp only [booleanWordAt?, byteBefore?_append, drop_bytes_append, startsWord_bytes,
    Option.bind_eq_bind, Option.bind_some, booleanWord?_eq, ← same]
  split <;> rfl

/-- No boolean word starts with a byte outside ASCII. -/
theorem booleanWordAt?_outside {t : Text} {i : Nat} {b : Char} (byteHere : (bytes t)[i]? = some b)
    (outside : isAscii b = false) : booleanWordAt? t i = some none := by
  obtain ⟨inside, found⟩ := List.getElem?_eq_some_iff.1 byteHere
  have behind : (bytes t).drop i = b :: (bytes t).drop (i + 1) := by
    rw [List.drop_eq_getElem_cons inside, found]
  have absent (word : BooleanWord) : beginsWithWord ((bytes t).drop i) word = false := by
    rw [← Bool.not_eq_true, beginsWithWord, Bool.and_eq_true, List.isPrefixOf_iff_prefix]
    rintro ⟨⟨rest, whole⟩, -⟩
    rw [behind] at whole
    obtain ⟨c, more, front, ascii, -, -⟩ := word_cons word
    rw [front] at whole
    rw [(List.cons.inj whole).1, outside] at ascii
    cases ascii
  obtain ⟨before, last⟩ := byteBefore?_of_lt inside
  simp only [booleanWordAt?, last, Option.bind_eq_bind, Option.bind_some, List.find?_cons, absent]
  split <;> rfl

section Turns

variable {t u v : Text} {o : Output}

/-- A byte that is neither a quote nor an equals sign and starts no word is passed over. -/
theorem normalizeTurn_other {i : Nat} {b : Char} (byteHere : (bytes t)[i]? = some b)
    (plain : isQuote b = false) (other : b ≠ '=') (noWord : booleanWordAt? t i = some none) :
    normalizeTurn t i o = some (.go (i + 1) o) := by
  simp only [normalizeTurn, byteHere, plain, other, noWord, Option.bind_eq_bind, Option.bind_some,
    Bool.false_eq_true, if_false]
  rfl

theorem normalizeTurn_noWord {c : Char} (whole : t = u ++ c :: v) (ascii : isAscii c = true)
    (plain : isQuote c = false) (other : c ≠ '=')
    (noWord : booleanWord? u.getLast? (c :: v) = none) :
    normalizeTurn t (byteLength u) o = some (.go (byteLength u + 1) o) := by
  refine normalizeTurn_other (by rw [whole, byteAt?_append _ _ ascii]) plain other ?_
  rw [whole, booleanWordAt?_append, noWord]
  rfl

theorem passesOver_normalizeTurn (t : Text) : PassesOver t (normalizeTurn t) :=
  fun _ _ _ byteHere outside => normalizeTurn_other byteHere (isQuote_of_not_isAscii outside)
    (by rintro rfl; cases outside) (booleanWordAt?_outside byteHere outside)

theorem normalizeTurn_equals (whole : t = u ++ '=' :: v) :
    normalizeTurn t (byteLength u) o =
      if standsAlone u.getLast? v then
        (o.upTo? t (byteLength u)).map fun front =>
          .go (byteLength u + 1) ⟨byteLength u + 1, front ++ ['=', '=']⟩
      else some (.go (byteLength u + 1) o) := by
  have byteHere : (bytes t)[byteLength u]? = some '=' := by rw [whole, byteAt?_append _ _ rfl]
  have before : byteBefore? t (byteLength u) = some (bytes u).getLast? := by
    rw [whole, byteBefore?_append]
  have behind : (bytes t).drop (byteLength u + 1) = bytes v := by
    have place := drop_bytes_append (u ++ ['=']) v
    rwa [byteLength_snoc u rfl, List.append_assoc, List.singleton_append, ← whole] at place
  simp only [normalizeTurn, byteHere, before, behind, standsAlone_bytes, Option.bind_eq_bind,
    Option.bind_some, if_true]
  rw [if_neg (by decide)]
  cases standsAlone u.getLast? v with
  | false => rfl
  | true =>
    cases o.upTo? t (byteLength u) <;> rfl

omit t v o in
/-- White space behind a visible character is what is trimmed off. -/
theorem rdropWhile_append_of_all {p : Char → Bool} {gap : Text} (spaces : ∀ c ∈ gap, p c = true)
    (visible : u.getLast?.any p = false) : (u ++ gap).rdropWhile p = u := by
  induction gap using List.reverseRecOn with
  | nil =>
    rw [List.append_nil, List.rdropWhile_eq_self_iff]
    intro nonempty holds
    rw [List.getLast?_eq_some_getLast nonempty, Option.any_some, holds] at visible
    cases visible
  | append_singleton gap c ih =>
    rw [← List.append_assoc, List.rdropWhile_concat, if_pos (spaces c (by simp)),
      ih fun d member => spaces d (by simp [member])]

/-- At a boolean word, white space before it and behind it is left out. -/
theorem normalizeTurn_boolean {a b gap rest : Text} {word : BooleanWord} {out : Text}
    (whole : t = a ++ (b ++ gap) ++ (word.render ++ rest))
    (spaces : ∀ c ∈ gap, isSpace c = true) (visible : b.getLast?.any isSpace = false)
    (starts : startsWord (a ++ (b ++ gap)).getLast? = true) (ends : endsWord rest = true) :
    normalizeTurn t (byteLength (a ++ (b ++ gap))) ⟨byteLength a, out⟩ =
      some (.go (byteLength (a ++ (b ++ gap) ++ word.render ++ rest.takeWhile isSpace))
        ⟨byteLength (a ++ (b ++ gap) ++ word.render ++ rest.takeWhile isSpace),
          out ++ b ++ [' ', ' '] ++ word.render ++ [' ', ' ']⟩) := by
  obtain ⟨c, more, front, ascii, plain, other⟩ := word_cons word
  have byteHere : (bytes t)[byteLength (a ++ (b ++ gap))]? = some c := by
    rw [whole, front, List.cons_append, byteAt?_append _ _ ascii]
  have found : booleanWordAt? t (byteLength (a ++ (b ++ gap))) = some (some word) := by
    rw [whole, booleanWordAt?_append, Token.booleanWord?_render starts ends]
    rfl
  have copied : (⟨byteLength a, byteLength (a ++ (b ++ gap))⟩ : Span).slice? t = some (b ++ gap) := by
    rw [whole, slice?_append]
  have kept : (b ++ gap).rdropWhile isSpace = b := rdropWhile_append_of_all spaces visible
  have stop : runEnd isSpace t (byteLength (a ++ (b ++ gap)) + byteLength word.render) =
      byteLength (a ++ (b ++ gap) ++ word.render ++ rest.takeWhile isSpace) := by
    rw [← byteLength_append, whole, ← List.append_assoc, runEnd_append _ _ coarse_isSpace]
  simp only [normalizeTurn, byteHere, plain, other, found, copied, kept, stop, Option.bind_eq_bind,
    Option.bind_some, Bool.false_eq_true, if_false]
  rfl

end Turns

/-- White space is kept where no boolean word follows it. -/
theorem render_spaces {ts : List Token} (stays : leadsToBoolean ts = false) (gap : Text) :
    render false (gap.map .space ++ ts) = gap ++ render false ts := by
  induction gap with
  | nil => rfl
  | cons c gap ih =>
    have later : leadsToBoolean (gap.map .space ++ ts) = false := by
      rw [leadsToBoolean_spaces, stays]
    rw [List.map_cons, List.cons_append, render, later, ih]
    rfl

theorem getLast?_append_of_ne_nil {u v : Text} (nonempty : v ≠ []) :
    (u ++ v).getLast? = v.getLast? := by
  rw [List.getLast?_append, List.getLast?_eq_some_getLast nonempty, Option.some_or]

/-! ### Runs -/

/-- A place between characters at which `v` is left of the text. The text before it is copied up to
the end of `a`; `b` and the white space `gap` are not copied yet. -/
structure Stop (t a b gap v : Text) : Prop where
  whole : t = a ++ (b ++ gap) ++ v
  spaces : ∀ c ∈ gap, isSpace c = true
  visible : b.getLast?.any isSpace = false

/-- From the place on, the rest of the text gets its form. -/
def Completes (t a b gap v : Text) : Prop :=
  ∀ out, ((loop (byteLength t) (normalizeTurn t) (byteLength (a ++ (b ++ gap)))
    ⟨byteLength a, out⟩).bind (·.finish? t)) =
      some (out ++ b ++ render false (gap.map .space ++ tokens (a ++ (b ++ gap)).getLast? v))

/-- The same from every place at which `v` is left. -/
def AlwaysCompletes (t v : Text) : Prop := ∀ a b gap, Stop t a b gap v → Completes t a b gap v

section Runs

variable {t a b gap v rest : Text}

theorem Stop.inside (stop : Stop t a b gap v) (nonempty : v ≠ []) :
    byteLength (a ++ (b ++ gap)) < byteLength t := by
  rw [stop.whole]
  exact byteLength_lt_append _ nonempty

theorem completes_nil (stop : Stop t a b gap []) : Completes t a b gap [] := by
  intro out
  have whole := stop.whole
  rw [List.append_nil] at whole
  rw [loop_end (by rw [whole]), Option.bind_some, Output.finish?_append whole, tokens_nil,
    render_spaces rfl]
  simp [render]

/-- What is copied as it stands joins what is not copied yet. -/
theorem completes_kept {source : Text} (stop : Stop t a b gap (source ++ rest)) (nonempty : source ≠ [])
    (ends : source.getLast?.any isSpace = false) (later : AlwaysCompletes t rest) (out : Text) :
    ((loop (byteLength t) (normalizeTurn t) (byteLength (a ++ (b ++ gap) ++ source))
      ⟨byteLength a, out⟩).bind (·.finish? t)) =
        some (out ++ b ++ (gap ++ source ++ render false (tokens source.getLast? rest))) := by
  have next : Stop t a (b ++ gap ++ source) [] rest :=
    ⟨by simp [stop.whole], by simp, by rwa [getLast?_append_of_ne_nil nonempty]⟩
  have completed := later _ _ _ next out
  have position : a ++ (b ++ gap ++ source ++ []) = a ++ (b ++ gap) ++ source := by simp
  rw [position, getLast?_append_of_ne_nil nonempty] at completed
  rw [completed]
  simp

theorem completes_literal {l : Literal} (proper : l.Proper) (stop : Stop t a b gap (l.render ++ rest))
    (later : AlwaysCompletes t rest) : Completes t a b gap (l.render ++ rest) := by
  intro out
  obtain ⟨byteHere, closing⟩ := literalEnd?_render proper stop.whole
  have turn : normalizeTurn t (byteLength (a ++ (b ++ gap))) ⟨byteLength a, out⟩ =
      some (.go (byteLength (a ++ (b ++ gap) ++ l.render)) ⟨byteLength a, out⟩) := by
    simp only [normalizeTurn, byteHere, proper.quote_isQuote, closing, Option.bind_eq_bind,
      Option.bind_some, if_true]
    rfl
  have nonempty : l.render ≠ [] := by simp [Literal.render]
  have ends : l.render.getLast?.any isSpace = false := by
    rw [Literal.getLast?_render, Option.any_some, ← Bool.not_eq_true]
    exact fun space => absurd proper.quote_isQuote (by rw [isSpace_plain space]; simp)
  rw [loop_go (stop.inside (by simp [nonempty])) turn (byteLength_lt_append _ nonempty),
    completes_kept stop nonempty ends later, tokens_step (.literal proper), render_spaces rfl,
    List.append_assoc gap]
  rfl

theorem completes_unclosed {q : Char} (quote : isQuote q = true) (fresh : q ∉ rest)
    (stop : Stop t a b gap (q :: rest)) : Completes t a b gap (q :: rest) := by
  intro out
  obtain ⟨byteHere, closing⟩ := literalEnd?_unclosed quote fresh stop.whole
  have turn : normalizeTurn t (byteLength (a ++ (b ++ gap))) ⟨byteLength a, out⟩ =
      some (.stop ⟨byteLength a, out⟩) := by
    simp only [normalizeTurn, byteHere, quote, closing, Option.bind_eq_bind, Option.bind_some, if_true]
    rfl
  rw [loop_stop (stop.inside (List.cons_ne_nil q rest)) turn, Option.bind_some,
    Output.finish?_append (stop.whole.trans (List.append_assoc ..)),
    tokens_step (.unclosed quote fresh), tokens_nil, render_spaces rfl]
  simp [render]

theorem completes_equals (alone : standsAlone (a ++ (b ++ gap)).getLast? rest = true)
    (stop : Stop t a b gap ('=' :: rest)) (later : AlwaysCompletes t rest) :
    Completes t a b gap ('=' :: rest) := by
  intro out
  have turn := @normalizeTurn_equals t _ rest ⟨byteLength a, out⟩ stop.whole
  rw [if_pos alone, Output.upTo?_append stop.whole, Option.map_some,
    ← @byteLength_snoc _ '=' rfl] at turn
  have next : Stop t (a ++ (b ++ gap) ++ ['=']) [] [] rest :=
    ⟨by simp [stop.whole], by simp, rfl⟩
  have completed := later _ _ _ next (out ++ (b ++ gap) ++ ['=', '='])
  rw [List.append_nil, List.append_nil, List.append_nil,
    getLast?_append_of_ne_nil (List.cons_ne_nil _ _)] at completed
  rw [loop_go (stop.inside (List.cons_ne_nil _ _)) turn
      (byteLength_lt_append _ (List.cons_ne_nil _ _)), completed, tokens_step (.equals alone),
    @render_spaces (.equals :: _) rfl gap]
  simp [render, Token.source]

theorem completes_boolean {word : BooleanWord}
    (starts : startsWord (a ++ (b ++ gap)).getLast? = true) (ends : endsWord rest = true)
    (stop : Stop t a b gap (word.render ++ rest))
    (later : AlwaysCompletes t (rest.dropWhile isSpace)) :
    Completes t a b gap (word.render ++ rest) := by
  intro out
  have turn := @normalizeTurn_boolean t a b gap rest word out stop.whole stop.spaces stop.visible
    starts ends
  have parts : rest.takeWhile isSpace ++ rest.dropWhile isSpace = rest :=
    List.takeWhile_append_dropWhile
  have blank : ∀ c ∈ rest.takeWhile isSpace, isSpace c = true := fun c => of_mem_takeWhile
  have nonempty : word.render ≠ [] := by cases word <;> simp [BooleanWord.render]
  have next : Stop t (a ++ (b ++ gap) ++ word.render ++ rest.takeWhile isSpace) [] []
      (rest.dropWhile isSpace) := ⟨by simp [stop.whole], by simp, rfl⟩
  have completed := later _ _ _ next (out ++ b ++ [' ', ' '] ++ word.render ++ [' ', ' '])
  rw [List.append_nil, List.append_nil, List.append_nil, List.getLast?_append,
    getLast?_append_of_ne_nil nonempty] at completed
  have ahead : byteLength (a ++ (b ++ gap)) <
      byteLength (a ++ (b ++ gap) ++ word.render ++ rest.takeWhile isSpace) := by
    have moved := byteLength_lt_append (a ++ (b ++ gap)) nonempty
    rw [byteLength_append _ (rest.takeWhile isSpace)]
    omega
  have tail := @tokens_spaces word.render.getLast? _ blank (rest.dropWhile isSpace)
  rw [parts] at tail
  rw [loop_go (stop.inside (by simp [nonempty])) turn ahead, completed,
    tokens_step (.boolean starts ends), render_to_boolean, Token.source, tail,
    render_from_boolean, render_spaced (head_tokens head?_dropWhile)]
  simp

theorem completes_space {c : Char} (space : isSpace c = true) (stop : Stop t a b gap (c :: rest))
    (later : AlwaysCompletes t rest) : Completes t a b gap (c :: rest) := by
  intro out
  have ascii := isAscii_of_isSpace space
  have noWord : booleanWord? (a ++ (b ++ gap)).getLast? (c :: rest) = none :=
    Token.booleanWord?_eq_none (ne_of_class space rfl) (ne_of_class space rfl) rest
  have turn : normalizeTurn t (byteLength (a ++ (b ++ gap))) ⟨byteLength a, out⟩ =
      some (.go (byteLength (a ++ (b ++ gap) ++ [c])) ⟨byteLength a, out⟩) := by
    rw [byteLength_snoc _ ascii]
    exact normalizeTurn_noWord stop.whole ascii (isSpace_plain space) (ne_of_class space rfl) noWord
  have blank : ∀ d ∈ gap ++ [c], isSpace d = true := fun d member => by
    rcases List.mem_append.1 member with member | member
    · exact stop.spaces d member
    · rwa [List.mem_singleton.1 member]
  have next : Stop t a b (gap ++ [c]) rest := ⟨by simp [stop.whole], blank, stop.visible⟩
  have completed := later _ _ _ next out
  rw [← List.append_assoc b, ← List.append_assoc a, List.getLast?_concat] at completed
  rw [loop_go (stop.inside (List.cons_ne_nil _ _)) turn
    (byteLength_lt_append _ (List.cons_ne_nil _ _)), completed, tokens_step (.space space)]
  simp [Token.source]

theorem completes_other {c : Char} (plain : isQuote c = false) (seen : isSpace c = false)
    (joined : c = '=' → standsAlone (a ++ (b ++ gap)).getLast? rest = false)
    (noWord : booleanWord? (a ++ (b ++ gap)).getLast? (c :: rest) = none)
    (stop : Stop t a b gap (c :: rest)) (later : AlwaysCompletes t rest) :
    Completes t a b gap (c :: rest) := by
  intro out
  have alone (ascii : isAscii c = true) :
      normalizeTurn t (byteLength (a ++ (b ++ gap))) ⟨byteLength a, out⟩ =
        some (.go (byteLength (a ++ (b ++ gap)) + 1) ⟨byteLength a, out⟩) := by
    by_cases equal : c = '='
    · subst equal
      rw [normalizeTurn_equals stop.whole, if_neg (by rw [joined rfl]; simp)]
    · exact normalizeTurn_noWord stop.whole ascii plain equal noWord
  have ends : [c].getLast?.any isSpace = false := seen
  have kept := @completes_kept t a b gap rest [c] stop (List.cons_ne_nil _ _) ends later out
  rw [(passesOver_normalizeTurn t).char stop.whole alone, kept,
    tokens_step (.other plain seen joined noWord), render_spaces rfl, List.append_assoc gap]
  rfl

end Runs

/-- From every place between characters on, the rest of the text gets its form. -/
theorem alwaysCompletes (t v : Text) : AlwaysCompletes t v := by
  induction length : v.length using Nat.strongRecOn generalizing v with
  | ind n ih =>
    subst length
    intro a b gap stop
    rcases v with _ | ⟨c, rest⟩
    · exact completes_nil stop
    · have step := Token.step_next (a ++ (b ++ gap)).getLast? c rest
      generalize (Token.next (a ++ (b ++ gap)).getLast? c rest).1 = token at step
      generalize (Token.next (a ++ (b ++ gap)).getLast? c rest).2 = behind at step
      generalize c :: rest = v at step stop ih
      have after (shorter : behind.length < v.length) := ih _ shorter behind rfl
      cases step with
      | @literal l _ proper =>
        exact completes_literal proper stop (after (by simp [Literal.render]; omega))
      | unclosed quote fresh => exact completes_unclosed quote fresh stop
      | equals alone => exact completes_equals alone stop (after (Nat.lt_succ_self _))
      | @boolean word _ starts ends =>
        refine completes_boolean starts ends stop (ih _ ?_ _ rfl)
        have fewer := (List.dropWhile_sublist isSpace (l := behind)).length_le
        have positive : 0 < word.render.length := by cases word <;> decide
        rw [List.length_append]
        omega
      | space space => exact completes_space space stop (after (Nat.lt_succ_self _))
      | other plain seen joined noWord =>
        exact completes_other plain seen joined noWord stop (after (Nat.lt_succ_self _))

theorem normalize?_eq (t : Text) : normalize? t = some (normalize t) :=
  alwaysCompletes t t [] [] [] ⟨rfl, by simp, rfl⟩ []

end FormLogic.Bytewise
