import FormLogic.Proofs.Bytewise.Operators
import FormLogic.Proofs.References

/-!
References by their offsets. A reference token ends behind its closing brace, behind `current()` or
behind a run of path characters, and so between characters. The loop that replaces the tokens has
copied the source up to some place between characters; the space that may be needed beside a token is
decided by the last byte of what has been written and the first byte of what comes next.
-/
namespace FormLogic.Bytewise

open Text FormLogic.Field FormLogic.Field.Reference

/-- The name within the braces of `${name}`, white space around it aside. -/
def bracedNameBytes? (inner : Text) : Option Text :=
  let name := trim inner
  if name ≠ [] ∧ (bytes name).all isBracedNameChar then some name else none

/-- The name in a text of the form `${name}`. -/
def braceNameBytes? : Text → Option Text
  | '$' :: '{' :: rest =>
    if rest.getLast? = some '}' then bracedNameBytes? rest.dropLast else none
  | _ => none

/-- The offset behind the reference token that starts at offset `i`, if one starts there. -/
def referenceEnd? (t : Text) (i : Nat) : Option (Option Nat) := do
  let b ← (bytes t)[i]?
  let next := (bytes t)[i + 1]?
  if b = '$' ∧ next = some '{' then
    match cutAt? '}' (← sliceFrom? i t) with
    | none => return none
    | some (front, _) =>
      let stop := i + byteLength front + 1
      let token ← (⟨i, stop⟩ : Span).slice? t
      return (braceNameBytes? token).map fun _ => stop
  else if !(← startsTokenAt? t i) then return none
  else if currentCall.isPrefixOf ((bytes t).drop i) then
    let after := i + byteLength currentCall
    return some (if (bytes t)[after]? = some '/' then runEnd isPathChar t after else after)
  else if (b = '.' ∧ !next.any Char.isDigit) ∨ (b = '/' ∧ next.any isNameStart) then
    return some (runEnd isPathChar t i)
  else return none

/-- What has been written, and the tokens that no field was found for. -/
abbrev Progress := Output × List Text

def replaceTurn (r : Registry) (owner : Option Text) (t : Text) (i : Nat) (s : Progress) :
    Option (Flow Progress) := do
  let b ← (bytes t)[i]?
  if isQuote b then
    match ← literalEnd? t i with
    | none => return .stop s
    | some stop => return .go stop s
  else
    match ← referenceEnd? t i with
    | none => return .go (i + 1) s
    | some stop =>
      let token ← (⟨i, stop⟩ : Span).slice? t
      let resolution := r.resolve token owner
      let unresolved := s.2 ++ if resolution.found?.isNone then [token] else []
      let front ← s.1.upTo? t i
      let behind ← sliceFrom? stop t
      let text := resolution.text
      return .go stop (⟨stop, front ++ separator (bytes front).getLast? (bytes text).head? ++ text ++
        separator (bytes text).getLast? (bytes behind).head?⟩, unresolved)

/-- An expression with its references replaced, and the tokens that no field is found for. -/
def replaceReferences? (r : Registry) (owner : Option Text) (t : Text) : Option (Text × List Text) := do
  let s ← loop (byteLength t) (replaceTurn r owner t) 0 (⟨0, []⟩, [])
  return (← s.1.finish? t, s.2)

/-! ### Tokens -/

theorem coarse_isPathChar : Coarse isPathChar :=
  (coarse_isNameChar.or (.eq rfl)).or (.eq rfl)

theorem bracedNameBytes?_eq (inner : Text) : bracedNameBytes? inner = bracedName? inner := by
  have coarse : Coarse isBracedNameChar := coarse_isNameChar.or (.eq rfl)
  rw [bracedNameBytes?, bracedName?, coarse.all_bytes]

theorem braceNameBytes?_eq (t : Text) : braceNameBytes? t = braceName? t := by
  simp only [braceNameBytes?, bracedNameBytes?_eq]
  rfl

theorem head?_bytes_eq_iff {d : Char} (ascii : isAscii d = true) (v : Text) :
    (bytes v).head? = some d ↔ v.head? = some d := by
  have same := (Coarse.eq ascii).any_head? v
  have any (o : Option Char) : o = some d ↔ o.any (· == d) = true := by
    cases o <;> simp
  rw [any, any, same]

theorem separator_bytes (u v : Text) :
    separator (bytes u).getLast? (bytes v).head? = separator u.getLast? v.head? := by
  rw [separator, separator, coarse_isWordChar.any_getLast?, coarse_isWordChar.any_head?]

section Ends

variable {t u rest : Text}

/-- The brace that closes a token is found from the `$` on. -/
theorem referenceEnd?_braced {inner : Text} (whole : t = u ++ '$' :: '{' :: inner) :
    referenceEnd? t (byteLength u) =
      some ((cutBraced? inner).map fun parts => byteLength (u ++ parts.1)) := by
  obtain ⟨dollar, next, behind⟩ := braceAt whole
  simp only [referenceEnd?, dollar, next, behind, cutAt?_brace, Option.bind_eq_bind, Option.bind_some,
    and_self, if_true]
  rw [cutBraced?]
  cases found : cutAt? '}' inner with
  | none => rfl
  | some parts =>
    obtain ⟨name, after⟩ := parts
    have token : u ++ '$' :: '{' :: inner = u ++ ('$' :: '{' :: name ++ ['}']) ++ after := by
      simp [(cutAt?_eq_some_iff.1 found).1]
    have stop : byteLength u + byteLength ('$' :: '{' :: name) + 1 =
        byteLength (u ++ ('$' :: '{' :: name ++ ['}'])) := by
      rw [← List.append_assoc, byteLength_snoc _ rfl, byteLength_append]
    have sliced := slice?_append u ('$' :: '{' :: name ++ ['}']) after
    rw [← token, ← whole] at sliced
    have named : braceNameBytes? ('$' :: '{' :: name ++ ['}']) = bracedName? name := by
      rw [braceNameBytes?_eq]
      simp [braceName?]
    simp only [Option.map_some, stop, sliced, Option.bind_some, named]
    cases bracedName? name <;> rfl

/-- Behind `current()` a token goes on with the path that follows a slash. -/
theorem currentEnd_append {after : Text} (whole : t = u ++ currentCall ++ after) :
    (if (bytes t)[byteLength u + byteLength currentCall]? = some '/' then
      runEnd isPathChar t (byteLength u + byteLength currentCall)
    else byteLength u + byteLength currentCall) = byteLength (u ++ (cutCurrent after).1) := by
  have first := getElem?_bytes_append (u ++ currentCall) after 0
  rw [← whole, byteLength_append, Nat.add_zero, ← List.head?_eq_getElem?] at first
  have run : runEnd isPathChar t (byteLength u + byteLength currentCall) =
      byteLength (u ++ (currentCall ++ (cutPath after).1)) := by
    rw [← byteLength_append, whole, runEnd_append _ _ coarse_isPathChar, List.append_assoc]
    rfl
  simp only [first, @head?_bytes_eq_iff '/' rfl, run, cutCurrent]
  split
  · rfl
  · rw [← byteLength_append]

/-- The token that may begin where no `${` stands. -/
theorem token?_open {before : Option Char} {c : Char}
    (noBrace : ¬(c = '$' ∧ rest.head? = some '{')) :
    token? before (c :: rest) =
      if startsToken before then
        (behind? currentCall (c :: rest)).elim
          (if startsPath (c :: rest) then some (cutPath (c :: rest)) else none)
          fun after => some (cutCurrent after)
      else none := by
  unfold token?
  split
  · next inner same =>
    cases same
    exact absurd ⟨rfl, rfl⟩ noBrace
  · cases behind? currentCall (c :: rest) <;> rfl

theorem isPrefixOf_currentCall (v : Text) :
    currentCall.isPrefixOf (bytes v) = (behind? currentCall v).isSome := by
  rw [isPrefixOf_bytes (by decide), Bool.eq_iff_iff, List.isPrefixOf_iff_prefix,
    Option.isSome_iff_exists]
  constructor
  · rintro ⟨after, same⟩
    exact ⟨after, behind?_eq_some_iff.2 same.symm⟩
  · rintro ⟨after, found⟩
    exact ⟨after, (behind?_eq_some_iff.1 found).symm⟩

/-- Where no `${` stands, the end of a token depends on the byte before it. -/
theorem referenceEnd?_open {c : Char} (whole : t = u ++ c :: rest) (ascii : isAscii c = true)
    (noBrace : ¬(c = '$' ∧ rest.head? = some '{')) :
    referenceEnd? t (byteLength u) =
      some ((token? u.getLast? (c :: rest)).map fun parts => byteLength (u ++ parts.1)) := by
  have byteHere : (bytes t)[byteLength u]? = some c := by rw [whole, byteAt?_append _ _ ascii]
  have next : (bytes t)[byteLength u + 1]? = (bytes rest).head? := by
    rw [whole, byteAfter?_append _ _ ascii]
  have starts : startsTokenAt? t (byteLength u) = some (startsToken u.getLast?) := by
    rw [whole, startsTokenAt?_append]
  have behind : (bytes t).drop (byteLength u) = bytes (c :: rest) := by
    rw [whole, drop_bytes_append]
  have digit : (bytes rest).head?.any Char.isDigit = rest.head?.any Char.isDigit :=
    (Coarse.of_false fun c => isAscii_of_isDigit).any_head? rest
  have start : (bytes rest).head?.any isNameStart = rest.head?.any isNameStart :=
    coarse_isNameStart.any_head? rest
  have run : runEnd isPathChar t (byteLength u) = byteLength (u ++ (cutPath (c :: rest)).1) := by
    rw [whole, runEnd_append _ _ coarse_isPathChar]
    rfl
  rw [token?_open noBrace]
  simp only [referenceEnd?, byteHere, next, starts, behind, isPrefixOf_currentCall, digit, start, run,
    @head?_bytes_eq_iff '{' rfl, noBrace, Option.bind_eq_bind, Option.bind_some, if_false]
  cases startsToken u.getLast? with
  | false => rfl
  | true =>
    simp only [Bool.not_true, Bool.false_eq_true, if_false, if_true]
    cases call : behind? currentCall (c :: rest) with
    | none =>
      simp only [Option.isSome_none, Bool.false_eq_true, if_false, Option.elim_none, startsPath_eq,
        Bool.or_eq_true, Bool.and_eq_true, beq_iff_eq]
      split <;> rfl
    | some after =>
      have place : t = u ++ currentCall ++ after := by
        rw [whole, behind?_eq_some_iff.1 call, List.append_assoc]
      simp only [Option.isSome_some, if_true, currentEnd_append place]
      rfl

/-- A token that starts at a place between characters ends at one. -/
theorem referenceEnd?_append {c : Char} (whole : t = u ++ c :: rest) (ascii : isAscii c = true) :
    referenceEnd? t (byteLength u) =
      some ((token? u.getLast? (c :: rest)).map fun parts => byteLength (u ++ parts.1)) := by
  by_cases brace : c = '$' ∧ rest.head? = some '{'
  · obtain ⟨rfl, opened⟩ := brace
    cases rest with
    | nil => cases opened
    | cons d inner =>
      cases opened
      exact referenceEnd?_braced whole
  · exact referenceEnd?_open whole ascii brace

/-- No token starts at a byte outside ASCII. -/
theorem referenceEnd?_outside {i : Nat} {b : Char} (byteHere : (bytes t)[i]? = some b)
    (outside : isAscii b = false) : referenceEnd? t i = some none := by
  have other (d : Char) (ascii : isAscii d = true) : b ≠ d := by
    rintro rfl
    rw [ascii] at outside
    cases outside
  obtain ⟨inside, found⟩ := List.getElem?_eq_some_iff.1 byteHere
  have behind : (bytes t).drop i = b :: (bytes t).drop (i + 1) := by
    rw [List.drop_eq_getElem_cons inside, found]
  have absent : currentCall.isPrefixOf ((bytes t).drop i) = false := by
    rw [behind, currentCall, List.isPrefixOf_cons_cons, beq_eq_false_iff_ne.2 (other 'c' rfl).symm]
    rfl
  obtain ⟨before, last⟩ := byteBefore?_of_lt inside
  simp only [referenceEnd?, byteHere, startsTokenAt?, last, absent, other '$' rfl, other '.' rfl,
    other '/' rfl, Option.bind_eq_bind, Option.bind_some, Option.map_some, false_and, or_self,
    Bool.false_eq_true, if_false]
  cases startsToken before <;> rfl

/-- A token ends in the text, between characters. -/
theorem referenceEnd?_inPlace {c : Char} (whole : t = u ++ c :: rest) :
    ∃ stop, referenceEnd? t (byteLength u) = some stop ∧ ∀ n ∈ stop, (splitAtByte? n t).isSome := by
  cases ascii : isAscii c with
  | false =>
    obtain ⟨b, member, byteHere⟩ := byteAt?_encode whole
    have outside := not_isAscii_of_mem_encode ascii member
    exact ⟨none, referenceEnd?_outside byteHere outside, by simp⟩
  | true =>
    refine ⟨_, referenceEnd?_append whole ascii, ?_⟩
    intro n member
    obtain ⟨parts, read, rfl⟩ := Option.map_eq_some_iff.1 member
    have same := (eq_of_token? read).1
    have place : t = u ++ parts.1 ++ parts.2 := by rw [whole, same, List.append_assoc]
    rw [place, splitAtByte?_append]
    rfl

end Ends

/-! ### Replacing -/

section Turns

variable {r : Registry} {owner : Option Text} {t : Text}

theorem replaceTurn_pass {i : Nat} {b : Char} {s : Progress} (byteHere : (bytes t)[i]? = some b)
    (plain : isQuote b = false) (noToken : referenceEnd? t i = some none) :
    replaceTurn r owner t i s = some (.go (i + 1) s) := by
  simp only [replaceTurn, byteHere, plain, noToken, Option.bind_eq_bind, Option.bind_some,
    Bool.false_eq_true, if_false]
  rfl

theorem passesOver_replaceTurn (r : Registry) (owner : Option Text) (t : Text) :
    PassesOver t (replaceTurn r owner t) :=
  fun _ _ _ byteHere outside => replaceTurn_pass byteHere (isQuote_of_not_isAscii outside)
    (referenceEnd?_outside byteHere outside)

/-- The tokens among fragments that no field is found for. -/
def unresolvedIn (r : Registry) (owner : Option Text) (fs : List Fragment) : List Text :=
  (fs.filterMap fun
    | .plain _ => none
    | .reference token => some token).filter fun token => (r.resolve token owner).found?.isNone

theorem unresolvedIn_append (fs gs : List Fragment) :
    unresolvedIn r owner (fs ++ gs) = unresolvedIn r owner fs ++ unresolvedIn r owner gs := by
  rw [unresolvedIn, List.filterMap_append, List.filter_append]
  rfl

/-- What a token stands for is written with the spaces that keep it apart. -/
theorem replaceTurn_reference {a b out token rest : Text} {found : List Text}
    (whole : t = a ++ b ++ (token ++ rest)) {c : Char} {more : Text} (front : token ++ rest = c :: more)
    (plain : isQuote c = false) (ascii : isAscii c = true)
    (read : token? (a ++ b).getLast? (c :: more) = some (token, rest)) :
    replaceTurn r owner t (byteLength (a ++ b)) (⟨byteLength a, out⟩, found) =
      some (.go (byteLength (a ++ b ++ token)) (⟨byteLength (a ++ b ++ token), out ++ b ++
        spaced (fun token => (r.resolve token owner).text) (out ++ b).getLast? rest.head? token⟩,
        found ++ unresolvedIn r owner [.reference token])) := by
  have byteHere : (bytes t)[byteLength (a ++ b)]? = some c := by
    rw [whole, front, byteAt?_append _ _ ascii]
  have tokenEnd : referenceEnd? t (byteLength (a ++ b)) =
      some (some (byteLength (a ++ b ++ token))) := by
    rw [referenceEnd?_append (by rw [whole, front]) ascii, read]
    rfl
  have sliced : (⟨byteLength (a ++ b), byteLength (a ++ b ++ token)⟩ : Span).slice? t = some token := by
    rw [whole, ← List.append_assoc, slice?_append]
  have behind : sliceFrom? (byteLength (a ++ b ++ token)) t = some rest := by
    rw [whole, ← List.append_assoc, sliceFrom?_append]
  have unresolved : (if (r.resolve token owner).found?.isNone then [token] else []) =
      unresolvedIn r owner [.reference token] := by
    simp [unresolvedIn, List.filter_cons]
  simp only [replaceTurn, byteHere, plain, tokenEnd, sliced, behind, Output.upTo?_append whole,
    unresolved, separator_bytes, Option.bind_eq_bind, Option.bind_some, Bool.false_eq_true, if_false]
  simp only [spaced, List.append_assoc]
  rfl

end Turns

theorem token?_of_step {before : Option Char} {t token rest : Text}
    (step : Fragment.Step before t (.reference token) rest) :
    ∃ c more, t = c :: more ∧ isQuote c = false ∧ isAscii c = true ∧
      token? before (c :: more) = some (token, rest) := by
  obtain ⟨c, more, same, next⟩ := Fragment.next_of_step step
  rw [Fragment.next] at next
  split at next
  · split at next <;> cases next
  · next plain =>
    rw [Bool.not_eq_true] at plain
    split at next
    · next token' after found =>
      cases next
      refine ⟨c, more, same, plain, ?_, found⟩
      by_contra outside
      have other : c ∉ ['$', 'c', '.', '/'] := fun member => by
        simp only [List.mem_cons, List.not_mem_nil, or_false] at member
        rcases member with rfl | rfl | rfl | rfl <;> exact outside rfl
      rw [token?_eq_none other] at found
      cases found
    · cases next

/-! ### Runs -/

section Runs

variable {r : Registry} {owner : Option Text} {t a b rest out : Text} {found : List Text}
  {before : Option Char}

/-- What the tokens of a text are replaced by. -/
def meaningOf (r : Registry) (owner : Option Text) (token : Text) : Text :=
  (r.resolve token owner).text

/-- From every place between characters at which `v` is left, the references of the rest of the text
are replaced; the text before the place is copied up to the end of `a`. -/
def Replaces (r : Registry) (owner : Option Text) (t : Text) (before : Option Char)
    (v : Text) : Prop :=
  ∀ a b, t = a ++ b ++ v → before = (a ++ b).getLast? → ∀ out found,
    ((loop (byteLength t) (replaceTurn r owner t) (byteLength (a ++ b))
      (⟨byteLength a, out⟩, found)).bind fun s => do return (← s.1.finish? t, s.2)) =
        some (out ++ b ++ replaced (meaningOf r owner) before (out ++ b).getLast? none v,
          found ++ unresolvedIn r owner (fragments before v))

theorem replaces_nil (before : Option Char) : Replaces r owner t before [] := by
  intro a b whole _ out found
  rw [List.append_nil] at whole
  rw [loop_end (by rw [whole]), Option.bind_some, Output.finish?_append whole, replaced_nil,
    fragments, Scanner.items_nil]
  simp [unresolvedIn]

theorem replaces_reference {v token : Text} (step : Fragment.Step before v (.reference token) rest)
    (later : Replaces r owner t token.getLast? rest) : Replaces r owner t before v := by
  intro a b whole last out found
  obtain ⟨c, more, front, plain, ascii, read⟩ := token?_of_step step
  obtain ⟨parts, present⟩ := eq_of_token? read
  have inside : byteLength (a ++ b) < byteLength t := by
    rw [whole, front]
    exact byteLength_lt_append _ (List.cons_ne_nil c more)
  rw [fragments_step step]
  rw [front, parts] at whole
  rw [last] at read
  have turn := @replaceTurn_reference r owner t a b out token rest found whole c more parts.symm
    plain ascii read
  have place : t = a ++ b ++ token ++ [] ++ rest := by simp [whole]
  have completed := later _ _ place (by
    rw [List.append_nil, getLast?_append_of_ne_nil present]) (out ++ b ++
      spaced (meaningOf r owner) (out ++ b).getLast? rest.head? token)
    (found ++ unresolvedIn r owner [.reference token])
  rw [List.append_nil] at completed
  rw [loop_go inside turn (byteLength_lt_append _ present)]
  refine completed.trans ?_
  rw [replaced_reference step, Option.or_none, List.append_nil (out ++ b ++ _),
    @List.getLast?_append _ (out ++ b), List.append_assoc (out ++ b), List.append_assoc found,
    ← unresolvedIn_append]
  rfl

/-- Text that is passed over is copied later, together with what is found behind it. -/
theorem replaces_kept {v text : Text} (step : Fragment.Step before v (.plain text) rest)
    (whole : t = a ++ b ++ v) (present : text ≠ []) (later : Replaces r owner t text.getLast? rest) :
    ((loop (byteLength t) (replaceTurn r owner t) (byteLength (a ++ b ++ text))
      (⟨byteLength a, out⟩, found)).bind fun s => do return (← s.1.finish? t, s.2)) =
        some (out ++ b ++ replaced (meaningOf r owner) before (out ++ b).getLast? none v,
          found ++ unresolvedIn r owner (fragments before v)) := by
  have parts : text ++ rest = v := step.source_append
  have place : t = a ++ (b ++ text) ++ rest := by simp [whole, ← parts]
  have completed := later _ _ place (by
    rw [← List.append_assoc, getLast?_append_of_ne_nil present]) out found
  rw [← List.append_assoc, ← List.append_assoc, getLast?_append_of_ne_nil present] at completed
  rw [completed, replaced_plain step, List.append_assoc (out ++ b), fragments_step step]
  rfl

theorem replaces_plain {v text : Text} (step : Fragment.Step before v (.plain text) rest)
    (later : Replaces r owner t text.getLast? rest) : Replaces r owner t before v := by
  intro a b whole last out found
  have present : text ≠ [] := by
    obtain ⟨c, more, _, same⟩ := Fragment.next_of_step step
    have nonempty := Fragment.source_next_ne_nil before c more
    rwa [same] at nonempty
  have kept := @replaces_kept r owner t a b rest out found before v text step whole present later
  cases step with
  | @literal l _ proper =>
    obtain ⟨byteHere, closing⟩ := literalEnd?_render proper whole
    have turn : replaceTurn r owner t (byteLength (a ++ b)) (⟨byteLength a, out⟩, found) =
        some (.go (byteLength (a ++ b ++ l.render)) (⟨byteLength a, out⟩, found)) := by
      simp only [replaceTurn, byteHere, proper.quote_isQuote, closing, Option.bind_eq_bind,
        Option.bind_some, if_true]
      rfl
    have inside : byteLength (a ++ b) < byteLength t := by
      rw [whole]
      exact byteLength_lt_append _ (by simp [present])
    rw [loop_go inside turn (byteLength_lt_append _ present), kept]
  | @unclosed q rest quote fresh =>
    obtain ⟨byteHere, closing⟩ := literalEnd?_unclosed quote fresh whole
    have turn : replaceTurn r owner t (byteLength (a ++ b)) (⟨byteLength a, out⟩, found) =
        some (.stop (⟨byteLength a, out⟩, found)) := by
      simp only [replaceTurn, byteHere, quote, closing, Option.bind_eq_bind, Option.bind_some, if_true]
      rfl
    have inside : byteLength (a ++ b) < byteLength t := by
      rw [whole]
      exact byteLength_lt_append _ present
    -- The loop stops where it would be at the end of the text with the same state.
    have ended : byteLength t ≤ byteLength (a ++ b ++ q :: rest) := by rw [whole]
    rw [loop_end ended] at kept
    rw [loop_stop inside turn, kept]
  | @char c _ plain noToken =>
    have alone (ascii : isAscii c = true) :
        replaceTurn r owner t (byteLength (a ++ b)) (⟨byteLength a, out⟩, found) =
          some (.go (byteLength (a ++ b) + 1) (⟨byteLength a, out⟩, found)) := by
      refine replaceTurn_pass (by rw [whole, byteAt?_append _ _ ascii]) plain ?_
      rw [referenceEnd?_append whole ascii, ← last, noToken]
      rfl
    rw [(passesOver_replaceTurn r owner t).char whole alone, kept]

end Runs

/-- From every place between characters on, the references of the rest of the text are replaced. -/
theorem replaces (r : Registry) (owner : Option Text) (t : Text) (before : Option Char) (v : Text) :
    Replaces r owner t before v := by
  induction before, v using Fragment.stepInduction with
  | nil before => exact replaces_nil before
  | step before v s rest step ih =>
    cases s with
    | reference token => exact replaces_reference step ih
    | plain text => exact replaces_plain step ih

theorem replaceReferences?_eq (r : Registry) (owner : Option Text) (t : Text) :
    replaceReferences? r owner t =
      some (r.replaceReferences owner t, r.unresolvedTokens owner t) :=
  replaces r owner t none t [] [] rfl rfl [] []

end FormLogic.Bytewise
