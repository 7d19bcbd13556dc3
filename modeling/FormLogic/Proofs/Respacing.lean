import FormLogic.Proofs.Operators

/-!
Operators in their target form. The tokens of the form are known from those of the source: two spaces
stand on either side of a boolean word in the place of the white space there, a lone equals sign has
become two, and all else is as it was. So the form has a form of its own that is the same text, no
equals sign in it stands alone, and the spaces around a boolean word can be counted. Literals are left
as they are; between them only white space and the number of equals signs in a run have changed.
-/
namespace FormLogic

open Text

namespace Text

/-- Each run of equals signs made one. -/
def joinEquals : Text → Text
  | [] => []
  | c :: rest => if c = '=' ∧ rest.head? = some '=' then joinEquals rest else c :: joinEquals rest

/-- What is left of a text without its white space and with one equals sign for each run of them. -/
def bare (t : Text) : Text := joinEquals (t.filter fun c => !isSpace c)

theorem head?_joinEquals (t : Text) : (joinEquals t).head? = t.head? := by
  induction t with
  | nil => rfl
  | cons c rest ih =>
    rw [joinEquals]
    split
    · next both => rw [ih, both.2, List.head?_cons, both.1]
    · rfl

variable {s t : Text}

theorem bare_cons_of_isSpace {c : Char} (space : isSpace c = true) (t : Text) :
    bare (c :: t) = bare t := by
  rw [bare, List.filter_cons_of_neg (by simp [space])]
  rfl

theorem bare_cons_congr (c : Char) (same : bare s = bare t) : bare (c :: s) = bare (c :: t) := by
  cases space : isSpace c with
  | true => rw [bare_cons_of_isSpace space, bare_cons_of_isSpace space, same]
  | false =>
    have kept (u : Text) : bare (c :: u) = joinEquals (c :: u.filter fun c => !isSpace c) := by
      rw [bare, List.filter_cons_of_pos (by simp [space])]
    rw [bare, bare] at same
    have head := congrArg List.head? same
    rw [head?_joinEquals, head?_joinEquals] at head
    rw [kept, kept, joinEquals, joinEquals, head, same]

theorem bare_append_congr (u : Text) (same : bare s = bare t) : bare (u ++ s) = bare (u ++ t) := by
  induction u with
  | nil => exact same
  | cons c rest ih => exact bare_cons_congr c ih

theorem bare_append_of_isSpace {u : Text} (spaces : ∀ c ∈ u, isSpace c = true) (t : Text) :
    bare (u ++ t) = bare t := by
  induction u with
  | nil => rfl
  | cons c rest ih =>
    rw [List.cons_append, bare_cons_of_isSpace (spaces c List.mem_cons_self),
      ih fun d member => spaces d (List.mem_cons_of_mem c member)]

theorem bare_equals (t : Text) : bare ('=' :: '=' :: t) = bare ('=' :: t) := by
  rw [bare, bare, List.filter_cons_of_pos (by decide), List.filter_cons_of_pos (by decide),
    joinEquals, if_pos ⟨rfl, rfl⟩]

/-- A literal that is left open stays so where no quote follows. -/
theorem terminated_of_append_plain (closed : Terminated (s ++ t))
    (plain : ∀ c ∈ t, isQuote c = false) : Terminated s := by
  induction s using Literal.segmentInduction with
  | nil => rfl
  | plain c rest plain ih =>
    rw [List.cons_append, terminated_cons plain] at closed
    exact (terminated_cons plain rest).2 (ih closed)
  | literal l rest proper ih =>
    rw [List.append_assoc, Terminated, Literal.quoteAfter_render_append proper] at closed
    rw [Terminated, Literal.quoteAfter_render_append proper]
    exact ih closed
  | unclosed q rest quote fresh =>
    have absent : q ∉ rest ++ t := by
      rw [List.mem_append, not_or]
      exact ⟨fresh, fun member => by rw [plain q member] at quote; cases quote⟩
    rw [List.cons_append, Terminated, quoteAfter, quote, if_pos rfl, quoteAfter_some_of_notMem absent]
      at closed
    cases closed

/-- Texts between literals that are alike, but for the first, stay so when their first ones are
changed alike. -/
theorem map_bare_modifyHead {f g : Text → Text} {ss ts : List Text}
    (alike : ∀ s t, bare s = bare t → bare (f s) = bare (g t)) (same : ss.map bare = ts.map bare) :
    (ss.modifyHead f).map bare = (ts.modifyHead g).map bare := by
  cases ss with
  | nil =>
    rw [List.map_eq_nil_iff.1 same.symm]
    rfl
  | cons s ss =>
    cases ts with
    | nil => cases same
    | cons t ts =>
      obtain ⟨first, others⟩ := List.cons.inj same
      rw [List.modifyHead_cons, List.modifyHead_cons, List.map_cons, List.map_cons, alike s t first,
        others]

end Text

namespace Operator

open Token

/-! ### What stays -/

/-- Between literals only white space changes, and how many equals signs stand together. -/
theorem bare_gaps_render (spaced : Bool) (before : Option Char) (t : Text) :
    (Literal.gaps (render spaced (tokens before t))).map bare = (Literal.gaps t).map bare := by
  refine (render_induction (R := fun _ s w => (Literal.gaps s).map bare = (Literal.gaps w).map bare)
    (fun _ => rfl) ?_ (fun _ _ _ _ _ => rfl) ?_ ?_ ?_ ?_ ?_ spaced before t).symm
  · intro _ l s w proper same
    rw [Literal.gaps_render_append proper, Literal.gaps_render_append proper, List.map_cons,
      List.map_cons, same]
  · intro _ c s w plain same
    rw [Literal.gaps_cons plain, Literal.gaps_cons plain]
    exact map_bare_modifyHead (fun _ _ => bare_cons_congr c) same
  · intro c s w space same
    have dropped := map_bare_modifyHead (f := (c :: ·)) (g := id)
      (fun s t same => (bare_cons_of_isSpace space s).trans same) same
    rwa [List.modifyHead_id, ← Literal.gaps_cons (isSpace_plain space)] at dropped
  · intro c s w space _ same
    have dropped := map_bare_modifyHead (f := (c :: ·)) (g := id)
      (fun s t same => (bare_cons_of_isSpace space s).trans same) same
    rwa [List.modifyHead_id, ← Literal.gaps_cons (isSpace_plain space)] at dropped
  · intro _ s w same
    have doubled : ∀ c ∈ ['=', '='], isQuote c = false := by decide
    rw [Literal.gaps_cons (by decide), ← List.singleton_append (l := w),
      ← List.cons_append, Literal.gaps_append_of_noQuote doubled]
    exact map_bare_modifyHead
      (fun s t same => (bare_cons_congr '=' same).trans (bare_equals t).symm) same
  · intro _ word s w same
    have plain : ∀ c ∈ word.render, isQuote c = false := by cases word <;> decide
    rw [Literal.gaps_append_of_noQuote plain, Literal.gaps_append_of_noQuote fun c member =>
      (boolean_plain word c member).2.2]
    refine map_bare_modifyHead (fun s t same => ?_) same
    have spaces : ∀ c ∈ [' ', ' '], isSpace c = true := by decide
    rw [List.append_assoc, List.append_assoc, bare_append_of_isSpace spaces]
    exact bare_append_congr _ (same.trans (bare_append_of_isSpace spaces t).symm)

/-! ### The tokens of the target form -/

/-- What is written on either side of a boolean word. -/
def margin : List Token := [.space ' ', .space ' ']

/-- The tokens of the target form, given those of the source. `spaced` says that the white space which
comes next follows a boolean word. -/
def respaced (spaced : Bool) : List Token → List Token
  | [] => []
  | .space c :: rest =>
    if spaced || leadsToBoolean rest then respaced spaced rest else .space c :: respaced false rest
  | .boolean word :: rest => margin ++ .boolean word :: (margin ++ respaced true rest)
  | .equals :: rest => .other '=' :: .other '=' :: respaced false rest
  | .quotedText text :: rest => .quotedText text :: respaced false rest
  | .other c :: rest => .other c :: respaced false rest

theorem leadsToBoolean_respaced (spaced : Bool) (ts : List Token) :
    leadsToBoolean (respaced spaced ts) = leadsToBoolean ts := by
  induction ts generalizing spaced with
  | nil => rfl
  | cons token rest ih =>
    cases token with
    | space c =>
      rw [respaced]
      split
      · exact ih spaced
      · exact ih false
    | boolean word => rfl
    | equals => rfl
    | quotedText text => rfl
    | other c => rfl

/-- Tokens that are spaced already are written as they are. -/
theorem render_respaced {spaced written : Bool} (ts : List Token)
    (follows : written = true → spaced = true) :
    render written (respaced spaced ts) = render spaced ts := by
  induction ts generalizing spaced written with
  | nil => rfl
  | cons token rest ih =>
    have fresh : render false (respaced false rest) = render false rest :=
      ih (absurd · Bool.false_ne_true)
    cases token with
    | space c =>
      rw [respaced, render]
      split
      · exact ih follows
      · next stays =>
        simp only [Bool.or_eq_true, not_or, Bool.not_eq_true] at stays
        have unwritten : written = false := by
          cases written with
          | false => rfl
          | true => rw [follows rfl] at stays; cases stays.1
        rw [render, unwritten, leadsToBoolean_respaced, stays.2, fresh]
        rfl
    | boolean word =>
      have behind : render true (respaced true rest) = render true rest := ih fun _ => rfl
      have before := render_to_boolean written [' ', ' '] word (margin ++ respaced true rest)
      have after := render_from_boolean [' ', ' '] (respaced true rest)
      rw [respaced, render, ← behind, ← after]
      exact before
    | equals => rw [respaced, render, render, render, fresh]
    | quotedText text => rw [respaced, render, render, fresh]
    | other c => rw [respaced, render, render, fresh]

/-- No name begins in the target form where none begins in the source. -/
theorem head?_render_of_head? {before : Option Char} {t : Text}
    (plain : t.head?.any isNameChar = false) :
    (render false (tokens before t)).head?.any isNameChar = false := by
  cases t with
  | nil => rw [tokens_nil, render]; rfl
  | cons c rest =>
    have fails : isNameChar c = false := plain
    have step := step_next before c rest
    rw [tokens_step step]
    generalize same : c :: rest = t at step
    generalize (next before c rest).1 = token at step
    generalize (next before c rest).2 = after at step
    cases step with
    | literal proper => exact of_isQuote (p := isNameChar) proper.quote_isQuote (by decide)
    | unclosed quote fresh => exact of_isQuote (p := isNameChar) quote (by decide)
    | equals alone => rfl
    | boolean starts ends => rfl
    | space space =>
      rw [render]
      split
      · next leads => rw [head?_render_of_leadsToBoolean (by simpa using leads)]; rfl
      · exact not_isNameChar_of_isSpace space
    | other plain visible joined noWord =>
      rw [← (List.cons.inj same).1]
      exact fails

/-- Behind a name character, another one is read by itself. -/
theorem step_name {b c : Char} (behind : isNameChar b = true) (name : isNameChar c = true)
    (rest : Text) : Step (some b) (c :: rest) (.other c) rest := by
  have starts : startsWord (some b) = false := by simp [startsWord, behind]
  refine .other (not_isQuote name (by decide) (by decide)) (not_isSpace_of_class name (by decide)) ?_ ?_
  · rintro rfl
    cases name
  · cases found : booleanWord? (some b) (c :: rest) with
    | none => rfl
    | some parts =>
      obtain ⟨word, after⟩ := parts
      rw [(ends_of_booleanWord? found).1] at starts
      cases starts

/-- A name is written to its end as it is, once it has begun. -/
theorem takeWhile_render {b : Char} (behind : isNameChar b = true) (t : Text) :
    (render false (tokens (some b) t)).takeWhile isNameChar = t.takeWhile isNameChar := by
  induction t generalizing b with
  | nil => rw [tokens_nil, render]
  | cons c rest ih =>
    cases name : isNameChar c with
    | true =>
      rw [tokens_step (step_name behind name rest), render, List.takeWhile_cons, List.takeWhile_cons,
        name]
      exact congrArg _ (ih name)
    | false =>
      have head := @head?_render_of_head? (some b) (c :: rest) name
      have stop := takeWhile_run (u := []) (by simp) head
      rw [List.takeWhile_cons, name]
      exact stop

/-- Whether a boolean word comes next depends on the name that comes next. -/
theorem booleanWord?_congr {before : Option Char} {s t : Text}
    (same : s.takeWhile isNameChar = t.takeWhile isNameChar) (noWord : booleanWord? before s = none) :
    booleanWord? before t = none := by
  cases found : booleanWord? before t with
  | none => rfl
  | some parts =>
    obtain ⟨word, after⟩ := parts
    obtain ⟨starts, ends⟩ := ends_of_booleanWord? found
    have names : ∀ c ∈ word.render, isNameChar c = true := by cases word <;> decide
    have stop : after.head?.any isNameChar = false := by simpa [endsWord] using ends
    have run : s.takeWhile isNameChar = word.render := by
      rw [same, eq_of_booleanWord? found, takeWhile_run names stop]
    have rest : endsWord (s.dropWhile isNameChar) = true := by
      rw [endsWord, head?_dropWhile]
      rfl
    have whole := @booleanWord?_render before word _ starts rest
    rw [← run, List.takeWhile_append_dropWhile, noWord] at whole
    cases whole

/-- White space that stands in the place of a boolean word's last letter changes no token behind it. -/
theorem tokens_behind_word (word : BooleanWord) {t : Text} (ends : endsWord t = true) :
    tokens (some ' ') t = tokens word.render.getLast? t := by
  apply Scanner.items_congr_before
  rintro c rest rfl
  have noName : isNameChar c = false := by simpa [endsWord] using ends
  have noWord (before : Option Char) : booleanWord? before (c :: rest) = none :=
    booleanWord?_eq_none (by rintro rfl; cases noName) (by rintro rfl; cases noName) rest
  have alone : standsAlone (some ' ') rest = standsAlone word.render.getLast? rest := by
    cases word <;> rfl
  simp only [Token.scanner]
  rw [Token.next, Token.next, noWord, noWord, alone]

/-- A character that is read by itself is no boolean word and no lone equals sign. -/
theorem other_of_tokens {before : Option Char} {c : Char} {rest : Text} {ts : List Token}
    (read : tokens before (c :: rest) = .other c :: ts) :
    (c = '=' → standsAlone before rest = false) ∧ booleanWord? before (c :: rest) = none := by
  have step := step_next before c rest
  rw [tokens_step step] at read
  rw [(List.cons.inj read).1] at step
  generalize (next before c rest).2 = after at step
  generalize whole : c :: rest = t at step
  cases step with
  | other plain visible joined noWord =>
    obtain ⟨_, rfl⟩ := List.cons.inj whole
    exact ⟨joined, noWord⟩

theorem step_joined {before : Option Char} {rest : Text} (joined : standsAlone before rest = false) :
    Step before ('=' :: rest) (.other '=') rest :=
  .other (by decide) (by decide) (fun _ => joined) (booleanWord?_eq_none (by decide) (by decide) rest)

/-- An equals sign that is part of an operator in the source is so in the target form. -/
theorem standsAlone_render {before : Option Char} {rest : Text}
    (joined : standsAlone before rest = false) :
    standsAlone before (render false (tokens (some '=') rest)) = false := by
  rw [standsAlone, Bool.and_eq_false_iff] at joined ⊢
  refine joined.imp_right fun doubled => ?_
  obtain ⟨more, rfl⟩ : ∃ more, rest = '=' :: more := by
    cases rest with
    | nil => cases doubled
    | cons d more => exact ⟨more, by simpa using doubled⟩
  rw [tokens_step (step_joined rfl), render]
  rfl

/-- A character that is read by itself in the source is so before the target form of what follows. -/
theorem step_render {written : Option Char} {c : Char} {rest : Text} {ts : List Token}
    (plain : isQuote c = false) (visible : isSpace c = false)
    (read : tokens written (c :: rest) = .other c :: ts) :
    Step written (c :: render false (tokens (some c) rest)) (.other c)
      (render false (tokens (some c) rest)) := by
  obtain ⟨joined, noWord⟩ := other_of_tokens read
  have run : (c :: rest).takeWhile isNameChar =
      (c :: render false (tokens (some c) rest)).takeWhile isNameChar := by
    rw [List.takeWhile_cons, List.takeWhile_cons]
    split
    · next name => rw [takeWhile_render name]
    · rfl
  refine .other plain visible ?_ (booleanWord?_congr run noWord)
  rintro rfl
  exact standsAlone_render (joined rfl)

/-- White space is left out before a boolean word, and behind one, where a space has been written. -/
theorem alike_of_dropped {spaced : Bool} {written : Option Char} {c : Char} {rest : Text}
    (behindWord : spaced = true → written = some ' ') (space : isSpace c = true)
    (dropped : (spaced || leadsToBoolean (tokens (some c) rest)) = true) :
    leadsToBoolean (tokens (some c) rest) = true ∨ tokens written rest = tokens (some c) rest := by
  cases leads : leadsToBoolean (tokens (some c) rest) with
  | true => exact Or.inl rfl
  | false =>
    have behind : spaced = true := by rwa [leads, Bool.or_false] at dropped
    have blank (d : Char) (space : isSpace d = true) : tokens (some d) rest = tokens none rest :=
      tokens_congr (Or.inl space)
    rw [behindWord behind]
    exact Or.inr ((blank ' ' rfl).trans (blank c space).symm)

/-- The tokens of the target form, behind whatever was written before, are those of the source with
their spaces set anew. What was written may differ from what stood in the source where white space that
leads to a boolean word comes next, and otherwise where the source is read alike behind both. -/
theorem tokens_render {spaced : Bool} {before written : Option Char} {t : Text}
    (behindWord : spaced = true → written = some ' ')
    (alike : leadsToBoolean (tokens before t) = true ∨ tokens written t = tokens before t) :
    tokens written (render spaced (tokens before t)) = respaced spaced (tokens before t) := by
  induction before, t using Token.stepInduction generalizing spaced written with
  | nil before => rw [tokens_nil, render, tokens_nil, respaced]
  | step before t token rest step ih =>
    have read := tokens_step step
    rw [read] at alike ⊢
    have later := @ih false token.source.getLast? (absurd · Bool.false_ne_true) (Or.inr rfl)
    cases step with
    | @literal l rest proper =>
      rw [render, respaced, tokens_step (.literal proper)]
      exact congrArg _ later
    | @unclosed q rest quote fresh =>
      rw [tokens_nil, render, render, List.append_nil, tokens_step (.unclosed quote fresh), tokens_nil,
        respaced, respaced]
    | @equals rest alone =>
      have first : standsAlone written ('=' :: render false (tokens (some '=') rest)) = false := by
        simp [standsAlone]
      rw [render, respaced]
      exact (tokens_step (step_joined first)).trans
        (congrArg _ ((tokens_step (step_joined rfl)).trans (congrArg _ later)))
    | @boolean word rest starts ends =>
      have behind := @ih true (some ' ') (fun _ => rfl) (Or.inr (tokens_behind_word word ends))
      have spaces : ∀ c ∈ [' ', ' '], isSpace c = true := by decide
      rw [render, respaced, List.append_assoc, List.append_assoc, tokens_spaces spaces,
        tokens_step (.boolean rfl rfl), tokens_spaces spaces]
      exact congrArg (fun ts => margin ++ .boolean word :: (margin ++ ts)) behind
    | @space c rest space =>
      rw [render, respaced]
      split
      · next dropped => exact ih behindWord (alike_of_dropped behindWord space dropped)
      · rw [tokens_step (.space space)]
        exact congrArg _ later
    | @other c rest plain visible joined noWord =>
      have same := alike.resolve_left Bool.false_ne_true
      rw [render, respaced]
      exact (tokens_step (step_render plain visible same)).trans (congrArg _ later)

theorem tokens_normalize (t : Text) : tokens none (normalize t) = respaced false (tokens none t) :=
  tokens_render (absurd · Bool.false_ne_true) (Or.inr rfl)

/-! ### Places in the target form -/

/-- The token of a lone equals sign outside literals. -/
theorem tokens_equals {u v : Text} (outside : Terminated u) (alone : standsAlone u.getLast? v = true) :
    tokens none (u ++ '=' :: v) = tokens none u ++ .equals :: tokens (some '=') v := by
  have apart : Apart u ('=' :: v) := by
    refine ⟨fun _ => rfl, fun last => ?_⟩
    rw [last] at alone
    cases alone
  rw [tokens_append outside apart, Option.or_none, tokens_step (.equals alone)]
  rfl

/-- The token of a boolean word outside literals. -/
theorem tokens_boolean {u v : Text} {word : BooleanWord} (outside : Terminated u)
    (starts : startsWord u.getLast? = true) (ends : endsWord v = true) :
    tokens none (u ++ (word.render ++ v)) =
      tokens none u ++ .boolean word :: tokens word.render.getLast? v := by
  have apart : Apart u (word.render ++ v) := by
    refine ⟨fun name => ?_, fun _ => by cases word <;> simp [BooleanWord.render]⟩
    rw [Option.any_eq_true] at name
    obtain ⟨c, last, name⟩ := name
    rw [last] at starts
    simp [startsWord, name] at starts
  rw [tokens_append outside apart, Option.or_none, tokens_step (.boolean starts ends)]
  rfl

/-- A boolean word among the tokens of a text stands where a word may start and end. -/
theorem word_of_tokens {before : Option Char} {t : Text} {word : BooleanWord} {as bs : List Token}
    (read : tokens before t = as ++ .boolean word :: bs) :
    startsWord ((as.flatMap source).getLast?.or before) = true ∧ endsWord (bs.flatMap source) = true := by
  have later := Scanner.items_behind scanner read
  change _ = tokens _ (word.render ++ bs.flatMap source) at later
  obtain ⟨c, rest, whole⟩ : ∃ c rest, word.render ++ bs.flatMap source = c :: rest := by
    cases word
    · exact ⟨'a', _, rfl⟩
    · exact ⟨'o', _, rfl⟩
  have step := step_next ((as.flatMap source).getLast?.or before) c rest
  rw [whole] at later
  rw [← (List.cons.inj (later.trans (tokens_step step))).1, ← whole] at step
  generalize (next _ c rest).2 = after at step
  generalize same : word.render ++ bs.flatMap source = t at step
  cases step with
  | boolean starts ends => exact ⟨starts, by rw [List.append_cancel_left same]; exact ends⟩

/-- The tokens of a text end in white space where the text does. -/
theorem tokens_ends_in_space {before : Option Char} {t : Text} (terminated : Terminated t)
    (space : t.getLast?.any isSpace = true) : ∃ as c, tokens before t = as ++ [.space c] := by
  induction before, t using Token.stepInduction with
  | nil before => cases space
  | step before t token rest step ih =>
    rcases Decidable.em (rest = []) with last | followed
    · subst last
      have read := tokens_step step
      rw [tokens_nil] at read
      rw [← step.source_append, List.append_nil] at space terminated
      cases step with
      | @literal l _ proper =>
        rw [source, Literal.render, List.getLast?_concat] at space
        have quote := of_isQuote (p := isSpace) (b := false) proper.quote_isQuote (by decide)
        exact absurd (quote.symm.trans space) (by decide)
      | unclosed quote fresh =>
        rw [source, Terminated, quoteAfter, quote, if_pos rfl, quoteAfter_some_of_notMem fresh]
          at terminated
        cases terminated
      | equals alone => cases space
      | @boolean word _ starts ends => cases word <;> cases space
      | @space c _ space => exact ⟨[], c, read⟩
      | other plain visible joined noWord =>
        exact absurd (visible.symm.trans space) (by decide)
    · have whole : t.getLast? = rest.getLast? := by
        rw [← step.source_append, List.getLast?_append, List.getLast?_eq_some_getLast followed,
          Option.some_or]
      rw [whole] at space
      obtain ⟨as, c, read⟩ := ih (step.terminated terminated) space
      exact ⟨token :: as, c, by rw [tokens_step step, read]; rfl⟩

/-! ### Counting spaces -/

/-- White space at the end of some tokens is what is written behind a boolean word. -/
def EndsApart (ts : List Token) : Prop :=
  ∀ as c, ts = as ++ [.space c] → ∃ bs word, ts = bs ++ .boolean word :: margin

/-- White space at the beginning of some tokens is what is written before a boolean word. -/
def BeginsApart (ts : List Token) : Prop :=
  ∀ c as, ts = .space c :: as → ∃ word bs, ts = margin ++ .boolean word :: bs

theorem EndsApart.append {head tail : List Token} (apart : EndsApart tail)
    (alone : tail = [] → EndsApart head) : EndsApart (head ++ tail) := by
  rcases List.eq_nil_or_concat tail with empty | ⟨ts, token, concat⟩
  · rw [empty, List.append_nil]
    exact alone empty
  · intro as c same
    rw [concat, List.concat_eq_append, ← List.append_assoc] at same
    obtain ⟨_, last⟩ := List.append_inj' same rfl
    obtain ⟨bs, word, read⟩ := apart ts c (by rw [concat, List.concat_eq_append, last])
    exact ⟨head ++ bs, word, by rw [read, List.append_assoc]⟩

/-- Two spaces come last, and no other white space before them that belongs to no boolean word. -/
def Spaced (ts : List Token) : Prop := ∃ as, ts = as ++ margin ∧ EndsApart as

theorem Spaced.behind {head tail : List Token} (spaced : Spaced tail)
    (alone : tail = margin → EndsApart head) : Spaced (head ++ tail) := by
  obtain ⟨as, rfl, apart⟩ := spaced
  exact ⟨head ++ as, (List.append_assoc head as margin).symm,
    apart.append fun empty => alone (by rw [empty]; rfl)⟩

theorem endsApart_concat (ts : List Token) {token : Token} (visible : ∀ c, token ≠ .space c) :
    EndsApart (ts ++ [token]) := by
  intro as c same
  obtain ⟨_, last⟩ := List.append_inj' same rfl
  exact absurd (List.cons.inj last).1 (visible c)

/-- A boolean word behind tokens that hold none. -/
theorem word_behind (head : List Token) {ts as bs : List Token} {word : BooleanWord}
    (noWord : ∀ word, .boolean word ∉ head) (split : head ++ ts = as ++ .boolean word :: bs) :
    ∃ as', as = head ++ as' ∧ ts = as' ++ .boolean word :: bs := by
  rcases List.append_eq_append_iff.1 split with ⟨more, left, right⟩ | ⟨more, left, right⟩
  · exact ⟨more, left, right⟩
  · cases more with
    | nil => exact ⟨[], by rw [left]; simp, right.symm⟩
    | cons token more =>
      rw [← (List.cons.inj right).1] at left
      exact absurd (by rw [left]; simp) (noWord word)

theorem beginsApart_respaced (ts : List Token) : BeginsApart (respaced true ts) := by
  induction ts with
  | nil => exact fun c as same => by cases same
  | cons token rest ih =>
    cases token with
    | space c => exact ih
    | boolean word => exact fun c as _ => ⟨word, margin ++ respaced true rest, rfl⟩
    | equals => exact fun c as same => by cases same
    | quotedText text => exact fun c as same => by cases same
    | other d => exact fun c as same => by cases same

/-- Around each boolean word in the target form stand two spaces, and no other white space but what is
written beside the next boolean word. -/
theorem apart_of_respaced {spaced : Bool} {ts as bs : List Token} {word : BooleanWord}
    (split : respaced spaced ts = as ++ .boolean word :: bs) :
    Spaced as ∧ ∃ bs', bs = margin ++ bs' ∧ BeginsApart bs' := by
  induction ts generalizing spaced as with
  | nil => simp [respaced] at split
  | cons token rest ih =>
    cases token with
    | space c =>
      rw [respaced] at split
      split at split
      · exact ih split
      · next stays =>
        obtain ⟨as', rfl, inner⟩ := word_behind [.space c] (by simp) split
        obtain ⟨before, behind⟩ := ih inner
        refine ⟨before.behind fun isMargin => ?_, behind⟩
        -- White space before a boolean word would not have stayed.
        have leads := congrArg leadsToBoolean inner
        rw [leadsToBoolean_respaced, isMargin] at leads
        rw [leads] at stays
        exact absurd (Bool.or_true spaced) stays
    | boolean first =>
      obtain ⟨as', rfl, inner⟩ := word_behind margin (by simp [margin]) split
      cases as' with
      | nil =>
        obtain ⟨_, rfl⟩ := List.cons.inj inner
        exact ⟨⟨[], by simp, fun as c same => by simp at same⟩, _, rfl, beginsApart_respaced rest⟩
      | cons token more =>
        obtain ⟨rfl, later⟩ := List.cons.inj inner
        obtain ⟨as', rfl, last⟩ := word_behind margin (by simp [margin]) later
        obtain ⟨before, behind⟩ := ih last
        have apart : EndsApart (margin ++ .boolean first :: margin) := fun _ _ _ => ⟨margin, first, rfl⟩
        have whole := before.behind fun _ => apart
        rw [List.append_assoc] at whole
        exact ⟨whole, behind⟩
    | equals =>
      obtain ⟨as', rfl, inner⟩ := word_behind [.other '=', .other '='] (by simp) split
      obtain ⟨before, behind⟩ := ih inner
      exact ⟨before.behind fun _ => endsApart_concat [.other '='] fun _ => Token.noConfusion, behind⟩
    | quotedText text =>
      obtain ⟨as', rfl, inner⟩ := word_behind [.quotedText text] (by simp) split
      obtain ⟨before, behind⟩ := ih inner
      exact ⟨before.behind fun _ => endsApart_concat [] fun _ => Token.noConfusion, behind⟩
    | other c =>
      obtain ⟨as', rfl, inner⟩ := word_behind [.other c] (by simp) split
      obtain ⟨before, behind⟩ := ih inner
      exact ⟨before.behind fun _ => endsApart_concat [] fun _ => Token.noConfusion, behind⟩

theorem equals_notMem_respaced (spaced : Bool) (ts : List Token) : .equals ∉ respaced spaced ts := by
  induction ts generalizing spaced with
  | nil => simp [respaced]
  | cons token rest ih =>
    cases token with
    | space c =>
      rw [respaced]
      split
      · exact ih spaced
      · simp [ih]
    | boolean word => simp [respaced, margin, ih]
    | equals => simp [respaced, ih]
    | quotedText text => simp [respaced, ih]
    | other c => simp [respaced, ih]

/-- In the text `u` before a boolean word and the text `v` behind it, two spaces stand beside the word,
and no other white space but what belongs to a further boolean word. -/
structure SetApart (u v : Text) : Prop where
  before : ∃ front, u = front ++ [' ', ' '] ∧ (front.getLast?.any isSpace = true →
    ∃ (start : Text) (word : BooleanWord), front = start ++ (word.render ++ [' ', ' ']) ∧
      startsWord start.getLast? = true)
  behind : ∃ back, v = [' ', ' '] ++ back ∧ (back.head?.any isSpace = true →
    ∃ (word : BooleanWord) (rest : Text), back = [' ', ' '] ++ (word.render ++ rest) ∧
      endsWord rest = true)

theorem source_tokens (before : Option Char) (t : Text) : (tokens before t).flatMap source = t :=
  scanner.flatMap_source_items before t

theorem source_margin : margin.flatMap source = [' ', ' '] := rfl

theorem tokens_margin (before : Option Char) : tokens before [' ', ' '] = margin := by
  have read := @tokens_spaces before [' ', ' '] (by decide) []
  rwa [tokens_nil, List.append_nil, List.append_nil] at read

theorem setApart_normalize {t u v : Text} {word : BooleanWord}
    (whole : normalize t = u ++ (word.render ++ v)) (outside : Terminated u)
    (starts : startsWord u.getLast? = true) (ends : endsWord v = true) : SetApart u v := by
  have read := tokens_normalize t
  rw [whole, tokens_boolean outside starts ends] at read
  obtain ⟨⟨as, before, apartBefore⟩, bs, behind, apartBehind⟩ := apart_of_respaced read.symm
  constructor
  · have front := source_tokens none u
    rw [before, List.flatMap_append, source_margin] at front
    refine ⟨as.flatMap source, front.symm, fun space => ?_⟩
    have closed : Terminated (as.flatMap source) := by
      rw [← front] at outside
      exact terminated_of_append_plain outside (by decide)
    have same : tokens none (as.flatMap source) = as := by
      have parts := @tokens_append _ [' ', ' '] closed
        ⟨fun _ => rfl, fun _ => by simp⟩ none
      rw [front, before, tokens_margin] at parts
      exact (List.append_cancel_right parts).symm
    obtain ⟨ts, c, last⟩ := @tokens_ends_in_space none _ closed space
    obtain ⟨start, further, split⟩ := apartBefore ts c (same.symm.trans last)
    have place := word_of_tokens (same.trans split)
    refine ⟨start.flatMap source, further, ?_, by simpa using place.1⟩
    rw [split, List.flatMap_append, List.flatMap_cons, source_margin]
    rfl
  · have back := source_tokens word.render.getLast? v
    rw [behind, List.flatMap_append, source_margin] at back
    refine ⟨bs.flatMap source, back.symm, fun space => ?_⟩
    have same : bs = tokens (some ' ') (bs.flatMap source) := Scanner.items_behind scanner behind
    obtain ⟨c, rest, first⟩ : ∃ c rest, bs.flatMap source = c :: rest := by
      cases text : bs.flatMap source with
      | nil => rw [text] at space; cases space
      | cons c rest => exact ⟨c, rest, rfl⟩
    rw [first] at space same
    obtain ⟨further, ts, split⟩ := apartBehind c _ (same.trans (tokens_step (.space space)))
    have place := @word_of_tokens _ _ _ margin _ (same.symm.trans split)
    refine ⟨further, ts.flatMap source, ?_, place.2⟩
    rw [split, List.flatMap_append, List.flatMap_cons, source_margin]
    rfl

theorem normalize_normalize (t : Text) : normalize (normalize t) = normalize t := by
  rw [normalize, tokens_normalize, @render_respaced false false _ (absurd · Bool.false_ne_true)]
  rfl

/-- The target form of a text is its own target form. It has the literals of the text, and what follows
a quote that is never closed; between literals only white space and the number of equals signs in a run
differ. Outside literals no equals sign in it stands alone, and two spaces stand on either side of each
boolean word, and no other white space but that of a further boolean word. -/
theorem normalize_settled (t : Text) :
    normalize (normalize t) = normalize t ∧
    Literal.literals (normalize t) = Literal.literals t ∧
    Literal.unclosed (normalize t) = Literal.unclosed t ∧
    (Literal.gaps (normalize t)).map bare = (Literal.gaps t).map bare ∧
    (∀ u v : Text, normalize t = u ++ '=' :: v → Terminated u →
      (∃ c ∈ ['!', '<', '>', '='], u.getLast? = some c) ∨ v.head? = some '=') ∧
    ∀ (u : Text) (word : BooleanWord) (v : Text), normalize t = u ++ (word.render ++ v) →
      Terminated u → startsWord u.getLast? = true → endsWord v = true → SetApart u v := by
  have literals := @quotation_render false none t _ (id : Literal → Literal)
  rw [Literal.quotation, Literal.quotation, List.map_id, List.map_id] at literals
  obtain ⟨closed, left⟩ := Prod.mk.inj literals
  refine ⟨normalize_normalize t, closed, left, bare_gaps_render false none t, fun u v whole outside => ?_,
    fun u word v => setApart_normalize⟩
  cases alone : standsAlone u.getLast? v with
  | true =>
    have read := tokens_normalize t
    rw [whole, tokens_equals outside alone] at read
    exact absurd (by rw [← read]; simp) (equals_notMem_respaced false (tokens none t))
  | false =>
    rw [standsAlone, Bool.and_eq_false_iff, Bool.not_eq_false', Option.any_eq_true] at alone
    rcases alone with ⟨c, last, joined⟩ | doubled
    · exact Or.inl ⟨c, by simpa [or_assoc] using joined, last⟩
    · exact Or.inr (by simpa using doubled)

/-- Boolean words beside a literal and beside each other, and both kinds of equals sign. -/
theorem normalize_settled_crowded :
    normalize "a=1 and'x = y'or and b <= c".toList =
      "a==1  and  'x = y'  or    and  b <= c".toList ∧
    (∃ c ∈ ['!', '<', '>', '='],
      ("a==1  and  'x = y'  or    and  b <".toList : Text).getLast? = some c) ∧
    SetApart "a==1  and  'x = y'  or    ".toList "  b <= c".toList := by
  have value : normalize "a=1 and'x = y'or and b <= c".toList =
      "a==1  and  'x = y'  or    and  b <= c".toList := by decide +kernel
  obtain ⟨_, _, _, _, equals, words⟩ := normalize_settled "a=1 and'x = y'or and b <= c".toList
  rw [value] at equals words
  refine ⟨value, ?_, words _ .conjunction _ rfl (by decide) (by decide) (by decide)⟩
  exact (equals "a==1  and  'x = y'  or    and  b <".toList " c".toList rfl (by decide)).resolve_right
    (by decide)

end Operator

end FormLogic
