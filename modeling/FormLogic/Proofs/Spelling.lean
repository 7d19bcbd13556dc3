import FormLogic.Proofs.Translation

/-!
How references, operators and literals of expressions in the source grammar get their form in the
target grammar. Each of the three passes reads an expression part by part: what stands before a part
does not matter where the part begins with a separator or follows one.
-/
namespace FormLogic.Grammar

open Text Call FormLogic.Field FormLogic.Field.Reference FormLogic.Conversion

section References

variable {ctx : Context} {u t : Text}

/-- Replacing references makes `u'` of the text `u` before `t`. -/
def Named (ctx : Context) (u u' t : Text) : Prop :=
  replaced ctx.meaning none none none (u ++ t) = u' ++ replaced ctx.meaning none none none t

theorem replaced_stops (meaning : Text → Text) (before written : Option Char) (stops : Stops t) :
    replaced meaning before written none t = replaced meaning none none none t := by
  rcases stops.cases with rfl | ⟨c, rest, rfl, separator⟩
  · rw [replaced_nil, replaced_nil]
  · have noQuote : isQuote c = false := by rcases separator with rfl | rfl | rfl <;> decide
    have noToken : c ∉ ['$', 'c', '.', '/'] := by rcases separator with rfl | rfl | rfl <;> decide
    rw [replaced_plain (.char noQuote (token?_eq_none noToken rest)),
      replaced_plain (.char noQuote (token?_eq_none noToken rest))]

theorem Named.append {u' w w' : Text} (first : Named ctx u u' (w ++ t)) (second : Named ctx w w' t) :
    Named ctx (u ++ w) (u' ++ w') t := by
  rw [Named] at first second ⊢
  rw [List.append_assoc, first, second, List.append_assoc]

/-- Text in which no reference can begin stays as it is, where what stands behind it is read by
itself. -/
theorem Named.of_plain (plain : ∀ c ∈ u, isQuote c = false ∧ c ∉ ['$', 'c', '.', '/'])
    (apart : Stops t ∨
      u.getLast?.all (fun c => startsToken (some c) && !isWordChar c) = true) : Named ctx u u t := by
  rw [Named, replaced_append_of_plain plain, Option.or_none]
  rcases apart with stops | last
  · rw [replaced_stops _ _ _ stops]
  · have ends : startsToken u.getLast? = startsToken none ∧
        u.getLast?.any isWordChar = (none : Option Char).any isWordChar := by
      cases found : u.getLast? with
      | none => exact ⟨rfl, rfl⟩
      | some c =>
        rw [found, Option.all_some, Bool.and_eq_true, Bool.not_eq_true'] at last
        exact last
    rw [replaced_congr ends.1 ends.2 rfl]

/-- No token begins with a letter or digit, unless `current()` does. -/
theorem token?_alphanum {name : Text} (before : Option Char) (nonempty : name ≠ [])
    (all : ∀ c ∈ name, c.isAlphanum = true) (stops : Stops t) :
    Reference.token? before (name ++ t) = none := by
  obtain ⟨c, rest, rfl⟩ := List.exists_cons_of_ne_nil nonempty
  have first := all c List.mem_cons_self
  cases found : Reference.token? before ((c :: rest) ++ t) with
  | none => rfl
  | some parts =>
    obtain ⟨token, after⟩ := parts
    have step := Fragment.step_token found
    generalize whole : c :: (rest ++ t) = text at step
    cases step with
    | braced fresh valid => exact absurd (List.cons.inj whole).1 (ne_of_class first (by decide))
    | path starts isPath all stop =>
      obtain ⟨d, more, same, point⟩ := Fragment.startsPath_cons isPath
      rw [same] at whole
      rw [← (List.cons.inj whole).1] at point
      rcases point with rfl | rfl <;> exact absurd first (by decide)
    | @current path after starts _ slash stop =>
      -- Both texts begin with a run of letters and digits, and only in one a group follows it.
      have left : ((c :: rest) ++ t).dropWhile Char.isAlphanum = t :=
        dropWhile_run all (stops.head_of (by decide))
      have right : (currentCall ++ path ++ after).dropWhile Char.isAlphanum =
          '(' :: ')' :: (path ++ after) := by
        have letters : ∀ c ∈ ['c', 'u', 'r', 'r', 'e', 'n', 't'], Char.isAlphanum c = true := by decide
        have cut : currentCall ++ path ++ after =
            ['c', 'u', 'r', 'r', 'e', 'n', 't'] ++ '(' :: ')' :: (path ++ after) := by
          simp [currentCall]
        rw [cut]
        exact dropWhile_run letters rfl
      have same : t = '(' :: ')' :: (path ++ after) := by
        rw [← right, ← whole]
        exact left.symm
      have impossible := stops.head_of (p := (· == '(')) (by decide)
      rw [same] at impossible
      cases impossible

theorem replaced_alphanum (meaning : Text → Text) {name : Text} (before written : Option Char)
    (all : ∀ c ∈ name, c.isAlphanum = true) (stops : Stops t) :
    replaced meaning before written none (name ++ t) =
      name ++ replaced meaning none none none t := by
  induction name generalizing before written with
  | nil => exact replaced_stops meaning before written stops
  | cons c rest ih =>
    have noToken : Reference.token? before (c :: (rest ++ t)) = none :=
      token?_alphanum before (List.cons_ne_nil c rest) all stops
    rw [List.cons_append, replaced_plain (.char
      (isQuote_of_isAlphanum (all c List.mem_cons_self)) noToken),
      ih _ _ fun d member => all d (List.mem_cons_of_mem c member)]
    rfl

theorem isAlphanum_of_isDigit {c : Char} (digit : c.isDigit = true) : c.isAlphanum = true := by
  simp [Char.isAlphanum, digit]

/-- A point behind a digit begins no path. -/
theorem Named.numeral (n : Numeral) (stops : Stops t) : Named ctx n.render n.render t := by
  obtain ⟨digits, fraction, nonempty, digits_all, fraction_all⟩ := n
  have alphanum {c : Char} (digit : c.isDigit = true) := isAlphanum_of_isDigit digit
  rw [Named, Numeral.render]
  dsimp only
  split
  · rw [List.append_nil]
    exact replaced_alphanum _ _ _ (fun c member => alphanum (digits_all c member)) stops
  · obtain ⟨c, last⟩ : ∃ c, digits.getLast? = some c :=
      ⟨_, List.getLast?_eq_some_getLast nonempty⟩
    have digit := digits_all c (List.mem_of_getLast? last)
    have stuck : startsToken (some c) = false := by
      simp [startsToken, extendsToken, isNameChar_of_isAlphanum (alphanum digit)]
    have noToken : Reference.token? (some c) ('.' :: (fraction ++ t)) = none := by
      rw [Reference.token?, stuck]
      · rfl
      · intro inner same
        cases same
    have plain : ∀ d ∈ digits, isQuote d = false ∧ d ∉ ['$', 'c', '.', '/'] := by
      intro d member
      have digit := digits_all d member
      exact ⟨isQuote_of_isAlphanum (alphanum digit), notMem_of_class digit (by decide)⟩
    rw [List.append_assoc, replaced_append_of_plain plain, last, List.cons_append,
      Option.some_or, replaced_plain (.char (by decide) noToken), replaced_alphanum _ _ _
        (fun d member => alphanum (fraction_all d member)) stops]
    simp

/-- Replacing references changes nothing but references. -/
theorem named_pass (ctx : Context) : Pass (Named ctx) id id where
  append := Named.append
  identifier identifier stops := replaced_alphanum _ _ _ identifier.all stops
  numeral n _ stops := .numeral n stops
  literal {l t} proper stops := by
    rw [Named, replaced_plain (.literal proper), replaced_stops _ _ _ stops]
    rfl
  sign normal sign _ _ := by
    cases sign <;> cases normal <;> exact .of_plain (by decide) (Or.inr (by decide))
  word normal word _ _ := by
    cases word <;> cases normal <;> exact .of_plain (by decide) (Or.inr (by decide))
  space _ := .of_plain (by decide) (Or.inr (by decide))
  opening _ := .of_plain (by decide) (Or.inr (by decide))
  closing stops := .of_plain (by decide) (Or.inl stops)
  constant value _ stops := by cases value <;> exact .of_plain (by decide) (Or.inl stops)

theorem named_spells (ctx : Context) : Spells (Named ctx) where
  name logical _ := by
    rcases logical with rfl | rfl <;> exact .of_plain (by decide) (Or.inr (by decide))
  comma _ := .of_plain (by decide) (Or.inr (by decide))

theorem Stops.seam (stops : Stops t) (u : Text) : Seam u t := by
  have other {c : Char} (table : ∀ d ∈ [' ', ')', ','], (d == c) = false) : t.head? ≠ some c := by
    intro same
    have refused := stops.head_of table
    rw [same] at refused
    simp at refused
  exact ⟨fun _ => stops.head_of (by decide), fun _ => stops.group, fun _ => other (by decide),
    fun _ => other (by decide), fun _ => other (by decide)⟩

theorem Token.wellBraced (token : Token) : WellBraced token.text := by
  have shape := token.shape
  have plain {text : Text} (all : ∀ c ∈ text, c ≠ '$' ∧ isQuote c = false) : WellBraced text := by
    have whole : WellBraced (text ++ []) := bracesHold_append_plain all (bracesHold_nil none)
    rwa [List.append_nil] at whole
  have path {path : Text} (all : ∀ c ∈ path, isPathChar c = true) :
      ∀ c ∈ path, c ≠ '$' ∧ isQuote c = false := fun c member =>
    ⟨ne_of_class (all c member) (by decide), (isPathChar_plain (all c member)).2.2⟩
  generalize token.text = text at shape
  cases shape with
  | braced valid =>
    have whole := wellBraced_braced (fresh_of_valid valid) valid (bracesHold_nil none)
    rwa [List.append_nil] at whole
  | path starts all => exact plain (path all)
  | current all =>
    have front : ∀ c ∈ currentCall, c ≠ '$' ∧ isQuote c = false := by decide
    exact plain fun c member => (List.mem_append.1 member).elim (front c) (path all c)

/-- A token is found before a text that stops. -/
theorem Token.step (token : Token) (stops : Stops t) :
    Fragment.Step none (token.text ++ t) (.reference token.text) t := by
  obtain ⟨c, rest, same⟩ := List.exists_cons_of_ne_nil (eq_of_token? token.whole).2
  have found := token.whole
  rw [same] at found
  have step := Fragment.step_token found
  rw [← same] at step
  have closed : closes ⟨0, none⟩ token.text = true := by
    have whole := token.shape.closes_append 0 []
    rwa [List.append_nil] at whole
  exact step.append closed token.wellBraced (stops.seam _)

/-- A reference gives way to what it stands for. -/
theorem named_reference (token : Token) (stops : Stops t) :
    Named ctx token.text (ctx.meaning token.text) t := by
  have left : separator none (ctx.meaning token.text).head? = [] := rfl
  have right : separator (ctx.meaning token.text).getLast? (t.head?.or none) = [] := by
    rw [Option.or_none]
    exact separator_plain (stops.head_of (by decide))
  rw [Named, replaced_reference (token.step stops), spaced, left, right, replaced_stops _ _ _ stops,
    List.nil_append, List.append_nil]

end References

section Operators

open Operator (tokens tokens_step tokens_nil tokens_fresh startsWord booleanWord? leadsToBoolean)

variable {u t : Text}

/-- Giving operators their form in the target grammar makes `u'` of the text `u` before `t`. -/
def Normalized (u u' t : Text) : Prop := Operator.normalize (u ++ t) = u' ++ Operator.normalize t

theorem Normalized.append {u' w w' : Text} (first : Normalized u u' (w ++ t))
    (second : Normalized w w' t) : Normalized (u ++ w) (u' ++ w') t := by
  rw [Normalized] at first second ⊢
  rw [List.append_assoc, first, second, List.append_assoc]

theorem tokens_space_cons (before : Option Char) (t : Text) :
    tokens before (' ' :: t) = .space ' ' :: tokens none t := by
  rw [tokens_step (.space (by decide))]
  exact congrArg _ (Operator.tokens_congr (Or.inl rfl))

theorem step_other {c : Char} (before : Option Char) (noQuote : isQuote c = false)
    (visible : isSpace c = false) (other : c ∉ ['=', 'a', 'o']) (t : Text) :
    Operator.Token.Step before (c :: t) (.other c) t := by
  simp only [List.mem_cons, List.not_mem_nil, or_false, not_or] at other
  exact .other noQuote visible (fun equal => absurd equal other.1)
    (Operator.Token.booleanWord?_eq_none other.2.1 other.2.2 t)

theorem tokens_stops (before : Option Char) (stops : Stops t) :
    tokens before t = tokens none t := by
  have other {c : Char} (before : Option Char) (known : c = ')' ∨ c = ',') (rest : Text) :
      tokens before (c :: rest) = .other c :: tokens (some c) rest := by
    rw [tokens_step (step_other before (by rcases known with rfl | rfl <;> decide)
      (by rcases known with rfl | rfl <;> decide) (by rcases known with rfl | rfl <;> decide) rest)]
    rfl
  rcases stops.cases with rfl | ⟨c, rest, rfl, rfl | known⟩
  · rw [tokens_nil, tokens_nil]
  · rw [tokens_space_cons, tokens_space_cons]
  · rw [other before known, other none known]

theorem render_other (u : Text) (ts : List Operator.Token) :
    Operator.render false (u.map .other ++ ts) = u ++ Operator.render false ts := by
  induction u with
  | nil => rfl
  | cons c rest ih => rw [List.map_cons, List.cons_append, Operator.render, ih]; rfl

/-- Characters that no word and no sign begins with are read one by one. -/
theorem tokens_plain (before : Option Char)
    (plain : ∀ c ∈ u, isQuote c = false ∧ isSpace c = false ∧ c ∉ ['=', 'a', 'o']) :
    tokens before (u ++ t) = u.map .other ++ tokens (u.getLast?.or before) t := by
  induction u generalizing before with
  | nil => rfl
  | cons c rest ih =>
    obtain ⟨noQuote, visible, other⟩ := plain c List.mem_cons_self
    have later := ih (some c) fun d member => plain d (List.mem_cons_of_mem c member)
    rw [getLast?_cons_or, List.cons_append, tokens_step (step_other before noQuote visible other _)]
    exact congrArg _ later

/-- A run of letters and digits that is no boolean word is read character by character. -/
theorem tokens_alphanum (before : Option Char) (all : ∀ c ∈ u, c.isAlphanum = true)
    (noWord : booleanWord? before (u ++ t) = none) :
    tokens before (u ++ t) = u.map .other ++ tokens (u.getLast?.or before) t := by
  induction u generalizing before with
  | nil => rfl
  | cons c rest ih =>
    have alphanum := all c List.mem_cons_self
    have visible : isSpace c = false := not_isSpace_of_class alphanum (by decide)
    have step : Operator.Token.Step before (c :: (rest ++ t)) (.other c) (rest ++ t) :=
      .other (isQuote_of_isAlphanum alphanum) visible
        (fun equal => absurd equal (ne_of_class alphanum (by decide))) noWord
    have inner : booleanWord? (some c) (rest ++ t) = none := by
      cases found : booleanWord? (some c) (rest ++ t) with
      | none => rfl
      | some parts =>
        have starts := (Operator.Token.ends_of_booleanWord? found).1
        simp [startsWord, isNameChar_of_isAlphanum alphanum] at starts
    have later := ih (some c) (fun d member => all d (List.mem_cons_of_mem c member)) inner
    rw [getLast?_cons_or, List.cons_append, tokens_step step]
    exact congrArg _ later

theorem Normalized.of_other (same : tokens none (u ++ t) = u.map .other ++ tokens none t) :
    Normalized u u t := by
  rw [Normalized, Operator.normalize, same, render_other]
  rfl

/-- What stands before a text does not matter behind a separator, or where the text begins with
one. -/
theorem tokens_apart {before : Option Char} (apart : Stops t ∨ before.all (fun c =>
      startsWord (some c) && !(c == '!' || c == '<' || c == '>' || c == '=')) = true) :
    tokens before t = tokens none t := by
  rcases apart with stops | last
  · exact tokens_stops before stops
  · cases before with
    | none => rfl
    | some c =>
      rw [Option.all_some, Bool.and_eq_true, Bool.not_eq_true'] at last
      exact tokens_fresh last.1 last.2 t

theorem Normalized.of_plain
    (plain : ∀ c ∈ u, isQuote c = false ∧ isSpace c = false ∧ c ∉ ['=', 'a', 'o'])
    (apart : Stops t ∨ u.getLast?.all (fun c => startsWord (some c) &&
      !(c == '!' || c == '<' || c == '>' || c == '=')) = true) : Normalized u u t := by
  apply Normalized.of_other
  rw [tokens_plain none plain, Option.or_none, tokens_apart apart]

theorem leads_of_starts (starts : Starts t) : leadsToBoolean (tokens none t) = false := by
  obtain ⟨visible, noWord⟩ := starts
  cases t with
  | nil => rw [tokens_nil]; rfl
  | cons c rest =>
    have step := Operator.Token.step_next none c rest
    rw [tokens_step step]
    generalize (Operator.Token.next none c rest).1 = token at step
    generalize (Operator.Token.next none c rest).2 = later at step
    generalize whole : c :: rest = text at step noWord
    cases step with
    | space space =>
      rw [← (List.cons.inj whole).1] at space
      exact absurd (visible.symm.trans space) (by decide)
    | boolean begins ends =>
      rw [Operator.Token.booleanWord?_render begins ends] at noWord
      cases noWord
    | literal proper => rfl
    | unclosed quote fresh => rfl
    | equals alone => rfl
    | other plain visible joined noWord => rfl

theorem normalize_space (starts : Starts t) :
    Operator.normalize (' ' :: t) = ' ' :: Operator.normalize t := by
  rw [Operator.normalize, tokens_space_cons, Operator.render, leads_of_starts starts]
  rfl

/-- A sign is read as tokens that are neither spaces nor words. -/
theorem Normalized.of_sign {mid mid' : Text} {ms : List Operator.Token} (starts : Starts t)
    (cut : tokens none (mid ++ ' ' :: t) = ms ++ .space ' ' :: tokens none t)
    (inner : ∀ ts, leadsToBoolean (ms ++ ts) = false)
    (written : ∀ ts, Operator.render false (ms ++ ts) = mid' ++ Operator.render false ts) :
    Normalized (' ' :: mid ++ [' ']) (' ' :: mid' ++ [' ']) t := by
  have space := normalize_space starts
  rw [Operator.normalize, Operator.normalize, tokens_space_cons] at space
  have whole : ' ' :: mid ++ [' '] ++ t = ' ' :: (mid ++ ' ' :: t) := by simp
  rw [Normalized, whole, Operator.normalize, tokens_space_cons, cut, Operator.render, inner, written,
    space, Operator.normalize]
  simp

theorem Normalized.sign (normal : Bool) (sign : Comparison) (starts : Starts t) :
    Normalized (signText normal sign) (signText true sign) t := by
  have equals (before : Option Char) (rest : Text)
      (joined : Operator.standsAlone before rest = false) :
      tokens before ('=' :: rest) = .other '=' :: tokens (some '=') rest :=
    tokens_step (.other (by decide) (by decide) (fun _ => joined)
      (Operator.Token.booleanWord?_eq_none (by decide) (by decide) rest))
  have other (c : Char) (known : c ∈ ['!', '<', '>']) (rest : Text) :
      tokens none (c :: rest) = .other c :: tokens (some c) rest := by
    simp only [List.mem_cons, List.not_mem_nil, or_false] at known
    rcases known with rfl | rfl | rfl <;>
      exact tokens_step (step_other none (by decide) (by decide) (by decide) rest)
  have single (c : Char) (known : c ∈ ['!', '<', '>']) :
      Normalized (' ' :: [c] ++ [' ']) (' ' :: [c] ++ [' ']) t := by
    have cut : tokens none ([c] ++ ' ' :: t) = [.other c] ++ .space ' ' :: tokens none t := by
      rw [List.singleton_append, other c known, tokens_space_cons]
      rfl
    exact .of_sign starts cut (fun _ => rfl) (fun _ => rfl)
  have double (c : Char) (known : c ∈ ['!', '<', '>']) :
      Normalized (' ' :: [c, '='] ++ [' ']) (' ' :: [c, '='] ++ [' ']) t := by
    have joined : Operator.standsAlone (some c) (' ' :: t) = false := by
      simp only [List.mem_cons, List.not_mem_nil, or_false] at known
      rcases known with rfl | rfl | rfl <;> rfl
    have cut : tokens none ([c, '='] ++ ' ' :: t) =
        [.other c, .other '='] ++ .space ' ' :: tokens none t := by
      change tokens none (c :: '=' :: ' ' :: t) = _
      rw [other c known, equals _ _ joined, tokens_space_cons]
      rfl
    exact .of_sign starts cut (fun _ => rfl) (fun _ => rfl)
  cases sign with
  | equal =>
    cases normal with
    | true =>
      have cut : tokens none (['=', '='] ++ ' ' :: t) =
          [.other '=', .other '='] ++ .space ' ' :: tokens none t := by
        change tokens none ('=' :: '=' :: ' ' :: t) = _
        rw [equals none _ rfl, equals (some '=') _ rfl, tokens_space_cons]
        rfl
      have written : Normalized (' ' :: ['=', '='] ++ [' ']) (' ' :: ['=', '='] ++ [' ']) t :=
        .of_sign starts cut (fun _ => rfl) (fun _ => rfl)
      exact written
    | false =>
      have cut : tokens none (['='] ++ ' ' :: t) = [.equals] ++ .space ' ' :: tokens none t := by
        change tokens none ('=' :: ' ' :: t) = _
        rw [tokens_step (.equals rfl), tokens_space_cons]
        rfl
      have written : Normalized (' ' :: ['='] ++ [' ']) (' ' :: ['=', '='] ++ [' ']) t :=
        .of_sign starts cut (fun _ => rfl) (fun _ => rfl)
      exact written
  | unequal => exact double '!' (by decide)
  | less => exact single '<' (by decide)
  | greater => exact single '>' (by decide)
  | atMost => exact double '<' (by decide)
  | atLeast => exact double '>' (by decide)

/-- A boolean word gets two spaces on each side. -/
theorem Normalized.word (normal : Bool) (word : Operator.BooleanWord) (starts : Starts t) :
    Normalized (wordText normal word) (wordText true word) t := by
  have spaced (v : Text) (spaces : ∀ c ∈ v, isSpace c = true) (nonempty : v ≠ []) :
      Normalized (v ++ (word.render ++ v)) (wordText true word) t := by
    have head {c : Char} (same : v.head? = some c) : isNameChar c = false :=
      not_isNameChar_of_isSpace (spaces c (List.mem_of_head? same))
    obtain ⟨c, last⟩ : ∃ c, v.getLast? = some c := ⟨_, List.getLast?_eq_some_getLast nonempty⟩
    have space := spaces c (List.mem_of_getLast? last)
    have begins : startsWord (v.getLast?.or none) = true := by
      rw [last]
      exact of_isSpace (p := fun c => startsWord (some c)) space (by decide)
    have ends : Operator.endsWord (v ++ t) = true := by
      rw [Operator.endsWord, head?_append_left nonempty]
      cases found : v.head? with
      | none => rfl
      | some d => rw [Option.any_some, head found]; rfl
    have cut : tokens none (v ++ (word.render ++ v) ++ t) =
        v.map .space ++ .boolean word :: (v.map .space ++ tokens none t) := by
      rw [List.append_assoc, List.append_assoc, Operator.tokens_spaces spaces,
        tokens_step (.boolean begins ends), Operator.tokens_spaces spaces, last, Option.some_or,
        @Operator.tokens_congr (some c) t (Or.inl space)]
    rw [Normalized, Operator.normalize, cut, Operator.render_to_boolean, Operator.render_from_boolean,
      Operator.render_spaced (Operator.head_tokens starts.visible)]
    rfl
  cases normal with
  | true => exact spaced [' ', ' '] (by decide) (by decide)
  | false => exact spaced [' '] (by decide) (by decide)

theorem Normalized.name (name rest : Text) (all : ∀ c ∈ name, c.isAlphanum = true)
    (noWord : ∀ t, booleanWord? none (name ++ '(' :: t) = none)
    (plain : ∀ c ∈ rest, isQuote c = false ∧ isSpace c = false ∧ c ∉ ['=', 'a', 'o'])
    (apart : Stops t ∨ ('(' :: rest).getLast?.all (fun c => startsWord (some c) &&
      !(c == '!' || c == '<' || c == '>' || c == '=')) = true) :
    Normalized (name ++ '(' :: rest) (name ++ '(' :: rest) t := by
  have inner : ∀ c ∈ '(' :: rest, isQuote c = false ∧ isSpace c = false ∧ c ∉ ['=', 'a', 'o'] :=
    List.forall_mem_cons.2 ⟨by decide, plain⟩
  have cut : tokens none (name ++ ('(' :: rest ++ t)) =
      name.map .other ++ tokens (name.getLast?.or none) ('(' :: rest ++ t) :=
    tokens_alphanum none all (noWord (rest ++ t))
  have last : (('(' :: rest).getLast?.or (name.getLast?.or none)) = ('(' :: rest).getLast? := by
    rw [List.getLast?_cons, Option.some_or]
  apply Normalized.of_other
  rw [List.append_assoc, cut, tokens_plain _ inner, last, tokens_apart apart, List.map_append,
    List.append_assoc]

/-- Operators get their form in the target grammar, and nothing else changes. -/
theorem normalized_pass : Pass Normalized id fun _ => true where
  append := Normalized.append
  identifier {name t} identifier stops := by
    apply Normalized.of_other
    rw [tokens_alphanum none identifier.all (identifier.booleanWord? none stops.noName),
      tokens_stops _ stops]
  numeral n _ stops := by
    refine .of_plain (fun c member => ?_) (Or.inl stops)
    rcases n.mem c member with digit | rfl
    · exact ⟨isQuote_of_isAlphanum (isAlphanum_of_isDigit digit),
        not_isSpace_of_class digit (by decide), notMem_of_class digit (by decide)⟩
    · decide
  literal {l t} proper stops := by
    rw [Normalized, Operator.normalize, tokens_step (.literal proper), tokens_stops _ stops]
    rfl
  sign normal sign _ starts := .sign normal sign starts
  word normal word _ starts := .word normal word starts
  space starts := normalize_space starts
  opening _ := .of_plain (by decide) (Or.inr (by decide))
  closing stops := .of_plain (by decide) (Or.inl stops)
  constant value _ stops := by
    cases value with
    | true =>
      exact .name ['t', 'r', 'u', 'e'] [')'] (by decide)
        (fun t => Operator.Token.booleanWord?_eq_none (by decide) (by decide) _) (by decide)
        (Or.inl stops)
    | false =>
      exact .name ['f', 'a', 'l', 's', 'e'] [')'] (by decide)
        (fun t => Operator.Token.booleanWord?_eq_none (by decide) (by decide) _) (by decide)
        (Or.inl stops)

theorem normalized_spells : Spells Normalized where
  name logical _ := by
    rcases logical with rfl | rfl
    · exact .name _ [] (by decide)
        (fun t => Operator.Token.booleanWord?_eq_none (by decide) (by decide) _) (by simp)
        (Or.inr (by decide))
    · exact .name _ [] (by decide)
        (fun t => Operator.Token.booleanWord?_eq_none (by decide) (by decide) _) (by simp)
        (Or.inr (by decide))
  comma _ := .of_plain (by decide) (Or.inr (by decide))

end Operators

section Quotes

variable {u t : Text}

/-- A text with the quotes that the policy asks for. -/
def quoted (policy : QuotePolicy) (t : Text) : Text :=
  if policy = .double then Literal.requote t else t

theorem quoted_nil (policy : QuotePolicy) : quoted policy [] = [] := by
  rw [quoted, Literal.requote_nil]
  split <;> rfl

/-- Requoting makes `u'` of the text `u` before `t`. -/
def Requoted (policy : QuotePolicy) (u u' t : Text) : Prop :=
  quoted policy (u ++ t) = u' ++ quoted policy t

variable {policy : QuotePolicy}

theorem Requoted.append {u' w w' : Text} (first : Requoted policy u u' (w ++ t))
    (second : Requoted policy w w' t) : Requoted policy (u ++ w) (u' ++ w') t := by
  rw [Requoted] at first second ⊢
  rw [List.append_assoc, first, second, List.append_assoc]

theorem Requoted.of_plain (plain : ∀ c ∈ u, isQuote c = false) : Requoted policy u u t := by
  rw [Requoted, quoted, quoted]
  split
  · exact Literal.requote_append_of_noQuote plain t
  · rfl

theorem Requoted.literal {l : Literal} (proper : l.Proper) :
    Requoted policy l.render (requotedIn policy l).render t := by
  rw [Requoted, quoted, quoted]
  cases policy with
  | double => exact Literal.requote_render_append proper t
  | selectedOnly => rfl
  | preserve => rfl

/-- Literals get the quotes that the policy asks for, and nothing else changes. -/
theorem requoted_pass (policy : QuotePolicy) :
    Pass (Requoted policy) (requotedIn policy) id where
  append := Requoted.append
  identifier identifier _ :=
    .of_plain fun c member => isQuote_of_isAlphanum (identifier.all c member)
  numeral n _ _ := .of_plain fun c member => by
    rcases n.mem c member with digit | rfl
    · exact isQuote_of_isAlphanum (isAlphanum_of_isDigit digit)
    · decide
  literal proper _ := .literal proper
  sign normal sign _ _ := .of_plain (by cases sign <;> cases normal <;> decide)
  word normal word _ _ := .of_plain (by cases word <;> cases normal <;> decide)
  space _ := .of_plain (by decide)
  opening _ := .of_plain (by decide)
  closing _ := .of_plain (by decide)
  constant value _ _ := .of_plain (by cases value <;> decide)

theorem requoted_spells (policy : QuotePolicy) : Spells (Requoted policy) where
  name logical _ := .of_plain (by rcases logical with rfl | rfl <;> decide)
  comma _ := .of_plain (by decide)

end Quotes

end FormLogic.Grammar
