import FormLogic.Call.Piece
import FormLogic.Field.Reference
import FormLogic.Proofs.Grouping
import FormLogic.Proofs.Trimming

/-!
Where `${` stands outside literals. In a well-braced text it always opens a `${name}` token; a text
without it is unbraced. A token holds no quote, parenthesis or comma, so the pass that skips tokens
whole and the passes that read them character by character see the same literals and groups.
-/
namespace FormLogic.Field.Reference

open Text Call

/-- Whether each `${` outside literals stands before a text that `ok` holds of. -/
def bracesHold (ok : Text → Bool) : Option Char → Text → Bool
  | _, [] => true
  | quote, c :: rest =>
    (quote.isSome || (Piece.openedBrace? (c :: rest)).all ok) &&
      bracesHold ok (quoteAfter quote [c]) rest

/-- Each `${` outside literals opens a `${name}` token. -/
def WellBraced (t : Text) : Prop := bracesHold (fun inner => (cutBraced? inner).isSome) none t = true

/-- No `${` stands outside literals. -/
def Unbraced (t : Text) : Prop := bracesHold (fun _ => false) none t = true

/-- Whether the next brace closes `inner` where no literal is open, or none does, not in `rest`
either. -/
def closesPlainly (rest inner : Text) : Bool :=
  match cutAt? '}' inner with
  | some (name, _) => (quoteAfter none name).isNone
  | none => !rest.contains '}'

/-- No `${` reaches over the place between `u` and `rest`: the next brace behind each one outside
literals stands in `u` and in no literal, or there is none. -/
def Unhidden (u rest : Text) : Prop := bracesHold (closesPlainly rest) none u = true

instance (t : Text) : Decidable (WellBraced t) := inferInstanceAs (Decidable (_ = _))

/-- The characters of a `${name}` token between its braces. -/
def isBracedChar (c : Char) : Bool := isBracedNameChar c || isBlank c

section

variable {ok : Text → Bool}

theorem bracesHold_nil (quote : Option Char) : bracesHold ok quote [] = true := by
  rw [bracesHold]

theorem bracesHold_cons (quote : Option Char) (c : Char) (rest : Text) :
    bracesHold ok quote (c :: rest) = true ↔
      (quote = none → ∀ inner, c :: rest = '$' :: '{' :: inner → ok inner = true) ∧
        bracesHold ok (quoteAfter quote [c]) rest = true := by
  rw [bracesHold, Bool.and_eq_true, Bool.or_eq_true, Option.all_eq_true]
  refine and_congr_left fun _ => ?_
  cases quote with
  | some q => simp
  | none =>
    simp only [Option.isSome_none, Bool.false_eq_true, false_or, true_imp_iff]
    constructor
    · intro holds inner same
      exact holds inner (by rw [same]; rfl)
    · intro holds inner opened
      exact holds inner (Piece.eq_of_openedBrace? opened)

theorem quoteAfter_cons (quote : Option Char) (c : Char) (t : Text) :
    quoteAfter (quoteAfter quote [c]) t = quoteAfter quote (c :: t) := by
  rw [← quoteAfter_append]
  rfl

theorem bracesHold_mono {weaker : Text → Bool}
    (implies : ∀ inner, ok inner = true → weaker inner = true) {quote : Option Char} {t : Text}
    (holds : bracesHold ok quote t = true) : bracesHold weaker quote t = true := by
  induction t generalizing quote with
  | nil => exact bracesHold_nil quote
  | cons c rest ih =>
    obtain ⟨opened, later⟩ := (bracesHold_cons quote c rest).1 holds
    exact (bracesHold_cons quote c rest).2
      ⟨fun outside inner same => implies inner (opened outside inner same), ih later⟩

theorem bracesHold_of_append {quote : Option Char} {s t : Text}
    (holds : bracesHold ok quote (s ++ t) = true) :
    bracesHold ok (quoteAfter quote s) t = true := by
  induction s generalizing quote with
  | nil => cases quote <;> exact holds
  | cons c rest ih =>
    rw [← quoteAfter_cons]
    exact ih ((bracesHold_cons quote c (rest ++ t)).1 holds).2

theorem bracesHold_of_prefix {quote : Option Char} {s t : Text}
    (cuts : ∀ inner, ok (inner ++ t) = true → ok inner = true)
    (holds : bracesHold ok quote (s ++ t) = true) : bracesHold ok quote s = true := by
  induction s generalizing quote with
  | nil => exact bracesHold_nil quote
  | cons c rest ih =>
    obtain ⟨opened, later⟩ := (bracesHold_cons quote c (rest ++ t)).1 holds
    refine (bracesHold_cons quote c rest).2 ⟨fun outside inner same => ?_, ih later⟩
    exact cuts inner (opened outside (inner ++ t) (by rw [← List.cons_append, same]; rfl))

/-- Within a literal nothing is asked for. -/
theorem bracesHold_within {q : Char} {content : Text} (fresh : q ∉ content) (rest : Text) :
    bracesHold ok (some q) (content ++ q :: rest) = bracesHold ok none rest := by
  induction content with
  | nil =>
    rw [List.nil_append, bracesHold, quoteAfter, if_pos rfl, quoteAfter]
    rfl
  | cons c content ih =>
    simp only [List.mem_cons, not_or] at fresh
    rw [List.cons_append, bracesHold, quoteAfter, if_neg (Ne.symm fresh.1), quoteAfter, ih fresh.2]
    rfl

theorem bracesHold_open {q : Char} {content : Text} (fresh : q ∉ content) :
    bracesHold ok (some q) content = true := by
  induction content with
  | nil => exact bracesHold_nil (some q)
  | cons c content ih =>
    simp only [List.mem_cons, not_or] at fresh
    rw [bracesHold, quoteAfter, if_neg (Ne.symm fresh.1), quoteAfter, ih fresh.2]
    rfl

theorem bracesHold_unclosed {q : Char} {rest : Text} (quote : isQuote q = true)
    (fresh : q ∉ rest) : bracesHold ok none (q :: rest) = true := by
  rw [bracesHold_cons, quoteAfter, quote, if_pos rfl, quoteAfter]
  refine ⟨fun _ inner same => ?_, bracesHold_open fresh⟩
  rw [(List.cons.inj same).1] at quote
  cases quote

theorem bracesHold_plain {c : Char} {t : Text} (plain : isQuote c = false)
    (noBrace : c = '$' → t.head? ≠ some '{') (holds : bracesHold ok none t = true) :
    bracesHold ok none (c :: t) = true := by
  rw [bracesHold_cons, quoteAfter, plain]
  refine ⟨fun _ inner same => ?_, holds⟩
  obtain ⟨dollar, brace⟩ := List.cons.inj same
  rw [brace] at noBrace
  exact absurd rfl (noBrace dollar)

/-- A text without dollar signs and quotes may stand before any other. -/
theorem bracesHold_append_plain {s t : Text} (plain : ∀ c ∈ s, c ≠ '$' ∧ isQuote c = false)
    (holds : bracesHold ok none t = true) : bracesHold ok none (s ++ t) = true := by
  induction s with
  | nil => exact holds
  | cons c rest ih =>
    obtain ⟨noDollar, noQuote⟩ := plain c (by simp)
    exact bracesHold_plain noQuote (fun same => absurd same noDollar)
      (ih fun d member => plain d (List.mem_cons_of_mem c member))

theorem bracesHold_literal {l : Literal} (proper : l.Proper) {t : Text}
    (holds : bracesHold ok none t = true) : bracesHold ok none (l.render ++ t) = true := by
  have quote := proper.quote_isQuote
  rw [Literal.cons_quote_append, bracesHold_cons, quoteAfter, quote, if_pos rfl, quoteAfter,
    bracesHold_within proper.quote_notMem]
  refine ⟨fun _ inner same => ?_, holds⟩
  rw [(List.cons.inj same).1] at quote
  cases quote

/-- Texts may be put together where no `${` arises at the seam. -/
theorem bracesHold_append (prolongs : ∀ inner t, ok inner = true → ok (inner ++ t) = true)
    {quote : Option Char} {s t : Text} (left : bracesHold ok quote s = true)
    (right : bracesHold ok (quoteAfter quote s) t = true)
    (seam : s.getLast? = some '$' → t.head? ≠ some '{') :
    bracesHold ok quote (s ++ t) = true := by
  induction s generalizing quote with
  | nil => cases quote <;> exact right
  | cons c rest ih =>
    obtain ⟨holds, left⟩ := (bracesHold_cons quote c rest).1 left
    rw [List.cons_append, bracesHold_cons]
    constructor
    · intro outside inner same
      cases rest with
      | nil =>
        rw [List.nil_append, List.cons.injEq] at same
        rw [same.1, same.2] at seam
        exact absurd rfl (seam rfl)
      | cons d more =>
        simp only [List.cons_append, List.cons.injEq] at same
        obtain ⟨rfl, rfl, rfl⟩ := same
        exact prolongs more t (holds outside more rfl)
    · rw [← quoteAfter_cons] at right
      refine ih left right fun last => seam ?_
      rw [List.getLast?_cons, last]
      rfl

end

theorem cutBraced?_eq_some_iff {inner token after : Text} :
    cutBraced? inner = some (token, after) ↔
      ∃ name, inner = name ++ '}' :: after ∧ '}' ∉ name ∧ (bracedName? name).isSome = true ∧
        token = '$' :: '{' :: name ++ ['}'] := by
  constructor
  · intro found
    unfold cutBraced? at found
    split at found
    · next name rest cut =>
      obtain ⟨whole, fresh⟩ := cutAt?_eq_some_iff.1 cut
      split at found
      · next valid =>
        cases found
        exact ⟨name, whole, fresh, valid, rfl⟩
      · cases found
    · cases found
  · rintro ⟨name, rfl, fresh, valid, rfl⟩
    rw [cutBraced?, cutAt?_append_cons fresh]
    simp only [valid, ↓reduceIte]

theorem cutBraced?_append {inner token after : Text}
    (found : cutBraced? inner = some (token, after)) (tail : Text) :
    cutBraced? (inner ++ tail) = some (token, after ++ tail) := by
  obtain ⟨name, rfl, fresh, valid, rfl⟩ := cutBraced?_eq_some_iff.1 found
  exact cutBraced?_eq_some_iff.2 ⟨name, by simp, fresh, valid, rfl⟩

theorem isBracedChar_of_mem {name : Text} (valid : (bracedName? name).isSome = true) :
    ∀ c ∈ name, isBracedChar c = true := by
  intro c member
  have named : (trim name).all isBracedNameChar = true := by
    unfold bracedName? at valid
    dsimp only at valid
    split at valid
    · next both => exact both.2
    · cases valid
  obtain ⟨lead, trail, whole, leadBlank, trailBlank⟩ := trim_split name
  rw [whole, List.mem_append, List.mem_append] at member
  rw [isBracedChar, Bool.or_eq_true]
  rcases member with member | member | member
  · exact Or.inr (leadBlank c member)
  · exact Or.inl (List.all_eq_true.1 named c member)
  · exact Or.inr (trailBlank c member)

theorem fresh_of_valid {name : Text} (valid : (bracedName? name).isSome = true) : '}' ∉ name :=
  fun member => absurd (isBracedChar_of_mem valid '}' member) (by decide)

/-- The characters that a `${name}` token is made of are neither quotes nor parentheses. -/
theorem braced_plain {name : Text} (valid : (bracedName? name).isSome = true) :
    ∀ c ∈ ['$', '{'] ++ name ++ ['}'], c ≠ '(' ∧ c ≠ ')' ∧ isQuote c = false := by
  intro c member
  simp only [List.mem_append, List.mem_cons, List.not_mem_nil, or_false] at member
  rcases member with ((rfl | rfl) | member) | rfl
  · decide
  · decide
  · have inner := isBracedChar_of_mem valid c member
    exact ⟨ne_of_class inner (by decide), ne_of_class inner (by decide),
      not_isQuote inner (by decide) (by decide)⟩
  · decide

theorem wellBraced_braced {name t : Text} (fresh : '}' ∉ name)
    (valid : (bracedName? name).isSome = true) (wellBraced : WellBraced t) :
    WellBraced (['$', '{'] ++ name ++ ['}'] ++ t) := by
  have plain : ∀ c ∈ '{' :: (name ++ ['}']), c ≠ '$' ∧ isQuote c = false := by
    intro c member
    have inside : c = '{' ∨ c ∈ name ∨ c = '}' := by simpa using member
    rcases inside with rfl | member | rfl
    · decide
    · have inner := isBracedChar_of_mem valid c member
      exact ⟨ne_of_class inner (by decide), not_isQuote inner (by decide) (by decide)⟩
    · decide
  have rest : WellBraced ('{' :: (name ++ ['}']) ++ t) := bracesHold_append_plain plain wellBraced
  have whole : ['$', '{'] ++ name ++ ['}'] ++ t = '$' :: ('{' :: (name ++ ['}']) ++ t) := by simp
  rw [whole, WellBraced, bracesHold_cons]
  refine ⟨fun _ inner same => ?_, rest⟩
  have same : name ++ '}' :: t = inner := by simpa using same
  rw [← same, cutBraced?_eq_some_iff.2 ⟨name, rfl, fresh, valid, rfl⟩]
  rfl

theorem closes_braced_append {name : Text} (valid : (bracedName? name).isSome = true) (depth : Nat)
    (rest : Text) :
    closes ⟨depth, none⟩ (['$', '{'] ++ name ++ ['}'] ++ rest) = closes ⟨depth, none⟩ rest :=
  closes_append_of_plain (braced_plain valid) depth rest

theorem cutBraced?_extends (inner t : Text) (found : (cutBraced? inner).isSome = true) :
    (cutBraced? (inner ++ t)).isSome = true := by
  obtain ⟨⟨token, after⟩, same⟩ := Option.isSome_iff_exists.1 found
  rw [cutBraced?_append same]
  rfl

theorem WellBraced.append {s t : Text} (left : WellBraced s) (terminated : Terminated s)
    (right : WellBraced t) (seam : s.getLast? = some '$' → t.head? ≠ some '{') :
    WellBraced (s ++ t) :=
  bracesHold_append cutBraced?_extends left (by rw [terminated]; exact right) seam

theorem WellBraced.of_append {s t : Text} (whole : WellBraced (s ++ t))
    (terminated : Terminated s) : WellBraced t := by
  have right := bracesHold_of_append whole
  rwa [terminated] at right

theorem Unbraced.of_append {s t : Text} (whole : Unbraced (s ++ t)) (terminated : Terminated s) :
    Unbraced t := by
  have right := bracesHold_of_append whole
  rwa [terminated] at right

theorem Unbraced.noBrace {c : Char} {t : Text} (unbraced : Unbraced (c :: t)) (dollar : c = '$') :
    t.head? ≠ some '{' := by
  intro brace
  cases t with
  | nil => cases brace
  | cons d inner =>
    rw [List.head?_cons, Option.some.injEq] at brace
    rw [Unbraced, bracesHold_cons] at unbraced
    exact absurd (unbraced.1 rfl inner (by rw [dollar, brace])) Bool.false_ne_true

theorem Unbraced.wellBraced {t : Text} (unbraced : Unbraced t) : WellBraced t :=
  bracesHold_mono (fun _ impossible => absurd impossible Bool.false_ne_true) unbraced

theorem Unhidden.of_append {s t rest : Text} (whole : Unhidden (s ++ t) rest)
    (terminated : Terminated s) : Unhidden t rest := by
  have right := bracesHold_of_append whole
  rwa [terminated] at right

theorem Unhidden.opened {inner rest : Text} (unhidden : Unhidden ('$' :: '{' :: inner) rest) :
    (∃ name after, inner = name ++ '}' :: after ∧ '}' ∉ name ∧ Terminated name) ∨
      '}' ∉ inner ++ rest := by
  have closes := ((bracesHold_cons none '$' ('{' :: inner)).1 unhidden).1 rfl inner rfl
  unfold closesPlainly at closes
  split at closes
  · next name after cut =>
    obtain ⟨whole, fresh⟩ := cutAt?_eq_some_iff.1 cut
    exact Or.inl ⟨name, after, whole, fresh, Option.isNone_iff_eq_none.1 closes⟩
  · next uncut =>
    have absent := cutAt?_eq_none_iff.1 uncut
    exact Or.inr (by simpa [absent] using closes)

/-- Each `${` of a well-braced text is closed by its token's brace. -/
theorem WellBraced.unhidden {t : Text} (wellBraced : WellBraced t) (rest : Text) :
    Unhidden t rest := by
  refine bracesHold_mono (fun inner found => ?_) wellBraced
  obtain ⟨⟨token, after⟩, same⟩ := Option.isSome_iff_exists.1 found
  obtain ⟨name, rfl, fresh, valid, _⟩ := cutBraced?_eq_some_iff.1 same
  rw [closesPlainly, cutAt?_append_cons fresh]
  refine Option.isNone_iff_eq_none.2 (terminated_of_noQuote fun c member => ?_)
  exact (braced_plain valid c (by simp [member])).2.2

/-- The `${name}` token that a well-braced text begins with. -/
theorem WellBraced.opened {inner : Text} (wellBraced : WellBraced ('$' :: '{' :: inner)) :
    ∃ name after, inner = name ++ '}' :: after ∧ '}' ∉ name ∧
      (bracedName? name).isSome = true := by
  have found := ((bracesHold_cons none '$' ('{' :: inner)).1 wellBraced).1 rfl inner rfl
  obtain ⟨⟨token, after⟩, same⟩ := Option.isSome_iff_exists.1 found
  obtain ⟨name, whole, fresh, valid, _⟩ := cutBraced?_eq_some_iff.1 same
  exact ⟨name, after, whole, fresh, valid⟩

/-- A token is not completed behind a seam where no name can be: it stands before it. -/
theorem cutBraced?_of_append {inner t : Text}
    (apart : ∀ name after, t = name ++ '}' :: after → ∃ c ∈ name, isBracedChar c = false)
    (found : (cutBraced? (inner ++ t)).isSome = true) : (cutBraced? inner).isSome = true := by
  obtain ⟨⟨token, after⟩, cut⟩ := Option.isSome_iff_exists.1 found
  obtain ⟨name, whole, fresh, valid, rfl⟩ := cutBraced?_eq_some_iff.1 cut
  rcases List.append_eq_append_iff.1 whole with ⟨more, left, right⟩ | ⟨more, left, right⟩
  · -- The brace would stand behind the seam, and the end of the name between them.
    obtain ⟨c, member, outside⟩ := apart more after right
    rw [isBracedChar_of_mem valid c (by rw [left]; exact List.mem_append_right _ member)] at outside
    cases outside
  · cases more with
    | nil =>
      obtain ⟨c, member, _⟩ := apart [] after right.symm
      cases member
    | cons d more =>
      have inside : cutBraced? inner = some ('$' :: '{' :: name ++ ['}'], more) :=
        cutBraced?_eq_some_iff.2 ⟨name, by rw [left, (List.cons.inj right).1], fresh, valid, rfl⟩
      rw [inside]
      rfl

/-- A character that cannot stand in a token, outside literals, ends what came before it. -/
theorem WellBraced.of_append_cons {s : Text} {stop : Char} {t : Text}
    (whole : WellBraced (s ++ stop :: t)) (outsideTokens : isBracedChar stop = false)
    (notBrace : stop ≠ '}') : WellBraced s := by
  refine bracesHold_of_prefix (fun inner => cutBraced?_of_append fun name after same => ?_) whole
  cases name with
  | nil => exact absurd (List.cons.inj same).1 notBrace
  | cons c name =>
    rw [(List.cons.inj same).1] at outsideTokens
    exact ⟨c, List.mem_cons_self, outsideTokens⟩

/-- A text without a closing brace completes no token that stands before it. -/
theorem WellBraced.of_append_left {s t : Text} (whole : WellBraced (s ++ t)) (fresh : '}' ∉ t) :
    WellBraced s := by
  refine bracesHold_of_prefix (fun inner => cutBraced?_of_append fun name after same => ?_) whole
  exact absurd (by rw [same]; simp) fresh

end FormLogic.Field.Reference
