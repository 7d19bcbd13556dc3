import FormLogic.Proofs.Grammar

/-!
What the expressions of the source grammar mean in the target grammar, and the styles that lie
between the two: comparisons take the place of `selected` calls first, then identifiers that of
references, then operators get their form and literals their quotes. Identifiers are names of
letters and digits and answer codes hold no quotes, so every style has a leaf where the other styles
have one.
-/
namespace FormLogic.Field.Registry

/-- Identifiers are names of letters and digits, and no answer code holds a quote. -/
def Plain (r : Registry) : Prop :=
  ∀ e ∈ r.entries, Grammar.IsIdentifier e.identifier ∧
    ∀ choice ∈ e.choices, ∀ c ∈ choice.2, Text.isQuote c = false

instance (r : Registry) : Decidable r.Plain :=
  inferInstanceAs (Decidable (∀ e ∈ r.entries, Grammar.IsIdentifier e.identifier ∧
    ∀ choice ∈ e.choices, ∀ c ∈ choice.2, Text.isQuote c = false))

end FormLogic.Field.Registry

namespace FormLogic.Grammar

open Text Call FormLogic.Field FormLogic.Field.Reference FormLogic.Conversion

/-- A field is found for the reference. -/
def Known (ctx : Context) (token : Text) : Prop :=
  (ctx.registry.resolve token ctx.owner).found?.isSome = true

instance (ctx : Context) (token : Text) : Decidable (Known ctx token) :=
  inferInstanceAs (Decidable (_ = _))

/-- The value that a `selected` call is about, as a literal: the answer code that the field declares
for it, or else the value itself. -/
def answer (ctx : Context) (token : Text) (l : Literal) : Literal :=
  let entry := (ctx.registry.resolve token ctx.owner).found?
  let content := (entry.bind (·.answerCode? l.content)).getD l.content
  match ctx.options.quotePolicy with
  | .preserve => ⟨l.quote, content⟩
  | .selectedOnly | .double => ⟨Literal.quoteFor content, content⟩

/-- A `selected` call in the target grammar. -/
def comparisonText (ctx : Context) (token : Text) (l : Literal) : Text :=
  ['('] ++ (ctx.meaning token ++ (signText true .equal ++ ((answer ctx token l).render ++ [')'])))

/-- A literal with the quotes that the policy asks for. -/
def requotedIn (policy : QuotePolicy) (l : Literal) : Literal :=
  match policy with
  | .double => ⟨Literal.quoteFor l.content, l.content⟩
  | .selectedOnly | .preserve => l

namespace Style

variable (ctx : Context)

def compared : Style := { source with selected := comparisonText ctx }

def named : Style := { compared ctx with reference := ctx.meaning }

def spelled : Style := { named ctx with normal := true }

/-- The target grammar. -/
def target : Style := { spelled ctx with literal := requotedIn ctx.options.quotePolicy }

end Style

/-- An expression in the target grammar: identifiers for references, `==` for `=`, comparisons for
`selected` calls, and two spaces around boolean words. -/
def Expression.translate (ctx : Context) (e : Expression) : Text :=
  e.write (.target ctx) (.target ctx)

section Identifier

variable {name t : Text}

theorem isNameChar_of_isAlphanum {c : Char} (holds : c.isAlphanum = true) : isNameChar c = true := by
  simp [isNameChar, holds]

/-- What holds of a name's characters is seen at the text behind it. -/
theorem Stops.noName (stops : Stops t) : t.head?.any isNameChar = false :=
  stops.head_of (by decide)

theorem IsIdentifier.nonempty (identifier : IsIdentifier name) : name ≠ [] := by
  rintro rfl
  have head := identifier.head
  cases head

theorem IsIdentifier.names (identifier : IsIdentifier name) : ∀ c ∈ name, isNameChar c = true :=
  fun c member => isNameChar_of_isAlphanum (identifier.all c member)

/-- No boolean word stands where a longer or another run of letters and digits does. -/
theorem booleanWord?_alphanum (all : ∀ c ∈ name, c.isAlphanum = true)
    (noWord : ∀ word : Operator.BooleanWord, name ≠ word.render) (before : Option Char)
    (stop : t.head?.any isNameChar = false) : Operator.booleanWord? before (name ++ t) = none := by
  cases found : Operator.booleanWord? before (name ++ t) with
  | none => rfl
  | some parts =>
    obtain ⟨word, after⟩ := parts
    obtain ⟨_, ends⟩ := Operator.Token.ends_of_booleanWord? found
    have whole := Operator.eq_of_booleanWord? found
    have names : ∀ c ∈ word.render, isNameChar c = true := by cases word <;> decide
    have stop' : after.head?.any isNameChar = false := by simpa [Operator.endsWord] using ends
    have run := takeWhile_run (fun c member => isNameChar_of_isAlphanum (all c member)) stop
    rw [whole, takeWhile_run names stop'] at run
    exact absurd run.symm (noWord word)

theorem IsIdentifier.booleanWord? (identifier : IsIdentifier name) (before : Option Char)
    (stop : t.head?.any isNameChar = false) : Operator.booleanWord? before (name ++ t) = none :=
  booleanWord?_alphanum identifier.all identifier.noWord before stop

theorem IsIdentifier.starts (identifier : IsIdentifier name) (stops : Stops t) :
    Starts (name ++ t) := by
  refine ⟨?_, identifier.booleanWord? none stops.noName⟩
  rw [head?_append_left identifier.nonempty]
  cases found : name.head? with
  | none => rfl
  | some c =>
    have alphanum := identifier.all c (List.mem_of_head? found)
    exact not_isSpace_of_class alphanum (by decide)

end Identifier

section Plain

variable {ctx : Context}

theorem meaning_of_found {token : Text} {e : Entry}
    (found : (ctx.registry.resolve token ctx.owner).found? = some e) :
    ctx.meaning token = e.identifier := by
  rw [Context.meaning]
  cases resolution : ctx.registry.resolve token ctx.owner with
  | resolved other =>
    rw [resolution] at found
    rw [Option.some.inj found]
    rfl
  | unresolved text =>
    rw [resolution] at found
    cases found

/-- The text for a known reference is an identifier. -/
theorem meaning_identifier (plain : ctx.registry.Plain) {token : Text} (known : Known ctx token) :
    IsIdentifier (ctx.meaning token) := by
  obtain ⟨e, found⟩ := Option.isSome_iff_exists.1 known
  rw [meaning_of_found found]
  exact (plain e (Registry.mem_of_found? found)).1

theorem isQuote_of_isAlphanum {c : Char} (holds : c.isAlphanum = true) : isQuote c = false :=
  not_isQuote holds (by decide) (by decide)

theorem answer_proper (codes : ∀ e ∈ ctx.registry.entries, ∀ choice ∈ e.choices, ∀ c ∈ choice.2,
      isQuote c = false) (token : Text) {l : Literal} (proper : l.Proper) :
    (answer ctx token l).Proper := by
  have content : ((ctx.registry.resolve token ctx.owner).found?.bind
        (·.answerCode? l.content)).getD l.content = l.content ∨
      ∀ c ∈ ((ctx.registry.resolve token ctx.owner).found?.bind
        (·.answerCode? l.content)).getD l.content, isQuote c = false := by
    cases found : (ctx.registry.resolve token ctx.owner).found? with
    | none => exact Or.inl rfl
    | some e =>
      rw [Option.bind_some]
      cases code : e.answerCode? l.content with
      | none => exact Or.inl rfl
      | some text =>
        obtain ⟨choice, member, rfl⟩ := mem_of_answerCode? code
        exact Or.inr fun c inside => codes e (Registry.mem_of_found? found) choice member c inside
  have fresh {text : Text} {q : Char} (noQuote : ∀ c ∈ text, isQuote c = false)
      (quote : isQuote q = true) : q ∉ text := by
    intro member
    rw [noQuote q member] at quote
    cases quote
  unfold answer
  dsimp only
  rcases content with same | noQuote
  · rw [same]
    cases ctx.options.quotePolicy with
    | preserve => exact proper
    | selectedOnly => exact proper.proper_quoteFor
    | double => exact proper.proper_quoteFor
  · cases ctx.options.quotePolicy with
    | preserve => exact ⟨proper.quote_isQuote, fresh noQuote proper.quote_isQuote⟩
    | selectedOnly => exact Literal.proper_quoteFor fun _ => fresh noQuote (by decide)
    | double => exact Literal.proper_quoteFor fun _ => fresh noQuote (by decide)

theorem requotedIn_proper (policy : QuotePolicy) {l : Literal} (proper : l.Proper) :
    (requotedIn policy l).Proper := by
  cases policy with
  | double => exact proper.proper_quoteFor
  | selectedOnly => exact proper
  | preserve => exact proper

theorem requotedIn_requotedIn (policy : QuotePolicy) (l : Literal) :
    requotedIn policy (requotedIn policy l) = requotedIn policy l := by
  cases policy <;> rfl

theorem requotedIn_answer (token : Text) (l : Literal) :
    requotedIn ctx.options.quotePolicy (answer ctx token l) = answer ctx token l := by
  unfold answer
  cases ctx.options.quotePolicy <;> rfl

end Plain

theorem Token.shape (token : Token) : Shape token.text := by
  obtain ⟨c, rest, same⟩ := List.exists_cons_of_ne_nil (eq_of_token? token.whole).2
  have found := token.whole
  rw [same] at found ⊢
  exact (Fragment.step_token found).shape

section Begins

variable {ctx : Context}

theorem Token.starts (token : Token) (t : Text) : Starts (token.text ++ t) := by
  have shape := token.shape
  generalize token.text = text at shape
  cases shape with
  | braced valid => exact starts_of_head (by decide) (by decide) (by decide)
  | current all => exact starts_of_head (by decide) (by decide) (by decide)
  | path starts all =>
    cases text with
    | nil => simp at starts
    | cons c rest =>
      simp only [List.head?_cons, Option.some.injEq] at starts
      rcases starts with rfl | rfl
      · exact starts_of_head (by decide) (by decide) (by decide)
      · exact starts_of_head (by decide) (by decide) (by decide)

theorem starts_comparison (token : Text) (l : Literal) (t : Text) :
    Starts (comparisonText ctx token l ++ t) :=
  starts_of_head (by decide) (by decide) (by decide)

theorem source_begins : Style.source.Begins (Known ctx) where
  reference token _ _ _ := token.starts _
  selected _ _ _ _ := starts_of_head (by decide) (by decide) (by decide)
  proper _ proper := proper

theorem compared_begins : (Style.compared ctx).Begins (Known ctx) where
  reference token _ _ _ := token.starts _
  selected field value _ _ := starts_comparison field.text value.1 _
  proper _ proper := proper

theorem named_begins (plain : ctx.registry.Plain) : (Style.named ctx).Begins (Known ctx) where
  reference _ _ known stops := (meaning_identifier plain known).starts stops
  selected field value _ _ := starts_comparison field.text value.1 _
  proper _ proper := proper

theorem spelled_begins (plain : ctx.registry.Plain) : (Style.spelled ctx).Begins (Known ctx) where
  reference _ _ known stops := (meaning_identifier plain known).starts stops
  selected field value _ _ := starts_comparison field.text value.1 _
  proper _ proper := proper

theorem target_begins (plain : ctx.registry.Plain) : (Style.target ctx).Begins (Known ctx) where
  reference _ _ known stops := (meaning_identifier plain known).starts stops
  selected field value _ _ := starts_comparison field.text value.1 _
  proper _ proper := requotedIn_proper _ proper

end Begins

section Fixed

variable {R : Text → Text → Text → Prop} {requoted : Literal → Literal} {spelled : Bool → Bool}
  {ctx : Context} {t : Text}

/-- A pass that leaves a literal alone leaves the right side of a comparison with it alone. -/
theorem Pass.rightSide (pass : Pass R requoted spelled) (normal : spelled true = true) {l : Literal}
    (proper : l.Proper) (kept : requoted l = l) (stops : Stops t) :
    R (signText true .equal ++ (l.render ++ [')'])) (signText true .equal ++ (l.render ++ [')'])) t := by
  have sign := pass.sign true .equal (t := l.render ++ ([')'] ++ t)) <| by
    rw [Literal.cons_quote_append]
    exact starts_of_head (of_isQuote proper.quote_isQuote (by decide))
      (ne_of_class proper.quote_isQuote (by decide)) (ne_of_class proper.quote_isQuote (by decide))
  have literal := pass.literal proper (stops_closing t)
  rw [normal] at sign
  rw [kept] at literal
  exact pass.append (by rw [List.append_assoc]; exact sign) (pass.append literal (pass.closing stops))

/-- A pass that leaves the literals of comparisons alone leaves comparisons alone. -/
theorem Pass.comparison (pass : Pass R requoted spelled) (plain : ctx.registry.Plain)
    (normal : spelled true = true)
    (answers : ∀ token l, requoted (answer ctx token l) = answer ctx token l) (field : Token)
    (value : ProperLiteral) (known : Known ctx field.text) (stops : Stops t) :
    R (comparisonText ctx field.text value.1) (comparisonText ctx field.text value.1) t := by
  have proper := answer_proper (fun e member => (plain e member).2) field.text value.2
  refine pass.append (pass.opening _) (pass.append
    (pass.identifier (meaning_identifier plain known) ?_)
    (pass.rightSide normal proper (answers _ _) stops))
  rw [List.append_assoc]
  exact stops_sign true .equal _

/-- A pass that leaves literals and operators in the target grammar alone leaves leaves in the target
grammar alone. -/
theorem Pass.carries_target (pass : Pass R requoted spelled) (plain : ctx.registry.Plain)
    (normal : spelled true = true)
    (answers : ∀ token l, requoted (answer ctx token l) = answer ctx token l)
    (literals : ∀ l, requoted (requotedIn ctx.options.quotePolicy l) =
      requotedIn ctx.options.quotePolicy l) (height : Nat) :
    Carries R requoted spelled (Known ctx) height (.target ctx) (.target ctx) where
  begins := target_begins plain
  literal l := (literals l).symm
  normal := normal.symm
  reference _ _ known stops := pass.identifier (meaning_identifier plain known) stops
  selected field value _ known _ stops := pass.comparison plain normal answers field value known stops

end Fixed

section Trimmed

/-- The text has two ends, and neither is white space. -/
structure Framed (t : Text) : Prop where
  head : t.head?.any isBlank = false
  last : t.getLast?.any isBlank = false
  nonempty : t ≠ []

theorem Framed.trim {t : Text} (framed : Framed t) (lead : Text) (blank : Blank lead) :
    Text.trim (lead ++ t) = t := by
  have outer {found : Option Char} (visible : found.any isBlank = false) :
      ∀ c ∈ found, isBlank c = false := by
    rintro c rfl
    exact visible
  have whole := trim_blank_append ⟨outer framed.head, outer framed.last⟩ blank blank_nil
  rwa [List.append_nil] at whole

theorem Framed.append {u w : Text} (left : Framed u) (right : Framed w) (v : Text) :
    Framed (u ++ (v ++ w)) := by
  obtain ⟨c, rest, rfl⟩ := List.exists_cons_of_ne_nil right.nonempty
  refine ⟨?_, ?_, ?_⟩
  · rw [head?_append_left left.nonempty]
    exact left.head
  · rw [← List.append_assoc, getLast?_append_cons]
    exact right.last
  · exact List.append_ne_nil_of_left_ne_nil left.nonempty _

theorem framed_parens (v : Text) : Framed (['('] ++ (v ++ [')'])) :=
  .append (u := ['(']) ⟨rfl, rfl, List.cons_ne_nil _ _⟩ ⟨rfl, rfl, List.cons_ne_nil _ _⟩ v

theorem framed_of_isAlphanum {t : Text} (nonempty : t ≠ []) (all : ∀ c ∈ t, c.isAlphanum = true) :
    Framed t := by
  have ends := trimmed_of_isAlphanum all
  exact ⟨(Option.any_eq_false _ _).2 ends.head, (Option.any_eq_false _ _).2 ends.last, nonempty⟩

theorem framed_literal {l : Literal} (proper : l.Proper) : Framed l.render := by
  have visible : isBlank l.quote = false := of_isQuote proper.quote_isQuote (by decide)
  have quote : Framed [l.quote] := ⟨visible, visible, List.cons_ne_nil _ _⟩
  have whole : l.render = [l.quote] ++ (l.content ++ [l.quote]) := rfl
  rw [whole]
  exact quote.append quote _

theorem Numeral.mem (n : Numeral) : ∀ c ∈ n.render, c.isDigit = true ∨ c = '.' := by
  intro c member
  rw [Numeral.render, List.mem_append] at member
  rcases member with member | member
  · exact Or.inl (n.digits_all c member)
  · split at member
    · cases member
    · rcases List.mem_cons.1 member with rfl | member
      · exact Or.inr rfl
      · exact Or.inl (n.fraction_all c member)

theorem Numeral.framed (n : Numeral) : Framed n.render := by
  have alphanum {c : Char} (digit : c.isDigit = true) : c.isAlphanum = true := by
    simp [Char.isAlphanum, digit]
  have digits : Framed n.digits :=
    framed_of_isAlphanum n.nonempty fun c member => alphanum (n.digits_all c member)
  rw [Numeral.render]
  split
  · rw [List.append_nil]
    exact digits
  · next nonempty =>
    exact digits.append (v := ['.']) (framed_of_isAlphanum nonempty fun c member =>
      alphanum (n.fraction_all c member))

theorem framed_callText {name : Text} (logical : IsLogical name) (arguments : List Text) :
    Framed (callText name arguments) := by
  have named : Framed name := by
    rcases logical with rfl | rfl <;> exact ⟨by decide, by decide, by decide⟩
  have closing : Framed [')'] := ⟨rfl, rfl, List.cons_ne_nil _ _⟩
  have whole : callText name arguments =
      name ++ ('(' :: [',', ' '].intercalate arguments ++ [')']) := by simp [callText]
  rw [whole]
  exact named.append closing _

variable {ctx : Context}

theorem framed_operand (plain : ctx.registry.Plain) (o : Operand)
    (known : ∀ token ∈ o.tokens, Known ctx token) : Framed ((Style.target ctx).operand o) := by
  cases o with
  | reference token =>
    have identifier := meaning_identifier plain (known _ List.mem_cons_self)
    exact framed_of_isAlphanum identifier.nonempty identifier.all
  | numeral n => exact n.framed
  | literal l => exact framed_literal (requotedIn_proper _ l.2)

/-- White space stands neither before nor behind an expression in the target grammar. -/
theorem framed_translate (plain : ctx.registry.Plain) (e : Expression)
    (known : ∀ token ∈ e.tokens, Known ctx token) : Framed (e.translate ctx) := by
  unfold Expression.translate
  induction e with
  | operand o => exact framed_operand plain o known
  | comparison left sign right =>
    exact (framed_operand plain left fun token member => known token
      (List.mem_append_left _ member)).append (framed_operand plain right fun token member =>
        known token (List.mem_append_right _ member)) _
  | selected field value =>
    have whole : comparisonText ctx field.text value.1 = ['('] ++ ((ctx.meaning field.text ++
        (signText true .equal ++ (answer ctx field.text value.1).render)) ++ [')']) := by
      simp [comparisonText]
    rw [Expression.write]
    exact (congrArg Framed whole).mpr (framed_parens _)
  | negation e ih => exact framed_callText (Or.inl rfl) _
  | choice test whenTrue whenFalse _ _ _ => exact framed_callText (Or.inr rfl) _
  | group e ih => exact framed_parens _
  | boolean word left right ihLeft ihRight =>
    exact (ihLeft fun token member => known token (List.mem_append_left _ member)).append
      (ihRight fun token member => known token (List.mem_append_right _ member)) _
  | constant value => cases value <;> exact ⟨rfl, rfl, List.cons_ne_nil _ _⟩

end Trimmed

end FormLogic.Grammar
