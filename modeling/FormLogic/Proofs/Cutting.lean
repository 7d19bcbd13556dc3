import FormLogic.Proofs.Translation
import FormLogic.Proofs.Unquoting

/-!
How the two stages act on expressions of the source grammar. Outside the calls that it replaces a
stage changes nothing. A call of a logical function is cut out with its arguments as they are
written, a space before each but the first; a `selected` call is cut out with the reference and the
literal.
-/
namespace FormLogic.Grammar

open Text Call FormLogic.Field FormLogic.Field.Reference FormLogic.Conversion

/-- A stage makes `u'` of the text `u` before `t`, and the arguments of the calls in `u` are
ready. -/
def Cut (ctx : Context) (convert : Text → Text) (ready : Text → Prop) (stage : Stage)
    (u u' t : Text) : Prop :=
  ∃ ps, pieces (Context.accepts stage) none (u ++ t) =
      ps ++ pieces (Context.accepts stage) none t ∧
    ps.flatMap (Piece.rewritten (ctx.replacement convert)) = u' ∧
    ∀ c, .call c ∈ ps → ∀ a ∈ c.arguments, ready a

section Cut

variable {ctx : Context} {convert : Text → Text} {ready : Text → Prop} {stage : Stage}
  {u u' w w' t : Text}

theorem Cut.append (first : Cut ctx convert ready stage u u' (w ++ t))
    (second : Cut ctx convert ready stage w w' t) :
    Cut ctx convert ready stage (u ++ w) (u' ++ w') t := by
  obtain ⟨ps, same, rfl, inside⟩ := first
  obtain ⟨qs, same', rfl, inside'⟩ := second
  refine ⟨ps ++ qs, ?_, List.flatMap_append, fun c member => ?_⟩
  · rw [List.append_assoc, same, same', List.append_assoc]
  · rcases List.mem_append.1 member with member | member
    · exact inside c member
    · exact inside' c member

/-- Text without calls stays as it is, where what stands behind it is read by itself. -/
theorem Cut.of_passes (passes : Passes (Context.accepts stage) none u t)
    (apart : u.getLast?.all (fun c => startsToken (some c)) = true ∨
      t.head?.any isNameStart = false) : Cut ctx convert ready stage u u t := by
  obtain ⟨ps, plain, rfl, same⟩ := passes
  refine ⟨ps, ?_, flatMap_rewritten plain, fun c member => absurd member (plain c)⟩
  rw [same, Option.or_none]
  refine congrArg (ps ++ ·) (pieces_congr (apart.imp_left fun last => ?_))
  cases found : (joined ps).getLast? with
  | none => rfl
  | some c =>
    rw [found] at last
    exact (show startsToken (some c) = true from last)

/-- A call of the stage is replaced. -/
theorem Cut.call {c : Call} (named : Piece.Named none c.run) (spaces : ∀ d ∈ c.gap, isSpace d = true)
    (accepted : Context.accepts stage c.run = true) (closed : closes .outside c.body = true)
    (prepared : ∀ a ∈ c.arguments, ready a) (stops : Stops t) :
    Cut ctx convert ready stage c.render (ctx.replacement convert c) t := by
  refine ⟨[.call c], ?_, by simp [Piece.rewritten], ?_⟩
  · have apart : t.head?.any isNameStart = false := stops.head_of (by decide)
    rw [pieces_step (.call named spaces accepted closed), pieces_congr (Or.inr apart)]
    rfl
  · intro d member
    cases List.mem_singleton.1 member
    exact prepared

theorem isNameStart_of_isAlpha {c : Char} (holds : c.isAlpha = true) : isNameStart c = true := by
  simp [isNameStart, holds]

theorem not_isNameStart_of_isDigit {c : Char} (digit : c.isDigit = true) : isNameStart c = false := by
  have digits : (c.val ≥ '0'.val && c.val ≤ '9'.val) = true := digit
  cases start : isNameStart c with
  | false => rfl
  | true =>
    have letters : (((c.val ≥ 'A'.val ∧ c.val ≤ 'Z'.val : Bool) || c.val ≥ 'a'.val && c.val ≤ 'z'.val) ||
        c == '_') = true := start
    simp only [Bool.or_eq_true, Bool.and_eq_true, decide_eq_true_eq, ge_iff_le,
      UInt32.le_iff_toNat_le, beq_iff_eq] at digits letters
    rcases letters with letters | rfl
    · simp at digits letters
      omega
    · exact absurd digits.2 (by decide)

theorem Numeral.passes (n : Numeral) {accept : Text → Bool} :
    Passes accept none n.render t := by
  refine .chars fun c member => ?_
  rcases n.mem c member with digit | rfl
  · exact ⟨not_isQuote digit (by decide) (by decide), ne_of_class digit (by decide),
      not_isNameStart_of_isDigit digit⟩
  · decide

theorem passes_word (normal : Bool) (word : Operator.BooleanWord) {accept : Text → Bool}
    (refused : accept word.render = false) : Passes accept none (wordText normal word) t := by
  have spaced (v : Text) (spaces : ∀ c ∈ v, isSpace c = true) (nonempty : v ≠ []) :
      Passes accept none (v ++ (word.render ++ v)) t := by
    have head : word.render.head?.any isNameStart = true := by cases word <;> decide
    have all : ∀ c ∈ word.render, isNameChar c = true := by cases word <;> decide
    refine .append (.spaces spaces) (.append (.name head all (Or.inr refused) ?_) (.spaces spaces))
    rw [head?_append_left nonempty]
    cases found : v.head? with
    | none => rfl
    | some c => exact not_isNameChar_of_isSpace (spaces c (List.mem_of_head? found))
  cases normal with
  | true => exact spaced [' ', ' '] (by decide) (by decide)
  | false => exact spaced [' '] (by decide) (by decide)

/-- A stage leaves words, signs and leaves alone. -/
theorem cut_pass (ctx : Context) (convert : Text → Text) (ready : Text → Prop) (stage : Stage) :
    Pass (Cut ctx convert ready stage) id id where
  append := Cut.append
  identifier {name t} identifier stops := by
    have head : name.head?.any isNameStart = true := by
      have alpha := identifier.head
      rw [Option.any_eq_true] at alpha ⊢
      obtain ⟨c, same, alpha⟩ := alpha
      exact ⟨c, same, isNameStart_of_isAlpha alpha⟩
    exact .of_passes (.name head identifier.names (Or.inl stops.group) stops.noName)
      (Or.inr (stops.head_of (by decide)))
  numeral n _ stops := .of_passes n.passes (Or.inr (stops.head_of (by decide)))
  literal proper stops := .of_passes (.plain (List.cons_ne_nil _ _) (.literal proper))
    (Or.inr (stops.head_of (by decide)))
  sign normal sign _ _ := by
    cases sign <;> cases normal <;> exact .of_passes (.chars (by decide)) (Or.inl (by decide))
  word normal word _ _ := by
    refine .of_passes (passes_word normal word ?_) (Or.inl ?_)
    · cases word <;> cases stage <;> decide
    · cases word <;> cases normal <;> decide
  space _ := .of_passes (.spaces (by decide)) (Or.inl (by decide))
  opening _ := .of_passes (.chars (by decide)) (Or.inl (by decide))
  closing stops := .of_passes (.chars (by decide)) (Or.inr (stops.head_of (by decide)))
  constant value t stops := by
    have word (name : Text) (head : name.head?.any isNameStart = true)
        (all : ∀ c ∈ name, isNameChar c = true) (refused : Context.accepts stage name = false) :
        Cut ctx convert ready stage (name ++ ['(', ')']) (name ++ ['(', ')']) t :=
      .of_passes (.append (.name head all (Or.inr refused) (by rfl)) (.chars (by decide)))
        (Or.inr (stops.head_of (by decide)))
    cases value with
    | true => exact word ['t', 'r', 'u', 'e'] (by decide) (by decide) (by cases stage <;> decide)
    | false =>
      exact word ['f', 'a', 'l', 's', 'e'] (by decide) (by decide) (by cases stage <;> decide)

/-- The predicate stage reads through the calls of logical functions. -/
theorem cut_spells (ctx : Context) (convert : Text → Text) (ready : Text → Prop) :
    Spells (Cut ctx convert ready .predicate) where
  name logical t := by
    have word (name : Text) (head : name.head?.any isNameStart = true)
        (all : ∀ c ∈ name, isNameChar c = true)
        (refused : Context.accepts .predicate name = false) :
        Cut ctx convert ready .predicate (name ++ ['(']) (name ++ ['(']) t :=
      .of_passes (.append (.name head all (Or.inr refused) (by rfl)) (.chars (by decide)))
        (Or.inl (by simp [startsToken]; decide))
    rcases logical with rfl | rfl
    · exact word _ (by decide) (by decide) (by decide)
    · exact word _ (by decide) (by decide) (by decide)
  comma _ := .of_passes (.chars (by decide)) (Or.inl (by decide))

/-- A reference is passed over where `current` is not taken for the name of a call. -/
theorem passes_shape {accept : Text → Bool} {token : Text} (shape : Shape token)
    (refused : accept ['c', 'u', 'r', 'r', 'e', 'n', 't'] = false) (before : Option Char) :
    Passes accept before token t := by
  cases shape with
  | braced valid => exact .plain (List.cons_ne_nil _ _) (.token (fresh_of_valid valid) valid)
  | path starts all =>
    refine .path all (Or.inr ?_)
    rcases starts with same | same <;> rw [same] <;> rfl
  | @current path all =>
    have name : Passes accept before (['c', 'u', 'r', 'r', 'e', 'n', 't'] ++ ['(', ')']) (path ++ t) :=
      .append (.name (by decide) (by decide) (Or.inr refused) (by rfl)) (.chars (by decide))
    exact name.append (.path all (Or.inl (by rfl)))

/-- A stage leaves references alone. -/
theorem cut_reference (token : Token) (stops : Stops t) :
    Cut ctx convert ready stage token.text token.text t :=
  .of_passes (passes_shape token.shape (by cases stage <;> decide) none)
    (Or.inr (stops.head_of (by decide)))

end Cut

section Single

theorem single_shape {token : Text} (shape : Shape token) : Single token := by
  have path {path : Text} (all : ∀ c ∈ path, isPathChar c = true) : Single path :=
    .plain fun c member => ⟨isPathChar_plain (all c member), ne_of_class (all c member) (by decide)⟩
  cases shape with
  | path starts all => exact path all
  | @current rest all =>
    have name : Single ['c', 'u', 'r', 'r', 'e', 'n', 't'] := .plain (by decide)
    exact (name.append (.group Single.nil.closed)).append (path all)
  | @braced name valid =>
    refine .plain fun c member => ⟨braced_plain valid c member, ?_⟩
    simp only [List.mem_append, List.mem_cons, List.not_mem_nil, or_false] at member
    rcases member with ((rfl | rfl) | member) | rfl
    · decide
    · decide
    · exact ne_of_class (isBracedChar_of_mem valid c member) (by decide)
    · decide

theorem single_token (token : Token) : Single token.text := single_shape token.shape

theorem Numeral.single (n : Numeral) : Single n.render := by
  refine .plain fun c member => ?_
  have path : isPathChar c = true := by
    rcases n.mem c member with digit | rfl
    · simp [isPathChar, isNameChar, Char.isAlphanum, digit]
    · decide
  exact ⟨isPathChar_plain path, ne_of_class path (by decide)⟩

theorem single_callText {name : Text} (plain : Single name) {arguments : List Text}
    (single : ∀ a ∈ arguments, Single a) : Single (callText name arguments) := by
  have whole : callText name arguments = name ++ ('(' :: [',', ' '].intercalate arguments ++ [')']) := by
    simp [callText]
  rw [whole]
  exact plain.append (.group (Single.closes_intercalate single))

/-- Leaves in the style stand in the arguments of a call as one of them. -/
structure Style.Singles (s : Style) (known : Text → Prop) : Prop where
  reference (token : Token) : known token.text → Single (s.reference token.text)
  literal (l : Literal) : l.Proper → Single (s.literal l).render
  selected (field : Token) (value : ProperLiteral) : known field.text →
    Single (s.selected field.text value.1)

theorem source_singles : Style.source.Singles fun _ => True where
  reference token _ := single_token token
  literal _ proper := .literal proper
  selected field value _ := by
    refine single_callText (.plain (by decide)) fun a member => ?_
    simp only [List.mem_cons, List.not_mem_nil, or_false] at member
    rcases member with rfl | rfl
    · exact single_token field
    · exact .literal value.2

theorem single_sign (normal : Bool) (sign : Comparison) : Single (signText normal sign) := by
  cases sign <;> cases normal <;> exact .plain (by decide)

theorem IsIdentifier.single {name : Text} (identifier : IsIdentifier name) : Single name := by
  refine .plain fun c member => ⟨?_, ne_of_class (identifier.all c member) (by decide)⟩
  exact isPathChar_plain (by simp [isPathChar, identifier.names c member])

variable {ctx : Context}

theorem target_singles (plain : ctx.registry.Plain) : (Style.target ctx).Singles (Known ctx) where
  reference _ known := (meaning_identifier plain known).single
  literal _ proper := .literal (requotedIn_proper _ proper)
  selected field value known := by
    have proper := answer_proper (fun e member => (plain e member).2) field.text value.2
    have inner := (meaning_identifier plain known).single.append
      ((single_sign true .equal).append (.literal proper))
    have whole : comparisonText ctx field.text value.1 = '(' :: (ctx.meaning field.text ++
        (signText true .equal ++ (answer ctx field.text value.1).render)) ++ [')'] := by
      simp [comparisonText]
    exact (congrArg Single whole).mpr (.group inner.closed)

variable {known : Text → Prop} {s : Style}

theorem Style.Singles.operand (singles : s.Singles known) (o : Operand)
    (allKnown : ∀ token ∈ o.tokens, known token) : Single (s.operand o) := by
  cases o with
  | reference token => exact singles.reference token (allKnown _ List.mem_cons_self)
  | numeral n => exact n.single
  | literal l => exact singles.literal l.1 l.2

/-- An expression stands in the arguments of a call as one of them. -/
theorem single_write (singles : s.Singles known) (e : Expression)
    (allKnown : ∀ token ∈ e.tokens, known token) : Single (e.write s s) := by
  induction e with
  | operand o => exact singles.operand o allKnown
  | comparison left sign right =>
    exact (singles.operand left fun token member => allKnown token
      (List.mem_append_left _ member)).append ((single_sign s.normal sign).append
        (singles.operand right fun token member => allKnown token (List.mem_append_right _ member)))
  | selected field value => exact singles.selected field value (allKnown _ List.mem_cons_self)
  | negation e ih =>
    refine single_callText (.plain (by decide)) fun a member => ?_
    rw [List.mem_singleton.1 member]
    exact ih allKnown
  | choice test whenTrue whenFalse ih ihTrue ihFalse =>
    simp only [Expression.tokens, List.mem_append] at allKnown
    refine single_callText (.plain (by decide)) fun a member => ?_
    simp only [List.mem_cons, List.not_mem_nil, or_false] at member
    rcases member with rfl | rfl | rfl
    · exact ih fun token member => allKnown token (Or.inl member)
    · exact ihTrue fun token member => allKnown token (Or.inr (Or.inl member))
    · exact ihFalse fun token member => allKnown token (Or.inr (Or.inr member))
  | group e ih => exact .group (ih allKnown).closed
  | boolean word left right ihLeft ihRight =>
    have middle : Single (wordText s.normal word) := by
      cases word <;> cases s.normal <;> exact .plain (by decide)
    exact (ihLeft fun token member => allKnown token (List.mem_append_left _ member)).append
      (middle.append (ihRight fun token member => allKnown token (List.mem_append_right _ member)))
  | constant value =>
    have parens : Single ['(', ')'] := .group Single.nil.closed
    cases value with
    | true => exact Single.append (s := ['t', 'r', 'u', 'e']) (.plain (by decide)) parens
    | false => exact Single.append (s := ['f', 'a', 'l', 's', 'e']) (.plain (by decide)) parens

end Single

section Calls

variable {ctx : Context} {convert : Text → Text} {ready : Text → Prop} {t : Text}

theorem visible_shape {token : Text} (shape : Shape token) : ∃ c ∈ token, isBlank c = false := by
  cases shape with
  | braced valid => exact ⟨'$', by simp, by decide⟩
  | current all => exact ⟨'c', by simp [currentCall], by decide⟩
  | path starts all =>
    rcases starts with same | same
    · exact ⟨'.', List.mem_of_head? same, by decide⟩
    · exact ⟨'/', List.mem_of_head? same, by decide⟩

theorem Token.visible (token : Token) : ∃ c ∈ token.text, isBlank c = false :=
  visible_shape token.shape

theorem visible_operand (o : Operand) : ∃ c ∈ Style.source.operand o, isBlank c = false := by
  cases o with
  | reference token => exact token.visible
  | numeral n =>
    obtain ⟨c, rest, whole, digit⟩ := n.head []
    rw [List.append_nil] at whole
    exact ⟨c, by rw [Style.operand, whole]; exact List.mem_cons_self,
      not_isBlank_of_isAlphanum (by simp [Char.isAlphanum, digit])⟩
  | literal l =>
    exact ⟨l.1.quote, List.mem_cons_self, of_isQuote l.2.quote_isQuote (by decide)⟩

theorem visible_print (e : Expression) : ∃ c ∈ e.print, isBlank c = false := by
  unfold Expression.print
  induction e with
  | operand o => exact visible_operand o
  | comparison left sign right =>
    obtain ⟨c, member, visible⟩ := visible_operand left
    exact ⟨c, List.mem_append_left _ member, visible⟩
  | boolean word left right ihLeft _ =>
    obtain ⟨c, member, visible⟩ := ihLeft
    exact ⟨c, List.mem_append_left _ member, visible⟩
  | selected field value => exact ⟨'(', by simp [Expression.write, Style.source, callText], by decide⟩
  | negation e ih => exact ⟨'(', by simp [Expression.write, callText], by decide⟩
  | choice test whenTrue whenFalse _ _ _ =>
    exact ⟨'(', by simp [Expression.write, callText], by decide⟩
  | group e ih => exact ⟨'(', List.mem_cons_self, by decide⟩
  | constant value => exact ⟨'(', by cases value <;> decide, by decide⟩

/-- The arguments of a call that is written from texts without commas. -/
theorem arguments_intercalate (name : Text) {u : Text} {us : List Text}
    (single : ∀ v ∈ u :: us, Single v) (visible : ∃ c ∈ u, isBlank c = false) :
    Call.arguments ⟨name, [], [',', ' '].intercalate (u :: us)⟩ = u :: us.map (' ' :: ·) := by
  obtain ⟨c, member, visible⟩ := visible
  have inside : c ∈ [',', ' '].intercalate (u :: us) := by
    cases us with
    | nil => rwa [List.intercalate_singleton]
    | cons v rest =>
      rw [List.intercalate_cons_cons]
      exact List.mem_append_left _ (List.mem_append_left _ member)
  rw [Call.arguments, if_neg]
  · exact Single.splitArguments_intercalate single
  · intro blank
    rw [List.all_eq_true.1 blank c inside] at visible
    cases visible

theorem render_callText (name : Text) (arguments : List Text) :
    Call.render ⟨name, [], [',', ' '].intercalate arguments⟩ = callText name arguments := by
  simp [Call.render, callText]

theorem accepts_logical {name : Text} (logical : IsLogical name) :
    Context.accepts .logical name = true := by
  rcases logical with rfl | rfl <;> decide

theorem named_logical {name : Text} (logical : IsLogical name) : Piece.Named none name := by
  rcases logical with rfl | rfl <;> exact ⟨by decide, by decide, by decide⟩

/-- What replaces the call of a logical function. -/
theorem replacement_logical {name : Text} (logical : IsLogical name) (body : Text) :
    ctx.replacement convert ⟨name, [], body⟩ =
      callText name ((Call.arguments ⟨name, [], body⟩).map fun a => trim (convert a)) := by
  rw [Context.replacement, if_neg, render_convertedCall]
  · simp [callText]
  · rintro ⟨same, _⟩
    have other : RuleSet.negationName ≠ RuleSet.selectedName ∧
        RuleSet.choiceName ≠ RuleSet.selectedName := by decide
    rcases logical with rfl | rfl
    · exact other.1 same
    · exact other.2 same

/-- The logical stage translates the arguments of logical functions. -/
theorem cut_logical {name : Text} (logical : IsLogical name) {s : Style}
    {arguments : List Expression} (nonempty : arguments ≠ [])
    (single : ∀ a ∈ arguments, Single (a.write s s) ∧ ∃ c ∈ a.write s s, isBlank c = false)
    (converted : ∀ a ∈ arguments, ∀ lead : Text, lead = [] ∨ lead = [' '] →
      ready (lead ++ a.write s s) ∧ trim (convert (lead ++ a.write s s)) = a.translate ctx)
    (stops : Stops t) :
    Cut ctx convert ready .logical (callText name (arguments.map (Expression.write s s)))
      (callText name (arguments.map (Expression.translate ctx))) t := by
  obtain ⟨a, rest, rfl⟩ := List.exists_cons_of_ne_nil nonempty
  have singles : ∀ v ∈ a.write s s :: rest.map (Expression.write s s), Single v := by
    intro v member
    rw [← List.map_cons] at member
    obtain ⟨e, inside, rfl⟩ := List.mem_map.1 member
    exact (single e inside).1
  have raws := arguments_intercalate name singles (single a List.mem_cons_self).2
  have first := converted a List.mem_cons_self [] (Or.inl rfl)
  have others := fun b (member : b ∈ rest) =>
    converted b (List.mem_cons_of_mem a member) [' '] (Or.inr rfl)
  have cut : Cut ctx convert ready .logical _ _ t :=
    .call (c := ⟨name, [], [',', ' '].intercalate (a.write s s :: rest.map (Expression.write s s))⟩)
      (named_logical logical) (by simp) (accepts_logical logical)
      (Single.closes_intercalate singles)
      (fun raw member => by
        rw [raws, List.map_map, List.mem_cons, List.mem_map] at member
        rcases member with rfl | ⟨b, member, rfl⟩
        · exact first.1
        · exact (others b member).1) stops
  have replaced : (a.write s s :: (rest.map (Expression.write s s)).map (' ' :: ·)).map
      (fun raw => trim (convert raw)) = (a :: rest).map (Expression.translate ctx) := by
    rw [List.map_cons, List.map_map, List.map_map, List.map_cons, ← first.2]
    exact congrArg _ (List.map_congr_left fun b member => (others b member).2)
  rwa [render_callText, replacement_logical logical, raws, replaced] at cut

/-- The logical stage leaves `selected` calls alone. -/
theorem cut_selected_logical {field : Text} (value : ProperLiteral)
    (inner : ∀ {v : Text}, Stops v → Cut ctx convert ready .logical field field v) (stops : Stops t) :
    Cut ctx convert ready .logical (Style.source.selected field value.1)
      (Style.source.selected field value.1) t := by
  have pass := cut_pass ctx convert ready .logical
  have whole : Style.source.selected field value.1 = (RuleSet.selectedName ++ ['(']) ++
      (field ++ ([',', ' '] ++ (value.1.render ++ [')']))) := by
    simp [Style.source, callText, List.intercalate]
  have name (t : Text) : Cut ctx convert ready .logical (RuleSet.selectedName ++ ['('])
      (RuleSet.selectedName ++ ['(']) t :=
    .of_passes (.append (.name (by decide) (by decide) (Or.inr (by decide)) (by rfl))
      (.chars (by decide))) (Or.inl (by simp; decide))
  have comma (t : Text) : Cut ctx convert ready .logical [',', ' '] [',', ' '] t :=
    .of_passes (.chars (by decide)) (Or.inl (by decide))
  rw [whole]
  exact (name _).append ((inner (stops_comma _)).append
    ((comma _).append ((pass.literal value.2 (stops_closing t)).append (pass.closing stops))))

theorem resolve_trim (token : Text) :
    ctx.registry.resolve (trim token) ctx.owner = ctx.registry.resolve token ctx.owner := by
  rw [Registry.resolve, Registry.resolve, trim_trim]

/-- The value of a `selected` call whose second argument is a literal. -/
theorem selectedValue_literal (token converted converted' : Text) {l : Literal} (proper : l.Proper) :
    selectedValue ctx ⟨token, ⟨0, 0⟩, converted⟩ ⟨' ' :: l.render, ⟨0, 0⟩, converted'⟩ =
      (answer ctx token l).render := by
  have source : trim (' ' :: l.render) = l.render :=
    (framed_literal proper).trim [' '] (by simp [Blank]; decide)
  rw [selectedValue, Argument.source, source, Literal.parse?_render proper]
  simp only [Argument.source, resolve_trim, answer]
  cases ctx.options.quotePolicy <;> rfl

/-- The predicate stage turns `selected` calls into comparisons. -/
theorem cut_selected {field left : Text} (single : Single field)
    (visible : ∃ c ∈ field, isBlank c = false) (value : ProperLiteral)
    (prepared : ready field ∧ ready (' ' :: value.1.render)) (converted : trim (convert field) = left)
    (stops : Stops t) :
    Cut ctx convert ready .predicate (Style.source.selected field value.1)
      (['('] ++ (left ++ (signText true .equal ++ ((answer ctx field value.1).render ++ [')'])))) t := by
  have single : ∀ v ∈ [field, value.1.render], Single v := by
    intro v member
    simp only [List.mem_cons, List.not_mem_nil, or_false] at member
    rcases member with rfl | rfl
    · exact single
    · exact .literal value.2
  have raws := arguments_intercalate RuleSet.selectedName single visible
  have named : Piece.Named none RuleSet.selectedName := ⟨by decide, by decide, by decide⟩
  have accepted : Context.accepts .predicate RuleSet.selectedName = true := by decide
  have cut : Cut ctx convert ready .predicate _ _ t :=
    .call (c := ⟨RuleSet.selectedName, [], [',', ' '].intercalate [field, value.1.render]⟩)
      named (by simp) accepted (Single.closes_intercalate single)
      (fun raw member => by
        rw [raws] at member
        simp only [List.map_cons, List.map_nil, List.mem_cons, List.not_mem_nil, or_false] at member
        rcases member with rfl | rfl
        · exact prepared.1
        · exact prepared.2) stops
  have replaced : ctx.replacement convert ⟨RuleSet.selectedName, [],
      [',', ' '].intercalate [field, value.1.render]⟩ =
        ['('] ++ (left ++ (signText true .equal ++ ((answer ctx field value.1).render ++ [')']))) := by
    rw [Context.replacement, if_pos ⟨rfl, by rw [raws]; rfl⟩, Context.convertedCall, raws]
    simp only [List.map_cons, List.map_nil, compareSelected, Option.getD_some, Argument.text,
      converted, selectedValue_literal field _ _ value.2]
    simp [signText]
  rwa [render_callText, replaced] at cut

end Calls

end FormLogic.Grammar
