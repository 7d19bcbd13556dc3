import FormLogic.Proofs.Levels
import FormLogic.Proofs.Operators
import FormLogic.Proofs.Requoting

/-!
What conversion leaves as it is. In a well-braced text each pass keeps what is open at each place,
so a closed text is converted into a closed one and the passes that follow cut it alike. Where
answer codes are not replaced for literals, the literals stay the same too, their quotes aside.
-/
namespace FormLogic.Conversion

open Text Call FormLogic.Field FormLogic.Field.Reference

/-- Identifiers are words, the owner is known and no answer code holds a quote. -/
structure Regular (ctx : Context) : Prop where
  worded : ctx.registry.Worded
  known : ctx.registry.KnowsOwner ctx.owner
  codes : ∀ e ∈ ctx.registry.entries, ∀ choice ∈ e.choices, ∀ c ∈ choice.2, isQuote c = false

variable {ctx : Context}

theorem Regular.referent (regular : Regular ctx) (token : Text) (shape : Shape token) :
    Referent (ctx.registry.resolve token ctx.owner).text :=
  Registry.referent_resolve regular.worded regular.known shape

theorem Regular.flat (regular : Regular ctx)
    (codes : ∀ e ∈ ctx.registry.entries, ∀ choice ∈ e.choices, '(' ∉ choice.2) : Flat ctx := by
  refine ⟨fun e member inside => ?_, codes, fun name member unknown => ?_⟩
  · exact ne_of_class ((regular.worded e member).2 _ inside) (by decide) rfl
  · have known := regular.known name member
    rw [unknown] at known
    cases known

/-- Where no answer code opens a parenthesis, every text is converted. -/
theorem Regular.converts (regular : Regular ctx)
    (codes : ∀ e ∈ ctx.registry.entries, ∀ choice ∈ e.choices, '(' ∉ choice.2) {t : Text} :
    ∃ c, ctx.converter.convertFor ctx.owner t = .ok c ∧
      c.output = ctx.output (Converter.depthFor t) t :=
  Context.convertFor_iff.2
    ⟨Context.converts_of_nesting (regular.flat codes).light (Converter.nesting_lt_depthFor t), rfl⟩

section Requote

open Literal

theorem closes_requote (t : Text) (depth : Nat) :
    closes ⟨depth, none⟩ (requote t) = closes ⟨depth, none⟩ t := by
  induction t using segmentInduction generalizing depth with
  | nil => rw [requote_nil]
  | plain c rest plain ih =>
    rw [requote_cons plain]
    exact closes_cons_congr plain ih depth
  | literal l rest proper ih =>
    rw [requote_render_append proper, quoted, closes_render_append proper.proper_quoteFor, ih,
      closes_render_append proper]
  | unclosed q rest quote fresh =>
    rw [requote_unclosed quote fresh]

theorem unbraced_requote {t : Text} (unbraced : Unbraced t) : Unbraced (requote t) := by
  induction t using segmentInduction with
  | nil =>
    rw [requote_nil]
    exact unbraced
  | plain c rest plain ih =>
    rw [requote_cons plain]
    refine bracesHold_plain plain (fun dollar brace => ?_)
      (ih (@Unbraced.of_append [c] rest unbraced ((terminated_cons plain []).2 rfl)))
    exact unbraced.noBrace dollar ((head?_requote_iff (by decide) rest).1 brace)
  | literal l rest proper ih =>
    rw [requote_render_append proper]
    exact bracesHold_literal proper.proper_quoteFor
      (ih (unbraced.of_append (terminated_render proper)))
  | unclosed q rest quote fresh =>
    rw [requote_unclosed quote fresh]
    exact unbraced

/-- Requoting keeps what is seen of the literals, if that does not hang on the quotes. -/
theorem quotation_requote {α : Type} {f : Literal → α}
    (blind : ∀ l : Literal, l.Proper → f ⟨quoteFor l.content, l.content⟩ = f l) (t : Text) :
    quotation f (requote t) = quotation f t := by
  induction t using segmentInduction with
  | nil => rw [requote_nil]
  | plain c rest plain ih => rw [requote_cons plain, quotation_cons plain, quotation_cons plain, ih]
  | literal l rest proper ih =>
    rw [requote_render_append proper, quoted, quotation_render_append proper.proper_quoteFor,
      quotation_render_append proper, ih, blind l proper]
  | unclosed q rest quote fresh =>
    rw [requote_unclosed quote fresh]

end Requote

section Finish

variable {t : Text}

theorem closes_finish (regular : Regular ctx) (wellBraced : WellBraced t) (depth : Nat) :
    closes ⟨depth, none⟩ (ctx.converter.finish ctx.owner t) = closes ⟨depth, none⟩ t := by
  have same : closes ⟨depth, none⟩ (Operator.normalize
      (ctx.registry.replaceReferences ctx.owner t)) = closes ⟨depth, none⟩ t := by
    rw [Operator.normalize, Operator.closes_render, Registry.replaceReferences,
      closes_replaced regular.referent wellBraced]
  rw [Converter.finish]
  split
  · rw [closes_requote]
    exact same
  · exact same

theorem unbraced_finish (regular : Regular ctx) (wellBraced : WellBraced t) :
    Unbraced (ctx.converter.finish ctx.owner t) := by
  have unbraced : Unbraced (ctx.registry.replaceReferences ctx.owner t) :=
    unbraced_replaced regular.referent wellBraced
  have normal : Unbraced (Operator.normalize (ctx.registry.replaceReferences ctx.owner t)) :=
    Operator.unbraced_render unbraced
  rw [Converter.finish]
  split
  · exact unbraced_requote normal
  · exact normal

end Finish

section Replacement

/-- Whatever answer code is written for a literal, its quotes fit it. -/
theorem Regular.content (regular : Regular ctx) {l : Literal} (proper : l.Proper) (field : Text) :
    let content := ((ctx.registry.resolve field ctx.owner).found?.bind
      (·.answerCode? l.content)).getD l.content
    (⟨l.quote, content⟩ : Literal).Proper ∧
      (⟨Literal.quoteFor content, content⟩ : Literal).Proper := by
  cases entry : (ctx.registry.resolve field ctx.owner).found? with
  | none => exact ⟨proper, proper.proper_quoteFor⟩
  | some e =>
    cases code : e.answerCode? l.content with
    | none =>
      rw [Option.bind_some, code]
      exact ⟨proper, proper.proper_quoteFor⟩
    | some text =>
      rw [Option.bind_some, code, Option.getD_some]
      obtain ⟨choice, member, rfl⟩ := mem_of_answerCode? code
      have plain := regular.codes e (Registry.mem_of_found? entry) choice member
      have noQuote {q : Char} (quote : isQuote q = true) : q ∉ choice.2 := by
        intro inside
        rw [plain q inside] at quote
        cases quote
      exact ⟨⟨proper.quote_isQuote, noQuote proper.quote_isQuote⟩,
        Literal.proper_quoteFor fun _ => noQuote (by decide)⟩

theorem closed_selectedValue (regular : Regular ctx) (field value : Argument)
    (closed : Closed value.converted) : Closed (selectedValue ctx field value) := by
  unfold selectedValue
  split
  · next l found =>
    obtain ⟨proper, _⟩ := Literal.parse?_eq_some found
    obtain ⟨kept, quoted⟩ := regular.content proper field.source
    dsimp only
    split
    · exact .literal kept
    · exact .literal quoted
    · exact .literal quoted
  · exact closed.trim

variable {convert : Text → Text} {call : Call}

theorem render_convertedCall (convert : Text → Text) (call : Call) :
    (Context.convertedCall convert call).render =
      call.run ++ ('(' :: [',', ' '].intercalate (call.arguments.map fun a => trim (convert a)) ++
        [')']) := by
  rw [ConvertedCall.render, Context.convertedCall, List.map_map, List.append_assoc]
  rfl

theorem replacement_render (ctx : Context) (convert : Text → Text) {call : Call}
    (other : ¬(call.run = RuleSet.selectedName ∧ call.arguments.length = 2)) :
    ctx.replacement convert call =
      call.run ++ ('(' :: [',', ' '].intercalate (call.arguments.map fun a => trim (convert a)) ++
        [')']) := by
  rw [Context.replacement, if_neg other]
  exact render_convertedCall convert call

theorem replacement_selected (ctx : Context) (convert : Text → Text) {call : Call}
    {field value : Text} (run : call.run = RuleSet.selectedName)
    (pair : call.arguments = [field, value]) :
    ctx.replacement convert call =
      '(' :: (trim (convert field) ++ ([' ', '=', '=', ' '] ++
        selectedValue ctx ⟨field, ⟨0, 0⟩, convert field⟩ ⟨value, ⟨0, 0⟩, convert value⟩)) ++ [')'] := by
  rw [Context.replacement, if_pos ⟨run, by rw [pair]; rfl⟩, Context.convertedCall, pair]
  simp [compareSelected, Argument.text]

/-- What replaces a call: a call again, or a comparison in parentheses. -/
theorem replacement_cases (ctx : Context) (convert : Text → Text) (call : Call) :
    ctx.replacement convert call =
        call.run ++ ('(' :: [',', ' '].intercalate (call.arguments.map fun a => trim (convert a)) ++
          [')']) ∨
      ∃ field value, call.run = RuleSet.selectedName ∧ call.arguments = [field, value] ∧
        ctx.replacement convert call =
          '(' :: (trim (convert field) ++ ([' ', '=', '=', ' '] ++
            selectedValue ctx ⟨field, ⟨0, 0⟩, convert field⟩ ⟨value, ⟨0, 0⟩, convert value⟩)) ++
            [')'] := by
  by_cases both : call.run = RuleSet.selectedName ∧ call.arguments.length = 2
  · obtain ⟨field, value, pair⟩ := exists_pair both.2
    exact Or.inr ⟨field, value, both.1, pair, replacement_selected ctx convert both.1 pair⟩
  · exact Or.inl (replacement_render ctx convert both)

theorem getLast?_replacement (ctx : Context) (convert : Text → Text) (call : Call) :
    (ctx.replacement convert call).getLast? = some ')' := by
  rcases replacement_cases ctx convert call with same | ⟨field, value, _, _, same⟩
  · rw [same, ← List.append_assoc, List.getLast?_concat]
  · rw [same, List.getLast?_concat]

theorem head?_replacement (ctx : Context) (convert : Text → Text) {call : Call}
    (named : call.run ≠ []) : (ctx.replacement convert call).head? = call.run.head? ∨
      (ctx.replacement convert call).head? = some '(' := by
  rcases replacement_cases ctx convert call with same | ⟨field, value, _, _, same⟩
  · rw [same, head?_append_left named]
    exact Or.inl rfl
  · rw [same]
    exact Or.inr rfl

theorem closed_replacement (regular : Regular ctx) (names : ∀ d ∈ call.run, isNameChar d = true)
    (closed : ∀ a ∈ call.arguments, Closed (convert a)) :
    Closed (ctx.replacement convert call) ∧
      ∀ w : Text, (ctx.replacement convert call ++ w).head? ≠ some '{' := by
  rcases replacement_cases ctx convert call with same | ⟨field, value, _, pair, same⟩
  · have run : Closed call.run := .of_plain fun d member =>
      ⟨ne_of_class (names d member) (by decide), ne_of_class (names d member) (by decide),
        ne_of_class (names d member) (by decide),
        not_isQuote (names d member) (by decide) (by decide)⟩
    have inner : Closed ([',', ' '].intercalate (call.arguments.map fun a => trim (convert a))) := by
      apply Closed.intercalate
      intro t member
      obtain ⟨a, inside, rfl⟩ := List.mem_map.1 member
      exact (closed a inside).trim
    rw [same]
    refine ⟨run.append inner.group fun _ impossible => ?_, fun w impossible => ?_⟩
    · exact absurd (Option.some.inj impossible) (by decide)
    · cases head : call.run with
      | nil =>
        rw [head] at impossible
        exact absurd (Option.some.inj impossible) (by decide)
      | cons d rest =>
        rw [head] at impossible
        exact ne_of_class (names d (by rw [head]; simp)) (by decide) (Option.some.inj impossible)
  · rw [pair] at closed
    have left : Closed (trim (convert field)) := (closed field (by simp)).trim
    have right := closed_selectedValue regular ⟨field, ⟨0, 0⟩, convert field⟩
      ⟨value, ⟨0, 0⟩, convert value⟩ (closed value (by simp))
    rw [same]
    refine ⟨(left.comparison right).group, fun w impossible => ?_⟩
    exact absurd (Option.some.inj impossible) (by decide)

/-- A stage keeps what is open at each place, if the conversion of arguments does. -/
theorem replaceIn_keeps (regular : Regular ctx) (closed : ∀ a, Closed a → Closed (convert a))
    (stage : Stage) {t : Text} (wellBraced : WellBraced t) :
    WellBraced (ctx.replaceIn convert stage t) ∧
      ∀ depth, closes ⟨depth, none⟩ (ctx.replaceIn convert stage t) = closes ⟨depth, none⟩ t := by
  have kept : WellBraced (ctx.replaceIn convert stage t) ∧
      ((ctx.replaceIn convert stage t).head? = some '{' → t.head? = some '{') ∧
      ∀ depth, closes ⟨depth, none⟩ (ctx.replaceIn convert stage t) = closes ⟨depth, none⟩ t := by
    refine rewrite_induction (R := fun s w => WellBraced w ∧
        (w.head? = some '{' → s.head? = some '{') ∧
        ∀ depth, closes ⟨depth, none⟩ w = closes ⟨depth, none⟩ s)
      ⟨bracesHold_nil none, id, fun _ => rfl⟩ ?_ ?_ ?_ ?_ ?_ none t wellBraced
    · rintro l s w proper ⟨braces, _, groups⟩
      refine ⟨bracesHold_literal proper braces, id, fun depth => ?_⟩
      rw [closes_render_append proper, closes_render_append proper, groups]
    · exact fun q rest quote fresh => ⟨bracesHold_unclosed quote fresh, id, fun _ => rfl⟩
    · rintro name s w valid fresh ⟨braces, _, groups⟩
      refine ⟨wellBraced_braced fresh valid braces, id, fun depth => ?_⟩
      rw [closes_braced_append valid, closes_braced_append valid, groups]
    · rintro c s w plain noBrace ⟨braces, head, groups⟩
      exact ⟨bracesHold_plain plain (fun dollar brace => noBrace dollar (head brace)) braces, id,
        closes_cons_congr plain groups⟩
    · rintro c s w accepted names spaces body ⟨braces, _, groups⟩
      obtain ⟨inner, head⟩ := closed_replacement regular names fun a member =>
        closed a (body.argument member)
      refine ⟨inner.braces.append inner.terminated braces fun dollar => ?_,
        fun brace => absurd brace (head w), fun depth => ?_⟩
      · rw [getLast?_replacement] at dollar
        exact absurd (Option.some.inj dollar) (by decide)
      · rw [closes_outside_append inner.groups, Piece.closes_call_append names spaces body.groups,
          groups]
  exact ⟨kept.1, kept.2.2⟩

end Replacement

/-- Conversion keeps what is open at each place. -/
theorem output_keeps (regular : Regular ctx) (depth : Nat) {t : Text} (wellBraced : WellBraced t) :
    WellBraced (ctx.output depth t) ∧
      ∀ outer, closes ⟨outer, none⟩ (ctx.output depth t) = closes ⟨outer, none⟩ t := by
  induction depth generalizing t with
  | zero => exact ⟨wellBraced, fun _ => rfl⟩
  | succ depth ih =>
    have closed (a : Text) (inside : Closed a) : Closed (ctx.output depth a) := by
      obtain ⟨braces, groups⟩ := ih inside.braces
      exact ⟨(groups 0).trans inside.groups, braces⟩
    obtain ⟨logical, first⟩ := replaceIn_keeps regular closed .logical wellBraced
    obtain ⟨predicate, second⟩ := replaceIn_keeps regular closed .predicate logical
    rw [Context.output]
    refine ⟨(unbraced_finish regular predicate).wellBraced, fun outer => ?_⟩
    rw [closes_finish regular predicate, second, first]

/-- A closed text is converted into a closed text. -/
theorem closed_output (regular : Regular ctx) (depth : Nat) {t : Text} (closed : Closed t) :
    Closed (ctx.output depth t) := by
  obtain ⟨braces, groups⟩ := output_keeps regular depth closed.braces
  exact ⟨(groups 0).trans closed.groups, braces⟩

/-- The registry of one field, `/data/a`. -/
def registryWith (identifier : Text) : Registry :=
  (Registry.empty.register "/data/a".toList identifier).2

/-- A registry of one field with an answer code for its value `v`. -/
def registryWithCode (code : Text) : Registry :=
  ((registryWith ['a']).registerChoice "/data/a".toList ['v'] code).2

end FormLogic.Conversion
