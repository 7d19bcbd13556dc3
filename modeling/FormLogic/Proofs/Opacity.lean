import FormLogic.Proofs.Preservation

/-!
String literals are opaque to conversion. In a well-braced expression whose fields have no answer
codes, the literals of the outcome are those of the expression, one for one and in their order, their
quotes aside; and from a quote on that is never closed the text is copied.
-/
namespace FormLogic.Conversion

open Text Call Literal FormLogic.Field FormLogic.Field.Reference

section Quotation

variable {α : Type} {f : Literal → α}

theorem quotation_of_terminated {t : Text} (terminated : Terminated t) :
    quotation f t = ((quotation f t).1, []) :=
  Prod.ext rfl ((unclosed_eq_nil_iff t).2 terminated)

theorem quotation_of_noQuote {t : Text} (plain : ∀ c ∈ t, isQuote c = false) :
    quotation f t = ([], []) := by
  have whole := quotation_append_of_noQuote (f := f) plain []
  rw [List.append_nil] at whole
  rw [whole, quotation_nil]

/-- White space at the ends of a closed text holds no literal. -/
theorem quotation_trim {t : Text} (closed : Closed t) : quotation f (trim t) = quotation f t := by
  obtain ⟨lead, trail, whole, leadBlank, trailBlank⟩ := trim_split t
  have inner := closed.trim.terminated
  have back : quotation f trail = ([], []) :=
    quotation_of_noQuote fun c member => (isBlank_plain (trailBlank c member)).2.2
  have front := quotation_append_of_noQuote (f := f)
    (fun c member => (isBlank_plain (leadBlank c member)).2.2) (trim t ++ trail)
  rw [← whole, quotation_append inner, back, List.append_nil] at front
  rw [front, ← quotation_of_terminated inner]

theorem quotation_intercalate {gap : Text} (plain : ∀ c ∈ gap, isQuote c = false) {ts : List Text}
    (closed : ∀ t ∈ ts, Closed t) :
    quotation f (gap.intercalate ts) = (ts.flatMap fun t => (quotation f t).1, []) := by
  match ts with
  | [] => exact quotation_nil
  | [t] =>
    rw [List.intercalate_singleton, quotation_of_terminated (closed t (by simp)).terminated]
    simp
  | t :: u :: rest =>
    have later := quotation_intercalate plain
      fun v (member : v ∈ u :: rest) => closed v (List.mem_cons_of_mem t member)
    rw [List.intercalate_cons_cons, List.append_assoc,
      quotation_append (closed t (by simp)).terminated, quotation_append_of_noQuote plain, later]
    rfl

theorem quotation_group {t : Text} (closed : Closed t) :
    quotation f ('(' :: t ++ [')']) = quotation f t := by
  rw [List.cons_append, quotation_cons (by decide), quotation_append closed.terminated,
    quotation_of_noQuote (t := [')']) (by decide), List.append_nil,
    ← quotation_of_terminated closed.terminated]

/-- The literals of a call are those of its arguments. -/
theorem quotation_body {call : Call} (closed : Closed call.body) :
    quotation f call.body = (call.arguments.flatMap fun a => (quotation f a).1, []) := by
  have members := fun a => closed.argument (a := a)
  rw [Call.arguments] at members ⊢
  split at members
  · next blank =>
    rw [if_pos blank]
    exact quotation_of_noQuote fun c member =>
      (isBlank_plain (List.all_eq_true.1 blank c member)).2.2
  · next visible =>
    have comma : ∀ c ∈ [','], isQuote c = false := by decide
    rw [if_neg visible, ← quotation_intercalate comma members,
      intercalate_splitArguments]

theorem quotation_call_append {call : Call} (names : ∀ d ∈ call.run, isNameChar d = true)
    (spaces : ∀ d ∈ call.gap, isSpace d = true) (closed : Closed call.body) (t : Text) :
    quotation f (call.render ++ t) =
      ((call.arguments.flatMap fun a => (quotation f a).1) ++ (quotation f t).1,
        (quotation f t).2) := by
  have whole : call.render ++ t = (call.run ++ call.gap) ++ (('(' :: call.body ++ [')']) ++ t) := by
    simp [Call.render]
  have plain : ∀ c ∈ call.run ++ call.gap, isQuote c = false := by
    intro c member
    rcases List.mem_append.1 member with member | member
    · exact (Piece.isNameChar_plain (names c member)).2.2
    · exact (Piece.isSpace_plain (spaces c member)).2.2
  rw [whole, quotation_append_of_noQuote plain, quotation_append closed.group.terminated,
    quotation_group closed, quotation_body closed]

end Quotation

variable {ctx : Context} {α : Type} {f : Literal → α}

/-- What is seen of a literal does not hang on its quotes, where these may change. -/
def Blind (ctx : Context) (f : Literal → α) : Prop :=
  ctx.options.quotePolicy = .preserve ∨
    ∀ l : Literal, l.Proper → f ⟨quoteFor l.content, l.content⟩ = f l

/-- No field has answer codes. -/
def Codeless (r : Registry) : Prop := ∀ e ∈ r.entries, e.choices = []

instance (r : Registry) : Decidable (Codeless r) :=
  inferInstanceAs (Decidable (∀ e ∈ r.entries, _))

theorem Codeless.answerCode? {r : Registry} (codeless : Codeless r) {token value : Text}
    {owner : Option Text} :
    ((r.resolve token owner).found?.bind (·.answerCode? value)) = none := by
  cases entry : (r.resolve token owner).found? with
  | none => rfl
  | some e =>
    rw [Option.bind_some, Entry.answerCode?, codeless e (Registry.mem_of_found? entry)]
    rfl

theorem quotation_selectedValue (codeless : Codeless ctx.registry) (blind : Blind ctx f)
    (field value : Argument) (raw : Closed value.raw)
    (closed : Closed value.converted) (same : quotation f value.converted = quotation f value.raw) :
    quotation f (selectedValue ctx field value) = quotation f value.raw := by
  unfold selectedValue
  split
  · next l found =>
    obtain ⟨proper, trimmed⟩ := parse?_eq_some found
    rw [Argument.source, trim_trim] at trimmed
    have single {l : Literal} (proper : l.Proper) : quotation f l.render = ([f l], []) := by
      have whole := quotation_render_append (f := f) proper []
      rwa [List.append_nil, quotation_nil] at whole
    rw [← quotation_trim raw, trimmed, single proper]
    dsimp only
    rw [codeless.answerCode?, Option.getD_none]
    split
    · exact single proper
    · next policy =>
      rw [quoted, single proper.proper_quoteFor]
      rcases blind with preserve | blind
      · rw [policy] at preserve
        cases preserve
      · rw [blind l proper]
    · next policy =>
      rw [quoted, single proper.proper_quoteFor]
      rcases blind with preserve | blind
      · rw [policy] at preserve
        cases preserve
      · rw [blind l proper]
  · rw [Argument.text, quotation_trim closed, same]

/-- The literals of what replaces a call are those of the call's arguments. -/
theorem quotation_replacement (regular : Regular ctx) (codeless : Codeless ctx.registry)
    (blind : Blind ctx f) {convert : Text → Text} {call : Call}
    (names : ∀ d ∈ call.run, isNameChar d = true) (raw : ∀ a ∈ call.arguments, Closed a)
    (closed : ∀ a ∈ call.arguments, Closed (convert a))
    (same : ∀ a ∈ call.arguments, quotation f (convert a) = quotation f a) :
    quotation f (ctx.replacement convert call) =
      (call.arguments.flatMap fun a => (quotation f a).1, []) := by
  rcases replacement_cases ctx convert call with text | ⟨field, value, _, pair, text⟩
  · have inner : ∀ t ∈ call.arguments.map fun a => trim (convert a), Closed t := by
      intro t member
      obtain ⟨a, inside, rfl⟩ := List.mem_map.1 member
      exact (closed a inside).trim
    rw [text, quotation_append_of_noQuote fun c member =>
        (Piece.isNameChar_plain (names c member)).2.2, quotation_group (.intercalate inner),
      quotation_intercalate (by decide) inner, List.flatMap_map]
    refine congrArg (fun seen => (List.flatten seen, [])) (List.map_congr_left fun a inside => ?_)
    rw [quotation_trim (closed a inside), same a inside]
  · rw [pair] at raw closed same
    have left : Closed (trim (convert field)) := (closed field (by simp)).trim
    have right := closed_selectedValue regular ⟨field, ⟨0, 0⟩, convert field⟩
      ⟨value, ⟨0, 0⟩, convert value⟩ (closed value (by simp))
    have seen := quotation_selectedValue codeless blind ⟨field, ⟨0, 0⟩, convert field⟩
      ⟨value, ⟨0, 0⟩, convert value⟩ (raw value (by simp)) (closed value (by simp))
      (same value (by simp))
    rw [text, quotation_group (left.comparison right), quotation_append left.terminated,
      quotation_append_of_noQuote (by decide), seen, quotation_trim (closed field (by simp)),
      same field (by simp), quotation_of_terminated (raw value (by simp)).terminated, pair]
    simp

/-- A stage keeps what is seen of the literals, if the conversion of arguments does. -/
theorem quotation_replaceIn (regular : Regular ctx) (codeless : Codeless ctx.registry)
    (blind : Blind ctx f) {convert : Text → Text}
    (closed : ∀ a, Closed a → Closed (convert a))
    (same : ∀ a, Closed a → quotation f (convert a) = quotation f a) (stage : Stage) {t : Text}
    (wellBraced : WellBraced t) :
    quotation f (ctx.replaceIn convert stage t) = quotation f t := by
  refine rewrite_induction (R := fun s w => quotation f w = quotation f s) rfl ?_
    (fun _ _ _ _ => rfl) ?_ ?_ ?_ none t wellBraced
  · intro l s w proper kept
    rw [quotation_render_append proper, quotation_render_append proper, kept]
  · intro name s w valid _ kept
    have plain : ∀ c ∈ ['$', '{'] ++ name ++ ['}'], isQuote c = false :=
      fun c member => (braced_plain valid c member).2.2
    rw [quotation_append_of_noQuote plain, quotation_append_of_noQuote plain, kept]
  · intro c s w plain _ kept
    rw [quotation_cons plain, quotation_cons plain, kept]
  · intro c s w accepted names spaces body kept
    have members := fun a (member : a ∈ c.arguments) => body.argument member
    have written := closed_replacement regular names
      fun a member => closed a (members a member)
    rw [quotation_append written.1.terminated, quotation_call_append names spaces body, kept,
      quotation_replacement regular codeless blind names members
        (fun a member => closed a (members a member)) fun a member => same a (members a member)]

/-- The last passes keep what is seen of the literals. -/
theorem quotation_finish (regular : Regular ctx) (blind : Blind ctx f) {t : Text}
    (wellBraced : WellBraced t) :
    quotation f (ctx.converter.finish ctx.owner t) = quotation f t := by
  have normal : quotation f (Operator.normalize
      (ctx.registry.replaceReferences ctx.owner t)) = quotation f t := by
    rw [Operator.normalize, Operator.quotation_render, Registry.replaceReferences,
      quotation_replaced regular.referent wellBraced]
  rw [Converter.finish]
  split
  · next double =>
    rcases blind with preserve | blind
    · rw [show ctx.options.quotePolicy = .double from double] at preserve
      cases preserve
    · rw [quotation_requote blind]
      exact normal
  · exact normal

/-- Conversion keeps what is seen of the literals. -/
theorem quotation_output (regular : Regular ctx) (codeless : Codeless ctx.registry)
    (blind : Blind ctx f) (depth : Nat) {t : Text} (wellBraced : WellBraced t) :
    quotation f (ctx.output depth t) = quotation f t := by
  induction depth generalizing t with
  | zero => rfl
  | succ depth ih =>
    have closed := fun a (inside : Closed a) => closed_output regular depth inside
    have same := fun a (inside : Closed a) => ih inside.braces
    obtain ⟨logical, _⟩ := replaceIn_keeps regular closed .logical wellBraced
    obtain ⟨predicate, _⟩ := replaceIn_keeps regular closed .predicate logical
    rw [Context.output, quotation_finish regular blind predicate,
      quotation_replaceIn regular codeless blind closed same .predicate logical,
      quotation_replaceIn regular codeless blind closed same .logical wellBraced]

/-- Requoting gives every literal double quotes, unless its content holds one. -/
theorem quote_of_mem_requote {t : Text} {l : Literal} (member : l ∈ literals (requote t)) :
    l.quote = '"' ∨ '"' ∈ l.content := by
  rw [literals_requote] at member
  obtain ⟨k, _, rfl⟩ := List.mem_map.1 member
  by_cases double : '"' ∈ k.content
  · exact Or.inr double
  · exact Or.inl (by simp [quoteFor, double])

theorem literals_output (regular : Regular ctx) (codeless : Codeless ctx.registry) {depth : Nat}
    (positive : 0 < depth) {t : Text} (wellBraced : WellBraced t) :
    (literals (ctx.output depth t)).map content = (literals t).map content ∧
      (ctx.options.quotePolicy = .preserve → literals (ctx.output depth t) = literals t) ∧
      (ctx.options.quotePolicy = .double →
        ∀ l ∈ literals (ctx.output depth t), l.quote = '"' ∨ '"' ∈ l.content) ∧
      unclosed (ctx.output depth t) = unclosed t := by
  have contents := quotation_output (f := content) regular codeless (Or.inr fun _ _ => rfl) depth
    wellBraced
  refine ⟨congrArg Prod.fst contents, ?_, ?_, congrArg Prod.snd contents⟩
  · intro preserve
    have whole := quotation_output (f := id) regular codeless (Or.inl preserve) depth wellBraced
    simpa [quotation] using congrArg Prod.fst whole
  · intro double l member
    cases depth with
    | zero => omega
    | succ depth =>
      have policy : ctx.converter.options.quotePolicy = .double := double
      rw [Context.output, Converter.finish, if_pos policy] at member
      exact quote_of_mem_requote member

/-- The literals of a well-braced expression come out as they went in. Their quotes stay under
`preserve` and become double quotes under `double`, unless the content holds one; and the text from a
quote on that is never closed is the same. -/
theorem literals_convertFor (r : Registry) (options : Options) (owner : Option Text) (t : Text)
    (worded : r.Worded) (codeless : Codeless r) (known : r.KnowsOwner owner)
    (wellBraced : WellBraced t) :
    ∃ c, Converter.convertFor ⟨r, .builtin, options⟩ owner t = .ok c ∧
      (literals c.output).map content = (literals t).map content ∧
      (options.quotePolicy = .preserve → literals c.output = literals t) ∧
      (options.quotePolicy = .double → ∀ l ∈ literals c.output, l.quote = '"' ∨ '"' ∈ l.content) ∧
      unclosed c.output = unclosed t := by
  have noChoice : ∀ e ∈ r.entries, ∀ choice, choice ∉ e.choices := by
    intro e member choice inside
    rw [codeless e member] at inside
    cases inside
  have regular : Regular ⟨r, options, owner⟩ :=
    ⟨worded, known, fun e member choice inside => absurd inside (noChoice e member choice)⟩
  obtain ⟨c, converted, same⟩ := regular.converts (t := t) fun e member choice inside =>
    absurd inside (noChoice e member choice)
  refine ⟨c, converted, ?_⟩
  rw [same]
  exact literals_output regular codeless (Converter.depthFor_pos t) wellBraced

theorem literals_convertFor_nested :
    (registryWith ['a']).Worded ∧ Codeless (registryWith ['a']) ∧
      (registryWith ['a']).KnowsOwner (some ['a']) ∧
      WellBraced "not($\x7ba\x7d = 'it\" (' ) and selected(., \"$\x7b\") or 'x".toList ∧
      ∃ c, Converter.convertFor ⟨registryWith ['a'], .builtin, ⟨.double, some ['a']⟩⟩ (some ['a'])
          "not($\x7ba\x7d = 'it\" (' ) and selected(., \"$\x7b\") or 'x".toList = .ok c ∧
        (literals c.output).map content = ["it\" (".toList, "$\x7b".toList] ∧
        unclosed c.output = "'x".toList := by
  have worded : (registryWith ['a']).Worded := by decide +kernel
  have codeless : Codeless (registryWith ['a']) := by decide +kernel
  have known : (registryWith ['a']).KnowsOwner (some ['a']) := by decide +kernel
  have wellBraced :
      WellBraced "not($\x7ba\x7d = 'it\" (' ) and selected(., \"$\x7b\") or 'x".toList := by decide +kernel
  obtain ⟨c, converted, contents, _, _, rest⟩ := literals_convertFor (registryWith ['a'])
    ⟨.double, some ['a']⟩ (some ['a']) _ worded codeless known wellBraced
  refine ⟨worded, codeless, known, wellBraced, c, converted, ?_, ?_⟩
  · rw [contents]
    decide +kernel
  · rw [rest]
    decide +kernel

/-- An empty identifier may join a dollar sign to a brace, behind which a quote is passed over. -/
theorem literals_lost_without_identifier :
    (∀ e ∈ (registryWith []).entries, ∀ c ∈ e.identifier, c.isAlphanum = true) ∧
      Codeless (registryWith []) ∧ (registryWith []).KnowsOwner none ∧
      WellBraced "not($$\x7ba\x7d\x7b) '\x7d selected(q,1) '".toList ∧
      ∃ c, Converter.convertFor ⟨registryWith [], .builtin, .default⟩ none
          "not($$\x7ba\x7d\x7b) '\x7d selected(q,1) '".toList = .ok c ∧
        (literals c.output).map content ≠
          (literals "not($$\x7ba\x7d\x7b) '\x7d selected(q,1) '".toList).map content := by
  have outcome : (Converter.convertFor ⟨registryWith [], .builtin, .default⟩ none
      "not($$\x7ba\x7d\x7b) '\x7d selected(q,1) '".toList).toOption.map Converted.output =
        some "not($\x7b) '\x7d (q == 1) '".toList := by decide +kernel
  obtain ⟨c, converted, same⟩ := exists_of_output outcome
  refine ⟨by decide +kernel, by decide +kernel, by decide +kernel, by decide +kernel, c, converted,
    ?_⟩
  rw [same]
  decide +kernel

end FormLogic.Conversion
