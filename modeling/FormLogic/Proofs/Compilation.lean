import FormLogic.Proofs.Cutting
import FormLogic.Proofs.Spelling

/-!
Conversion is correct on the source grammar: the text of an expression is converted into the text of
its translation. The induction is on the number of levels. At each level the two stages, which convert
arguments one level below, and the three passes behind them take the expression through the styles
between the grammars; the arguments, which are in the target grammar after the first stage, stay as
they are.
-/
namespace FormLogic.Grammar

open Text Call FormLogic.Field FormLogic.Field.Reference FormLogic.Conversion

section Whole

variable {ctx : Context} {depth : Nat} {stage : Stage} {u u' v w : Text}

/-- What a stage makes of a whole text. -/
theorem Cut.whole (cut : Cut ctx (ctx.output depth) (ctx.Converts depth) stage u u' []) :
    ctx.Ready depth stage u ∧ ctx.replaceIn (ctx.output depth) stage u = u' := by
  obtain ⟨ps, same, written, inside⟩ := cut
  rw [pieces_nil, List.append_nil, List.append_nil] at same
  refine ⟨fun call member => inside call (by rwa [same] at member), ?_⟩
  rw [Context.replaceIn, rewrite, same, written]

/-- The two stages one after the other, and the passes behind them. -/
theorem Cut.outcome
    (logical : Cut ctx (ctx.output depth) (ctx.Converts depth) .logical u u' [])
    (predicate : Cut ctx (ctx.output depth) (ctx.Converts depth) .predicate u' v []) :
    ctx.Converts (depth + 1) u ∧ ctx.output (depth + 1) u = ctx.converter.finish ctx.owner v := by
  obtain ⟨ready, first⟩ := logical.whole
  obtain ⟨ready', second⟩ := predicate.whole
  constructor
  · rw [Context.converts_succ_iff, first]
    exact ⟨ready, ready'⟩
  · rw [Context.output, first, second]

/-- A space may stand before an argument. -/
def IsLead (lead : Text) : Prop := lead = [] ∨ lead = [' ']

theorem IsLead.blank {lead : Text} (isLead : IsLead lead) : Blank lead := by
  rcases isLead with rfl | rfl
  · exact blank_nil
  · intro c member
    rw [List.mem_singleton.1 member]
    decide

theorem Pass.led {R : Text → Text → Text → Prop} {requoted : Literal → Literal}
    {spelled : Bool → Bool} (pass : Pass R requoted spelled) {lead : Text} (isLead : IsLead lead)
    (starts : Starts (u ++ [])) (inner : R u u' []) : R (lead ++ u) (lead ++ u') [] := by
  rcases isLead with rfl | rfl
  · exact inner
  · exact pass.append (pass.space starts) inner

theorem finish_eq (t : Text) : ctx.converter.finish ctx.owner t =
    quoted ctx.options.quotePolicy
      (Operator.normalize (replaced ctx.meaning none none none t)) := rfl

/-- The passes behind the stages make of a whole text what they make of it one after the other. -/
theorem finish_of_passes (named : Named ctx u u' []) (normal : Normalized u' v [])
    (quotes : Requoted ctx.options.quotePolicy v w []) : ctx.converter.finish ctx.owner u = w := by
  rw [Named, List.append_nil, replaced_nil, List.append_nil] at named
  rw [Normalized, List.append_nil, Operator.normalize_nil, List.append_nil] at normal
  rw [Requoted, List.append_nil, quoted_nil, List.append_nil] at quotes
  rw [finish_eq, named, normal, quotes]

end Whole

section Levels

variable {ctx : Context} {depth : Nat}

/-- The expressions that fit are converted into their translations. -/
def Correct (ctx : Context) (depth : Nat) : Prop :=
  ∀ e : Expression, e.Fits (Known ctx) depth → ∀ lead, IsLead lead →
    ctx.Converts depth (lead ++ e.print) ∧
      ctx.output depth (lead ++ e.print) = lead ++ e.translate ctx

theorem Correct.trim (correct : Correct ctx depth) (plain : ctx.registry.Plain) {e : Expression}
    (fits : e.Fits (Known ctx) depth) {lead : Text} (isLead : IsLead lead) :
    trim (ctx.output depth (lead ++ e.print)) = e.translate ctx := by
  rw [(correct e fits lead isLead).2]
  exact (framed_translate plain e fits.known).trim lead isLead.blank

variable {e : Expression} {lead : Text}

/-- The logical stage translates the calls of logical functions. -/
theorem Correct.logical (correct : Correct ctx depth) (plain : ctx.registry.Plain)
    (fits : e.Fits (Known ctx) (depth + 1)) (isLead : IsLead lead) :
    Cut ctx (ctx.output depth) (ctx.Converts depth) .logical (lead ++ e.print)
      (lead ++ e.write (.target ctx) .source) [] := by
  have pass := cut_pass ctx (ctx.output depth) (ctx.Converts depth) .logical
  have carries : Carries (Cut ctx (ctx.output depth) (ctx.Converts depth) .logical) id id
      (Known ctx) depth .source .source :=
    { begins := source_begins
      literal := fun _ => rfl
      normal := rfl
      reference := fun token _ _ stops => cut_reference token stops
      selected := fun field value _ _ _ stops => cut_selected_logical value (cut_reference field) stops }
  refine pass.led isLead (starts_write source_begins e fits.known stops_nil)
    (pass.write carries (fun name logical arguments nonempty fit t stops => ?_) fits stops_nil)
  exact cut_logical logical nonempty
    (fun a _ => ⟨single_write source_singles a fun _ _ => trivial, visible_print a⟩)
    (fun a member lead isLead =>
    ⟨(correct a (fit a member) lead isLead).1, correct.trim plain (fit a member) isLead⟩) stops

/-- The predicate stage turns `selected` calls into comparisons. -/
theorem Correct.predicate (correct : Correct ctx depth) (plain : ctx.registry.Plain)
    (fits : e.Fits (Known ctx) (depth + 1)) (isLead : IsLead lead) :
    Cut ctx (ctx.output depth) (ctx.Converts depth) .predicate
      (lead ++ e.write (.target ctx) .source) (lead ++ e.write (.target ctx) (.compared ctx)) [] := by
  have pass := cut_pass ctx (ctx.output depth) (ctx.Converts depth) .predicate
  have selected (field : Token) (value : ProperLiteral) {t : Text} (known : Known ctx field.text)
      (positive : 0 < depth) (stops : Stops t) :
      Cut ctx (ctx.output depth) (ctx.Converts depth) .predicate
        (Style.source.selected field.text value.1) (comparisonText ctx field.text value.1) t := by
    have first : (Expression.operand (.reference field)).Fits (Known ctx) depth :=
      ⟨positive, fun token member => by rw [List.mem_singleton.1 member]; exact known⟩
    have second : (Expression.operand (.literal value)).Fits (Known ctx) depth :=
      ⟨positive, fun token member => by cases member⟩
    exact cut_selected (single_token field) field.visible value
      ⟨(correct _ first [] (Or.inl rfl)).1, (correct _ second [' '] (Or.inr rfl)).1⟩
      (correct.trim plain first (Or.inl rfl)) stops
  have carries : Carries (Cut ctx (ctx.output depth) (ctx.Converts depth) .predicate) id id
      (Known ctx) depth .source (.compared ctx) :=
    { begins := source_begins
      literal := fun _ => rfl
      normal := rfl
      reference := fun token _ _ stops => cut_reference token stops
      selected := fun field value _ known positive stops => selected field value known positive stops }
  exact pass.led isLead (starts_write source_begins e fits.known stops_nil)
    (pass.outer (cut_spells _ _ _)
      (pass.carries_target plain rfl (fun _ _ => rfl) fun _ => rfl) carries fits stops_nil)

/-- Identifiers take the place of references. -/
theorem named_write (plain : ctx.registry.Plain) (fits : e.Fits (Known ctx) (depth + 1))
    (isLead : IsLead lead) :
    Named ctx (lead ++ e.write (.target ctx) (.compared ctx))
      (lead ++ e.write (.target ctx) (.named ctx)) [] := by
  have pass := named_pass ctx
  have carries : Carries (Named ctx) id id (Known ctx) depth (.compared ctx) (.named ctx) :=
    { begins := compared_begins
      literal := fun _ => rfl
      normal := rfl
      reference := fun token _ _ stops => named_reference token stops
      selected := fun field value _ known _ stops =>
        pass.comparison plain rfl (fun _ _ => rfl) field value known stops }
  exact pass.led isLead (starts_write compared_begins e fits.known stops_nil)
    (pass.outer (named_spells ctx) (pass.carries_target plain rfl (fun _ _ => rfl) fun _ => rfl)
      carries fits stops_nil)

/-- Operators get their form in the target grammar. -/
theorem normalized_write (plain : ctx.registry.Plain) (fits : e.Fits (Known ctx) (depth + 1))
    (isLead : IsLead lead) :
    Normalized (lead ++ e.write (.target ctx) (.named ctx))
      (lead ++ e.write (.target ctx) (.spelled ctx)) [] := by
  have pass := normalized_pass
  have carries : Carries Normalized id (fun _ => true) (Known ctx) depth (.named ctx)
      (.spelled ctx) :=
    { begins := named_begins plain
      literal := fun _ => rfl
      normal := rfl
      reference := fun _ _ known stops => pass.identifier (meaning_identifier plain known) stops
      selected := fun field value _ known _ stops =>
        pass.comparison plain rfl (fun _ _ => rfl) field value known stops }
  exact pass.led isLead (starts_write (named_begins plain) e fits.known stops_nil)
    (pass.outer normalized_spells (pass.carries_target plain rfl (fun _ _ => rfl) fun _ => rfl)
      carries fits stops_nil)

/-- Literals get the quotes that the policy asks for. -/
theorem requoted_write (plain : ctx.registry.Plain) (fits : e.Fits (Known ctx) (depth + 1))
    (isLead : IsLead lead) :
    Requoted ctx.options.quotePolicy (lead ++ e.write (.target ctx) (.spelled ctx))
      (lead ++ e.translate ctx) [] := by
  have pass := requoted_pass ctx.options.quotePolicy
  have carries : Carries (Requoted ctx.options.quotePolicy) (requotedIn ctx.options.quotePolicy) id
      (Known ctx) depth (.spelled ctx) (.target ctx) :=
    { begins := spelled_begins plain
      literal := fun _ => rfl
      normal := rfl
      reference := fun _ _ known stops => pass.identifier (meaning_identifier plain known) stops
      selected := fun field value _ known _ stops =>
        pass.comparison plain rfl requotedIn_answer field value known stops }
  exact pass.led isLead (starts_write (spelled_begins plain) e fits.known stops_nil)
    (pass.outer (requoted_spells _) (pass.carries_target plain rfl requotedIn_answer
      (requotedIn_requotedIn _)) carries fits stops_nil)

/-- With one level more, expressions that are nested deeper are converted into their
translations. -/
theorem Correct.succ (correct : Correct ctx depth) (plain : ctx.registry.Plain) :
    Correct ctx (depth + 1) := by
  intro e fits lead isLead
  obtain ⟨converts, outcome⟩ :=
    (correct.logical plain fits isLead).outcome (correct.predicate plain fits isLead)
  exact ⟨converts, outcome.trans (finish_of_passes (named_write plain fits isLead)
    (normalized_write plain fits isLead) (requoted_write plain fits isLead))⟩

theorem correct (plain : ctx.registry.Plain) (depth : Nat) : Correct ctx depth := by
  induction depth with
  | zero => exact fun e fits => absurd fits.height (Nat.not_lt_zero _)
  | succ depth ih => exact ih.succ plain

end Levels

theorem nesting_callText (name : Text) (arguments : List Text) :
    nesting (callText name arguments) =
      nesting name + nesting ([',', ' '].intercalate arguments) + 1 := by
  have whole : callText name arguments =
      name ++ (['('] ++ ([',', ' '].intercalate arguments ++ [')'])) := by simp [callText]
  have opening : nesting ['('] = 1 := rfl
  have closing : nesting [')'] = 0 := rfl
  rw [whole, nesting_append, nesting_append, nesting_append, opening, closing]
  omega

/-- Calls are nested no deeper than there are opening parentheses, in any style that puts `selected`
in parentheses. -/
theorem height_le_nesting {s : Style} (opens : ∀ token l, 1 ≤ nesting (s.selected token l))
    (e : Expression) : e.height ≤ nesting (e.write s s) := by
  induction e with
  | operand o => exact Nat.zero_le _
  | comparison left sign right => exact Nat.zero_le _
  | constant value => exact Nat.zero_le _
  | selected field value =>
    rw [Expression.height, Expression.write]
    exact opens field.text value.1
  | negation e ih =>
    rw [Expression.height, Expression.write, nesting_callText, List.intercalate_singleton]
    omega
  | choice test whenTrue whenFalse first second third =>
    rw [Expression.height, Expression.write, nesting_callText, List.intercalate_cons_cons,
      List.intercalate_cons_cons, List.intercalate_singleton, nesting_append, nesting_append,
      nesting_append, nesting_append]
    omega
  | group e ih =>
    rw [Expression.height, Expression.write, nesting_append, nesting_append]
    omega
  | boolean word left right first second =>
    rw [Expression.height, Expression.write, nesting_append, nesting_append]
    omega

theorem source_opens (token : Text) (l : Literal) : 1 ≤ nesting (Style.source.selected token l) := by
  have whole : nesting (Style.source.selected token l) = _ :=
    nesting_callText RuleSet.selectedName [token, l.render]
  omega

theorem output_print (ctx : Context) (plain : ctx.registry.Plain) (e : Expression)
    (known : ∀ token ∈ e.tokens, Known ctx token) :
    ctx.Converts (Converter.depthFor e.print) e.print ∧
      ctx.output (Converter.depthFor e.print) e.print = e.translate ctx := by
  have below : e.height < Converter.depthFor e.print :=
    Nat.lt_of_le_of_lt (height_le_nesting source_opens e) (Converter.nesting_lt_depthFor _)
  exact correct plain _ e ⟨below, known⟩ [] (Or.inl rfl)

/-- The text of an expression in the source grammar, all of whose references are found, is converted
into the text of its translation. -/
theorem convertFor_print (r : Registry) (options : Options) (owner : Option Text) (plain : r.Plain)
    (e : Expression) (known : ∀ token ∈ e.tokens, Known ⟨r, options, owner⟩ token) :
    ∃ c, Converter.convertFor ⟨r, .builtin, options⟩ owner e.print = .ok c ∧
      c.output = e.translate ⟨r, options, owner⟩ :=
  (@Context.convertFor_iff ⟨r, options, owner⟩ _ _).2 (output_print _ plain e known)

/-- An expression with calls in calls, references of two kinds and both quotes. -/
def nestedExpression : Expression :=
  .choice (.negation (.selected ⟨"$\x7ba\x7d".toList, by decide⟩ ⟨⟨'\'', ['v']⟩, by decide, by decide⟩))
    (.boolean .conjunction
      (.comparison (.reference ⟨"../a".toList, by decide⟩) .equal
        (.numeral ⟨['1'], ['5'], by decide, by decide, by decide⟩))
      (.constant true))
    (.group (.operand (.literal ⟨⟨'\'', "\" and ".toList⟩, by decide, by decide⟩)))

theorem convertFor_print_nested :
    (registryWithCode ['1']).Plain ∧
      (∀ token ∈ nestedExpression.tokens, Known ⟨registryWithCode ['1'], .default, none⟩ token) ∧
      nestedExpression.print =
        "if(not(selected($\x7ba\x7d, 'v')), ../a = 1.5 and true(), ('\" and '))".toList ∧
      ∃ c, Converter.convertFor ⟨registryWithCode ['1'], .builtin, .default⟩ none
          nestedExpression.print = .ok c ∧
        c.output = "if(not((a == \"1\")), a == 1.5  and  true(), ('\" and '))".toList := by
  have plain : (registryWithCode ['1']).Plain := by decide +kernel
  have known : ∀ token ∈ nestedExpression.tokens,
      Known ⟨registryWithCode ['1'], .default, none⟩ token := by decide +kernel
  obtain ⟨c, converted, outcome⟩ :=
    convertFor_print (registryWithCode ['1']) .default none plain nestedExpression known
  refine ⟨plain, known, by decide +kernel, c, converted, ?_⟩
  rw [outcome]
  decide +kernel

end FormLogic.Grammar
