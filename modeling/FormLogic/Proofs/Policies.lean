import FormLogic.Proofs.Blurring
import FormLogic.Proofs.Passes
import FormLogic.Proofs.Unquoting

/-!
What the quote policies have in common. A conversion under one policy and a conversion of the
requoted text under another have outputs that requoting makes the same: calls, references and
operators are found in the same places, and where a literal is written by one policy it is written
by the other in its own quotes. The double policy requotes its output itself, so that is what the
outputs under the others are requoted to. The field of a `selected` call is looked up by the text of
an argument, which one policy may have requoted and the other not; that makes no difference for a
field without a quote in its path.
-/
namespace FormLogic

open Text Call Literal FormLogic.Field FormLogic.Field.Reference

theorem wellBraced_requote {t : Text} (wellBraced : WellBraced t) : WellBraced (requote t) := by
  refine @rewrite_induction (fun _ => false) (fun s _ => WellBraced (requote s)) Call.render
    ?_ ?_ ?_ ?_ ?_ ?_ none t wellBraced
  · rw [requote_nil]
    exact bracesHold_nil none
  · intro l s _ proper holds
    rw [requote_render_append proper]
    exact bracesHold_literal proper.proper_quoteFor holds
  · intro q rest quote fresh
    rw [requote_unclosed quote fresh]
    exact bracesHold_unclosed quote fresh
  · intro name s _ valid fresh holds
    rw [requote_append_of_noQuote fun c member => (braced_plain valid c member).2.2]
    exact wellBraced_braced fresh valid holds
  · intro c s _ plain noBrace holds
    rw [requote_cons plain]
    exact bracesHold_plain plain
      (fun dollar head => noBrace dollar ((head?_requote_iff (by decide) s).1 head)) holds
  · intro c s w accepted
    cases accepted

theorem Closed.requote {t : Text} (closed : Closed t) : Closed (requote t) :=
  ⟨(Conversion.closes_requote t 0).trans closed.groups, wellBraced_requote closed.braces⟩

namespace Literal

/-- A text is a literal if its requoted form is one. -/
theorem of_requote_eq_render {t : Text} {l : Literal} (proper : l.Proper)
    (whole : requote t = l.render) : ∃ k : Literal, k.Proper ∧ t = k.render := by
  cases t using segmentInduction with
  | nil => rw [requote_nil] at whole; cases whole
  | plain c rest plain =>
    rw [requote_cons plain] at whole
    have first : c = l.quote := (List.cons.inj whole).1
    rw [first, proper.quote_isQuote] at plain
    cases plain
  | literal k rest kProper =>
    have left := cutAt?_quote kProper.proper_quoteFor (requote rest)
    have right := cutAt?_quote proper []
    rw [requote_render_append kProper, quoted, cons_quote_append] at whole
    obtain ⟨first, behind⟩ := List.cons.inj whole
    dsimp only at left first behind
    rw [behind, first] at left
    have sameCut := right.symm.trans left
    have nothing : requote rest = [] := (Prod.mk.inj (Option.some.inj sameCut)).2.symm
    rw [requote_eq_nil_iff.1 nothing]
    exact ⟨k, kProper, List.append_nil _⟩
  | unclosed q rest quote fresh =>
    rw [requote_unclosed quote fresh] at whole
    obtain ⟨first, behind⟩ := List.cons.inj whole
    exact absurd (behind ▸ first ▸ by simp) fresh

theorem parse?_requote (t : Text) :
    parse? (requote t) = (parse? t).map fun l => ⟨quoteFor l.content, l.content⟩ := by
  cases found : parse? t with
  | some l =>
    obtain ⟨proper, whole⟩ := parse?_eq_some found
    refine parse?_of_trim proper.proper_quoteFor ?_
    rw [trim_requote, whole, requote_render proper]
    rfl
  | none =>
    cases other : parse? (requote t) with
    | none => rfl
    | some l =>
      obtain ⟨proper, whole⟩ := parse?_eq_some other
      rw [trim_requote] at whole
      obtain ⟨k, kProper, same⟩ := of_requote_eq_render proper whole
      rw [parse?_of_trim kProper same] at found
      cases found

end Literal

namespace Conversion

variable {ctx : Context}

/-- The context with another quote policy. -/
def Context.quoting (ctx : Context) (policy : QuotePolicy) : Context :=
  { ctx with options := { ctx.options with quotePolicy := policy } }

theorem Regular.quoting (regular : Regular ctx) (policy : QuotePolicy) :
    Regular (ctx.quoting policy) :=
  ⟨regular.worded, regular.known, regular.codes⟩

/-- No field with answer codes has a quote in its path. -/
def PlainlyCoded (r : Registry) : Prop :=
  ∀ e ∈ r.entries, e.choices ≠ [] → ∀ c ∈ e.path, isQuote c = false

instance (r : Registry) : Decidable (PlainlyCoded r) :=
  inferInstanceAs (Decidable (∀ e ∈ r.entries, _ → ∀ c ∈ e.path, _))

/-- The finishing passes differ in requoting only. -/
theorem requote_finish (regular : Regular ctx) (policy : QuotePolicy) (t : Text) :
    requote ((ctx.quoting policy).converter.finish ctx.owner t) =
      Operator.normalize (ctx.registry.replaceReferences ctx.owner (requote t)) := by
  have same : requote (Operator.normalize (ctx.registry.replaceReferences ctx.owner t)) =
      Operator.normalize (ctx.registry.replaceReferences ctx.owner (requote t)) := by
    rw [Operator.requote_normalize, Registry.replaceReferences, requote_replaced regular.referent]
    rfl
  rw [Converter.finish]
  split
  · rw [requote_requote]
    exact same
  · exact same

/-- A literal value is written as the answer code, or its content, between quotes. -/
theorem requote_selectedValue_literal (regular : Regular ctx) {field value : Argument} {l : Literal}
    (found : parse? value.source = some l) :
    requote (selectedValue ctx field value) =
      quoted (((ctx.registry.resolve field.source ctx.owner).found?.bind
        (·.answerCode? l.content)).getD l.content) := by
  obtain ⟨kept, proper⟩ := regular.content (parse?_eq_some found).1 field.source
  rw [selectedValue, found]
  dsimp only
  split
  · exact requote_render kept
  · exact requote_render proper
  · exact requote_render proper

/-- The value that two policies write for an argument, requoted by one of them before. -/
theorem requote_selectedValue (regular : Regular ctx) (sound : ctx.registry.Sound)
    (plainly : PlainlyCoded ctx.registry) (p q : QuotePolicy) {field field' value value' : Argument}
    (sameField : field'.raw = requote field.raw) (sameValue : value'.raw = requote value.raw)
    (same : requote value.converted = requote value'.converted) :
    requote (selectedValue (ctx.quoting p) field value) =
      requote (selectedValue (ctx.quoting q) field' value') := by
  have source : value'.source = requote value.source := by
    rw [Argument.source, Argument.source, sameValue, trim_requote]
  cases found : parse? value.source with
  | none =>
    have other : parse? value'.source = none := by rw [source, parse?_requote, found]; rfl
    rw [selectedValue, selectedValue, found, other, Argument.text, Argument.text, ← trim_requote,
      same, trim_requote]
  | some l =>
    have other : parse? value'.source = some ⟨quoteFor l.content, l.content⟩ := by
      rw [source, parse?_requote, found]
      rfl
    have fields : blurred field'.source = blurred field.source := by
      rw [Argument.source, Argument.source, sameField, trim_requote, blurred_requote]
    rw [requote_selectedValue_literal (regular.quoting p) found,
      requote_selectedValue_literal (regular.quoting q) other]
    exact congrArg (fun code => quoted (code.getD l.content))
      (Registry.answerCode?_of_blurred sound plainly fields ctx.owner l.content).symm

section Replacement

variable {convert convert' : Text → Text} {call : Call}

theorem requote_group {s t : Text} (closed : Terminated t) (plain : ∀ c ∈ s, isQuote c = false) :
    requote (s ++ ('(' :: t ++ [')'])) = s ++ ('(' :: requote t ++ [')']) := by
  rw [requote_append_of_noQuote plain, List.cons_append, requote_cons (by decide),
    requote_append closed, requote_of_noQuote (t := [')']) (by decide), List.cons_append]

theorem requote_intercalate {ts : List Text} (closed : ∀ t ∈ ts, Terminated t) :
    requote ([',', ' '].intercalate ts) = [',', ' '].intercalate (ts.map requote) := by
  match ts with
  | [] => exact requote_nil
  | [t] => rw [List.map_singleton, List.intercalate_singleton, List.intercalate_singleton]
  | t :: u :: rest =>
    rw [List.intercalate_cons_cons, List.map_cons, List.map_cons, List.intercalate_cons_cons,
      ← List.map_cons, List.append_assoc, requote_append (closed t List.mem_cons_self),
      requote_append_of_noQuote (by decide),
      requote_intercalate fun v member => closed v (List.mem_cons_of_mem t member),
      List.append_assoc]

/-- What two policies replace a call by, requoted for one of them before. -/
theorem requote_replacement (regular : Regular ctx) (sound : ctx.registry.Sound)
    (plainly : PlainlyCoded ctx.registry) (p q : QuotePolicy)
    (names : ∀ d ∈ call.run, isNameChar d = true)
    (closed : ∀ a ∈ call.arguments, Closed (convert a))
    (closed' : ∀ a ∈ call.arguments, Closed (convert' (requote a)))
    (same : ∀ a ∈ call.arguments, requote (convert a) = requote (convert' (requote a))) :
    requote ((ctx.quoting p).replacement convert call) =
      requote ((ctx.quoting q).replacement convert' call.requoted) := by
  have texts (a : Text) (member : a ∈ call.arguments) :
      requote (trim (convert a)) = requote (trim (convert' (requote a))) := by
    rw [← trim_requote, same a member, trim_requote]
  by_cases both : call.run = RuleSet.selectedName ∧ call.arguments.length = 2
  · obtain ⟨field, value, pair⟩ := exists_pair both.2
    have pair' : call.requoted.arguments = [requote field, requote value] := by
      rw [arguments_requoted, pair]
      rfl
    have fieldInside : field ∈ call.arguments := by rw [pair]; simp
    have valueInside : value ∈ call.arguments := by rw [pair]; simp
    have comparison {s t : Text} (left : Closed s) (right : Closed t) :
        requote ('(' :: (s ++ ([' ', '=', '=', ' '] ++ t)) ++ [')']) =
          '(' :: (requote s ++ ([' ', '=', '=', ' '] ++ requote t)) ++ [')'] := by
      have inner : requote (s ++ ([' ', '=', '=', ' '] ++ t)) =
          requote s ++ ([' ', '=', '=', ' '] ++ requote t) := by
        rw [requote_append left.terminated, requote_append_of_noQuote (by decide)]
      rw [← inner]
      exact requote_group (s := []) (left.comparison right).terminated (by simp)
    have values := @requote_selectedValue ctx regular sound plainly p q
      ⟨field, ⟨0, 0⟩, convert field⟩ ⟨requote field, ⟨0, 0⟩, convert' (requote field)⟩
      ⟨value, ⟨0, 0⟩, convert value⟩ ⟨requote value, ⟨0, 0⟩, convert' (requote value)⟩ rfl rfl
      (same value valueInside)
    have requoted := @replacement_selected (ctx.quoting q) convert' call.requoted _ _ both.1 pair'
    rw [replacement_selected _ convert both.1 pair, requoted,
      comparison (closed field fieldInside).trim
        (closed_selectedValue (regular.quoting p) _ _ (closed value valueInside)),
      comparison (closed' field fieldInside).trim
        (closed_selectedValue (regular.quoting q) _ _ (closed' value valueInside)),
      texts field fieldInside, values]
  · have other : ¬(call.requoted.run = RuleSet.selectedName ∧ call.requoted.arguments.length = 2) := by
      rw [arguments_requoted, List.length_map]
      exact both
    have plain : ∀ d ∈ call.run, isQuote d = false :=
      fun d member => (Piece.isNameChar_plain (names d member)).2.2
    have ends (f : Text → Text) (as : List Text) (closed : ∀ a ∈ as, Closed (f a)) :
        ∀ t ∈ as.map fun a => trim (f a), Closed t := by
      intro t member
      obtain ⟨a, inside, rfl⟩ := List.mem_map.1 member
      exact (closed a inside).trim
    have first := ends convert call.arguments closed
    have second := ends (fun a => convert' (requote a)) call.arguments closed'
    rw [replacement_render _ convert both, replacement_render _ convert' other, arguments_requoted,
      List.map_map, requote_group (Closed.intercalate first).terminated plain,
      requote_intercalate fun t member => (first t member).terminated]
    change _ = requote (call.run ++ ('(' :: [',', ' '].intercalate
      (call.arguments.map fun a => trim (convert' (requote a))) ++ [')']))
    rw [requote_group (Closed.intercalate second).terminated plain,
      requote_intercalate fun t member => (second t member).terminated, List.map_map, List.map_map]
    exact congrArg (fun as => call.run ++ ('(' :: [',', ' '].intercalate as ++ [')']))
      (List.map_congr_left texts)

end Replacement

/-- A stage under two policies, over a text requoted for one of them before. -/
theorem requote_replaceIn (regular : Regular ctx) (sound : ctx.registry.Sound)
    (plainly : PlainlyCoded ctx.registry) (p q : QuotePolicy) {convert convert' : Text → Text}
    (closed : ∀ a, Closed a → Closed (convert a)) (closed' : ∀ a, Closed a → Closed (convert' a))
    (same : ∀ a, WellBraced a → requote (convert a) = requote (convert' (requote a)))
    (stage : Stage) {t : Text} (wellBraced : WellBraced t) :
    requote ((ctx.quoting p).replaceIn convert stage t) =
      requote ((ctx.quoting q).replaceIn convert' stage (requote t)) := by
  refine requote_rewrite (fun c accepted names body => ?_) t wellBraced
  have inside (a : Text) (member : a ∈ c.arguments) : Closed a := body.argument member
  have first := closed_replacement (regular.quoting p) names fun a member =>
    closed a (inside a member)
  have second : Closed ((ctx.quoting q).replacement convert' c.requoted) := by
    refine (@closed_replacement (ctx.quoting q) convert' c.requoted (regular.quoting q) names
      fun a member => ?_).1
    rw [arguments_requoted] at member
    obtain ⟨b, original, rfl⟩ := List.mem_map.1 member
    exact closed' _ (inside b original).requote
  have alike := requote_replacement regular sound plainly p q names
    (fun a member => closed a (inside a member))
    (fun a member => closed' _ (inside a member).requote)
    fun a member => same a (inside a member).braces
  exact ⟨first.1.terminated, second.terminated, alike⟩

/-- Two policies give outputs that requoting makes the same, also if the text is requoted for one of
them before. -/
theorem requote_output (regular : Regular ctx) (sound : ctx.registry.Sound)
    (plainly : PlainlyCoded ctx.registry) (depth : Nat) (p q : QuotePolicy) {t : Text}
    (wellBraced : WellBraced t) :
    requote ((ctx.quoting p).output depth t) =
      requote ((ctx.quoting q).output depth (requote t)) := by
  induction depth generalizing p q t with
  | zero => exact (requote_requote t).symm
  | succ depth ih =>
    have closed (p : QuotePolicy) (a : Text) (inside : Closed a) :
        Closed ((ctx.quoting p).output depth a) :=
      closed_output (regular.quoting p) depth inside
    have stage (p q : QuotePolicy) (stage : Stage) {u : Text} (braces : WellBraced u) :=
      requote_replaceIn regular sound plainly p q (closed p) (closed q)
        (fun a inside => ih p q inside) stage braces
    have logical (p : QuotePolicy) {u : Text} (braces : WellBraced u) :=
      (replaceIn_keeps (regular.quoting p) (closed p) .logical braces).1
    have calls : requote ((ctx.quoting p).replaceIn ((ctx.quoting p).output depth) .predicate
          ((ctx.quoting p).replaceIn ((ctx.quoting p).output depth) .logical t)) =
        requote ((ctx.quoting q).replaceIn ((ctx.quoting q).output depth) .predicate
          ((ctx.quoting q).replaceIn ((ctx.quoting q).output depth) .logical (requote t))) := by
      rw [stage p q .predicate (logical p wellBraced), stage p q .logical wellBraced,
        ← stage q q .predicate (logical q (wellBraced_requote wellBraced))]
    rw [Context.output, Context.output]
    exact (requote_finish regular p _).trans
      ((congrArg _ (congrArg _ calls)).trans (requote_finish regular q _).symm)

/-- The double policy gives what the output under another policy is requoted to. -/
theorem requote_output_double (regular : Regular ctx) (sound : ctx.registry.Sound)
    (plainly : PlainlyCoded ctx.registry) {depth : Nat} (positive : 0 < depth) (p : QuotePolicy)
    {t : Text} (wellBraced : WellBraced t) :
    requote ((ctx.quoting p).output depth t) = (ctx.quoting .double).output depth t := by
  have requoted : requote ((ctx.quoting .double).output depth t) =
      (ctx.quoting .double).output depth t := by
    cases depth with
    | zero => omega
    | succ depth =>
      have policy : (ctx.quoting .double).converter.options.quotePolicy = .double := rfl
      rw [Context.output, Converter.finish, if_pos policy, requote_requote]
  rw [requote_output regular sound plainly depth p .double wellBraced, ← requoted,
    requote_output regular sound plainly depth .double .double wellBraced]

/-- The quote policies differ in the quotes of literals only: the outputs under the other two are
requoted to the output under `double`. -/
theorem requote_convertFor (r : Registry) (field owner : Option Text) (t : Text) (built : r.Built)
    (worded : r.Worded)
    (codes : ∀ e ∈ r.entries, ∀ choice ∈ e.choices, ∀ c ∈ choice.2, c ≠ '(' ∧ isQuote c = false)
    (plainly : PlainlyCoded r) (known : r.KnowsOwner owner) (wellBraced : WellBraced t) :
    ∃ kept selected double,
      Converter.convertFor ⟨r, .builtin, ⟨.preserve, field⟩⟩ owner t = .ok kept ∧
      Converter.convertFor ⟨r, .builtin, ⟨.selectedOnly, field⟩⟩ owner t = .ok selected ∧
      Converter.convertFor ⟨r, .builtin, ⟨.double, field⟩⟩ owner t = .ok double ∧
      requote kept.output = double.output ∧ requote selected.output = double.output := by
  have regular : Regular ⟨r, ⟨.double, field⟩, owner⟩ :=
    ⟨worded, known, fun e member choice inside c code => (codes e member choice inside c code).2⟩
  have converts (p : QuotePolicy) := (regular.quoting p).converts (t := t)
    fun e member choice inside opening => (codes e member choice inside _ opening).1 rfl
  obtain ⟨kept, first, keptOutput⟩ := converts .preserve
  obtain ⟨selected, second, selectedOutput⟩ := converts .selectedOnly
  obtain ⟨double, third, doubleOutput⟩ := converts .double
  have same (p : QuotePolicy) := requote_output_double regular built.sound plainly
    (Converter.depthFor_pos t) p wellBraced
  refine ⟨kept, selected, double, first, second, third, ?_, ?_⟩
  · rw [keptOutput, doubleOutput, same]
  · rw [selectedOutput, doubleOutput, same]

theorem requote_convertFor_coded :
    ∃ kept selected double,
      Converter.convertFor ⟨registryWithCode ['1'], .builtin, ⟨.preserve, none⟩⟩ (some ['a'])
        "not(selected(., 'v')) and $\x7ba\x7d = 'x'".toList = .ok kept ∧
      Converter.convertFor ⟨registryWithCode ['1'], .builtin, ⟨.selectedOnly, none⟩⟩ (some ['a'])
        "not(selected(., 'v')) and $\x7ba\x7d = 'x'".toList = .ok selected ∧
      Converter.convertFor ⟨registryWithCode ['1'], .builtin, ⟨.double, none⟩⟩ (some ['a'])
        "not(selected(., 'v')) and $\x7ba\x7d = 'x'".toList = .ok double ∧
      requote kept.output = double.output ∧ requote selected.output = double.output := by
  have built : (registryWithCode ['1']).Built :=
    .registerChoice (.register (.start []) "/data/a".toList ['a']) "/data/a".toList ['v'] ['1']
  exact requote_convertFor (registryWithCode ['1']) none (some ['a']) _ built (by decide +kernel)
    (by decide +kernel) (by decide +kernel) (by decide +kernel) (by decide +kernel)

/-- The registry of one field, the bare name `not("x")`, with an answer code for its value `v`. -/
def registryWithQuotedName : Registry :=
  ((Registry.empty.registerDerived "not(\"x\")".toList).2.registerChoice "not(\"x\")".toList ['v']
    ['1']).2

/-- Identifiers and answer codes hold letters and digits only. -/
def Alphanumeric (r : Registry) : Prop :=
  ∀ e ∈ r.entries, (∀ c ∈ e.identifier, c.isAlphanum = true) ∧
    ∀ choice ∈ e.choices, ∀ c ∈ choice.2, c.isAlphanum = true

instance (r : Registry) : Decidable (Alphanumeric r) :=
  inferInstanceAs (Decidable (∀ e ∈ r.entries, (∀ c ∈ e.identifier, _) ∧
    ∀ choice ∈ e.choices, ∀ c ∈ choice.2, _))

/-- A field with a quote in its path is found under one policy only, and an empty identifier may join
a dollar sign to a brace, behind which a quote is passed over. -/
theorem policies_differ :
    (Alphanumeric registryWithQuotedName ∧ registryWithQuotedName.Worded ∧
      WellBraced "selected(not('x'),'v')".toList ∧
      ∃ kept double,
        Converter.convertFor ⟨registryWithQuotedName, .builtin, ⟨.preserve, none⟩⟩ none
          "selected(not('x'),'v')".toList = .ok kept ∧
        Converter.convertFor ⟨registryWithQuotedName, .builtin, ⟨.double, none⟩⟩ none
          "selected(not('x'),'v')".toList = .ok double ∧
        requote kept.output ≠ double.output) ∧
    (Alphanumeric (registryWith []) ∧
      WellBraced "not($$\x7ba\x7d\x7b) \"\x7d selected(q,'v') \"".toList ∧
      ∃ kept double,
        Converter.convertFor ⟨registryWith [], .builtin, ⟨.preserve, none⟩⟩ none
          "not($$\x7ba\x7d\x7b) \"\x7d selected(q,'v') \"".toList = .ok kept ∧
        Converter.convertFor ⟨registryWith [], .builtin, ⟨.double, none⟩⟩ none
          "not($$\x7ba\x7d\x7b) \"\x7d selected(q,'v') \"".toList = .ok double ∧
        requote kept.output ≠ double.output) := by
  have named : (Converter.convertFor ⟨registryWithQuotedName, .builtin, ⟨.preserve, none⟩⟩ none
      "selected(not('x'),'v')".toList).toOption.map Converted.output =
        some "(not('x') == 'v')".toList := by decide +kernel
  have renamed : (Converter.convertFor ⟨registryWithQuotedName, .builtin, ⟨.double, none⟩⟩ none
      "selected(not('x'),'v')".toList).toOption.map Converted.output =
        some "(not(\"x\") == \"1\")".toList := by decide +kernel
  have joined : (Converter.convertFor ⟨registryWith [], .builtin, ⟨.preserve, none⟩⟩ none
      "not($$\x7ba\x7d\x7b) \"\x7d selected(q,'v') \"".toList).toOption.map Converted.output =
        some "not($\x7b) \"\x7d (q == 'v') \"".toList := by decide +kernel
  have rejoined : (Converter.convertFor ⟨registryWith [], .builtin, ⟨.double, none⟩⟩ none
      "not($$\x7ba\x7d\x7b) \"\x7d selected(q,'v') \"".toList).toOption.map Converted.output =
        some "not($\x7b) \"\x7d (q == \"v\") \"".toList := by decide +kernel
  constructor
  · obtain ⟨kept, first, same⟩ := exists_of_output named
    obtain ⟨double, second, same'⟩ := exists_of_output renamed
    refine ⟨by decide +kernel, by decide +kernel, by decide +kernel, kept, double, first, second, ?_⟩
    rw [same, same']
    decide +kernel
  · obtain ⟨kept, first, same⟩ := exists_of_output joined
    obtain ⟨double, second, same'⟩ := exists_of_output rejoined
    refine ⟨by decide +kernel, by decide +kernel, kept, double, first, second, ?_⟩
    rw [same, same']
    decide +kernel

end Conversion

end FormLogic
