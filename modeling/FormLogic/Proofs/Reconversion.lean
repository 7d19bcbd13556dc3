import FormLogic.Proofs.Replacing
import FormLogic.Proofs.Settled

/-!
Converting what has been converted already. Nothing changes where the output is settled, and nothing
changes for expressions of the source grammar. For these the induction is on the number of levels, as
it is for the first conversion: each pass takes the target grammar to itself. What the passes write
for other texts may be read by an earlier pass of the next conversion.
-/
namespace FormLogic.Grammar

open Text Call FormLogic.Field FormLogic.Field.Reference FormLogic.Conversion

section Translations

variable {ctx : Context} {depth : Nat} {e : Expression} {lead : Text}

/-- A pass that takes the target grammar to itself leaves a translation alone. -/
theorem Pass.translate {R : Text → Text → Text → Prop} {requoted : Literal → Literal}
    {spelled : Bool → Bool} (pass : Pass R requoted spelled) (spells : Spells R)
    (plain : ctx.registry.Plain) (normal : spelled true = true)
    (answers : ∀ token l, requoted (answer ctx token l) = answer ctx token l)
    (literals : ∀ l, requoted (requotedIn ctx.options.quotePolicy l) =
      requotedIn ctx.options.quotePolicy l)
    (known : ∀ token ∈ e.tokens, Known ctx token) (isLead : IsLead lead) :
    R (lead ++ e.translate ctx) (lead ++ e.translate ctx) [] :=
  pass.led isLead (starts_write (target_begins plain) e known stops_nil)
    (pass.fixed spells (pass.carries_target plain normal answers literals) (e.height + 1)
      ⟨Nat.lt_succ_self _, known⟩ stops_nil)

/-- The translations of the expressions that fit are converted into themselves. -/
def Fixed (ctx : Context) (depth : Nat) : Prop :=
  ∀ e : Expression, e.Fits (Known ctx) depth → ∀ lead, IsLead lead →
    ctx.Converts depth (lead ++ e.translate ctx) ∧
      ctx.output depth (lead ++ e.translate ctx) = lead ++ e.translate ctx

/-- The logical stage leaves the calls of logical functions as they are. -/
theorem Fixed.logical (fixed : Fixed ctx depth) (plain : ctx.registry.Plain)
    (fits : e.Fits (Known ctx) (depth + 1)) (isLead : IsLead lead) :
    Cut ctx (ctx.output depth) (ctx.Converts depth) .logical (lead ++ e.translate ctx)
      (lead ++ e.translate ctx) [] := by
  have pass := cut_pass ctx (ctx.output depth) (ctx.Converts depth) .logical
  refine pass.led isLead (starts_write (target_begins plain) e fits.known stops_nil)
    (pass.write (pass.carries_target plain rfl (fun _ _ => rfl) (fun _ => rfl) depth)
      (fun name logical arguments nonempty fit t stops => ?_) fits stops_nil)
  refine cut_logical logical nonempty (fun a member => ?_) (fun a member lead isLead => ?_) stops
  · have framed := framed_translate plain a (fit a member).known
    obtain ⟨c, first⟩ : ∃ c, (a.translate ctx).head? = some c :=
      ⟨_, List.head?_eq_some_head framed.nonempty⟩
    have visible := framed.head
    rw [first] at visible
    exact ⟨single_write (target_singles plain) a (fit a member).known, c,
      List.mem_of_head? first, visible⟩
  · obtain ⟨converts, same⟩ := fixed a (fit a member) lead isLead
    refine ⟨converts, ?_⟩
    rw [Expression.translate] at same
    rw [same]
    exact (framed_translate plain a (fit a member).known).trim lead (IsLead.blank isLead)

theorem Fixed.succ (fixed : Fixed ctx depth) (plain : ctx.registry.Plain) :
    Fixed ctx (depth + 1) := by
  intro e fits lead isLead
  have predicate := (cut_pass ctx (ctx.output depth) (ctx.Converts depth) .predicate).translate
    (cut_spells _ _ _) plain rfl (fun _ _ => rfl) (fun _ => rfl) fits.known isLead
  have named := (named_pass ctx).translate (named_spells ctx) plain rfl (fun _ _ => rfl)
    (fun _ => rfl) fits.known isLead
  have normal := normalized_pass.translate normalized_spells plain rfl (fun _ _ => rfl)
    (fun _ => rfl) fits.known isLead
  have quotes := (requoted_pass ctx.options.quotePolicy).translate (requoted_spells _) plain rfl
    requotedIn_answer (requotedIn_requotedIn _) fits.known isLead
  obtain ⟨converts, outcome⟩ := (fixed.logical plain fits isLead).outcome predicate
  exact ⟨converts, outcome.trans (finish_of_passes named normal quotes)⟩

/-- What an expression of the source grammar is converted into is converted into itself. -/
theorem fixed (plain : ctx.registry.Plain) (depth : Nat) : Fixed ctx depth := by
  induction depth with
  | zero => exact fun e fits => absurd fits.height (Nat.not_lt_zero _)
  | succ depth ih => exact ih.succ plain

end Translations

theorem target_opens (ctx : Context) (token : Text) (l : Literal) :
    1 ≤ nesting ((Style.target ctx).selected token l) := by
  change 1 ≤ nesting (comparisonText ctx token l)
  rw [comparisonText, nesting_append]
  exact Nat.le_add_right 1 _

section

variable (r : Registry) (options : Options) (owner : Option Text)

/-- The text of a translation is converted into itself. -/
theorem convertFor_translate (plain : r.Plain) (e : Expression)
    (known : ∀ token ∈ e.tokens, Known ⟨r, options, owner⟩ token) :
    ∃ c, Converter.convertFor ⟨r, .builtin, options⟩ owner
          (e.translate ⟨r, options, owner⟩) = .ok c ∧
        c.output = e.translate ⟨r, options, owner⟩ := by
  have below : e.height < Converter.depthFor (e.translate ⟨r, options, owner⟩) :=
    Nat.lt_of_le_of_lt (height_le_nesting (target_opens _) e) (Converter.nesting_lt_depthFor _)
  have both := @fixed ⟨r, options, owner⟩ plain _ e ⟨below, known⟩ [] (Or.inl rfl)
  exact (@Context.convertFor_iff ⟨r, options, owner⟩ _ _).2 both

/-- A conversion whose output is settled gives the output again. -/
theorem convertFor_output {t : Text} {c : Converted}
    (converted : Converter.convertFor ⟨r, .builtin, options⟩ owner t = .ok c)
    (settled : Settled c.output) :
    ∃ d, Converter.convertFor ⟨r, .builtin, options⟩ owner c.output = .ok d ∧
      d.output = c.output := by
  obtain ⟨_, outcome⟩ := (@Context.convertFor_iff ⟨r, options, owner⟩ _ _).1 ⟨c, converted, rfl⟩
  have same : formed options.quotePolicy c.output = c.output := by
    rw [← outcome]
    exact formed_output ⟨r, options, owner⟩ (Converter.depthFor_pos t) t
  exact (@Context.convertFor_iff ⟨r, options, owner⟩ _ _).2
    (settled.output ⟨r, options, owner⟩ (Converter.nesting_lt_depthFor _) same)

/-- Converting the output of a conversion again returns the same text, where the output is settled and
for every expression of the source grammar whose references are all found. -/
theorem convertFor_convertFor :
    (∀ t c, Converter.convertFor ⟨r, .builtin, options⟩ owner t = .ok c → Settled c.output →
      ∃ d, Converter.convertFor ⟨r, .builtin, options⟩ owner c.output = .ok d ∧
        d.output = c.output) ∧
    (r.Plain → ∀ e : Expression, (∀ token ∈ e.tokens, Known ⟨r, options, owner⟩ token) →
      ∃ c d, Converter.convertFor ⟨r, .builtin, options⟩ owner e.print = .ok c ∧
        Converter.convertFor ⟨r, .builtin, options⟩ owner c.output = .ok d ∧
          d.output = c.output) := by
  refine ⟨fun t c converted settled => convertFor_output r options owner converted settled,
    fun plain e known => ?_⟩
  obtain ⟨c, first, translated⟩ :=
    (@Context.convertFor_iff ⟨r, options, owner⟩ _ _).2 (output_print _ plain e known)
  obtain ⟨d, second, same⟩ := convertFor_translate r options owner plain e known
  rw [← translated] at second same
  exact ⟨c, d, first, second, same⟩

end

theorem settled_negation : Settled "not(a == 1)  and  f( x )".toList := by
  have calls (stage : Stage) : ∀ call ∈ callsOf stage "not(a == 1)  and  f( x )".toList,
      Tidy call ∧ call.arguments = ["a == 1".toList] := by
    cases stage <;> decide +kernel
  refine .intro (by decide +kernel) (by decide +kernel) (fun stage call member =>
    (calls stage call member).1) fun stage call member a inside => ?_
  rw [(calls stage call member).2, List.mem_singleton] at inside
  have uncalled (stage : Stage) : callsOf stage a = [] := by
    rw [inside]
    cases stage <;> decide +kernel
  rw [inside] at uncalled ⊢
  refine .intro (by decide +kernel) (by decide +kernel) (fun stage call member => ?_)
    fun stage call member => ?_
  all_goals
    rw [uncalled] at member
    cases member

/-- An output with a call of an unknown function, which is not written anew, and an expression of the
source grammar. -/
theorem convertFor_convertFor_nested :
    (∃ c, Converter.convertFor ⟨registryWithCode ['1'], .builtin, .default⟩ none
          "not($\x7ba\x7d = 1) and f( x )".toList = .ok c ∧
        c.output = "not(a == 1)  and  f( x )".toList ∧ Settled c.output ∧
        ∃ d, Converter.convertFor ⟨registryWithCode ['1'], .builtin, .default⟩ none c.output = .ok d ∧
          d.output = c.output) ∧
    ((registryWithCode ['1']).Plain ∧
      (∀ token ∈ nestedExpression.tokens, Known ⟨registryWithCode ['1'], .default, none⟩ token) ∧
      ∃ c d, Converter.convertFor ⟨registryWithCode ['1'], .builtin, .default⟩ none
            nestedExpression.print = .ok c ∧
          Converter.convertFor ⟨registryWithCode ['1'], .builtin, .default⟩ none c.output = .ok d ∧
          d.output = c.output) := by
  have outcome : (Converter.convertFor ⟨registryWithCode ['1'], .builtin, .default⟩ none
      "not($\x7ba\x7d = 1) and f( x )".toList).toOption.map Converted.output =
        some "not(a == 1)  and  f( x )".toList := by decide +kernel
  obtain ⟨c, converted, output⟩ := exists_of_output outcome
  have settled : Settled c.output := output ▸ settled_negation
  have plain : (registryWithCode ['1']).Plain := by decide +kernel
  have known : ∀ token ∈ nestedExpression.tokens,
      Known ⟨registryWithCode ['1'], .default, none⟩ token := by decide +kernel
  obtain ⟨again, grammar⟩ := convertFor_convertFor (registryWithCode ['1']) .default none
  exact ⟨⟨c, converted, output, settled, again _ c converted settled⟩, plain, known,
    grammar plain _ known⟩

/-- A path right behind a boolean word is found by the next conversion only, when a space stands
between them. -/
theorem reference_found_behind_word :
    Registry.ofPaths ["/data/age".toList] = .ok Registry.oneField ∧
      ∃ c d, Converter.convertFor ⟨Registry.oneField, .builtin, .default⟩ none
          "1 and/data/age".toList = .ok c ∧
        Converter.convertFor ⟨Registry.oneField, .builtin, .default⟩ none c.output = .ok d ∧
        c.output = "1  and  /data/age".toList ∧ d.output = "1  and  age".toList ∧
        d.output ≠ c.output := by
  have first : (Converter.convertFor ⟨Registry.oneField, .builtin, .default⟩ none
      "1 and/data/age".toList).toOption.map Converted.output =
        some "1  and  /data/age".toList := by decide +kernel
  have second : (Converter.convertFor ⟨Registry.oneField, .builtin, .default⟩ none
      "1  and  /data/age".toList).toOption.map Converted.output =
        some "1  and  age".toList := by decide +kernel
  obtain ⟨c, converted, output⟩ := exists_of_output first
  obtain ⟨d, reconverted, changed⟩ := exists_of_output second
  rw [← output] at reconverted
  refine ⟨rfl, c, d, converted, reconverted, output, changed, ?_⟩
  rw [output, changed]
  decide

end FormLogic.Grammar
