import FormLogic.Proofs.Junction

/-!
Boolean composition. An expression made of two others with `and` or `or` between them is converted
into the outcomes of the two with the word between them, two spaces on each side, whatever white
space stood there. Only the first of the two has to be closed.
-/
namespace FormLogic.Conversion

open Text Call FormLogic.Field FormLogic.Field.Reference

/-- The outcome of a conversion with more levels than it needs. -/
theorem Context.converts_of_convertFor (ctx : Context) {t : Text} {c : Converted} {depth : Nat}
    (converted : ctx.converter.convertFor ctx.owner t = .ok c) (le : Converter.depthFor t ≤ depth) :
    ctx.Converts depth t ∧ ctx.output depth t = c.output := by
  obtain ⟨converts, same⟩ := convertFor_iff.1 ⟨c, converted, rfl⟩
  obtain ⟨more, kept⟩ := converts.mono le
  exact ⟨more, kept.trans same⟩

/-- A closed expression and any other, joined by a boolean word, are converted into the two outcomes
with the word between them. Both are converted where no answer code opens a parenthesis. -/
theorem convertFor_boolean (r : Registry) (options : Options) (owner : Option Text)
    (worded : r.Worded) (known : r.KnowsOwner owner)
    (codes : ∀ e ∈ r.entries, ∀ choice ∈ e.choices, ∀ c ∈ choice.2, isQuote c = false)
    (word : Operator.BooleanWord) (left gap gap' right : Text)
    (junction : Junction ⟨r, options, owner⟩ left gap gap' right) :
    ((∀ e ∈ r.entries, ∀ choice ∈ e.choices, '(' ∉ choice.2) →
        (∃ a, Converter.convertFor ⟨r, .builtin, options⟩ owner left = .ok a) ∧
          ∃ b, Converter.convertFor ⟨r, .builtin, options⟩ owner right = .ok b) ∧
      ∀ a b, Converter.convertFor ⟨r, .builtin, options⟩ owner left = .ok a →
        Converter.convertFor ⟨r, .builtin, options⟩ owner right = .ok b →
        ∃ c, Converter.convertFor ⟨r, .builtin, options⟩ owner
            (left ++ gap ++ word.render ++ gap' ++ right) = .ok c ∧
          c.output = a.output ++ [' ', ' '] ++ word.render ++ [' ', ' '] ++ b.output := by
  have regular : Regular ⟨r, options, owner⟩ := ⟨worded, known, codes⟩
  constructor
  · intro plain
    obtain ⟨a, first, _⟩ := regular.converts (t := left) plain
    obtain ⟨b, second, _⟩ := regular.converts (t := right) plain
    exact ⟨⟨a, first⟩, b, second⟩
  · intro a b first second
    have whole : left ++ gap ++ word.render ++ gap' ++ right =
        left ++ (gap ++ (word.render ++ gap') ++ right) := by simp only [List.append_assoc]
    obtain ⟨depth, enough⟩ : ∃ depth, Converter.depthFor
        (left ++ (gap ++ (word.render ++ gap') ++ right)) = depth + 1 :=
      Nat.exists_eq_succ_of_ne_zero (Nat.ne_of_gt (Converter.depthFor_pos _))
    have fits : Converter.depthFor left ≤ depth + 1 ∧ Converter.depthFor right ≤ depth + 1 := by
      rw [← enough]
      simp only [Converter.depthFor, nesting_append]
      omega
    obtain ⟨converts, outcome⟩ :=
      Context.converts_of_convertFor ⟨r, options, owner⟩ first fits.1
    obtain ⟨converts', outcome'⟩ :=
      Context.converts_of_convertFor ⟨r, options, owner⟩ second fits.2
    obtain ⟨same, both⟩ := junction.output_eq regular word depth
    rw [whole]
    refine (@Context.convertFor_iff ⟨r, options, owner⟩ _ _).2 ⟨?_, ?_⟩
    · rw [enough]
      exact both.2 ⟨converts, converts'⟩
    · rw [enough, same, outcome, outcome']
      simp only [List.append_assoc]

theorem convertFor_boolean_glued :
    (registryWithCode ['1']).Worded ∧ (registryWithCode ['1']).KnowsOwner (some ['a']) ∧
      (∀ e ∈ (registryWithCode ['1']).entries, ∀ choice ∈ e.choices, ∀ c ∈ choice.2,
        isQuote c = false) ∧
      Junction ⟨registryWithCode ['1'], .default, some ['a']⟩ "selected(., 'v')".toList [] ['\n']
        ") = 'x".toList ∧
      ∃ c, Converter.convertFor ⟨registryWithCode ['1'], .builtin, .default⟩ (some ['a'])
          ("selected(., 'v')".toList ++ [] ++ Operator.BooleanWord.disjunction.render ++ ['\n'] ++
            ") = 'x".toList) = .ok c ∧
        c.output = "(a == \"1\")  or  ) == 'x".toList := by
  have worded : (registryWithCode ['1']).Worded := by decide +kernel
  have known : (registryWithCode ['1']).KnowsOwner (some ['a']) := by decide +kernel
  have codes : ∀ e ∈ (registryWithCode ['1']).entries, ∀ choice ∈ e.choices, ∀ c ∈ choice.2,
      isQuote c = false := by decide +kernel
  have junction : Junction ⟨registryWithCode ['1'], .default, some ['a']⟩ "selected(., 'v')".toList []
      ['\n'] ") = 'x".toList :=
    ⟨by decide +kernel, by decide, by decide, by decide, by decide,
      Or.inr (.group "selected(., 'v'".toList), Or.inl (by decide)⟩
  have first : (Converter.convertFor ⟨registryWithCode ['1'], .builtin, .default⟩ (some ['a'])
      "selected(., 'v')".toList).toOption.map Converted.output = some "(a == \"1\")".toList := by
    decide +kernel
  have second : (Converter.convertFor ⟨registryWithCode ['1'], .builtin, .default⟩ (some ['a'])
      ") = 'x".toList).toOption.map Converted.output = some ") == 'x".toList := by decide +kernel
  obtain ⟨a, left, same⟩ := exists_of_output first
  obtain ⟨b, right, same'⟩ := exists_of_output second
  obtain ⟨c, converted, outcome⟩ := (convertFor_boolean (registryWithCode ['1']) .default (some ['a'])
    worded known codes .disjunction "selected(., 'v')".toList [] ['\n'] ") = 'x".toList
    junction).2 a b left right
  refine ⟨worded, known, codes, junction, c, converted, ?_⟩
  rw [outcome, same, same']
  decide

/-- Behind an answer code with a quote in it, under `preserve`, the word stands in a literal. -/
theorem boolean_quoted_by_code :
    (∀ e ∈ (registryWithCode ['\'']).entries,
        e.identifier ≠ [] ∧ ∀ c ∈ e.identifier, c.isAlphanum = true) ∧
      (registryWithCode ['\'']).KnowsOwner none ∧
      Junction ⟨registryWithCode ['\''], ⟨.preserve, none⟩, none⟩
        "selected($\x7ba\x7d,'v')".toList [' '] [' '] "b = 1".toList ∧
      ∃ a b c, Converter.convertFor ⟨registryWithCode ['\''], .builtin, ⟨.preserve, none⟩⟩ none
          "selected($\x7ba\x7d,'v')".toList = .ok a ∧
        Converter.convertFor ⟨registryWithCode ['\''], .builtin, ⟨.preserve, none⟩⟩ none
          "b = 1".toList = .ok b ∧
        Converter.convertFor ⟨registryWithCode ['\''], .builtin, ⟨.preserve, none⟩⟩ none
          ("selected($\x7ba\x7d,'v')".toList ++ [' '] ++ Operator.BooleanWord.conjunction.render ++ [' '] ++
            "b = 1".toList) = .ok c ∧
        c.output ≠ a.output ++ [' ', ' '] ++ Operator.BooleanWord.conjunction.render ++ [' ', ' '] ++
          b.output := by
  have first : (Converter.convertFor ⟨registryWithCode ['\''], .builtin, ⟨.preserve, none⟩⟩ none
      "selected($\x7ba\x7d,'v')".toList).toOption.map Converted.output =
        some "(a == ''')".toList := by decide +kernel
  have second : (Converter.convertFor ⟨registryWithCode ['\''], .builtin, ⟨.preserve, none⟩⟩ none
      "b = 1".toList).toOption.map Converted.output = some "b == 1".toList := by decide +kernel
  have third : (Converter.convertFor ⟨registryWithCode ['\''], .builtin, ⟨.preserve, none⟩⟩ none
      ("selected($\x7ba\x7d,'v')".toList ++ [' '] ++ Operator.BooleanWord.conjunction.render ++ [' '] ++
        "b = 1".toList)).toOption.map Converted.output =
          some "(a == ''') and b = 1".toList := by decide +kernel
  obtain ⟨a, left, same⟩ := exists_of_output first
  obtain ⟨b, right, same'⟩ := exists_of_output second
  obtain ⟨c, whole, same''⟩ := exists_of_output third
  refine ⟨by decide +kernel, by decide +kernel, ?_, a, b, c, left, right, whole, ?_⟩
  · exact ⟨by decide +kernel, by decide, by decide, by decide, by decide, Or.inl (by decide),
      Or.inl (by decide)⟩
  · rw [same, same', same'']
    decide

end FormLogic.Conversion
