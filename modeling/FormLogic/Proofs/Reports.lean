import FormLogic.Proofs.Levels
import FormLogic.Proofs.Standing
import Mathlib.Data.List.Nodup
import Mathlib.Data.Set.List

/-!
Reports of unknown functions. They are about the output, not about the expression: the names that
are reported are those of the calls that stand in the output, in the arguments of other calls or not,
and for which there is no rule. The report goes through the arguments of the calls that it finds, so
its levels are enough because an argument has fewer parentheses than the text it stands in. Nothing
that is found on the way to the output is such a report, and none is made twice.
-/
namespace FormLogic.Conversion

open Text Call FormLogic.Field FormLogic.Field.Reference

/-- There is no rule for the call, and its name is not that of a function that both grammars have. -/
structure Unknown (rules : RuleSet) (c : Call) : Prop where
  unshared : sharedFunctions.contains c.run = false
  ruleless : rules.contains c.name = false

section Names

variable {rules : RuleSet} {depth : Nat} {t a name : Text} {k : Call}

/-- The calls whose names and arguments the report looks at. -/
def unshared (run : Text) : Bool := !sharedFunctions.contains run

theorem mem_unknownFunctions_succ :
    name ∈ unknownFunctions rules (depth + 1) t ↔
      ∃ k, .call k ∈ pieces unshared none t ∧
        ((rules.contains k.name = false ∧ k.name = name) ∨
          ∃ a ∈ k.arguments, name ∈ unknownFunctions rules depth a) := by
  rw [unknownFunctions, List.mem_flatMap]
  constructor
  · rintro ⟨piece, member, found⟩
    cases piece with
    | plain text => cases found
    | unbalanced run gap => cases found
    | call k =>
      refine ⟨k, member, (List.mem_append.1 found).imp (fun own => ?_) List.mem_flatMap.1⟩
      cases known : rules.contains k.name with
      | true =>
        rw [known] at own
        cases own
      | false =>
        rw [known] at own
        exact ⟨rfl, (List.mem_singleton.1 own).symm⟩
  · rintro ⟨k, member, found⟩
    refine ⟨.call k, member, List.mem_append.2 (found.imp ?_ List.mem_flatMap.2)⟩
    rintro ⟨ruleless, rfl⟩
    rw [ruleless]
    exact List.mem_singleton_self k.name

/-- The arguments of a call that is cut out of a well-braced text are well-braced. -/
theorem wellBraced_argument (wellBraced : WellBraced t) (member : .call k ∈ pieces unshared none t)
    (inside : a ∈ k.arguments) : WellBraced a := by
  obtain ⟨u, v, rfl, behind⟩ := behind_of_mem_pieces wellBraced member
  have body := closed_body behind.named.all behind.spaces behind.closed
    (wellBraced.of_append behind.terminated)
  exact (body.argument inside).braces

/-- The unknown functions of a well-braced text are those of the unknown calls that stand in it. -/
theorem mem_unknownFunctions_iff (wellBraced : WellBraced t) (fits : nesting t < depth) :
    name ∈ unknownFunctions rules depth t ↔
      ∃ c : Call, c.Stands t ∧ Unknown rules c ∧ c.name = name := by
  induction depth generalizing t with
  | zero => exact absurd fits (Nat.not_lt_zero _)
  | succ depth ih =>
    have argument {k a} (member : .call k ∈ pieces unshared none t) (inside : a ∈ k.arguments) :
        name ∈ unknownFunctions rules depth a ↔
          ∃ c : Call, c.Stands a ∧ Unknown rules c ∧ c.name = name := by
      have fewer := Context.nesting_argument member inside
      exact ih (wellBraced_argument wellBraced member inside) (by omega)
    rw [mem_unknownFunctions_succ]
    constructor
    · rintro ⟨k, member, found⟩
      obtain ⟨u, v, rfl, behind⟩ := behind_of_mem_pieces wellBraced member
      rcases found with ⟨ruleless, named⟩ | ⟨a, inside, found⟩
      · have ownName : unshared k.run = true := (mem_pieces member).1
        exact ⟨k, behind.stands v, ⟨Bool.not_eq_true' _ ▸ ownName, ruleless⟩, named⟩
      · obtain ⟨c, stands, unknown, named⟩ := (argument member inside).1 found
        exact ⟨c, stands.of_argument behind inside, unknown, named⟩
    · rintro ⟨c, ⟨u, v, whole, behind⟩, unknown, named⟩
      have accepted : unshared c.run = true := by rw [unshared, unknown.unshared]; rfl
      rcases mem_pieces_or_argument wellBraced whole behind accepted with
        member | ⟨k, member, a, inside, stands⟩
      · exact ⟨c, member, Or.inl ⟨unknown.ruleless, named⟩⟩
      · exact ⟨k, member, Or.inr ⟨a, inside, (argument member inside).2 ⟨c, stands, unknown, named⟩⟩⟩

end Names

/-- None of the findings is about an unknown function. -/
def Quiet (found : List Finding) : Prop := ∀ f ∈ found, f.code ≠ .unknownFunction

namespace Quiet

theorem nil : Quiet [] := fun _ member => by cases member

theorem append {found more : List Finding} (first : Quiet found) (second : Quiet more) :
    Quiet (found ++ more) :=
  fun f member => (List.mem_append.1 member).elim (first f) (second f)

theorem singleton {f : Finding} (other : f.code ≠ .unknownFunction) : Quiet [f] :=
  fun g member => by rwa [List.mem_singleton.1 member]

section

variable {k : Converter} {owner : Option Text} {convert : Text → Except Failure Draft} {draft : Draft}

theorem convertArguments (quiet : ∀ a draft, convert a = .ok draft → Quiet draft.2)
    {arguments : List Call.Argument} {drafts : List Argument × List Finding}
    (done : Conversion.convertArguments convert arguments = .ok drafts) : Quiet drafts.2 := by
  induction arguments generalizing drafts with
  | nil =>
    cases done
    exact nil
  | cons a rest ih =>
    obtain ⟨first, later, own, others, rfl⟩ := convertArguments_cons_eq_ok.1 done
    exact (quiet a.raw first own).append (ih others)

theorem applyRule {rule : Rule} {call : ConvertedCall}
    (done : k.applyRule owner rule call = .ok draft) : Quiet draft.2 := by
  unfold Converter.applyRule at done
  split at done
  · split at done
    · cases done
      exact nil
    · cases done
  · cases done
    exact singleton (show Code.argumentCount ≠ .unknownFunction by decide)

theorem replaceCall (quiet : ∀ a draft, convert a = .ok draft → Quiet draft.2) {start : Nat}
    {call : Call} (done : k.replaceCall owner convert start call = .ok draft) : Quiet draft.2 := by
  rw [Converter.replaceCall, Except.bind_eq_ok] at done
  obtain ⟨⟨arguments, found⟩, first, done⟩ := done
  have inside : Quiet found := convertArguments quiet first
  cases known : k.rules.get? call.name with
  | none =>
    simp only [known] at done
    cases done
    exact inside
  | some rule =>
    simp only [known] at done
    obtain ⟨⟨text, more⟩, applied, done⟩ := Except.bind_eq_ok.1 done
    cases done
    exact inside.append (applyRule applied)

theorem replacePieces (quiet : ∀ a draft, convert a = .ok draft → Quiet draft.2) {start : Nat}
    {ps : List Piece} (done : k.replacePieces owner convert start ps = .ok draft) :
    Quiet draft.2 := by
  induction ps generalizing start draft with
  | nil =>
    cases done
    exact nil
  | cons piece rest ih =>
    obtain ⟨first, later, own, others, rfl⟩ := replacePieces_cons_eq_ok.1 done
    refine append ?_ (ih others)
    cases piece with
    | plain text =>
      cases own
      exact nil
    | call call => exact replaceCall quiet own
    | unbalanced run gap =>
      cases own
      exact singleton (show Code.unbalancedCall ≠ .unknownFunction by decide)

theorem convertWithin {depth : Nat} {t : Text} (done : k.convertWithin owner depth t = .ok draft) :
    Quiet draft.2 := by
  induction depth generalizing t draft with
  | zero => cases done
  | succ depth ih =>
    obtain ⟨logical, predicates, first, second, rfl⟩ := convertWithin_succ_eq_ok.1 done
    have quietLogical : Quiet logical.2 := replacePieces (fun _ _ => ih) first
    have quietPredicates : Quiet predicates.2 := replacePieces (fun _ _ => ih) second
    refine (quietLogical.append quietPredicates).append fun f member => ?_
    obtain ⟨token, _, rfl⟩ := List.mem_map.1 member
    change Code.unresolvedReference ≠ .unknownFunction
    decide

end

end Quiet

/-- The report of an unknown function. -/
def unknownReport (name : Text) : Diagnostic := (Finding.unknownFunction name).toDiagnostic

theorem unknownReport_injective : Function.Injective unknownReport := by
  intro name other same
  have messages := congrArg Diagnostic.message same
  change "Function '".toList ++ name ++ _ = "Function '".toList ++ other ++ _ at messages
  exact List.append_cancel_left (List.append_cancel_right messages)

theorem nodup_eraseDups {α : Type} [BEq α] [LawfulBEq α] : (l : List α) → l.eraseDups.Nodup
  | [] => List.nodup_nil
  | a :: rest => by
    rw [List.eraseDups_cons, List.nodup_cons, List.mem_eraseDups, List.mem_filter]
    exact ⟨fun kept => by simp at kept, nodup_eraseDups (rest.filter fun b => !b == a)⟩
  termination_by l => l.length
  decreasing_by exact Nat.lt_succ_of_le (List.length_filter_le _ rest)

theorem mem_diagnostics_of_convertFor {k : Converter} {owner : Option Text} {t : Text}
    {c : Converted} (converted : k.convertFor owner t = .ok c) (d : Diagnostic) :
    d ∈ c.diagnostics ∧ d.code = .unknownFunction ↔
      ∃ name ∈ unknownFunctions k.rules (nesting c.output + 1) c.output, unknownReport name = d := by
  obtain ⟨⟨output, found⟩, done, rfl⟩ := convertFor_eq_ok.1 converted
  have quiet : Quiet found := Quiet.convertWithin done
  dsimp only
  rw [List.mem_eraseDups, List.mem_map]
  constructor
  · rintro ⟨⟨f, member, rfl⟩, code⟩
    rcases List.mem_append.1 member with member | member
    · exact absurd code (quiet f member)
    · obtain ⟨name, unknown, rfl⟩ := List.mem_map.1 member
      exact ⟨name, unknown, rfl⟩
  · rintro ⟨name, member, rfl⟩
    have reported := List.mem_map_of_mem (f := Finding.unknownFunction) member
    exact ⟨⟨_, List.mem_append_right found reported, rfl⟩, rfl⟩

/-- The reports of unknown functions, where each `${` outside literals of the output opens a
`${name}` token: there is one for each name of an unknown call that stands in the output, and no
other. -/
theorem convertFor_unknownFunctions {k : Converter} {owner : Option Text} {t : Text}
    {c : Converted} (converted : k.convertFor owner t = .ok c) (wellBraced : WellBraced c.output) :
    ∃ names : List Text, c.diagnostics.filter (·.code = .unknownFunction) = names.map unknownReport ∧
      names.Nodup ∧
      ∀ name, name ∈ names ↔
        ∃ call : Call, call.Stands c.output ∧ Unknown k.rules call ∧ call.name = name := by
  have reported (d : Diagnostic) : d ∈ c.diagnostics.filter (·.code = .unknownFunction) ↔
      ∃ name ∈ unknownFunctions k.rules (nesting c.output + 1) c.output, unknownReport name = d := by
    rw [List.mem_filter, decide_eq_true_iff]
    exact mem_diagnostics_of_convertFor converted d
  have nodup : (c.diagnostics.filter (·.code = .unknownFunction)).Nodup := by
    obtain ⟨_, _, rfl⟩ := convertFor_eq_ok.1 converted
    exact (nodup_eraseDups _).filter _
  have named : c.diagnostics.filter (·.code = .unknownFunction) ∈
      Set.range (List.map unknownReport) := by
    rw [Set.range_list_map]
    intro d member
    obtain ⟨name, _, same⟩ := (reported d).1 member
    exact ⟨name, same⟩
  obtain ⟨names, same⟩ := named
  rw [← same] at nodup reported
  refine ⟨names, same.symm, nodup.of_map, fun name => ?_⟩
  rw [← mem_unknownFunctions_iff wellBraced (Nat.lt_succ_self _),
    ← List.mem_map_of_injective unknownReport_injective, reported]
  constructor
  · rintro ⟨other, member, same⟩
    rwa [← unknownReport_injective same]
  · exact fun member => ⟨name, member, rfl⟩

theorem convertFor_unknownFunctions_nested :
    ∃ c, (Converter.withDefaults .empty).convertFor none "f(x) and g(h(1), f(2))".toList = .ok c ∧
      WellBraced c.output ∧
      ∃ names : List Text, c.diagnostics.filter (·.code = .unknownFunction) =
          names.map unknownReport ∧ names.Nodup ∧
        ∀ name, name ∈ names ↔
          ∃ call : Call, call.Stands c.output ∧ Unknown .builtin call ∧ call.name = name := by
  have outcome : ((Converter.withDefaults .empty).convertFor none
      "f(x) and g(h(1), f(2))".toList).toOption.map Converted.output =
        some "f(x)  and  g(h(1), f(2))".toList := by decide +kernel
  obtain ⟨c, converted, same⟩ := exists_of_output outcome
  have wellBraced : WellBraced c.output := by
    rw [same]
    decide +kernel
  exact ⟨c, converted, wellBraced, convertFor_unknownFunctions converted wellBraced⟩

/-- An operator before a group is taken for a function and reported as one, and so is a shared
function with a no-break space behind its name; a call between braces that hold no name is not
reported. -/
theorem operator_reported :
    ((Converter.withDefaults .empty).convertFor none "a and (b or c)".toList).toOption =
        some ⟨"a  and  (b  or  c)".toList, [unknownReport "and".toList]⟩ ∧
      ((Converter.withDefaults .empty).convertFor none "true\u00a0()".toList).toOption =
        some ⟨"true\u00a0()".toList, [unknownReport "true".toList]⟩ ∧
      ((Converter.withDefaults .empty).convertFor none "$\x7b f(x) \x7d".toList).toOption =
        some ⟨"$\x7b f(x) \x7d".toList, []⟩ := by
  refine ⟨?_, ?_, ?_⟩ <;> decide +kernel

end FormLogic.Conversion
