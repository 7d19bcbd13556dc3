import FormLogic.Form.Jobs
import FormLogic.Proofs.Output
import Mathlib.Data.List.Forall2

/-!
Jobs give what one conversion of all the expressions gives. The runs put together are the list that
was cut, so no expression is lost and none is converted twice. The results of the runs are found by
their numbers, in whatever order the jobs have finished, and the rows of the runs, one behind the
other, are the rows of the whole list. That holds of expressions whose conversion fails as well: the
first that fails in the order of the form decides.
-/
namespace FormLogic.Form

open Conversion

section Runs

variable {α : Type}

/-- Runs of a positive length are all of the list, given as many of them as it has elements. -/
theorem flatten_runsWithin {size fuel : Nat} (positive : 0 < size) {xs : List α}
    (enough : xs.length ≤ fuel) : (runsWithin size fuel xs).flatten = xs := by
  induction fuel generalizing xs with
  | zero =>
    have nothing : xs = [] := List.length_eq_zero_iff.1 (by omega)
    rw [nothing, runsWithin, List.flatten_nil]
  | succ fuel ih =>
    cases xs with
    | nil => rw [runsWithin, List.flatten_nil]
    | cons first rest =>
      have fewer : ((first :: rest).drop size).length ≤ fuel := by
        simp only [List.length_drop, List.length_cons] at enough ⊢
        omega
      rw [runsWithin, List.flatten_cons, ih fewer, List.take_append_drop]

/-- The length of the runs is rounded up, so it is not zero unless there is nothing to cut. -/
theorem flatten_runs (jobs : Nat) (xs : List α) : (runs jobs xs).flatten = xs := by
  cases xs with
  | nil => rfl
  | cons first rest =>
    unfold runs
    apply flatten_runsWithin
    · apply Nat.div_pos
      · simp only [List.length_cons]
        omega
      · omega
    · exact Nat.le_refl _

end Runs

section Gathering

variable {α β : Type}

/-- The result of a job is found by its number once the job has finished, whatever has finished
before it. -/
theorem lookup_finished {result : Nat → Option α} {number : Nat} {a : α}
    (given : result number = some a) {order : List Nat} (finished : number ∈ order) :
    (order.filterMap fun n => (result n).map fun b => (n, b)).lookup number = some a := by
  induction order with
  | nil => simp at finished
  | cons first rest ih =>
    by_cases same : number = first
    · subst same
      simp [given]
    · have later : number ∈ rest := by simpa [same] using finished
      cases found : result first with
      | none => simpa [found] using ih later
      | some b => simpa [found, List.lookup_cons, beq_false_of_ne same] using ih later

/-- Results that are found by their numbers are gathered in the order of the numbers. -/
theorem gather_take {results : List α} {finished : List (Nat × α)} {count : Nat}
    (fits : count ≤ results.length)
    (found : ∀ number < count, finished.lookup number = results[number]?) :
    gather count finished = some (results.take count) := by
  induction count with
  | zero => rfl
  | succ count ih =>
    have earlier := ih (by omega) fun number less => found number (by omega)
    have last := found count (by omega)
    rw [List.getElem?_eq_getElem (by omega)] at last
    unfold gather at earlier ⊢
    rw [List.range_succ, List.mapM_append, earlier, List.mapM_cons, List.mapM_nil, last]
    simp [List.take_add_one]

/-- Jobs that all finish give their results in the order of their numbers. -/
theorem gather_finished (f : α → β) (work : List α) {order : List Nat}
    (finish : ∀ number < work.length, number ∈ order) :
    gather work.length (order.filterMap fun number => work[number]?.map fun run => (number, f run)) =
      some (work.map f) := by
  have placed : (fun number : Nat => work[number]?.map fun run => (number, f run)) =
      fun number => ((work.map f)[number]?).map fun b => (number, b) := by
    funext number
    rw [List.getElem?_map, Option.map_map]
    rfl
  have all : (work.map f).length = work.length := List.length_map f
  rw [placed, @gather_take _ (work.map f) _ _ (Nat.le_of_eq all.symm)]
  · rw [List.take_of_length_le (Nat.le_of_eq all)]
  · intro number less
    have inside : number < (work.map f).length := by omega
    rw [List.getElem?_eq_getElem inside]
    exact lookup_finished (List.getElem?_eq_getElem inside) (finish number less)

end Gathering

/-- The rows of several runs, one run behind the other, are those of the runs put together. -/
theorem foldr_convertAll (k : Converter) (work : List (List Expression)) :
    (work.map (convertAll k)).foldr (fun rows later => do return (← rows) ++ (← later)) (.ok []) =
      convertAll k work.flatten := by
  induction work with
  | nil => rfl
  | cons first rest ih =>
    rw [List.map_cons, List.foldr_cons, ih, List.flatten_cons]
    unfold convertAll
    rw [List.mapM_append]

/-- The expression that a row was converted from. -/
def Row.expression (row : Row) : Expression := ⟨row.field, row.column, row.source⟩

theorem convertExpression_eq_ok {k : Converter} {e : Expression} {row : Row} :
    convertExpression k e = .ok row ↔ ∃ c, k.convertFor (some e.field) e.source = .ok c ∧
      row = ⟨e.field, e.column, e.source, c.output, c.diagnostics⟩ := by
  rw [convertExpression, Except.bind_eq_ok]
  constructor
  · rintro ⟨c, done, whole⟩
    exact ⟨c, done, (Except.ok.inj whole).symm⟩
  · rintro ⟨c, done, rfl⟩
    exact ⟨c, done, rfl⟩

/-- Each row is the conversion of the expression in its place. -/
theorem forall₂_of_convertAll {k : Converter} {es : List Expression} {rows : List Row}
    (converted : convertAll k es = .ok rows) :
    List.Forall₂ (fun e row => convertExpression k e = .ok row) es rows := by
  induction es generalizing rows with
  | nil =>
    cases converted
    exact .nil
  | cons e rest ih =>
    unfold convertAll at converted
    rw [List.mapM_cons, Except.bind_eq_ok] at converted
    obtain ⟨row, first, converted⟩ := converted
    obtain ⟨later, others, converted⟩ := Except.bind_eq_ok.1 converted
    cases converted
    exact .cons first (ih others)

/-- There is one row for each expression, in their order. -/
theorem map_expression_of_convertAll {k : Converter} {es : List Expression} {rows : List Row}
    (converted : convertAll k es = .ok rows) : rows.map Row.expression = es := by
  have each := forall₂_of_convertAll converted
  clear converted
  induction each with
  | nil => rfl
  | cons first _ ih =>
    obtain ⟨c, _, rfl⟩ := convertExpression_eq_ok.1 first
    rw [List.map_cons, ih]
    rfl

/-- However many jobs there are and in whatever order they finish, the answer is that of converting
the form's expressions one after the other: one row for each expression, in the order of the form. -/
theorem convertInJobs_eq_convert (form : Form) (registry : Field.Registry) (options : Options)
    (jobs : Nat) {order : List Nat}
    (finish : ∀ number < (runs jobs form.expressions).length, number ∈ order) :
    convertInJobs ⟨registry, .builtin, options⟩ jobs order form.expressions =
        some (form.convert registry options) ∧
      ∀ rows, form.convert registry options = .ok rows →
        rows.map Row.expression = form.expressions := by
  refine ⟨?_, fun rows converted => map_expression_of_convertAll converted⟩
  unfold convertInJobs
  dsimp only
  rw [gather_finished (convertAll ⟨registry, .builtin, options⟩) _ finish, Option.map_some,
    foldr_convertAll, flatten_runs]
  rfl

/-- A form with three expressions, the last of which calls a function that no rule is known for. -/
def threeExpressions : Form :=
  ⟨[], [⟨"/data/age".toList, .relevance, "not(${consent})".toList⟩,
    ⟨"/data/age".toList, .constraint, ". > 1 and ${age} = 2".toList⟩,
    ⟨"/data/consent".toList, .calculation, "f(${age})".toList⟩]⟩

/-- The fields that the three expressions refer to. -/
def twoAnswers : Field.Registry :=
  ((Field.Registry.empty.registerDerived "/data/age".toList).2.registerDerived
    "/data/consent".toList).2

theorem convertInJobs_eq_convert_late :
    (∀ number < (runs 2 threeExpressions.expressions).length, number ∈ [1, 0]) ∧
      convertInJobs ⟨twoAnswers, .builtin, .default⟩ 2 [1, 0] threeExpressions.expressions =
        some (threeExpressions.convert twoAnswers .default) ∧
      (threeExpressions.convert twoAnswers .default).toOption.map (·.map Row.output) =
        some ["not(consent)".toList, "age > 1  and  age == 2".toList, "f(age)".toList] := by
  have finish : ∀ number < (runs 2 threeExpressions.expressions).length, number ∈ [1, 0] := by decide
  have same := (convertInJobs_eq_convert threeExpressions twoAnswers .default 2 finish).1
  exact ⟨finish, same, by decide +kernel⟩

end FormLogic.Form
