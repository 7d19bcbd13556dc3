import FormLogic.Form

/-!
Converting a form's expressions in several jobs. The expressions are cut into runs of equal length,
one for each job. Jobs may finish in any order; their results are put together by the number of the
run, so that the rows come in the order of the form.
-/
namespace FormLogic.Form

open Conversion

/-- Cuts a list into runs of `size` elements; the last run may be shorter. `fuel` bounds the number
of runs. -/
def runsWithin {α : Type} (size : Nat) : Nat → List α → List (List α)
  | 0, _ => []
  | _ + 1, [] => []
  | fuel + 1, first :: rest =>
    (first :: rest).take size :: runsWithin size fuel ((first :: rest).drop size)

/-- The runs of a list for a number of jobs. No number of jobs counts as one. -/
def runs {α : Type} (jobs : Nat) (xs : List α) : List (List α) :=
  let jobs := max jobs 1
  runsWithin ((xs.length + jobs - 1) / jobs) xs.length xs

/-- The results of numbered jobs, in the order of the numbers below `count`. -/
def gather {α : Type} (count : Nat) (finished : List (Nat × α)) : Option (List α) :=
  (List.range count).mapM fun number => List.lookup number finished

/-- Converts expressions in jobs that finish in the given order of their numbers. There is no answer
when a job does not finish. -/
def convertInJobs (k : Converter) (jobs : Nat) (order : List Nat) (es : List Expression) :
    Option (Except Failure (List Row)) :=
  let work := runs jobs es
  let finished := order.filterMap fun number =>
    work[number]?.map fun run => (number, convertAll k run)
  (gather work.length finished).map fun results => results.foldr
    (fun rows later => do return (← rows) ++ (← later)) (.ok [])

end FormLogic.Form
