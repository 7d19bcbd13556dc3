import FormLogic.Report.Problem
import FormLogic.Text.Lowered

/-!
Settings of a conversion: how string literals are quoted in the output, and which field owns the
expressions.
-/
namespace FormLogic

open Text

inductive QuotePolicy where
  /-- Only values of `selected` calls are requoted. -/
  | selectedOnly
  /-- Nothing is requoted. -/
  | preserve
  /-- Every literal is requoted. -/
  | double
  deriving DecidableEq, Repr

namespace QuotePolicy

def name : QuotePolicy → Text
  | selectedOnly => "selected-only".toList
  | preserve => "preserve".toList
  | double => "double".toList

def all : List QuotePolicy := [selectedOnly, preserve, double]

/-- The policy that a user names, in letters of any case. -/
def parse (t : Text) : Except Problem QuotePolicy :=
  let t := lowered t
  if t = "selected-only".toList ∨ t = "selected".toList then .ok selectedOnly
  else if t = "preserve".toList then .ok preserve
  else if t = "double".toList then .ok double
  else
    .error (.config .configuration
      ("Unknown quote policy '".toList ++ t ++
        "'. Use selected-only, preserve or double".toList) none)

end QuotePolicy

structure Options where
  quotePolicy : QuotePolicy
  /-- Path or name of the field that owns the expressions. -/
  currentField : Option Text
  deriving DecidableEq, Repr

def Options.default : Options := ⟨.selectedOnly, none⟩

end FormLogic
