import FormLogic.Report.Diagnostic

/-!
What a conversion may find amiss. None of it stops the conversion; each finding says what was left
as it stood, and is reported as a diagnostic.
-/
namespace FormLogic.Conversion

open Text

inductive Finding where
  | unresolvedReference (token : Text)
  /-- The text runs from the name to the end of the expression. -/
  | unbalancedCall (text : Text)
  | unknownFunction (name : Text)
  | argumentCount (name : Text) (least most found : Nat)
  deriving DecidableEq, Repr

namespace Finding

def code : Finding → Code
  | unresolvedReference _ => .unresolvedReference
  | unbalancedCall _ => .unbalancedCall
  | unknownFunction _ => .unknownFunction
  | argumentCount .. => .argumentCount

/-- A call of an unknown function may well be right, so it is worth no warning. -/
def severity : Finding → Severity
  | unknownFunction _ => .info
  | _ => .warning

def message : Finding → Text
  | unresolvedReference token => "Unresolved field reference '".toList ++ token ++ ['\'']
  | unbalancedCall text => "Unbalanced call '".toList ++ text ++ "' left untouched".toList
  | unknownFunction name =>
    "Function '".toList ++ name ++ "' has no conversion rule and was passed through".toList
  | argumentCount name least most found =>
    name ++ "() takes ".toList ++ Text.ofNat least ++ " to ".toList ++ Text.ofNat most ++
      " arguments, found ".toList ++ Text.ofNat found

def toDiagnostic (f : Finding) : Diagnostic := .ofCode f.severity f.code f.message

end Finding

end FormLogic.Conversion
