import FormLogic.Text.Bytes

/-!
Diagnostics: messages about an expression that was converted all the same, or about a failure. Each
carries a code; the code decides the help text unless another one is given.
-/
namespace FormLogic

open Text

inductive Severity where
  | error
  | warning
  | info
  deriving DecidableEq, Repr

def Severity.name : Severity → Text
  | error => "error".toList
  | warning => "warning".toList
  | info => "info".toList

/-- The number under which a kind of message is documented. -/
structure Code where
  number : Nat
  deriving DecidableEq, Repr

namespace Code

def unresolvedReference : Code := ⟨1⟩
def unbalancedCall : Code := ⟨2⟩
def unknownFunction : Code := ⟨3⟩
def argumentCount : Code := ⟨4⟩
def emptyPath : Code := ⟨100⟩
def duplicatePath : Code := ⟨101⟩
def unknownField : Code := ⟨102⟩
def internal : Code := ⟨400⟩
def inputOutput : Code := ⟨401⟩
def configuration : Code := ⟨402⟩
def invalidFormat : Code := ⟨406⟩

/-- A code is written with four digits at least. -/
def render (c : Code) : Text :=
  let digits := Text.ofNat c.number
  "FSX".toList ++ List.replicate (4 - digits.length) '0' ++ digits

/-- Codes 1 to 99 are about conversions. -/
def isConversion (c : Code) : Bool := 1 ≤ c.number && c.number < 100

/-- Codes 100 to 199 are about the field registry. -/
def isRegistry (c : Code) : Bool := 100 ≤ c.number && c.number < 200

/-- Codes 400 to 499 are about files and configuration. -/
def isSystem (c : Code) : Bool := 400 ≤ c.number && c.number < 500

def description (c : Code) : Text :=
  match c.number with
  | 1 => "Unresolved field reference".toList
  | 2 => "Unbalanced function call".toList
  | 3 => "Unknown function".toList
  | 4 => "Unexpected argument count".toList
  | 100 => "Empty field path".toList
  | 101 => "Duplicate field path".toList
  | 102 => "Unknown field".toList
  | 400 => "Internal error".toList
  | 401 => "I/O error".toList
  | 402 => "Configuration error".toList
  | 406 => "Invalid format".toList
  | _ => "Unknown error".toList

def help? (c : Code) : Option Text :=
  match c.number with
  | 1 =>
    some ("The reference was emitted with its delimiters stripped; ".toList ++
      "declare the field in the registry".toList)
  | 2 => some "The call was left untouched".toList
  | _ => none

end Code

structure Diagnostic where
  severity : Severity
  code : Code
  message : Text
  /-- The place in the text that the message is about. -/
  span : Option Span
  help : Option Text
  deriving DecidableEq, Repr

namespace Diagnostic

/-- A diagnostic with the help text of its code. -/
def ofCode (severity : Severity) (code : Code) (message : Text) : Diagnostic :=
  ⟨severity, code, message, none, code.help?⟩

def withSpan (d : Diagnostic) (span : Span) : Diagnostic := { d with span := some span }

def withHelp (d : Diagnostic) (help : Text) : Diagnostic := { d with help := some help }

/-- The diagnostic in one line. -/
def render (d : Diagnostic) : Text :=
  d.severity.name ++ ": ".toList ++ d.code.render ++ " - ".toList ++ d.message ++
    match d.span with
    | some span => " at ".toList ++ span.render
    | none => []

end Diagnostic

end FormLogic
