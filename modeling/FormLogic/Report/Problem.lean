import FormLogic.Report.Diagnostic
import FormLogic.Field.Registry

/-!
Problems: failures that end an operation, with the code and the wording under which they are shown.
Several problems found together are one problem.
-/
namespace FormLogic

open Text

inductive Problem where
  /-- A field could not be declared or found. -/
  | registry (code : Code) (message : Text) (path : Option Text)
  /-- A setting is not valid. -/
  | config (code : Code) (message : Text) (context : Option Text)
  /-- A file or its format is not valid. -/
  | system (code : Code) (message : Text) (context : Option Text)
  | multiple (problems : List Problem)
  deriving Repr

namespace Problem

/-- The code of a problem; that of the first when there are several. -/
def code : Problem → Code
  | registry code _ _ => code
  | config code _ _ => code
  | system code _ _ => code
  | multiple [] => ⟨0⟩
  | multiple (first :: _) => first.code

/-- The problem in one line. -/
def render : Problem → Text
  | registry code message _ => code.render ++ ": ".toList ++ message
  | config code message _ => code.render ++ ": ".toList ++ message
  | system code message _ => code.render ++ ": ".toList ++ message
  | multiple problems => "Multiple errors: ".toList ++ Text.ofNat problems.length

/-- Notes where a problem arose. Only problems with settings and files take such a note. -/
def withContext (context : Text) : Problem → Problem
  | config code message _ => config code message (some context)
  | system code message _ => system code message (some context)
  | other => other

/-- One problem for a list of them. -/
def ofList? : List Problem → Option Problem
  | [] => none
  | [problem] => some problem
  | problems => some (multiple problems)

/-- The diagnostic for a problem; that of the first when there are several. -/
def toDiagnostic : Problem → Diagnostic
  | registry code message path =>
    let d := Diagnostic.ofCode .error code message
    (path.map fun path => d.withHelp ("field path: ".toList ++ path)).getD d
  | config code message context =>
    let d := Diagnostic.ofCode .error code message
    (context.map d.withHelp).getD d
  | system code message context =>
    let d := Diagnostic.ofCode .error code message
    (context.map d.withHelp).getD d
  | multiple [] => .ofCode .error ⟨0⟩ "Unknown error".toList
  | multiple (first :: _) => first.toDiagnostic

/-- The problem of a failed read or write, given the system's words for it. -/
def inputOutput (message : Text) : Problem := system .inputOutput message none

/-- The problem of a declaration or a look-up that failed. -/
def ofRegistryError : Field.Registry.Error → Problem
  | .emptyPath path => registry .emptyPath "Empty field path".toList (some path)
  | .duplicate path normal =>
    registry .duplicatePath ("Field '".toList ++ normal ++ "' is declared more than once".toList)
      (some path)
  | .unknownField path => registry .unknownField "Unknown field".toList (some path)

/-- The problem of several declarations that failed. -/
def ofRegistryErrors (errors : List Field.Registry.Error) : Problem :=
  match errors.map ofRegistryError with
  | [problem] => problem
  | problems => multiple problems

end Problem

end FormLogic
