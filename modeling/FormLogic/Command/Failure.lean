import FormLogic.Report.Problem
import FormLogic.Conversion.Converter

/-!
Failures of the command line, each with the wording in which it is shown: what was attempted, then
why it failed.
-/
namespace FormLogic.Command

open Text

/-- Why a file could not be read or written. -/
inductive FileError where
  | notFound
  | notDirectory
  | isDirectory
  | notUtf8
  /-- Any other reason, in the system's words. -/
  | other (words : Text)
  deriving DecidableEq, Repr

def FileError.message : FileError → Text
  | notFound => "No such file or directory (os error 2)".toList
  | notDirectory => "Not a directory (os error 20)".toList
  | isDirectory => "Is a directory (os error 21)".toList
  | notUtf8 => "stream did not contain valid UTF-8".toList
  | other words => words

/-- The problem of a file that could not be read. -/
def FileError.toProblem (path : Text) (e : FileError) : Problem :=
  (Problem.inputOutput e.message).withContext path

inductive Failure where
  | unknownFormat (name : Text)
  | options (path : Text) (cause : Problem)
  | form (path : Text) (cause : Problem)
  | formFields (path : Text) (cause : Problem)
  | declaration (field : Text) (cause : Problem)
  | outputFile (path : Text) (cause : FileError)
  | conversion (cause : Conversion.Failure)
  /-- Warnings where none are allowed. -/
  | warnings (expressions warnings : Nat)

def warningCount (expressions warnings : Nat) : Text :=
  Text.ofNat expressions ++ " expressions converted with ".toList ++ Text.ofNat warnings ++
    " warnings".toList

/-- The attempt and its cause in one line. -/
def withCause (attempt : Text) (cause : Text) : Text := attempt ++ ": ".toList ++ cause

def Failure.message : Failure → Text
  | unknownFormat name =>
    "Unsupported output format: ".toList ++ name ++ ". Use text, json, pretty or tsv".toList
  | options path cause => withCause ("Failed to load options: ".toList ++ path) cause.render
  | form path cause => withCause ("Failed to load form: ".toList ++ path) cause.render
  | formFields path cause => withCause ("Invalid fields in ".toList ++ path) cause.render
  | declaration field cause =>
    withCause ("Invalid field declaration: ".toList ++ field) cause.render
  | outputFile path cause =>
    withCause ("Failed to create output file: ".toList ++ path) cause.message
  | conversion (.missingArgument name) =>
    "Missing argument in a call of ".toList ++ name
  | conversion .nestingLimit => "Calls are nested too deeply".toList
  | warnings expressions count => warningCount expressions count

end FormLogic.Command
