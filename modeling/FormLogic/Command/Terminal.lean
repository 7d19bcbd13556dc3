import FormLogic.Report.Diagnostic
import FormLogic.Text.Lowered

/-!
Messages as a terminal shows them. A styled text is enclosed in a style code and a reset; where a
reset stands within it, the style begins anew behind it.
-/
namespace FormLogic.Command

open Text

inductive Style where
  | bold
  | cyan
  | boldRed
  | boldYellow
  | boldGreen
  | boldBlue
  deriving DecidableEq, Repr

def escapeChar : Char := '\x1b'

def Style.code : Style → Text
  | bold => escapeChar :: "[1m".toList
  | cyan => escapeChar :: "[36m".toList
  | boldRed => escapeChar :: "[1;31m".toList
  | boldYellow => escapeChar :: "[1;33m".toList
  | boldGreen => escapeChar :: "[1;32m".toList
  | boldBlue => escapeChar :: "[1;34m".toList

def resetCode : Text := [escapeChar, '[', '0', 'm']

/-- Begins a style anew behind each reset in a text. -/
def restyle (code : Text) : Text → Text
  | [] => []
  | '\x1b' :: '[' :: '0' :: 'm' :: rest => resetCode ++ code ++ restyle code rest
  | c :: rest => c :: restyle code rest

/-- A text in a style, where styles are shown at all. -/
def styled (colored : Bool) (style : Style) (t : Text) : Text :=
  if colored then style.code ++ restyle style.code t ++ resetCode else t

/-- Whether styles are shown, by the user's choice, or else if messages go to a terminal. -/
def isColored (choice : Text) (terminal : Bool) : Bool :=
  let choice := lowered choice
  if choice = "always".toList then true
  else if choice = "never".toList then false
  else terminal

def errorLine (colored : Bool) (message : Text) : Text :=
  styled colored .boldRed "Error:".toList ++ ' ' :: message

def warningLine (colored : Bool) (message : Text) : Text :=
  styled colored .boldYellow "Warning:".toList ++ ' ' :: message

def successLine (colored : Bool) (message : Text) : Text :=
  styled colored .boldGreen "Success:".toList ++ ' ' :: message

def severityLabel (colored : Bool) (severity : Severity) : Text :=
  let style :=
    match severity with
    | .error => Style.boldRed
    | .warning => .boldYellow
    | .info => .boldBlue
  styled colored style severity.name

/-- A diagnostic with what it belongs to. Its help text, if any, stands on a line of its own. -/
def diagnosticLines (colored : Bool) (origin : Text) (d : Diagnostic) : Text :=
  styled colored .cyan origin ++ ": ".toList ++ severityLabel colored d.severity ++ " [".toList ++
    d.code.render ++ "] ".toList ++ d.message ++
    match d.help with
    | some help => "\n  ".toList ++ styled colored .bold "help:".toList ++ ' ' :: help
    | none => []

end FormLogic.Command
