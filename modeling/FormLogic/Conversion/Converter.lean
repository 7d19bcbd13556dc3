import FormLogic.Conversion.Finding
import FormLogic.Conversion.Rule
import FormLogic.Field.Reference
import FormLogic.Operator

/-!
Converting an expression. The calls of the logical stage are replaced first, then those of the
predicate stage, each after its arguments have been converted in the same way; then references give
way to identifiers, operators take their form in the target grammar and, if the options ask for it,
literals are requoted. Calls that no rule is known for stay in the output and are reported.
-/
namespace FormLogic.Conversion

open Text FormLogic.Field

inductive Failure where
  /-- A rule was applied to a call with fewer arguments than it needs. -/
  | missingArgument (name : Text)
  /-- The rules produce calls within calls without end. -/
  | nestingLimit
  deriving DecidableEq, Repr

/-- A text on its way into the target grammar, with what was found amiss so far. -/
abbrev Draft := Text × List Finding

structure Converter where
  registry : Registry
  rules : RuleSet
  options : Options

/-- The outcome of a conversion. -/
structure Converted where
  output : Text
  diagnostics : List Diagnostic
  deriving DecidableEq, Repr

/-- Whether a conversion gave no warnings. -/
def Converted.isClean (c : Converted) : Bool := c.diagnostics.all (·.severity == .info)

/-- Converts arguments from left to right. -/
def convertArguments (convert : Text → Except Failure Draft) :
    List Call.Argument → Except Failure (List Argument × List Finding)
  | [] => .ok ([], [])
  | a :: rest => do
    let (converted, found) ← convert a.raw
    let (arguments, later) ← convertArguments convert rest
    return (⟨a.raw, a.span, converted⟩ :: arguments, found ++ later)

namespace Converter

def withDefaults (registry : Registry) : Converter := ⟨registry, .builtin, .default⟩

def context (k : Converter) (owner : Option Text) : Context := ⟨k.registry, k.options, owner⟩

/-- The replacement for a call by a rule, or the call itself when the rule does not take as many
arguments. -/
def applyRule (k : Converter) (owner : Option Text) (rule : Rule) (call : ConvertedCall) :
    Except Failure Draft :=
  if rule.takes call.arguments.length then
    match rule.replacement call (k.context owner) with
    | some text => .ok (text, [])
    | none => .error (.missingArgument call.name)
  else
    .ok (call.render,
      [.argumentCount call.name rule.least rule.most call.arguments.length])

/-- The replacement for a call that begins at byte `start`. -/
def replaceCall (k : Converter) (owner : Option Text)
    (convert : Text → Except Failure Draft) (start : Nat) (call : Call) :
    Except Failure Draft := do
  let (arguments, found) ← convertArguments convert (call.placedArguments start)
  match k.rules.get? call.name with
  | none => return (call.render, found)
  | some rule =>
    let (text, more) ← k.applyRule owner rule ⟨call.name, arguments, call.spanAt start⟩
    return (text, found ++ more)

/-- Replaces the calls among the pieces of a text, which begin at byte `start`. -/
def replacePieces (k : Converter) (owner : Option Text)
    (convert : Text → Except Failure Draft) :
    Nat → List Call.Piece → Except Failure Draft
  | _, [] => .ok ([], [])
  | start, piece :: rest => do
    let (text, found) ←
      match piece with
      | .plain text => .ok (text, [])
      | .call call => k.replaceCall owner convert start call
      | .unbalanced .. => .ok (piece.render, [.unbalancedCall (Call.joined (piece :: rest))])
    let (after, later) ← k.replacePieces owner convert (start + byteLength piece.render) rest
    return (text ++ after, found ++ later)

/-- Replaces the calls of a text that belong to a stage. -/
def replaceCalls (k : Converter) (owner : Option Text)
    (convert : Text → Except Failure Draft) (stage : Stage) (t : Text) :
    Except Failure Draft :=
  k.replacePieces owner convert 0 (Call.piecesOf (k.rules.runsIn · stage) t)

/-- Converts references, operators and quotes of a text whose calls have been replaced. -/
def finish (k : Converter) (owner : Option Text) (t : Text) : Text :=
  let normalized := Operator.normalize (k.registry.replaceReferences owner t)
  if k.options.quotePolicy = .double then Literal.requote normalized else normalized

/-- Converts a text with at most `depth` levels of calls within calls. -/
def convertWithin (k : Converter) (owner : Option Text) : Nat → Text → Except Failure Draft
  | 0, _ => .error .nestingLimit
  | depth + 1, t => do
    let convert := k.convertWithin owner depth
    let (logical, found) ← k.replaceCalls owner convert .logical t
    let (predicates, more) ← k.replaceCalls owner convert .predicate logical
    let unresolved := (k.registry.unresolvedTokens owner predicates).map .unresolvedReference
    return (k.finish owner predicates, found ++ more ++ unresolved)

end Converter

/-- Functions that both grammars have. -/
def sharedFunctions : List Text :=
  [['t', 'r', 'u', 'e'], ['f', 'a', 'l', 's', 'e'], ['c', 'u', 'r', 'r', 'e', 'n', 't']]

/-- The names of the called functions that no rule is known for, at most `depth` levels deep. -/
def unknownFunctions (rules : RuleSet) : Nat → Text → List Text
  | 0, _ => []
  | depth + 1, t =>
    (Call.piecesOf (fun name => !sharedFunctions.contains name) t).flatMap fun
      | .call call =>
        (if rules.contains call.name then [] else [call.name]) ++
          call.arguments.flatMap (unknownFunctions rules depth)
      | _ => []

/-- The number of opening parentheses in a text, a bound on how deep its calls are nested. -/
def nesting (t : Text) : Nat := t.count '('

namespace Converter

/-- How deep calls may be nested while a text is converted. The built-in rules need one level more
than the text has opening parentheses; a million levels are left for calls that other rules write
into their replacements. -/
def depthFor (t : Text) : Nat := nesting t + 1000000

/-- Converts an expression that a given field owns. -/
def convertFor (k : Converter) (owner : Option Text) (t : Text) : Except Failure Converted := do
  let (output, found) ← k.convertWithin owner (depthFor t) t
  let unknown := (unknownFunctions k.rules (nesting output + 1) output).map .unknownFunction
  return ⟨output, ((found ++ unknown).map Finding.toDiagnostic).eraseDups⟩

/-- Converts an expression that the field set in the options owns. -/
def convert (k : Converter) (t : Text) : Except Failure Converted :=
  k.convertFor k.options.currentField t

end Converter

end FormLogic.Conversion
