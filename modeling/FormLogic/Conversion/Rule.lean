import FormLogic.Call.Occurrence
import FormLogic.Conversion.Options
import FormLogic.Field.Resolution
import FormLogic.Literal

/-!
Rules that replace one call whose arguments have been converted already. A rule belongs to a
function name and a stage and states how many arguments it takes. The built-in rules keep `not`
and `if` in shape and turn `selected(field, 'value')` into a comparison with the value's answer
code.
-/
namespace FormLogic.Conversion

open Text FormLogic.Field

/-- The two stages in which calls are replaced, one after the other. -/
inductive Stage where
  | logical
  | predicate
  deriving DecidableEq, Repr

structure Argument where
  /-- The source of the argument, untrimmed. -/
  raw : Text
  span : Span
  /-- The argument in the target grammar. -/
  converted : Text
  deriving DecidableEq, Repr

def Argument.source (a : Argument) : Text := trim a.raw

def Argument.text (a : Argument) : Text := trim a.converted

structure ConvertedCall where
  name : Text
  arguments : List Argument
  span : Span
  deriving DecidableEq, Repr

/-- The call written from its converted arguments. -/
def ConvertedCall.render (c : ConvertedCall) : Text :=
  c.name ++ '(' :: [',', ' '].intercalate (c.arguments.map Argument.text) ++ [')']

/-- What a rule may look up besides the call itself. -/
structure Context where
  registry : Registry
  options : Options
  owner : Option Text

structure Rule where
  stage : Stage
  /-- The least and the greatest number of arguments that the rule is applied to. -/
  least : Nat
  most : Nat
  /-- The text that replaces a call, unless the rule needs an argument that is not there. -/
  replacement : ConvertedCall → Context → Option Text

def Rule.takes (rule : Rule) (count : Nat) : Bool := rule.least ≤ count && count ≤ rule.most

/-- Keeps the shape of a call. -/
def keepShape (call : ConvertedCall) (_ : Context) : Option Text := some call.render

/-- The value of a `selected` call: the answer code that the field declares for a literal, or the
literal itself, or else whatever the argument was converted to. -/
def selectedValue (ctx : Context) (field value : Argument) : Text :=
  match Literal.parse? value.source with
  | some l =>
    let entry := (ctx.registry.resolve field.source ctx.owner).found?
    let content := (entry.bind (·.answerCode? l.content)).getD l.content
    match ctx.options.quotePolicy with
    | .preserve => Literal.render ⟨l.quote, content⟩
    | .selectedOnly | .double => Literal.quoted content
  | none => value.text

/-- Turns `selected(field, 'value')` into `(field == "value")`. -/
def compareSelected (call : ConvertedCall) (ctx : Context) : Option Text :=
  match call.arguments with
  | field :: value :: _ =>
    some ('(' :: field.text ++ [' ', '=', '=', ' '] ++ selectedValue ctx field value ++ [')'])
  | _ => none

/-- Rules by function name; of two rules for a name the later one counts and stands first. -/
structure RuleSet where
  rules : List (Text × Rule)

namespace RuleSet

def empty : RuleSet := ⟨[]⟩

def register (s : RuleSet) (name : Text) (rule : Rule) : RuleSet := ⟨(name, rule) :: s.rules⟩

def get? (s : RuleSet) (name : Text) : Option Rule := s.rules.lookup name

def contains (s : RuleSet) (name : Text) : Bool := (s.get? name).isSome

/-- Whether the rule for a name belongs to a stage. -/
def runsIn (s : RuleSet) (name : Text) (stage : Stage) : Bool :=
  (s.get? name).any (·.stage == stage)

def negationName : Text := ['n', 'o', 't']

def choiceName : Text := ['i', 'f']

def selectedName : Text := ['s', 'e', 'l', 'e', 'c', 't', 'e', 'd']

def builtin : RuleSet :=
  ⟨[(negationName, ⟨.logical, 1, 1, keepShape⟩), (choiceName, ⟨.logical, 3, 3, keepShape⟩),
    (selectedName, ⟨.predicate, 2, 2, compareSelected⟩)]⟩

end RuleSet

end FormLogic.Conversion
