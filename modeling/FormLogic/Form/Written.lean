import FormLogic.Form
import FormLogic.Json.Record

/-!
The JSON forms of fields, diagnostics, options and form descriptions. Each record is written and read
by one list of its fields.
-/
namespace FormLogic

open Text Json

/-- An object with the values as its keys. -/
def Field.Choices.toJson (choices : Field.Choices) : Json :=
  .ofFields (choices.map fun (value, code) => (value, ofText code))

/-- Reads choices with their codes. A repeated value keeps its first place and its last code. -/
def Field.Choices.ofJson? : Json → Option Field.Choices
  | .object given => do
    let pairs ← (← readKeys? given).mapM fun (value, code) => (text? code).map (value, ·)
    return pairs.foldl (fun choices (value, code) => choices.set value code) []
  | _ => none

def Field.Entry.recordFields : List Json.Field :=
  [.required "path".toList, .required "name".toList, .required "identifier".toList,
    ⟨"choices".toList, .use (.object [])⟩]

/-- Choices are left out when there are none. -/
def Field.Entry.toJson (e : Field.Entry) : Json :=
  .ofRecord recordFields [some (ofText e.path), some (ofText e.name), some (ofText e.identifier),
    if e.choices = [] then none else some e.choices.toJson]

def Field.Entry.ofJson? (j : Json) : Option Field.Entry := do
  match ← record? recordFields j with
  | [path, name, identifier, choices] =>
    return ⟨← text? path, ← text? name, ← text? identifier, ← Choices.ofJson? choices⟩
  | _ => none

def Field.Declaration.recordFields : List Json.Field :=
  [.required "path".toList, ⟨"identifier".toList, .use .null⟩,
    ⟨"choices".toList, .use (.array [])⟩]

def Field.Declaration.toJson (d : Field.Declaration) : Json :=
  .ofRecord recordFields [some (ofText d.path), some ((d.identifier.map ofText).getD .null),
    some (.array (d.choices.map ofText))]

def Field.Declaration.ofJson? (j : Json) : Option Field.Declaration := do
  match ← record? recordFields j with
  | [path, identifier, choices] =>
    return ⟨← text? path, ← nullable? text? identifier, ← listOf? text? choices⟩
  | _ => none

def Severity.all : List Severity := [.error, .warning, .info]

def Severity.ofJson? : Json → Option Severity := variant? Severity.all Severity.name

/-- Codes are numbers of sixteen bits. -/
def Code.ofJson? (j : Json) : Option Code := (natBelow? 0x10000 j).map Code.mk

def Span.recordFields : List Json.Field := [.required "start".toList, .required "end".toList]

def Span.toJson (s : Span) : Json :=
  .ofRecord recordFields [some (.ofNat s.start), some (.ofNat s.stop)]

/-- Offsets are numbers of sixty-four bits. -/
def offsetLimit : Nat := 0x10000000000000000

def Span.ofJson? (j : Json) : Option Span := do
  match ← record? recordFields j with
  | [start, stop] => return ⟨← natBelow? offsetLimit start, ← natBelow? offsetLimit stop⟩
  | _ => none

def Diagnostic.recordFields : List Json.Field :=
  [.required "severity".toList, .required "code".toList, .required "message".toList,
    ⟨"span".toList, .nullInObject⟩, ⟨"help".toList, .nullInObject⟩]

/-- The place and the help are left out when there is none. -/
def Diagnostic.toJson (d : Diagnostic) : Json :=
  .ofRecord recordFields [some (ofText d.severity.name), some (.ofNat d.code.number),
    some (ofText d.message), d.span.map Span.toJson, d.help.map ofText]

def Diagnostic.ofJson? (j : Json) : Option Diagnostic := do
  match ← record? recordFields j with
  | [severity, code, message, span, help] =>
    return ⟨← Severity.ofJson? severity, ← Code.ofJson? code, ← text? message,
      ← nullable? Span.ofJson? span, ← nullable? text? help⟩
  | _ => none

def QuotePolicy.ofJson? : Json → Option QuotePolicy := variant? QuotePolicy.all QuotePolicy.name

def Options.recordFields : List Json.Field :=
  [⟨"quote-policy".toList, .use (ofText QuotePolicy.selectedOnly.name)⟩,
    ⟨"current-field".toList, .use .null⟩]

def Options.toJson (o : Options) : Json :=
  .ofRecord recordFields [some (ofText o.quotePolicy.name),
    some ((o.currentField.map ofText).getD .null)]

def Options.ofJson? (j : Json) : Option Options := do
  match ← record? recordFields j with
  | [policy, field] => return ⟨← QuotePolicy.ofJson? policy, ← nullable? text? field⟩
  | _ => none

namespace Form

def Column.ofJson? : Json → Option Column := variant? Column.all Column.name

def Expression.recordFields : List Json.Field :=
  [.required "field".toList, .required "kind".toList, .required "expression".toList]

def Expression.toJson (e : Expression) : Json :=
  .ofRecord recordFields [some (ofText e.field), some (ofText e.column.name),
    some (ofText e.source)]

def Expression.ofJson? (j : Json) : Option Expression := do
  match ← record? recordFields j with
  | [field, column, source] =>
    return ⟨← text? field, ← Column.ofJson? column, ← text? source⟩
  | _ => none

def recordFields : List Json.Field :=
  [⟨"fields".toList, .use (.array [])⟩, ⟨"expressions".toList, .use (.array [])⟩]

def toJson (form : Form) : Json :=
  .ofRecord recordFields [some (.array (form.fields.map Field.Declaration.toJson)),
    some (.array (form.expressions.map Expression.toJson))]

def ofJson? (j : Json) : Option Form := do
  match ← record? recordFields j with
  | [fields, expressions] =>
    return ⟨← listOf? Field.Declaration.ofJson? fields, ← listOf? Expression.ofJson? expressions⟩
  | _ => none

/-- Diagnostics are left out when there are none. -/
def Row.toJson (row : Row) : Json :=
  .ofFields ([("field".toList, ofText row.field), ("kind".toList, ofText row.column.name),
    ("source".toList, ofText row.source), ("output".toList, ofText row.output)] ++
    if row.diagnostics = [] then []
    else [("diagnostics".toList, .array (row.diagnostics.map Diagnostic.toJson))])

/-- The form description written in a text. -/
def parse (t : Text) : Except Problem Form :=
  match (Json.parse? t).bind ofJson? with
  | some form => .ok form
  | none => .error (.system .invalidFormat "Invalid form description".toList none)

end Form

def Conversion.Converted.toJson (c : Conversion.Converted) : Json :=
  .ofFields [("output".toList, ofText c.output),
    ("diagnostics".toList, .array (c.diagnostics.map Diagnostic.toJson))]

/-- The options written in a text. -/
def Options.parse (t : Text) : Except Problem Options :=
  match (Json.parse? t).bind Options.ofJson? with
  | some options => .ok options
  | none => .error (.config .configuration "Invalid options".toList none)

/-- The registry of a list of declarations written in a text. -/
def Field.Registry.parse (t : Text) : Except Problem Field.Registry :=
  match (Json.parse? t).bind (listOf? Field.Declaration.ofJson?) with
  | some declarations => (ofDeclarations declarations).mapError Problem.ofRegistryErrors
  | none => .error (.system .invalidFormat "Invalid field list".toList none)

end FormLogic
