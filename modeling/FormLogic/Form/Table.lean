import FormLogic.Form.Written

/-!
Converted expressions as output: plain text with one expression a line, JSON, or tab-separated rows
under a header. Tabs and line breaks within a cell become spaces, so that rows stay aligned.
-/
namespace FormLogic

open Text

inductive OutputFormat where
  | text
  | json
  | prettyJson
  | table
  deriving DecidableEq, Repr

/-- The format that a user names, in letters of any case; otherwise the name in lower case. -/
def OutputFormat.parse (t : Text) : Except Text OutputFormat :=
  let t := lowered t
  if t = "text".toList then .ok text
  else if t = "json".toList then .ok json
  else if t = "pretty".toList ∨ t = "json-pretty".toList then .ok prettyJson
  else if t = "tsv".toList then .ok table
  else .error t

/-- Whether a character would end a cell or a row. -/
def endsCell (c : Char) : Bool := c == '\t' || c == '\n' || c == '\r'

/-- A text as one cell. -/
def cell (t : Text) : Text := t.map fun c => if endsCell c then ' ' else c

def joinLines (lines : List Text) : Text := ['\n'].intercalate lines

namespace Form

def tableHeader : Text := "field\tkind\texpression".toList

def Row.tableLine (row : Row) : Text :=
  cell row.field ++ '\t' :: row.column.name ++ '\t' :: cell row.output

/-- Converted expressions in an output format. -/
def renderRows (format : OutputFormat) (rows : List Row) : Text :=
  match format with
  | .text => joinLines (rows.map Row.output)
  | .json => (Json.array (rows.map Row.toJson)).render
  | .prettyJson => (Json.array (rows.map Row.toJson)).renderPretty
  | .table => joinLines (tableHeader :: rows.map Row.tableLine)

end Form

/-- One converted expression in an output format. -/
def Conversion.Converted.render (format : OutputFormat) (c : Converted) : Text :=
  match format with
  | .text => c.output
  | .json => c.toJson.render
  | .prettyJson => c.toJson.renderPretty
  | .table => cell c.output

end FormLogic
