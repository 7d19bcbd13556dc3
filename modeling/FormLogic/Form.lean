import FormLogic.Conversion.Converter

/-!
Form descriptions: the fields of a form and the expressions attached to them. Converting a form
converts each expression as owned by its field.
-/
namespace FormLogic

open Text Conversion

/-- The column of a form that an expression stands in. -/
inductive Form.Column where
  | relevance
  | constraint
  | calculation
  deriving DecidableEq, Repr

namespace Form.Column

def name : Column → Text
  | relevance => "relevance".toList
  | constraint => "constraint".toList
  | calculation => "calculation".toList

def all : List Column := [relevance, constraint, calculation]

end Form.Column

structure Form.Expression where
  /-- Path or name of the field that owns the expression. -/
  field : Text
  column : Form.Column
  source : Text
  deriving DecidableEq, Repr

structure Form where
  fields : List Field.Declaration
  expressions : List Form.Expression
  deriving DecidableEq, Repr

namespace Form

/-- A converted expression with what it was converted from. -/
structure Row where
  field : Text
  column : Column
  source : Text
  output : Text
  diagnostics : List Diagnostic
  deriving DecidableEq, Repr

/-- The registry of the form's fields. -/
def registry (form : Form) : Except Problem Field.Registry :=
  (Field.Registry.ofDeclarations form.fields).mapError Problem.ofRegistryErrors

def convertExpression (k : Converter) (e : Expression) : Except Failure Row := do
  let converted ← k.convertFor (some e.field) e.source
  return ⟨e.field, e.column, e.source, converted.output, converted.diagnostics⟩

def convertAll (k : Converter) (es : List Expression) : Except Failure (List Row) :=
  es.mapM (convertExpression k)

/-- Converts every expression, in order, with the built-in rules. -/
def convert (form : Form) (registry : Field.Registry) (options : Options) :
    Except Failure (List Row) :=
  convertAll ⟨registry, .builtin, options⟩ form.expressions

end Form

end FormLogic
