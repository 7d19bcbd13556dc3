import FormLogic.Json.Reader

/-!
Records of the domain as JSON. A record is written as an object with its fields in the order of their
declaration. It is read from an object, with its fields in any order and unknown ones passed over, or
from an array of its fields in the order of their declaration. A repeated field is refused. An
enumeration is read from a name, or from an object whose one key is the name and whose value is null.
-/
namespace FormLogic.Json

open Text

/-- What stands for a field that is missing. -/
inductive WhenMissing where
  | refuse
  | use (value : Json)
  /-- Null, but only in an object; an array has to hold the field. -/
  | nullInObject
  deriving Repr

structure Field where
  key : Text
  whenMissing : WhenMissing
  deriving Repr

namespace Field

def required (key : Text) : Field := ⟨key, .refuse⟩

/-- The value that stands for the field when an object lacks it. -/
def inObject? (f : Field) : Option Json :=
  match f.whenMissing with
  | .refuse => none
  | .use value => some value
  | .nullInObject => some null

/-- The value that stands for the field when an array ends before it. -/
def inArray? (f : Field) : Option Json :=
  match f.whenMissing with
  | .use value => some value
  | _ => none

end Field

/-- The object of a record with the given values. A field without a value is left out. -/
def ofRecord (fields : List Field) (values : List (Option Json)) : Json :=
  ofFields ((fields.zip values).flatMap fun (f, value) => (value.map (f.key, ·)).toList)

/-- Gives keys their texts. A key that is no text is refused. -/
def readKeys? (fields : List (List StringUnit × Json)) : Option (List (Text × Json)) :=
  fields.mapM fun (key, value) => (contents? key).map (·, value)

/-- The value of a field in an object. -/
def fieldValue? (given : List (Text × Json)) (f : Field) : Option Json :=
  match given.filter (·.1 == f.key) with
  | [] => f.inObject?
  | [(_, value)] => some value
  | _ => none

/-- The values of the fields in an array. -/
def itemValues? : List Field → List Json → Option (List Json)
  | [], [] => some []
  | [], _ :: _ => none
  | f :: fs, [] => do return (← f.inArray?) :: (← itemValues? fs [])
  | _ :: fs, item :: items => (itemValues? fs items).map (item :: ·)

/-- The values of a record's fields, in the order of their declaration. -/
def record? (fields : List Field) : Json → Option (List Json)
  | object given => do fields.mapM (fieldValue? (← readKeys? given))
  | array items => itemValues? fields items
  | _ => none

def text? : Json → Option Text
  | string us => contents? us
  | _ => none

/-- A natural number below a limit. -/
def natBelow? (limit : Nat) : Json → Option Nat
  | number (.natural n) => if n < limit then some n else none
  | _ => none

def listOf? {α : Type} (read : Json → Option α) : Json → Option (List α)
  | array items => items.mapM read
  | _ => none

/-- A value, or `none` for null. -/
def nullable? {α : Type} (read : Json → Option α) : Json → Option (Option α)
  | null => some none
  | value => (read value).map some

/-- The name that an enumeration's value is written with. -/
def variantName? : Json → Option Text
  | string us => contents? us
  | object [(key, null)] => contents? key
  | _ => none

/-- The member of an enumeration that goes by the written name. -/
def variant? {α : Type} (all : List α) (name : α → Text) (j : Json) : Option α := do
  let written ← variantName? j
  all.find? (name · == written)

end FormLogic.Json
