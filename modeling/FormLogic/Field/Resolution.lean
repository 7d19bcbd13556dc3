import FormLogic.Field.Registry

/-!
What a field reference stands for. `${name}` names a field directly; a path is evaluated from the
field that owns the expression and looked up by its absolute form, then by its last name. A
reference to an unknown field still has a text: the reference without its delimiters.
-/
namespace FormLogic.Field

open Text

inductive Resolution where
  | resolved (entry : Entry)
  | unresolved (text : Text)
  deriving DecidableEq, Repr

namespace Resolution

/-- The text to write for the reference. -/
def text : Resolution → Text
  | resolved e => e.identifier
  | unresolved t => t

def found? : Resolution → Option Entry
  | resolved e => some e
  | unresolved _ => none

def ofLookup (found : Option Entry) (otherwise : Text) : Resolution :=
  match found with
  | some e => resolved e
  | none => unresolved otherwise

end Resolution

def isBracedNameChar (c : Char) : Bool := isNameChar c || c == '.'

/-- The name within the braces of `${name}`, white space around it aside. -/
def bracedName? (inner : Text) : Option Text :=
  let name := trim inner
  if name ≠ [] ∧ name.all isBracedNameChar then some name else none

/-- The name in a text of the form `${name}`. -/
def braceName? : Text → Option Text
  | '$' :: '{' :: rest => if rest.getLast? = some '}' then bracedName? rest.dropLast else none
  | _ => none

namespace Registry

/-- The absolute path of the field that owns an expression. -/
def ownerPath? (r : Registry) (owner : Text) : Option Text :=
  let written := if (trim owner).head? = some '/' then some (normalPath owner) else none
  match r.lookup? owner with
  | some e => if e.path.head? = some '/' then some e.path else written
  | none => written

/-- What a reference to the context node stands for. -/
def resolveSelf (r : Registry) (token : Text) : Option Text → Resolution
  | some owner => .ofLookup (r.lookup? owner) (lastSegment (trim owner))
  | none => .unresolved token

/-- What a path other than the context node stands for. -/
def resolvePath (r : Registry) (token : Text) (path : Path) (owner : Option Text) : Resolution :=
  match (path.evaluate (owner.bind r.ownerPath?)).bind r.get? with
  | some e => .resolved e
  | none =>
    match path.name? with
    | some name => .ofLookup (r.byName? name) name
    | none => .unresolved token

/-- What a reference stands for in an expression owned by `owner`. -/
def resolve (r : Registry) (token : Text) (owner : Option Text) : Resolution :=
  let token := trim token
  match braceName? token with
  | some name => .ofLookup (r.lookup? name) name
  | none =>
    let path := Path.parse token
    if path.isSelf then r.resolveSelf token owner else r.resolvePath token path owner

end Registry

end FormLogic.Field
