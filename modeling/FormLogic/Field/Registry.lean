import FormLogic.Field.Declared
import FormLogic.Name.Sanitized
import FormLogic.Name.Pool

/-!
The registry of a form's fields. A field is declared under a path, has the last segment of the path
as its name and an identifier in the target survey, and may map choice values to answer codes.
Fields keep the order of their declaration. A field is found by its path, or by its name as long as
no other path ends in the same name.
-/
namespace FormLogic.Field

open Text

/-- Choice values with their answer codes, in the order in which the values were added. -/
abbrev Choices := List (Text × Text)

/-- Maps a value to a code, in the place of its former code if it has one. -/
def Choices.set (choices : Choices) (value code : Text) : Choices :=
  if (choices.lookup value).isSome then
    choices.map fun choice => if choice.1 = value then (value, code) else choice
  else choices ++ [(value, code)]

/-- Adds the values that have no code yet, each with a new code from the pool. -/
def Choices.extend (choices : Choices) (pool : Name.Pool) : List Text → Choices
  | [] => choices
  | value :: rest =>
    if (choices.lookup value).isSome then choices.extend pool rest
    else
      let (code, pool) := pool.allocate (Name.answer value)
      extend (choices ++ [(value, code)]) pool rest

/-- The pool of the codes in use. -/
def Choices.codePool (choices : Choices) : Name.Pool :=
  (Name.Pool.empty Name.answerLimit).reserveAll (choices.map Prod.snd)

structure Entry where
  path : Text
  name : Text
  identifier : Text
  choices : Choices
  deriving DecidableEq, Repr

/-- The answer code for a choice value. -/
def Entry.answerCode? (e : Entry) (value : Text) : Option Text := e.choices.lookup value

/-- How often a name is in use, and where. -/
inductive NameUse where
  | unique (path : Text)
  | ambiguous
  deriving DecidableEq, Repr

structure Registry where
  entries : List Entry
  /-- For each field name, whether one path ends in it or several do. -/
  names : List (Text × NameUse)
  identifiers : Name.Pool
  deriving DecidableEq, Repr

namespace Registry

inductive Error where
  | emptyPath (path : Text)
  | duplicate (path normal : Text)
  | unknownField (path : Text)
  deriving DecidableEq, Repr

def empty : Registry := ⟨[], [], .empty Name.questionLimit⟩

/-- The entry stored under a path in normal form. -/
def at? (r : Registry) (key : Text) : Option Entry := r.entries.find? (·.path == key)

def get? (r : Registry) (path : Text) : Option Entry := r.at? (normalPath path)

/-- The entry with a name, unless the name is ambiguous. -/
def byName? (r : Registry) (name : Text) : Option Entry :=
  match r.names.lookup name with
  | some (.unique path) => r.at? path
  | _ => none

/-- The entry for a key that is a declared path or a name. -/
def lookup? (r : Registry) (key : Text) : Option Entry :=
  (r.get? key).or (r.byName? (lastSegment (trim key)))

def isAmbiguous (r : Registry) (name : Text) : Bool := r.names.lookup name == some .ambiguous

/-- The normal form of a path under which a field can be declared. -/
def newKey (r : Registry) (path : Text) : Except Error Text :=
  let key := normalPath path
  if key = [] then .error (.emptyPath path)
  else if (r.at? key).isSome then .error (.duplicate path key)
  else .ok key

/-- Notes that a path ends in a name. -/
def addName (names : List (Text × NameUse)) (name path : Text) : List (Text × NameUse) :=
  if (names.lookup name).isSome then
    names.map fun use => if use.1 = name then (name, .ambiguous) else use
  else names ++ [(name, .unique path)]

def insert (r : Registry) (e : Entry) : Registry :=
  { r with entries := r.entries ++ [e], names := addName r.names e.name e.path }

/-- Declares a field with an identifier of the caller's choice, which is reserved first. -/
def register (r : Registry) (path identifier : Text) : Except Error Entry × Registry :=
  let r := { r with identifiers := r.identifiers.reserve identifier }
  match r.newKey path with
  | .error e => (.error e, r)
  | .ok key =>
    let entry := ⟨key, lastSegment key, identifier, []⟩
    (.ok entry, r.insert entry)

/-- Declares a field with a new identifier made from its name. -/
def registerDerived (r : Registry) (path : Text) : Except Error Entry × Registry :=
  match r.newKey path with
  | .error e => (.error e, r)
  | .ok key =>
    let (identifier, pool) := r.identifiers.allocate (Name.question (lastSegment key))
    let entry := ⟨key, lastSegment key, identifier, []⟩
    (.ok entry, { r with identifiers := pool }.insert entry)

/-- Replaces the entry stored under a path in normal form. -/
def update (r : Registry) (key : Text) (f : Entry → Entry) : Registry :=
  { r with entries := r.entries.map fun e => if e.path = key then f e else e }

/-- Changes the entry declared under a path. -/
def modify (r : Registry) (path : Text) (f : Entry → Entry) : Except Error Unit × Registry :=
  match r.get? path with
  | none => (.error (.unknownField path), r)
  | some e => (.ok (), r.update e.path f)

/-- Adds choice values to a field, each with a new answer code. -/
def addChoices (r : Registry) (path : Text) (values : List Text) : Except Error Unit × Registry :=
  r.modify path fun e => { e with choices := e.choices.extend e.choices.codePool values }

/-- Maps one choice value of a field to an answer code of the caller's choice. -/
def registerChoice (r : Registry) (path value code : Text) : Except Error Unit × Registry :=
  r.modify path fun e => { e with choices := e.choices.set value code }

end Registry

/-- A field as a form declares it. -/
structure Declaration where
  path : Text
  /-- Made from the field's name when absent. -/
  identifier : Option Text
  choices : List Text
  deriving DecidableEq, Repr

namespace Registry

/-- Declares one field with its choices. -/
def declare (r : Registry) (d : Declaration) : Except Error Unit × Registry :=
  let (registered, r) :=
    match d.identifier with
    | some identifier => r.register d.path identifier
    | none => r.registerDerived d.path
  match registered with
  | .error e => (.error e, r)
  | .ok _ => r.addChoices d.path d.choices

/-- Declares fields one after the other, going on after a failure. -/
def declareAll (r : Registry) : List Declaration → List Error × Registry
  | [] => ([], r)
  | d :: rest =>
    let (declared, r) := r.declare d
    let (errors, r) := r.declareAll rest
    match declared with
    | .error e => (e :: errors, r)
    | .ok _ => (errors, r)

/-- A registry of the declared fields, or all failures in the order of the declarations. Identifiers
chosen by declarations are reserved before any identifier is made. -/
def ofDeclarations (ds : List Declaration) : Except (List Error) Registry :=
  let chosen := ds.filterMap Declaration.identifier
  match declareAll { empty with identifiers := empty.identifiers.reserveAll chosen } ds with
  | ([], r) => .ok r
  | (errors, _) => .error errors

def ofPaths (paths : List Text) : Except (List Error) Registry :=
  ofDeclarations (paths.map fun path => ⟨path, none, []⟩)

end Registry

end FormLogic.Field
