import FormLogic.Text.Character

/-!
Paths by which expressions point at fields: absolute (`/data/group/name`), relative (`../name`, `.`)
and rooted at the context node (`current()/../name`). A relative path is evaluated from the absolute
path of the field that owns the expression. The written form of a path parses back to it.
-/
namespace FormLogic.Field

open Text

/-- The function that stands for the context node. -/
def currentCall : Text := ['c', 'u', 'r', 'r', 'e', 'n', 't', '(', ')']

inductive Step where
  | current
  | parent
  | child (name : Text)
  deriving DecidableEq, Repr

structure Path where
  absolute : Bool
  steps : List Step
  deriving DecidableEq, Repr

/-- The non-empty segments of a text between slashes. -/
def segments (t : Text) : List Text := (t.splitOn '/').filter (· ≠ [])

/-- Segments with a slash between them. -/
def joinSegments (ss : List Text) : Text := ['/'].intercalate ss

/-- The absolute path through the given segments. -/
def absolutePath (ss : List Text) : Text := '/' :: joinSegments ss

namespace Step

def ofSegment (segment : Text) : Step :=
  if segment = ['.'] then current
  else if segment = ['.', '.'] then parent
  else child segment

def render : Step → Text
  | current => ['.']
  | parent => ['.', '.']
  | child name => name

/-- The segments reached from a node by one step. Nothing lies above the root. -/
def apply (node : List Text) : Step → Option (List Text)
  | current => some node
  | parent => if node = [] then none else some node.dropLast
  | child name => some (node ++ [name])

end Step

namespace Path

/-- The steps written in a text. Empty segments and white space around segments do not count. -/
def stepsOf (t : Text) : List Step :=
  (((t.splitOn '/').map trim).filter (· ≠ [])).map Step.ofSegment

def parse (t : Text) : Path :=
  let t := trim t
  match behind? currentCall t with
  | some rest => ⟨false, .current :: stepsOf rest⟩
  | none =>
    match t with
    | '/' :: rest => ⟨true, stepsOf rest⟩
    | _ => ⟨false, stepsOf t⟩

/-- The last step's name, when the path ends in a named step. -/
def name? (p : Path) : Option Text :=
  match p.steps.getLast? with
  | some (.child name) => some name
  | _ => none

/-- Whether the path points at the context node itself. -/
def isSelf (p : Path) : Bool := !p.absolute && !p.steps.isEmpty && p.steps.all (· == .current)

/-- The node a path starts from: the root, or the context node, which has to be an absolute path. -/
def origin? (p : Path) (context : Option Text) : Option (List Text) :=
  if p.absolute then some []
  else
    match context with
    | some ('/' :: rest) => some (segments rest)
    | _ => none

/-- The absolute path that a path leads to from the context node. -/
def evaluate (p : Path) (context : Option Text) : Option Text := do
  let origin ← p.origin? context
  let node ← p.steps.foldlM Step.apply origin
  return absolutePath node

def render (p : Path) : Text :=
  (if p.absolute then ['/'] else []) ++ joinSegments (p.steps.map Step.render)

end Path

end FormLogic.Field
