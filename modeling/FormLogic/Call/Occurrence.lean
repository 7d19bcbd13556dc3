import FormLogic.Call.Piece
import FormLogic.Text.Bytes

/-!
Calls with their places. An occurrence carries byte spans into the text that was searched, for the
call as a whole and for each argument.
-/
namespace FormLogic.Call

open Text

/-- An argument's text, untrimmed, with its place. -/
structure Argument where
  raw : Text
  span : Span
  deriving DecidableEq, Repr

inductive Occurrence where
  | call (name : Text) (arguments : List Argument) (span : Span)
  /-- The span of an unbalanced call runs to the end of the text. -/
  | unbalanced (run : Text) (span : Span)
  deriving DecidableEq, Repr

/-- Places argument texts one behind the other, a comma between them. -/
def placeArguments : Nat → List Text → List Argument
  | _, [] => []
  | start, raw :: rest =>
    let stop := start + byteLength raw
    ⟨raw, ⟨start, stop⟩⟩ :: placeArguments (stop + 1) rest

theorem map_raw_placeArguments (start : Nat) (raws : List Text) :
    (placeArguments start raws).map Argument.raw = raws := by
  induction raws generalizing start with
  | nil => rfl
  | cons raw rest ih => rw [placeArguments, List.map_cons, ih]

/-- Where the text between the parentheses begins, for a call that begins at `start`. -/
def bodyStart (call : Call) (start : Nat) : Nat :=
  start + byteLength call.run + byteLength call.gap + 1

def placedArguments (call : Call) (start : Nat) : List Argument :=
  placeArguments (call.bodyStart start) call.arguments

def spanAt (call : Call) (start : Nat) : Span := ⟨start, start + byteLength call.render⟩

/-- The calls among pieces that begin at byte `start` of a text of `size` bytes. -/
def occurrencesFrom (size : Nat) : Nat → List Piece → List Occurrence
  | _, [] => []
  | start, piece :: rest =>
    let later := occurrencesFrom size (start + byteLength piece.render) rest
    match piece with
    | .plain _ => later
    | .call c => .call c.name (c.placedArguments start) (c.spanAt start) :: later
    | .unbalanced run _ => .unbalanced run ⟨start, size⟩ :: later

/-- The calls to accepted names in a text, from left to right. A call inside an argument of a call
that is found is not listed on its own. -/
def occurrences (accept : Text → Bool) (t : Text) : List Occurrence :=
  occurrencesFrom (byteLength t) 0 (piecesOf accept t)

/-- The balanced calls whose name is `name`. -/
def occurrencesOf (name t : Text) : List Occurrence :=
  (occurrences (· == name) t).filter fun
    | .call .. => true
    | .unbalanced .. => false

end FormLogic.Call
