import FormLogic.Text.Character

/-!
Byte offsets. Positions in expressions are reported as offsets into the UTF-8 form of a text. A span
cuts a piece out of a text only when it lies within the text and both its ends fall between
characters.
-/
namespace FormLogic

namespace Text

/-- The length of the UTF-8 form. -/
def byteLength : Text → Nat
  | [] => 0
  | c :: rest => c.utf8Size + byteLength rest

@[simp] theorem byteLength_append (s t : Text) :
    byteLength (s ++ t) = byteLength s + byteLength t := by
  induction s with
  | nil => simp [byteLength]
  | cons c rest ih => simp [byteLength, ih, Nat.add_assoc]

/-- The text before and after byte `offset`, unless the offset lies outside or inside a character.
-/
def splitAtByte? : Nat → Text → Option (Text × Text)
  | 0, t => some ([], t)
  | _ + 1, [] => none
  | n + 1, c :: rest =>
    if c.utf8Size ≤ n + 1 then
      (splitAtByte? (n + 1 - c.utf8Size) rest).map fun (before, after) => (c :: before, after)
    else none

/-- The longest start of a text that takes up at most `limit` bytes. -/
def takeBytes : Nat → Text → Text
  | _, [] => []
  | limit, c :: rest =>
    if c.utf8Size ≤ limit then c :: takeBytes (limit - c.utf8Size) rest else []

/-- Whether a cut after `limit` bytes falls between characters, or behind the text. -/
def cutsCleanly (limit : Nat) (t : Text) : Bool :=
  byteLength (takeBytes limit t) == min limit (byteLength t)

end Text

/-- A byte range, the end excluded. -/
structure Span where
  start : Nat
  stop : Nat
  deriving DecidableEq, Repr

namespace Span

def size (s : Span) : Nat := s.stop - s.start

def isEmpty (s : Span) : Bool := s.stop ≤ s.start

def render (s : Span) : Text := Text.ofNat s.start ++ ['.', '.'] ++ Text.ofNat s.stop

/-- The piece of `t` under the span. -/
def slice? (s : Span) (t : Text) : Option Text := do
  if s.stop < s.start then none
  let (_, tail) ← Text.splitAtByte? s.start t
  let (piece, _) ← Text.splitAtByte? (s.stop - s.start) tail
  return piece

end Span

end FormLogic
