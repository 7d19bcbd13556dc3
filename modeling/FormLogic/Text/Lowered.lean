import FormLogic.Text.Character
import FormLogic.Text.Case

/-!
Lower case by the rules of Unicode. A capital sigma becomes a final sigma where it ends a word: a
letter stands before it and none behind it, characters such as apostrophes and accents aside.
-/
namespace FormLogic.Text

open Case

def inRanges (ranges : List (Nat × Nat)) (c : Char) : Bool :=
  ranges.any fun (first, last) => first ≤ c.toNat && c.toNat ≤ last

/-- Whether the next character that is not passed over has a case. -/
def meetsCased (t : Text) : Bool :=
  ((t.dropWhile (inRanges ignorableRanges)).head?).any (inRanges casedRanges)

def Case.Row.covers (row : Row) (n : Nat) : Bool :=
  row.first ≤ n && n ≤ row.last && (n - row.first) % row.step == 0

/-- The lower-case form of a character that stands alone. -/
def loweredChar (c : Char) : Text :=
  if isAscii c then [c.toLower]
  else if c.toNat = 0x130 then ['i', Char.ofNat 0x307]
  else
    match lowerRows.find? (·.covers c.toNat) with
    | some row => [Char.ofNat (c.toNat + row.shift).toNat]
    | none => [c]

/-- Lowers a text whose preceding characters, the nearest first, are `before`. -/
def loweredFrom (before : Text) : Text → Text
  | [] => []
  | c :: rest =>
    (if c.toNat = 0x3a3 then
      [Char.ofNat (if meetsCased before && !meetsCased rest then 0x3c2 else 0x3c3)]
    else loweredChar c) ++ loweredFrom (c :: before) rest

/-- The text in lower case. -/
def lowered (t : Text) : Text := loweredFrom [] t

end FormLogic.Text
