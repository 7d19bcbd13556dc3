import FormLogic.Call
import FormLogic.Text.Scanner

/-!
Cutting an expression into calls and the text between them. The pieces of a text put together give
the text back. Only calls with an accepted name are cut out; the arguments of any other call are
read through, so an accepted call inside them is found. String literals and `${name}` tokens are
passed over whole.
-/
namespace FormLogic.Call

open Text

inductive Piece where
  | plain (text : Text)
  | call (call : Call)
  /-- An accepted name with an opening parenthesis that nothing closes. -/
  | unbalanced (run gap : Text)
  deriving DecidableEq, Repr

namespace Piece

/-- The piece as it stands in the expression. -/
def render : Piece → Text
  | plain text => text
  | call c => c.render
  | unbalanced run gap => run ++ gap ++ ['(']

/-- The text behind an opening `${`. -/
def openedBrace? : Text → Option Text
  | '$' :: '{' :: inner => some inner
  | _ => none

/-- The text inside an opening parenthesis that may follow a name, and the white space before it. -/
def openedGroup? (t : Text) : Option (Text × Text) :=
  match t.dropWhile isSpace with
  | '(' :: inside => some (t.takeWhile isSpace, inside)
  | _ => none

/-- The piece that begins with a name, and the text after it. -/
def ofName (accept : Text → Bool) (t : Text) : Piece × Text :=
  let run := t.takeWhile isNameChar
  let after := t.dropWhile isNameChar
  match openedGroup? after with
  | some (gap, inside) =>
    if accept run then
      match closeGroup .outside inside with
      | some (body, rest) => (call ⟨run, gap, body⟩, rest)
      | none => (unbalanced run gap, inside)
    else (plain run, after)
  | none => (plain run, after)

/-- The first piece of the text `c :: rest` that stands behind `before`, and the text after it. -/
def next (accept : Text → Bool) (before : Option Char) (c : Char) (rest : Text) : Piece × Text :=
  if isQuote c then
    match cutAt? c rest with
    | some (content, after) => (plain (c :: content ++ [c]), after)
    | none => (plain (c :: rest), [])
  else
    match openedBrace? (c :: rest) with
    | some inner =>
      match cutAt? '}' inner with
      | some (name, after) => (plain (['$', '{'] ++ name ++ ['}']), after)
      | none => (plain ['$', '{'], inner)
    | none =>
      if isNameStart c && startsToken before then ofName accept (c :: rest)
      else (plain [c], rest)

theorem isNameChar_of_isNameStart {c : Char} (start : isNameStart c = true) :
    isNameChar c = true := by
  simp only [isNameStart, Bool.or_eq_true] at start
  simp only [isNameChar, Char.isAlphanum, Bool.or_eq_true]
  rcases start with start | start <;> simp [start]

theorem eq_of_openedBrace? {t inner : Text} (opened : openedBrace? t = some inner) :
    t = '$' :: '{' :: inner := by
  unfold openedBrace? at opened
  split at opened
  · simp_all
  · simp at opened

theorem eq_of_openedGroup? {t gap inside : Text} (opened : openedGroup? t = some (gap, inside)) :
    t = gap ++ '(' :: inside := by
  unfold openedGroup? at opened
  split at opened
  · next found =>
    simp only [Option.some.injEq, Prod.mk.injEq] at opened
    rw [← opened.1, ← opened.2, ← found, List.takeWhile_append_dropWhile]
  · simp at opened

theorem render_ofName (accept : Text → Bool) (t : Text) :
    (ofName accept t).1.render ++ (ofName accept t).2 = t := by
  have whole : t.takeWhile isNameChar ++ t.dropWhile isNameChar = t :=
    List.takeWhile_append_dropWhile
  unfold ofName
  dsimp only
  split
  · next gap inside opened =>
    have group := eq_of_openedGroup? opened
    split
    · split
      · next body rest closed =>
        simp only [render, Call.render, List.append_assoc, List.cons_append, List.nil_append]
        rw [← eq_of_closeGroup closed, ← group, whole]
      · simp only [render, List.append_assoc, List.cons_append, List.nil_append]
        rw [← group, whole]
    · exact whole
  · exact whole

/-- Nothing is lost: the piece and the text after it are the text. -/
theorem render_next (accept : Text → Bool) (before : Option Char) (c : Char) (rest : Text) :
    (next accept before c rest).1.render ++ (next accept before c rest).2 = c :: rest := by
  unfold next
  split
  · split
    · next content after cut => simp [render, (cutAt?_eq_some_iff.1 cut).1]
    · simp [render]
  · split
    · next inner opened =>
      rw [eq_of_openedBrace? opened]
      split
      · next name after cut => simp [render, (cutAt?_eq_some_iff.1 cut).1]
      · simp [render]
    · split
      · exact render_ofName accept (c :: rest)
      · simp [render]

/-- No piece is empty. -/
theorem render_next_ne_nil (accept : Text → Bool) (before : Option Char) (c : Char) (rest : Text) :
    (next accept before c rest).1.render ≠ [] := by
  unfold next
  split
  · split <;> simp [render]
  · split
    · split <;> simp [render]
    · split
      · next start =>
        have first : isNameChar c = true :=
          isNameChar_of_isNameStart (by simp only [Bool.and_eq_true] at start; exact start.1)
        unfold ofName
        dsimp only
        split
        · split
          · split <;> simp [render, Call.render]
          · simp [render, first]
        · simp [render, first]
      · simp [render]

/-- Reads the pieces of a text. -/
def scanner (accept : Text → Bool) : Scanner Piece where
  next := next accept
  source := render
  source_next := render_next accept
  source_next_ne_nil := render_next_ne_nil accept

end Piece

/-- The pieces of a text that stands behind the character `before`. -/
def pieces (accept : Text → Bool) (before : Option Char) (t : Text) : List Piece :=
  (Piece.scanner accept).items before t

/-- The pieces of a whole text. -/
def piecesOf (accept : Text → Bool) (t : Text) : List Piece := pieces accept none t

/-- The text that pieces stand for. -/
def joined (ps : List Piece) : Text := ps.flatMap Piece.render

theorem joined_pieces (accept : Text → Bool) (before : Option Char) (t : Text) :
    joined (pieces accept before t) = t :=
  (Piece.scanner accept).flatMap_source_items before t

end FormLogic.Call
