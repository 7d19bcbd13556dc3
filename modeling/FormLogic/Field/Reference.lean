import FormLogic.Field.Resolution
import FormLogic.Text.Scanner

/-!
Field references in an expression. The expression is cut into reference tokens and the text between
them, string literals passed over; then each token gives way to the text it stands for. Where that
text would run together with a word next to it, a space keeps them apart.
-/
namespace FormLogic.Field.Reference

open Text

def isPathChar (c : Char) : Bool := isNameChar c || c == '.' || c == '/'

/-- Cuts off the path characters that a text begins with. -/
def cutPath (t : Text) : Text × Text := (t.takeWhile isPathChar, t.dropWhile isPathChar)

/-- The `${name}` token whose inner text and closing brace come next, and the text after it. -/
def cutBraced? (inner : Text) : Option (Text × Text) :=
  match cutAt? '}' inner with
  | some (name, after) =>
    if (bracedName? name).isSome then some ('$' :: '{' :: name ++ ['}'], after) else none
  | none => none

/-- A `current()` path and the text after it, given the text behind `current()`. -/
def cutCurrent (after : Text) : Text × Text :=
  if after.head? = some '/' then (currentCall ++ (cutPath after).1, (cutPath after).2)
  else (currentCall, after)

/-- Whether a text begins with a path. A point before a digit begins a number, and a slash begins a
path only before a name. -/
def startsPath : Text → Bool
  | '.' :: after => !after.head?.any Char.isDigit
  | '/' :: after => after.head?.any isNameStart
  | _ => false

/-- The reference token that starts a text behind `before`, and the text after it. -/
def token? (before : Option Char) (t : Text) : Option (Text × Text) :=
  match t with
  | '$' :: '{' :: inner => cutBraced? inner
  | _ =>
    if startsToken before then
      match behind? currentCall t with
      | some after => some (cutCurrent after)
      | none => if startsPath t then some (cutPath t) else none
    else none

inductive Fragment where
  | plain (text : Text)
  | reference (token : Text)
  deriving DecidableEq, Repr

namespace Fragment

/-- The fragment as it stands in the expression. -/
def source : Fragment → Text
  | plain text => text
  | reference token => token

/-- The first fragment of the text `c :: rest` that stands behind `before`, and the text after it.
-/
def next (before : Option Char) (c : Char) (rest : Text) : Fragment × Text :=
  if isQuote c then
    match cutAt? c rest with
    | some (content, after) => (plain (c :: content ++ [c]), after)
    | none => (plain (c :: rest), [])
  else
    match token? before (c :: rest) with
    | some (token, after) => (reference token, after)
    | none => (plain [c], rest)

end Fragment

theorem cutPath_append (t : Text) : (cutPath t).1 ++ (cutPath t).2 = t :=
  List.takeWhile_append_dropWhile

theorem startsPath_isPathChar {c : Char} {rest : Text} (starts : startsPath (c :: rest) = true) :
    isPathChar c = true := by
  unfold startsPath at starts
  split at starts <;> simp_all [isPathChar]

/-- A token and the text after it are the text, and a token is not empty. -/
theorem eq_of_token? {before : Option Char} {t token after : Text}
    (found : token? before t = some (token, after)) : t = token ++ after ∧ token ≠ [] := by
  unfold token? at found
  split at found
  · next inner =>
    unfold cutBraced? at found
    split at found
    · next name rest cut =>
      split at found
      · cases found
        simp [(cutAt?_eq_some_iff.1 cut).1]
      · cases found
    · cases found
  · split at found
    · split at found
      · next rest start =>
        have whole := behind?_eq_some_iff.1 start
        simp only [cutCurrent, Option.some.injEq] at found
        split at found
        · cases found
          simp [whole, cutPath_append, currentCall]
        · cases found
          simp [whole, currentCall]
      · split at found
        · next starts =>
          cases found
          refine ⟨(cutPath_append t).symm, ?_⟩
          cases t with
          | nil => simp [startsPath] at starts
          | cons c rest => simp [startsPath_isPathChar starts]
        · cases found
    · cases found

theorem Fragment.source_next (before : Option Char) (c : Char) (rest : Text) :
    (next before c rest).1.source ++ (next before c rest).2 = c :: rest := by
  unfold next
  split
  · split
    · next content after cut => simp [source, (cutAt?_eq_some_iff.1 cut).1]
    · simp [source]
  · split
    · next token after found => exact (eq_of_token? found).1.symm
    · simp [source]

theorem Fragment.source_next_ne_nil (before : Option Char) (c : Char) (rest : Text) :
    (next before c rest).1.source ≠ [] := by
  unfold next
  split
  · split <;> simp [source]
  · split
    · next token after found => exact (eq_of_token? found).2
    · simp [source]

/-- Reads the fragments of a text. -/
def Fragment.scanner : Scanner Fragment where
  next := next
  source := source
  source_next := source_next
  source_next_ne_nil := source_next_ne_nil

/-- The fragments of a text that stands behind the character `before`. -/
def fragments (before : Option Char) (t : Text) : List Fragment := Fragment.scanner.items before t

/-- The reference tokens of a text, from left to right. -/
def tokens (t : Text) : List Text :=
  (fragments none t).filterMap fun
    | .plain _ => none
    | .reference token => some token

/-- The first character of the text that fragments stand for. -/
def firstChar : List Fragment → Option Char
  | [] => none
  | s :: rest => s.source.head?.or (firstChar rest)

/-- A space if it is needed between two characters to keep two words apart. -/
def separator (left right : Option Char) : Text :=
  if left.any isWordChar && right.any isWordChar then [' '] else []

/-- Writes fragments between the characters `written` and `after`, each reference replaced by its
text. -/
def splice (meaning : Text → Text) (written after : Option Char) : List Fragment → Text
  | [] => []
  | .plain text :: rest => text ++ splice meaning (text.getLast?.or written) after rest
  | .reference token :: rest =>
    let text := meaning token
    let replaced := separator written text.head? ++ text ++
      separator text.getLast? ((firstChar rest).or after)
    replaced ++ splice meaning (replaced.getLast?.or written) after rest

/-- A text with its references replaced. It stands behind the character `before` in the source and
between `written` and `after` in the output. -/
def replaced (meaning : Text → Text) (before written after : Option Char) (t : Text) : Text :=
  splice meaning written after (fragments before t)

end FormLogic.Field.Reference

namespace FormLogic.Field.Registry

open Reference

/-- An expression owned by `owner` with its references replaced by what they stand for. -/
def replaceReferences (r : Registry) (owner : Option Text) (t : Text) : Text :=
  replaced (fun token => (r.resolve token owner).text) none none none t

/-- The reference tokens of an expression that no field is found for. -/
def unresolvedTokens (r : Registry) (owner : Option Text) (t : Text) : List Text :=
  (tokens t).filter fun token => (r.resolve token owner).found?.isNone

end FormLogic.Field.Registry
