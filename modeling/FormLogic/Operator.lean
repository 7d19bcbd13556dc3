import FormLogic.Literal
import FormLogic.Text.Scanner

/-!
Operators in the target grammar. A lone `=` becomes `==`; the other comparisons are spelled alike in
both grammars. The boolean words `and` and `or` get two spaces on each side, whatever stood there.
String literals, and the text from a quote that is never closed, stay as they are.
-/
namespace FormLogic.Operator

open Text

inductive BooleanWord where
  | conjunction
  | disjunction
  deriving DecidableEq, Repr

def BooleanWord.render : BooleanWord → Text
  | conjunction => ['a', 'n', 'd']
  | disjunction => ['o', 'r']

inductive Token where
  /-- A closed literal, or the text from an unclosed quote on. -/
  | quotedText (text : Text)
  /-- An equals sign that is not part of a longer operator. -/
  | equals
  | boolean (word : BooleanWord)
  | space (c : Char)
  | other (c : Char)
  deriving DecidableEq, Repr

/-- The token as it stands in the source. -/
def Token.source : Token → Text
  | quotedText text => text
  | equals => ['=']
  | boolean word => word.render
  | space c => [c]
  | other c => [c]

/-- Whether a word that stands behind `before` may be a boolean operator. -/
def startsWord (before : Option Char) : Bool :=
  !before.any fun c => isNameChar c || c == '$' || c == '.'

/-- Whether a word ends before the text `after`. -/
def endsWord (after : Text) : Bool := !after.head?.any isNameChar

/-- The boolean word that starts a text behind `before`, and the text after it. -/
def booleanWord? (before : Option Char) : Text → Option (BooleanWord × Text)
  | 'a' :: 'n' :: 'd' :: after =>
    if startsWord before && endsWord after then some (.conjunction, after) else none
  | 'o' :: 'r' :: after =>
    if startsWord before && endsWord after then some (.disjunction, after) else none
  | _ => none

/-- Whether an equals sign between `before` and `after` stands alone. -/
def standsAlone (before : Option Char) (after : Text) : Bool :=
  !(before.any fun c => c == '!' || c == '<' || c == '>' || c == '=') && after.head? != some '='

/-- The first token of the text `c :: rest` that stands behind `before`, and the text after it. -/
def Token.next (before : Option Char) (c : Char) (rest : Text) : Token × Text :=
  if isQuote c then
    match cutAt? c rest with
    | some (content, after) => (quotedText (Literal.render ⟨c, content⟩), after)
    | none => (quotedText (c :: rest), [])
  else if c = '=' then (if standsAlone before rest then equals else other c, rest)
  else
    match booleanWord? before (c :: rest) with
    | some (word, after) => (boolean word, after)
    | none => (if isSpace c then space c else other c, rest)

theorem eq_of_booleanWord? {before : Option Char} {t after : Text} {word : BooleanWord}
    (found : booleanWord? before t = some (word, after)) : t = word.render ++ after := by
  unfold booleanWord? at found
  split at found
  · split at found
    · cases found; rfl
    · cases found
  · split at found
    · cases found; rfl
    · cases found
  · cases found

/-- Nothing is lost: the token and the text after it are the text. -/
theorem Token.source_next (before : Option Char) (c : Char) (rest : Text) :
    (next before c rest).1.source ++ (next before c rest).2 = c :: rest := by
  unfold next
  split
  · split
    · next content after cut => simp [source, Literal.render, (cutAt?_eq_some_iff.1 cut).1]
    · simp [source]
  · split
    · next equal => split <;> simp [source, equal]
    · split
      · next word after found => exact (eq_of_booleanWord? found).symm
      · split <;> simp [source]

theorem Token.source_next_ne_nil (before : Option Char) (c : Char) (rest : Text) :
    (next before c rest).1.source ≠ [] := by
  unfold next
  split
  · split <;> simp [source, Literal.render]
  · split
    · split <;> simp [source]
    · split
      · next word after _ => cases word <;> simp [source, BooleanWord.render]
      · split <;> simp [source]

/-- Reads the tokens of a text. -/
def Token.scanner : Scanner Token where
  next := next
  source := source
  source_next := source_next
  source_next_ne_nil := source_next_ne_nil

/-- The tokens of a text that stands behind the character `before`. -/
def tokens (before : Option Char) (t : Text) : List Token := Token.scanner.items before t

/-- Whether nothing but white space stands before a boolean word. -/
def leadsToBoolean : List Token → Bool
  | .space _ :: rest => leadsToBoolean rest
  | .boolean _ :: _ => true
  | _ => false

/-- Writes tokens in the target grammar. `spaced` says that the white space which comes next follows
a boolean word and has been written already. -/
def render (spaced : Bool) : List Token → Text
  | [] => []
  | .space c :: rest =>
    if spaced || leadsToBoolean rest then render spaced rest else c :: render false rest
  | .boolean word :: rest => [' ', ' '] ++ word.render ++ [' ', ' '] ++ render true rest
  | .equals :: rest => '=' :: '=' :: render false rest
  | .quotedText text :: rest => text ++ render false rest
  | .other c :: rest => c :: render false rest

/-- Gives the operators of an expression their form in the target grammar. -/
def normalize (t : Text) : Text := render false (tokens none t)

end FormLogic.Operator
