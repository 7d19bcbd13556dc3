import FormLogic.Text.Character

/-!
Names that the survey engine accepts. Question codes and answer codes hold ASCII letters and digits
only and are limited in length; a question code starts with a letter.
-/
namespace FormLogic.Name

open Text

def questionLimit : Nat := 20

def answerLimit : Nat := 5

def alphanumeric (t : Text) : Text := t.filter Char.isAlphanum

/-- The question code for a field name. A code that would start with a digit, or be empty, gets a
leading `q`. -/
def question (name : Text) : Text :=
  let cleaned := alphanumeric name
  let lettered := if cleaned.head?.all Char.isDigit then 'q' :: cleaned else cleaned
  lettered.take questionLimit

/-- The answer code for a choice value. -/
def answer (value : Text) : Text :=
  let cleaned := alphanumeric value
  (if cleaned = [] then ['A'] else cleaned).take answerLimit

end FormLogic.Name
