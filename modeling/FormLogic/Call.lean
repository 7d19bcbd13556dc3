import FormLogic.Text.Character

/-!
Function calls as they stand in an expression: a name, white space, and a parenthesised group. The
group ends where its parentheses balance and its arguments are separated by the commas that stand
directly inside it; parentheses and commas within string literals do not count.
-/
namespace FormLogic

structure Call where
  /-- The maximal run of name characters before the group. -/
  run : Text
  /-- The white space between name and group. -/
  gap : Text
  /-- The text between the parentheses. -/
  body : Text
  deriving DecidableEq, Repr

namespace Call

open Text

/-- Where a character stands: within how many groups, and within the literal of which quote. -/
structure Place where
  depth : Nat
  quote : Option Char
  deriving DecidableEq, Repr

namespace Place

/-- Outside literals, and directly in the group that is being read. -/
def outside : Place := ⟨0, none⟩

/-- The place of the character after `c`. -/
def next (p : Place) (c : Char) : Place :=
  match p.quote with
  | some quote => ⟨p.depth, if c = quote then none else some quote⟩
  | none =>
    ⟨if c = '(' then p.depth + 1 else if c = ')' then p.depth - 1 else p.depth,
      if isQuote c then some c else none⟩

end Place

/-- The text up to the parenthesis that closes a group opened before it, and the text behind that
parenthesis. -/
def closeGroup (p : Place) : Text → Option (Text × Text)
  | [] => none
  | c :: rest =>
    if c = ')' ∧ p = .outside then some ([], rest)
    else (closeGroup (p.next c) rest).map fun (body, after) => (c :: body, after)

/-- The pieces of a group's text between the commas that stand directly inside it. -/
def splitArguments (p : Place) : Text → List Text
  | [] => [[]]
  | c :: rest =>
    if c = ',' ∧ p = .outside then [] :: splitArguments .outside rest
    else (splitArguments (p.next c) rest).modifyHead (c :: ·)

/-- The argument texts, untrimmed. A blank group holds no argument; a blank piece beside a comma is
an argument. -/
def arguments (call : Call) : List Text :=
  if call.body.all isBlank then [] else splitArguments .outside call.body

/-- The name that rules are looked up by: white space at the end of the run is not part of it. -/
def name (call : Call) : Text := trimEnd call.run

/-- The call as it stands in the expression. -/
def render (call : Call) : Text := call.run ++ call.gap ++ '(' :: call.body ++ [')']

theorem eq_of_closeGroup {t body after : Text} {p : Place}
    (closed : closeGroup p t = some (body, after)) : t = body ++ ')' :: after := by
  induction t generalizing p body with
  | nil => simp [closeGroup] at closed
  | cons c rest ih =>
    rw [closeGroup] at closed
    split at closed
    · next stop =>
      simp only [Option.some.injEq, Prod.mk.injEq] at closed
      simp [stop.1, ← closed.1, closed.2]
    · simp only [Option.map_eq_some_iff, Prod.mk.injEq, Prod.exists] at closed
      obtain ⟨inner, tail, found, rfl, rfl⟩ := closed
      simp [ih found]

end Call

end FormLogic
