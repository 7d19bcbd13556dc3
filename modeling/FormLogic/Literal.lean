import FormLogic.Text.Scanner

/-!
String literals. A literal opened by one quote character ends at the next character of that kind;
there are no escapes. A quote that is never closed leaves the rest of its text alone. Requoting
gives every literal double quotes, unless its content holds one.
-/
namespace FormLogic

structure Literal where
  quote : Char
  content : Text
  deriving DecidableEq, Repr

namespace Literal

open Text

/-- The literal as it stands in an expression. -/
def render (l : Literal) : Text := l.quote :: l.content ++ [l.quote]

/-- The literal that starts at `c`, and the text after it. -/
def ofStart? (c : Char) (rest : Text) : Option (Literal × Text) :=
  if isQuote c then (cutAt? c rest).map fun (content, after) => (⟨c, content⟩, after) else none

/-- Reads a text that is one literal, white space around it aside. -/
def parse? (t : Text) : Option Literal :=
  match trim t with
  | [] => none
  | c :: rest =>
    match ofStart? c rest with
    | some (l, []) => some l
    | _ => none

/-- The quote character for a content in the target grammar. -/
def quoteFor (content : Text) : Char := if content.contains '"' then '\'' else '"'

/-- Quotes a content for the target grammar. -/
def quoted (content : Text) : Text := render ⟨quoteFor content, content⟩

/-- A text cut at its literals. -/
inductive Segment where
  | plain (c : Char)
  | literal (l : Literal)
  /-- The text from a quote on that is never closed. -/
  | unclosed (text : Text)
  deriving DecidableEq, Repr

namespace Segment

/-- The segment as it stands in the text. -/
def source : Segment → Text
  | plain c => [c]
  | literal l => l.render
  | unclosed text => text

/-- The first segment of the text `c :: rest`, and the text after it. -/
def next (c : Char) (rest : Text) : Segment × Text :=
  if isQuote c then
    match cutAt? c rest with
    | some (content, after) => (literal ⟨c, content⟩, after)
    | none => (unclosed (c :: rest), [])
  else (plain c, rest)

theorem source_next (c : Char) (rest : Text) :
    (next c rest).1.source ++ (next c rest).2 = c :: rest := by
  unfold next
  split
  · split
    · next content after cut => simp [source, render, (cutAt?_eq_some_iff.1 cut).1]
    · simp [source]
  · simp [source]

theorem source_next_ne_nil (c : Char) (rest : Text) : (next c rest).1.source ≠ [] := by
  unfold next
  split
  · split <;> simp [source, render]
  · simp [source]

/-- Reads the segments of a text. -/
def scanner : Scanner Segment where
  next := fun _ => next
  source := source
  source_next := fun _ => source_next
  source_next_ne_nil := fun _ => source_next_ne_nil

/-- The segment with the quotes of the target grammar. -/
def requoted : Segment → Text
  | literal l => quoted l.content
  | s => s.source

end Segment

def segments (t : Text) : List Segment := Segment.scanner.items none t

/-- Gives each literal the quotes of the target grammar. -/
def requote (t : Text) : Text := (segments t).flatMap Segment.requoted

end Literal

end FormLogic
