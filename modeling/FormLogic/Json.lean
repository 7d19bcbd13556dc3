import FormLogic.Text.Character

/-!
JSON values and their written forms: compact, without any white space, and indented by two spaces. A
string may hold halves of surrogate pairs, which are no characters; such a string is valid JSON but
has no text. Of numbers only natural numbers have a value here.
-/
namespace FormLogic

open Text

inductive Json.Number where
  | natural (n : Nat)
  /-- A number with a sign, a fraction or an exponent, as it was written. -/
  | other (written : Text)
  deriving DecidableEq, Repr

inductive Json.StringUnit where
  | char (c : Char)
  /-- Half of a surrogate pair. -/
  | half (code : Nat)
  deriving DecidableEq, Repr

inductive Json where
  | null
  | bool (value : Bool)
  | number (value : Json.Number)
  | string (units : List Json.StringUnit)
  | array (items : List Json)
  /-- The fields in the order in which they were written, repeated keys included. -/
  | object (fields : List (List Json.StringUnit × Json))
  deriving Repr

namespace Json

def units (t : Text) : List StringUnit := t.map .char

/-- The text of a string that holds characters only. -/
def contents? (us : List StringUnit) : Option Text :=
  us.mapM fun
    | .char c => some c
    | .half _ => none

def ofText (t : Text) : Json := string (units t)

def ofNat (n : Nat) : Json := number (.natural n)

/-- An object with the given keys. -/
def ofFields (fields : List (Text × Json)) : Json :=
  object (fields.map fun (key, value) => (units key, value))

def hexDigit (n : Nat) : Char := if n < 10 then Char.ofNat (48 + n) else Char.ofNat (87 + n)

/-- The escape `\u` with four hexadecimal digits. -/
def hexEscape (n : Nat) : Text :=
  ['\\', 'u', hexDigit (n / 4096 % 16), hexDigit (n / 256 % 16), hexDigit (n / 16 % 16),
    hexDigit (n % 16)]

/-- A character as it is written within a string. -/
def escape (c : Char) : Text :=
  if c = '"' then ['\\', '"']
  else if c = '\\' then ['\\', '\\']
  else if c = '\x08' then ['\\', 'b']
  else if c = '\x0c' then ['\\', 'f']
  else if c = '\n' then ['\\', 'n']
  else if c = '\r' then ['\\', 'r']
  else if c = '\t' then ['\\', 't']
  else if c.toNat < 0x20 then hexEscape c.toNat
  else [c]

def StringUnit.render : StringUnit → Text
  | char c => escape c
  | half code => hexEscape code

def renderString (us : List StringUnit) : Text := '"' :: us.flatMap StringUnit.render ++ ['"']

def Number.render : Number → Text
  | natural n => Text.ofNat n
  | other written => written

def renderBool (b : Bool) : Text := if b then "true".toList else "false".toList

mutual

/-- The compact written form. -/
def render : Json → Text
  | null => "null".toList
  | bool b => renderBool b
  | number n => n.render
  | string us => renderString us
  | array [] => ['[', ']']
  | array (first :: rest) => '[' :: render first ++ renderItems rest ++ [']']
  | object [] => ['{', '}']
  | object ((key, value) :: rest) =>
    '{' :: renderString key ++ [':'] ++ render value ++ renderFields rest ++ ['}']

/-- The items of an array after the first. -/
def renderItems : List Json → Text
  | [] => []
  | item :: rest => ',' :: render item ++ renderItems rest

/-- The fields of an object after the first. -/
def renderFields : List (List StringUnit × Json) → Text
  | [] => []
  | (key, value) :: rest =>
    ',' :: renderString key ++ [':'] ++ render value ++ renderFields rest

end

/-- The start of a line at an indentation depth. -/
def newLine (depth : Nat) : Text := '\n' :: List.replicate (2 * depth) ' '

mutual

/-- The indented written form of a value at a depth. -/
def renderIndented (depth : Nat) : Json → Text
  | null => "null".toList
  | bool b => renderBool b
  | number n => n.render
  | string us => renderString us
  | array [] => ['[', ']']
  | array (first :: rest) =>
    '[' :: newLine (depth + 1) ++ renderIndented (depth + 1) first ++
      renderIndentedItems (depth + 1) rest ++ newLine depth ++ [']']
  | object [] => ['{', '}']
  | object ((key, value) :: rest) =>
    '{' :: newLine (depth + 1) ++ renderString key ++ [':', ' '] ++
      renderIndented (depth + 1) value ++ renderIndentedFields (depth + 1) rest ++
      newLine depth ++ ['}']

def renderIndentedItems (depth : Nat) : List Json → Text
  | [] => []
  | item :: rest =>
    ',' :: newLine depth ++ renderIndented depth item ++ renderIndentedItems depth rest

def renderIndentedFields (depth : Nat) : List (List StringUnit × Json) → Text
  | [] => []
  | (key, value) :: rest =>
    ',' :: newLine depth ++ renderString key ++ [':', ' '] ++ renderIndented depth value ++
      renderIndentedFields depth rest

end

/-- The indented written form. -/
def renderPretty (j : Json) : Text := renderIndented 0 j

end Json

end FormLogic
