import FormLogic.Json

/-!
Reading JSON as RFC 8259 has it: one value, white space around it, nothing else. Control characters
within strings, leading zeros, trailing commas and unknown escapes are refused.
-/
namespace FormLogic.Json

open Text

def isJsonSpace (c : Char) : Bool := c == ' ' || c == '\t' || c == '\n' || c == '\r'

def skipSpace (t : Text) : Text := t.dropWhile isJsonSpace

def hexValue? (c : Char) : Option Nat :=
  if c.isDigit then some (c.toNat - 48)
  else if 'a' ≤ c ∧ c ≤ 'f' then some (c.toNat - 87)
  else if 'A' ≤ c ∧ c ≤ 'F' then some (c.toNat - 55)
  else none

/-- The value of four hexadecimal digits, and the text after them. -/
def hexNumber? : Text → Option (Nat × Text)
  | a :: b :: c :: d :: rest => do
    let a ← hexValue? a
    let b ← hexValue? b
    let c ← hexValue? c
    let d ← hexValue? d
    return (((a * 16 + b) * 16 + c) * 16 + d, rest)
  | _ => none

def isHighHalf (n : Nat) : Bool := 0xd800 ≤ n && n < 0xdc00

def isLowHalf (n : Nat) : Bool := 0xdc00 ≤ n && n < 0xe000

/-- The lower half of a surrogate pair at the start of a text, and the text after it. -/
def lowHalf? : Text → Option (Nat × Text)
  | '\\' :: 'u' :: rest =>
    match hexNumber? rest with
    | some (n, after) => if isLowHalf n then some (n, after) else none
    | none => none
  | _ => none

/-- The character of a surrogate pair. -/
def pairChar (high low : Nat) : Char :=
  Char.ofNat (0x10000 + (high - 0xd800) * 1024 + (low - 0xdc00))

/-- The unit written by `\u` and a number, given the text behind it, and the text that is left. -/
def codeUnit (n : Nat) (after : Text) : StringUnit × Text :=
  if isHighHalf n then
    match lowHalf? after with
    | some (low, after) => (.char (pairChar n low), after)
    | none => (.half n, after)
  else if isLowHalf n then (.half n, after)
  else (.char (Char.ofNat n), after)

/-- The character written by a one-letter escape. -/
def shortEscape? (c : Char) : Option Char :=
  match c with
  | '"' => some '"'
  | '\\' => some '\\'
  | '/' => some '/'
  | 'b' => some '\x08'
  | 'f' => some '\x0c'
  | 'n' => some '\n'
  | 'r' => some '\r'
  | 't' => some '\t'
  | _ => none

/-- The first unit of a string's text, and the text after it. -/
def stringUnit? : Text → Option (StringUnit × Text)
  | '\\' :: 'u' :: rest => (hexNumber? rest).map fun (n, after) => codeUnit n after
  | '\\' :: c :: rest => (shortEscape? c).map fun c => (.char c, rest)
  | c :: rest => if c = '\\' ∨ c.toNat < 0x20 then none else some (.char c, rest)
  | [] => none

theorem length_of_hexNumber? {t after : Text} {n : Nat}
    (read : hexNumber? t = some (n, after)) : after.length < t.length := by
  unfold hexNumber? at read
  split at read
  · next a b c d rest =>
    simp only [Option.bind_eq_bind, Option.bind_eq_some_iff, Option.pure_def, Option.some.injEq,
      Prod.mk.injEq] at read
    obtain ⟨_, _, _, _, _, _, _, _, _, rfl⟩ := read
    simp only [List.length_cons]
    omega
  · cases read

theorem length_of_lowHalf? {t after : Text} {n : Nat} (read : lowHalf? t = some (n, after)) :
    after.length < t.length := by
  unfold lowHalf? at read
  split at read
  · split at read
    · next found =>
      split at read
      · cases read
        have := length_of_hexNumber? found
        simp only [List.length_cons]
        omega
      · cases read
    · cases read
  · cases read

theorem length_codeUnit_le (n : Nat) (after : Text) :
    (codeUnit n after).2.length ≤ after.length := by
  unfold codeUnit
  split
  · split
    · next found => exact Nat.le_of_lt (length_of_lowHalf? found)
    · exact Nat.le_refl _
  · split <;> exact Nat.le_refl _

theorem length_of_stringUnit? {t after : Text} {u : StringUnit}
    (read : stringUnit? t = some (u, after)) : after.length < t.length := by
  unfold stringUnit? at read
  split at read
  · next rest =>
    simp only [Option.map_eq_some_iff, Prod.exists] at read
    obtain ⟨n, inner, found, unit⟩ := read
    have shorter := length_of_hexNumber? found
    have bound := length_codeUnit_le n inner
    rw [unit] at bound
    simp only [List.length_cons]
    dsimp only at bound
    omega
  · simp only [Option.map_eq_some_iff, Prod.mk.injEq] at read
    obtain ⟨_, _, _, rfl⟩ := read
    simp only [List.length_cons]
    omega
  · split at read
    · cases read
    · cases read
      simp only [List.length_cons]
      omega
  · cases read

/-- The units of a string whose opening quote has been read, and the text after its closing quote.
-/
def stringUnits? (t : Text) : Option (List StringUnit × Text) :=
  if t.head? = some '"' then some ([], t.tail)
  else
    match read : stringUnit? t with
    | some (u, after) =>
      have := length_of_stringUnit? read
      (stringUnits? after).map fun (us, rest) => (u :: us, rest)
    | none => none
termination_by t.length

/-- The digits that a text begins with, one at least, and the text after them. -/
def digits? (t : Text) : Option (Text × Text) :=
  let ds := t.takeWhile Char.isDigit
  if ds = [] then none else some (ds, t.dropWhile Char.isDigit)

/-- The whole part of a number, without leading zeros. -/
def wholePart? (t : Text) : Option (Text × Text) :=
  match digits? t with
  | some (ds, after) => if ds.head? = some '0' ∧ ds.tail ≠ [] then none else some (ds, after)
  | none => none

/-- The fraction of a number, which may be missing. -/
def fraction? : Text → Option (Text × Text)
  | '.' :: rest => (digits? rest).map fun (ds, after) => ('.' :: ds, after)
  | t => some ([], t)

/-- The sign of an exponent, which may be missing. -/
def exponentSign (t : Text) : Text × Text :=
  match t with
  | '+' :: rest => (['+'], rest)
  | '-' :: rest => (['-'], rest)
  | _ => ([], t)

/-- The exponent of a number, which may be missing. -/
def exponent? (t : Text) : Option (Text × Text) :=
  match t with
  | c :: rest =>
    if c = 'e' ∨ c = 'E' then
      let (sign, rest) := exponentSign rest
      (digits? rest).map fun (ds, after) => (c :: sign ++ ds, after)
    else some ([], t)
  | [] => some ([], t)

/-- The value of decimal digits. -/
def ofDigits (ds : Text) : Nat := ds.foldl (fun n d => 10 * n + (d.toNat - 48)) 0

/-- A number without a sign, and the text after it. -/
def unsigned? (t : Text) : Option (Number × Text) := do
  let (whole, t) ← wholePart? t
  let (fraction, t) ← fraction? t
  let (exponent, t) ← exponent? t
  let value :=
    if fraction = [] ∧ exponent = [] then Number.natural (ofDigits whole)
    else .other (whole ++ fraction ++ exponent)
  return (value, t)

def number? (t : Text) : Option (Number × Text) :=
  match t with
  | '-' :: rest => (unsigned? rest).map fun (n, after) => (.other ('-' :: n.render), after)
  | _ => unsigned? t

/-- A value that is neither string, array nor object, and the text after it. -/
def plainValue? (t : Text) : Option (Json × Text) :=
  match behind? "null".toList t, behind? "true".toList t, behind? "false".toList t with
  | some after, _, _ => some (null, after)
  | _, some after, _ => some (bool true, after)
  | _, _, some after => some (bool false, after)
  | _, _, _ => (number? t).map fun (n, after) => (number n, after)

/-- The text behind a given character, white space before it aside. -/
def opened? (c : Char) (t : Text) : Option Text :=
  if (skipSpace t).head? = some c then some (skipSpace t).tail else none

mutual

/-- The value that a text begins with, and the text after it. `fuel` bounds the number of nested
steps. -/
def value? : Nat → Text → Option (Json × Text)
  | 0, _ => none
  | fuel + 1, t =>
    match skipSpace t with
    | '"' :: rest => (stringUnits? rest).map fun (us, after) => (string us, after)
    | '[' :: rest =>
      if (skipSpace rest).head? = some ']' then some (array [], (skipSpace rest).tail)
      else (items? fuel rest).map fun (items, after) => (array items, after)
    | '{' :: rest =>
      if (skipSpace rest).head? = some '}' then some (object [], (skipSpace rest).tail)
      else (fields? fuel rest).map fun (fields, after) => (object fields, after)
    | t => plainValue? t

/-- The items of an array up to its closing bracket, and the text after it. -/
def items? : Nat → Text → Option (List Json × Text)
  | 0, _ => none
  | fuel + 1, t => do
    let (item, after) ← value? fuel t
    match skipSpace after with
    | ']' :: rest => return ([item], rest)
    | ',' :: rest =>
      let (items, after) ← items? fuel rest
      return (item :: items, after)
    | _ => none

/-- The fields of an object up to its closing brace, and the text after it. -/
def fields? : Nat → Text → Option (List (List StringUnit × Json) × Text)
  | 0, _ => none
  | fuel + 1, t => do
    let some rest := opened? '"' t | none
    let (key, after) ← stringUnits? rest
    let some after := opened? ':' after | none
    let (value, after) ← value? fuel after
    match skipSpace after with
    | '}' :: rest => return ([(key, value)], rest)
    | ',' :: rest =>
      let (fields, after) ← fields? fuel rest
      return ((key, value) :: fields, after)
    | _ => none

end

/-- The value written in a text. -/
def parse? (t : Text) : Option Json :=
  match value? (2 * t.length + 2) t with
  | some (value, after) => if skipSpace after = [] then some value else none
  | none => none

end FormLogic.Json
