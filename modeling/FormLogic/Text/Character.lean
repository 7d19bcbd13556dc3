/-!
Texts and the character classes of form expressions. Expressions are read one character at a time;
every character outside ASCII counts as a letter, so that a name in any script is one name.
-/
namespace FormLogic

/-- A text is the list of its characters. Byte offsets are derived from it where they are asked for.
-/
abbrev Text := List Char

namespace Text

/-- What is said of all characters of a text is decided by going through the text. -/
instance (priority := 2000) decidableForallMem (p : Char → Prop) [DecidablePred p] (t : Text) :
    Decidable (∀ c ∈ t, p c) :=
  List.decidableBAll p t

def isAscii (c : Char) : Bool := c.val < 128

/-- Characters that may stand in a name after its first one. -/
def isNameChar (c : Char) : Bool :=
  c.isAlphanum || c == '_' || c == '-' || c == ':' || !isAscii c

/-- Characters that would run together with an identifier standing next to them. -/
def isWordChar (c : Char) : Bool :=
  c.isAlphanum || c == '_' || !isAscii c

/-- Characters that a name may begin with. -/
def isNameStart (c : Char) : Bool := c.isAlpha || c == '_'

def isQuote (c : Char) : Bool := c == '\'' || c == '"'

/-- White space between the tokens of an expression. -/
def isSpace (c : Char) : Bool :=
  c == ' ' || c == '\t' || c == '\n' || c == '\x0c' || c == '\r'

/-- The characters with the Unicode property `White_Space`. -/
def isBlank (c : Char) : Bool :=
  let n := c.val
  (0x9 ≤ n && n ≤ 0xd) || n == 0x20 || n == 0x85 || n == 0xa0 || n == 0x1680 ||
    (0x2000 ≤ n && n ≤ 0x200a) || n == 0x2028 || n == 0x2029 || n == 0x202f || n == 0x205f ||
    n == 0x3000

/-- Characters after which a letter cannot start a token: they end a name, a path or a call. -/
def extendsToken (c : Char) : Bool :=
  isNameChar c || c == ')' || c == ']' || c == '.' || c == '/' || c == '}' || c == '$'

/-- Whether a token may start after the character `before`, `none` at the start of a text. -/
def startsToken (before : Option Char) : Bool := !before.any extendsToken

def trimStart (t : Text) : Text := t.dropWhile isBlank

def trimEnd (t : Text) : Text := (t.reverse.dropWhile isBlank).reverse

def trim (t : Text) : Text := trimEnd (trimStart t)

/-- The text before the first `stop` and the text after it. -/
def cutAt? (stop : Char) : Text → Option (Text × Text)
  | [] => none
  | c :: rest =>
    if c = stop then some ([], rest)
    else (cutAt? stop rest).map fun (before, after) => (c :: before, after)

theorem cutAt?_eq_some_iff {stop : Char} {t before after : Text} :
    cutAt? stop t = some (before, after) ↔ t = before ++ stop :: after ∧ stop ∉ before := by
  induction t generalizing before with
  | nil => simp [cutAt?]
  | cons c rest ih =>
    by_cases same : c = stop
    · subst same
      cases before with
      | nil => simp [cutAt?, eq_comm]
      | cons b bs => simp only [cutAt?, ↓reduceIte]; grind
    · cases before with
      | nil => simp [cutAt?, same]
      | cons b bs =>
        simp only [cutAt?, same, ↓reduceIte, Option.map_eq_some_iff, Prod.mk.injEq, Prod.exists]
        grind

theorem length_of_cutAt? {stop : Char} {t before after : Text}
    (cut : cutAt? stop t = some (before, after)) : after.length < t.length := by
  rw [(cutAt?_eq_some_iff.1 cut).1]
  simp only [List.length_append, List.length_cons]
  omega

/-- The text behind a given beginning. -/
def behind? : Text → Text → Option Text
  | [], t => some t
  | _ :: _, [] => none
  | c :: start, d :: t => if c = d then behind? start t else none

theorem behind?_eq_some_iff {start t rest : Text} :
    behind? start t = some rest ↔ t = start ++ rest := by
  induction start generalizing t with
  | nil => simp [behind?]
  | cons c start ih =>
    cases t with
    | nil => simp [behind?]
    | cons d t =>
      by_cases same : c = d
      · simp [behind?, same, ih]
      · simp [behind?, same, Ne.symm same]

/-- The numeral of `n` in base ten. -/
def ofNat (n : Nat) : Text := Nat.toDigits 10 n

end Text

end FormLogic
