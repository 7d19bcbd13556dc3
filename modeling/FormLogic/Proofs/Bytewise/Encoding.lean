import FormLogic.Proofs.Allocation
import FormLogic.Proofs.Quotation
import FormLogic.Text.Bytes

/-!
Texts as bytes. A byte is given as the character of its number, so that the classes of characters are
classes of bytes as well. The classes by which expressions are read do not tell characters outside
ASCII apart, and no byte of such a character is in ASCII. So the bytes of a character are in the
class that the character is in, and what is looked for by a byte in ASCII is never found within a
character.
-/
namespace FormLogic.Text

/-- The bytes of a character in UTF-8. -/
def encode (c : Char) : Text := (String.utf8EncodeChar c).map fun b => Char.ofNat b.toNat

/-- The bytes of a text in UTF-8. -/
def bytes (t : Text) : Text := t.flatMap encode

theorem length_encode (c : Char) : (encode c).length = c.utf8Size := by
  rw [encode, List.length_map, String.length_utf8EncodeChar]

theorem encode_ne_nil (c : Char) : encode c ≠ [] := by
  rw [← List.length_pos_iff, length_encode]
  exact c.utf8Size_pos

theorem isAscii_iff {c : Char} : isAscii c = true ↔ c.toNat < 128 := by
  rw [isAscii, decide_eq_true_iff, UInt32.lt_iff_toNat_lt]
  rfl

theorem encode_of_isAscii {c : Char} (ascii : isAscii c = true) : encode c = [c] := by
  have small : c.val.toNat ≤ 127 := by
    have below := isAscii_iff.1 ascii
    rw [Char.toNat] at below
    omega
  have same : (UInt8.ofNat c.val.toNat).toNat = c.toNat := by
    rw [UInt8.toNat_ofNat', Char.toNat]
    omega
  rw [encode, String.utf8EncodeChar, if_pos small, List.map_cons, same, Char.ofNat_toNat]
  rfl

/-- The character of the number of a byte. -/
theorem toNat_ofNat_byte (b : UInt8) : (Char.ofNat b.toNat).toNat = b.toNat := by
  have below := b.toNat_lt
  have valid : b.toNat.isValidChar := Or.inl (by omega)
  rw [Char.ofNat, dif_pos valid]
  rfl

/-- No byte of a character outside ASCII is in ASCII. -/
theorem not_isAscii_of_mem_encode {c b : Char} (outside : isAscii c = false)
    (member : b ∈ encode c) : isAscii b = false := by
  have large : ¬c.val.toNat ≤ 127 := by
    have above := mt isAscii_iff.2 (by rw [outside]; exact Bool.false_ne_true)
    rw [Char.toNat] at above
    omega
  rw [← Bool.not_eq_true, isAscii_iff]
  obtain ⟨byte, inside, rfl⟩ := List.mem_map.1 member
  rw [toNat_ofNat_byte]
  have high {n : Nat} (least : 128 ≤ n) (most : n < 256) : ¬(UInt8.ofNat n).toNat < 128 := by
    rw [UInt8.toNat_ofNat']
    omega
  rw [String.utf8EncodeChar, if_neg large] at inside
  split at inside
  · simp only [List.mem_cons, List.not_mem_nil, or_false] at inside
    rcases inside with rfl | rfl <;> exact high (by omega) (by omega)
  · split at inside
    · simp only [List.mem_cons, List.not_mem_nil, or_false] at inside
      rcases inside with rfl | rfl | rfl <;> exact high (by omega) (by omega)
    · simp only [List.mem_cons, List.not_mem_nil, or_false] at inside
      rcases inside with rfl | rfl | rfl | rfl <;> exact high (by omega) (by omega)

theorem bytes_append (u v : Text) : bytes (u ++ v) = bytes u ++ bytes v := List.flatMap_append

theorem bytes_cons (c : Char) (t : Text) : bytes (c :: t) = encode c ++ bytes t := rfl

theorem bytes_cons_of_isAscii {c : Char} (ascii : isAscii c = true) (t : Text) :
    bytes (c :: t) = c :: bytes t := by
  rw [bytes_cons, encode_of_isAscii ascii]
  rfl

theorem length_bytes (t : Text) : (bytes t).length = byteLength t := by
  induction t with
  | nil => rfl
  | cons c t ih => rw [bytes_cons, List.length_append, length_encode, ih, byteLength]

example : bytes ['a', 'é'] = ['a', '\xc3', '\xa9'] := by decide

theorem byteLength_cons_of_isAscii {c : Char} (ascii : isAscii c = true) (t : Text) :
    byteLength (c :: t) = byteLength t + 1 := by
  rw [byteLength, utf8Size_of_isAscii ascii, Nat.add_comm]

/-! ### Classes of bytes -/

/-- The class does not tell characters outside ASCII apart. -/
def Coarse (p : Char → Bool) : Prop :=
  ∀ c d, isAscii c = false → isAscii d = false → p c = p d

namespace Coarse

variable {p q : Char → Bool}

theorem of_false (never : ∀ c, p c = true → isAscii c = true) : Coarse p := by
  have fails (c : Char) (outside : isAscii c = false) : p c = false := by
    rw [← Bool.not_eq_true]
    exact fun holds => by rw [never c holds] at outside; cases outside
  exact fun c d first second => (fails c first).trans (fails d second).symm

theorem or (left : Coarse p) (right : Coarse q) : Coarse fun c => p c || q c :=
    fun c d first second => by
  dsimp only
  rw [left c d first second, right c d first second]

theorem not (inner : Coarse p) : Coarse fun c => !p c := fun c d first second => by
  dsimp only
  rw [inner c d first second]

theorem eq {d : Char} (ascii : isAscii d = true) : Coarse (· == d) :=
  of_false fun c same => by rw [eq_of_beq same]; exact ascii

theorem isAscii : Coarse isAscii := fun _ _ first second => first.trans second.symm

theorem isAlphanum : Coarse Char.isAlphanum := of_false fun _ => isAscii_of_isAlphanum

end Coarse

theorem coarse_isQuote : Coarse isQuote := (Coarse.eq rfl).or (Coarse.eq rfl)

theorem coarse_isNameChar : Coarse isNameChar :=
  (((Coarse.isAlphanum.or (.eq rfl)).or (.eq rfl)).or (.eq rfl)).or Coarse.isAscii.not

theorem coarse_isWordChar : Coarse isWordChar :=
  (Coarse.isAlphanum.or (.eq rfl)).or Coarse.isAscii.not

theorem coarse_isSpace : Coarse isSpace :=
  ((((Coarse.eq rfl).or (.eq rfl)).or (.eq rfl)).or (.eq rfl)).or (.eq rfl)

theorem isAscii_of_isNameStart {c : Char} (start : isNameStart c = true) : isAscii c = true := by
  rw [isNameStart, Bool.or_eq_true, beq_iff_eq] at start
  rcases start with alpha | rfl
  · exact isAscii_of_isAlphanum (by rw [Char.isAlphanum, alpha]; rfl)
  · rfl

theorem coarse_isNameStart : Coarse isNameStart := .of_false fun _ => isAscii_of_isNameStart

theorem coarse_extendsToken : Coarse extendsToken :=
  (((((coarse_isNameChar.or (.eq rfl)).or (.eq rfl)).or (.eq rfl)).or (.eq rfl)).or (.eq rfl)).or
    (.eq rfl)

section Class

variable {p : Char → Bool} (coarse : Coarse p)

include coarse

/-- The bytes of a character are in the class that the character is in. -/
theorem Coarse.encode {c b : Char} (member : b ∈ encode c) : p b = p c := by
  cases ascii : Text.isAscii c with
  | true =>
    rw [encode_of_isAscii ascii, List.mem_singleton] at member
    rw [member]
  | false => exact coarse b c (not_isAscii_of_mem_encode ascii member) ascii

theorem Coarse.any_head? (t : Text) : (bytes t).head?.any p = t.head?.any p := by
  cases t with
  | nil => rfl
  | cons c t =>
    obtain ⟨b, rest, front⟩ := List.exists_cons_of_ne_nil (encode_ne_nil c)
    rw [bytes_cons, front]
    exact coarse.encode (by rw [front]; exact .head _)

theorem Coarse.any_getLast? (t : Text) : (bytes t).getLast?.any p = t.getLast?.any p := by
  rcases List.eq_nil_or_concat t with rfl | ⟨front, c, rfl⟩
  · rfl
  · obtain ⟨start, b, last⟩ := (List.eq_nil_or_concat (Text.encode c)).resolve_left (encode_ne_nil c)
    rw [List.concat_eq_append] at last ⊢
    have whole : bytes (front ++ [c]) = bytes front ++ start ++ [b] := by
      rw [bytes_append, bytes_cons, last, List.append_assoc]
      simp [bytes]
    rw [whole, List.getLast?_concat, List.getLast?_concat]
    exact coarse.encode (by rw [last]; simp)

theorem Coarse.all_bytes (t : Text) : (bytes t).all p = t.all p := by
  have each (c : Char) : (Text.encode c).all p = p c := by
    rw [Bool.eq_iff_iff, List.all_eq_true]
    constructor
    · intro all
      obtain ⟨b, rest, front⟩ := List.exists_cons_of_ne_nil (encode_ne_nil c)
      have member : b ∈ Text.encode c := by rw [front]; exact .head _
      rw [← coarse.encode member]
      exact all b member
    · exact fun holds b member => (coarse.encode member).trans holds
  rw [bytes, List.all_flatMap]
  simp only [each]

/-- A run of bytes ends where the run of characters does. -/
theorem Coarse.takeWhile (t : Text) : (bytes t).takeWhile p = bytes (t.takeWhile p) := by
  induction t with
  | nil => rfl
  | cons c t ih =>
    have same : ∀ b ∈ Text.encode c, p b = p c := fun b member => coarse.encode member
    rw [bytes_cons, List.takeWhile_cons]
    cases inside : p c with
    | true =>
      rw [List.takeWhile_append_of_pos fun b member => (same b member).trans inside, ih]
      rfl
    | false =>
      obtain ⟨b, rest, front⟩ := List.exists_cons_of_ne_nil (encode_ne_nil c)
      have first : p b = false := (same b (by rw [front]; exact .head _)).trans inside
      rw [front, List.cons_append, List.takeWhile_cons, first]
      rfl

end Class

/-- A byte in ASCII is found where the character is that it stands for. -/
theorem findIdx?_bytes {stop : Char} (ascii : isAscii stop = true) (t : Text) :
    (bytes t).findIdx? (· == stop) = (cutAt? stop t).map fun parts => byteLength parts.1 := by
  have coarse : Coarse (· == stop) := Coarse.eq ascii
  induction t with
  | nil => rfl
  | cons c t ih =>
    rw [bytes_cons, List.findIdx?_append, cutAt?]
    by_cases same : c = stop
    · subst same
      rw [encode_of_isAscii ascii, if_pos rfl]
      simp [byteLength]
    · have absent : (encode c).findIdx? (· == stop) = none := by
        rw [List.findIdx?_eq_none_iff]
        exact fun b member => (coarse.encode member).trans (beq_eq_false_iff_ne.2 same)
      rw [absent, if_neg same, ih, Option.none_or, Option.map_map, Option.map_map]
      refine congrArg (fun f => Option.map f (cutAt? stop t)) (funext fun parts => ?_)
      simp only [Function.comp_apply, length_encode, byteLength, Nat.add_comm]

/-- A word in ASCII stands at the start of a text where its bytes do. -/
theorem isPrefixOf_bytes {word : Text} (ascii : ∀ c ∈ word, isAscii c = true) (t : Text) :
    word.isPrefixOf (bytes t) = word.isPrefixOf t := by
  induction word generalizing t with
  | nil => simp
  | cons c word ih =>
    have first := ascii c (.head _)
    cases t with
    | nil => rfl
    | cons d t =>
      have coarse : Coarse (· == c) := Coarse.eq first
      obtain ⟨b, more, front⟩ := List.exists_cons_of_ne_nil (encode_ne_nil d)
      have same : (b == c) = (d == c) := coarse.encode (by rw [front]; exact .head _)
      rw [bytes_cons, front, List.cons_append, List.isPrefixOf_cons_cons,
        List.isPrefixOf_cons_cons, BEq.comm, same, BEq.comm]
      cases equal : c == d with
      | false => rfl
      | true =>
        rw [← eq_of_beq equal, encode_of_isAscii first] at front
        obtain ⟨-, rfl⟩ := List.cons.inj front
        rw [List.nil_append, ih (fun e member => ascii e (.tail _ member))]

/-! ### Places in a text -/

section Place

variable (u v : Text)

theorem getElem?_bytes_append (k : Nat) :
    (bytes (u ++ v))[byteLength u + k]? = (bytes v)[k]? := by
  rw [bytes_append, ← length_bytes, List.getElem?_append_right (Nat.le_add_right _ k),
    Nat.add_sub_cancel_left]

theorem drop_bytes_append : (bytes (u ++ v)).drop (byteLength u) = bytes v := by
  rw [bytes_append, ← length_bytes, List.drop_left]

theorem splitAtByte?_append : splitAtByte? (byteLength u) (u ++ v) = some (u, v) := by
  induction u with
  | nil => cases v <;> rfl
  | cons c u ih =>
    have positive := c.utf8Size_pos
    obtain ⟨n, size⟩ : ∃ n, byteLength (c :: u) = n + 1 :=
      ⟨c.utf8Size + byteLength u - 1, by rw [byteLength]; omega⟩
    have left : n + 1 - c.utf8Size = byteLength u := by rw [← size, byteLength]; omega
    rw [size, List.cons_append, splitAtByte?, if_pos (by rw [← size, byteLength]; omega), left, ih]
    rfl

/-- The text from a byte on. -/
def sliceFrom? (start : Nat) (t : Text) : Option Text := (splitAtByte? start t).map Prod.snd

theorem sliceFrom?_append : sliceFrom? (byteLength u) (u ++ v) = some v := by
  rw [sliceFrom?, splitAtByte?_append]
  rfl

theorem slice?_append (w : Text) :
    (⟨byteLength u, byteLength (u ++ v)⟩ : Span).slice? (u ++ v ++ w) = some v := by
  have ordered : ¬byteLength (u ++ v) < byteLength u := by rw [byteLength_append]; omega
  have size : byteLength (u ++ v) - byteLength u = byteLength v := by rw [byteLength_append]; omega
  rw [Span.slice?]
  simp only [if_neg ordered, size, List.append_assoc, splitAtByte?_append, Option.bind_eq_bind,
    Option.bind_some]
  rfl

/-- What begins within a character has no value. -/
example : (⟨1, 2⟩ : Span).slice? ['é'] = none := by decide

end Place

end FormLogic.Text
