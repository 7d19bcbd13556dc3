import FormLogic.Proofs.Bytewise.Encoding

/-!
Loops over the bytes of a text. A turn of such a loop looks at the byte at an offset and leads to a
later offset, or ends the loop. Whatever it reads outside the text, or cuts within a character, has no
value; nor has a loop with a turn that does not move on. Bytes outside ASCII are passed over one by
one, so a loop that is at the start of a character comes to the start of the next.
-/
namespace FormLogic.Bytewise

open Text

/-- What a turn of a loop leads to. -/
inductive Flow (State : Type) where
  | stop (s : State)
  | go (next : Nat) (s : State)

section Loop

variable {State : Type}

/-- Runs a loop over the offsets below `size` from offset `i` on. -/
def loop (size : Nat) (turn : Nat → State → Option (Flow State)) (i : Nat) (s : State) :
    Option State :=
  if i < size then
    match turn i s with
    | some (.stop s) => some s
    | some (.go j s) => if i < j then loop size turn j s else none
    | none => none
  else some s
termination_by size - i

variable {size i j : Nat} {turn : Nat → State → Option (Flow State)} {s s' : State}

theorem loop_end (outside : size ≤ i) : loop size turn i s = some s := by
  rw [loop, if_neg (Nat.not_lt.2 outside)]

theorem loop_stop (inside : i < size) (stops : turn i s = some (.stop s')) :
    loop size turn i s = some s' := by
  rw [loop, if_pos inside, stops]

theorem loop_go (inside : i < size) (goes : turn i s = some (.go j s')) (ahead : i < j) :
    loop size turn i s = loop size turn j s' := by
  rw [loop, if_pos inside, goes]
  exact if_pos ahead

/-- A loop goes through offsets that it passes over one by one. -/
theorem loop_pass (inside : j ≤ size)
    (passes : ∀ k, i ≤ k → k < j → turn k s = some (.go (k + 1) s)) (ordered : i ≤ j) :
    loop size turn i s = loop size turn j s := by
  obtain ⟨n, rfl⟩ := Nat.exists_eq_add_of_le ordered
  induction n with
  | zero => rfl
  | succ n ih =>
    have front := ih (by omega) (fun k least below => passes k least (by omega)) (by omega)
    have last := passes (i + n) (by omega) (by omega)
    rw [front]
    exact loop_go (by omega) last (by omega)

/-- The loop passes over bytes outside ASCII. -/
def PassesOver (t : Text) (turn : Nat → State → Option (Flow State)) : Prop :=
  ∀ k s b, (bytes t)[k]? = some b → isAscii b = false → turn k s = some (.go (k + 1) s)

/-- A character outside ASCII is passed over, byte by byte, and so is every other character whose
byte is. -/
theorem PassesOver.char {t u v : Text} {c : Char} (passes : PassesOver t turn)
    (whole : t = u ++ c :: v)
    (alone : isAscii c = true → turn (byteLength u) s = some (.go (byteLength u + 1) s)) :
    loop (byteLength t) turn (byteLength u) s =
      loop (byteLength t) turn (byteLength (u ++ [c])) s := by
  have size : byteLength (u ++ [c]) = byteLength u + c.utf8Size := by
    rw [byteLength_append, byteLength, byteLength, Nat.add_zero]
  have inside : byteLength (u ++ [c]) ≤ byteLength t := by
    rw [whole]
    simp only [byteLength_append, byteLength]
    omega
  refine loop_pass inside (fun k least below => ?_) (by omega)
  obtain ⟨n, rfl⟩ := Nat.exists_eq_add_of_le least
  cases ascii : isAscii c with
  | true =>
    have one := utf8Size_of_isAscii ascii
    obtain rfl : n = 0 := by omega
    exact alone ascii
  | false =>
    have inner : n < (encode c).length := by rw [length_encode]; omega
    refine passes _ s _ ?_ (not_isAscii_of_mem_encode ascii (List.getElem_mem inner))
    rw [whole, getElem?_bytes_append, bytes_cons, List.getElem?_append_left inner,
      List.getElem?_eq_getElem inner]

end Loop

/-! ### What the passes look at -/

/-- The byte before offset `i`, if there is one. -/
def byteBefore? (t : Text) (i : Nat) : Option (Option Char) :=
  if i = 0 then some none else (bytes t)[i - 1]?.map some

/-- Whether a token may start at offset `i`. -/
def startsTokenAt? (t : Text) (i : Nat) : Option Bool := (byteBefore? t i).map startsToken

/-- The offset behind the run of bytes of a class that begins at offset `i`. -/
def runEnd (p : Char → Bool) (t : Text) (i : Nat) : Nat :=
  i + (((bytes t).drop i).takeWhile p).length

/-- The offset behind the literal that starts at offset `start`, if one starts there and is closed.
-/
def literalEnd? (t : Text) (start : Nat) : Option (Option Nat) :=
  match (bytes t)[start]? with
  | none => some none
  | some quote =>
    if isQuote quote then do
      let inside ← sliceFrom? (start + 1) t
      return ((bytes inside).findIdx? (· == quote)).map (start + 1 + · + 1)
    else some none

section Place

variable (u v : Text)

theorem byteBefore?_append : byteBefore? (u ++ v) (byteLength u) = some (bytes u).getLast? := by
  rw [byteBefore?, bytes_append, ← length_bytes, List.getLast?_eq_getElem?]
  split
  · next empty =>
    rw [List.length_eq_zero_iff] at empty
    rw [empty]
    rfl
  · next nonempty =>
    have inside : (bytes u).length - 1 < (bytes u).length := by omega
    rw [List.getElem?_append_left inside, List.getElem?_eq_getElem inside]
    rfl

theorem byteBefore?_of_lt {t : Text} {i : Nat} (inside : i < (bytes t).length) :
    ∃ before, byteBefore? t i = some before := by
  rw [byteBefore?]
  split
  · exact ⟨none, rfl⟩
  · exact ⟨_, by rw [List.getElem?_eq_getElem (by omega)]; rfl⟩

theorem startsTokenAt?_append :
    startsTokenAt? (u ++ v) (byteLength u) = some (startsToken u.getLast?) := by
  rw [startsTokenAt?, byteBefore?_append, Option.map_some, startsToken, startsToken,
    coarse_extendsToken.any_getLast?]

theorem byteAt?_append {c : Char} (ascii : isAscii c = true) :
    (bytes (u ++ c :: v))[byteLength u]? = some c := by
  have place := getElem?_bytes_append u (c :: v) 0
  rw [bytes_cons_of_isAscii ascii] at place
  exact place

/-- The byte where a character begins is one of its bytes. -/
theorem byteAt?_encode {t u rest : Text} {c : Char} (whole : t = u ++ c :: rest) :
    ∃ b ∈ encode c, (bytes t)[byteLength u]? = some b := by
  obtain ⟨b, more, front⟩ := List.exists_cons_of_ne_nil (encode_ne_nil c)
  have place := getElem?_bytes_append u (c :: rest) 0
  rw [← whole, bytes_cons, front] at place
  exact ⟨b, by rw [front]; exact .head _, place⟩

theorem byteAfter?_append {c : Char} (ascii : isAscii c = true) :
    (bytes (u ++ c :: v))[byteLength u + 1]? = (bytes v).head? := by
  rw [getElem?_bytes_append, bytes_cons_of_isAscii ascii, List.getElem?_cons_succ,
    List.head?_eq_getElem?]

theorem runEnd_append {p : Char → Bool} (coarse : Coarse p) :
    runEnd p (u ++ v) (byteLength u) = byteLength (u ++ v.takeWhile p) := by
  rw [runEnd, drop_bytes_append, coarse.takeWhile, length_bytes, byteLength_append]

theorem byteLength_snoc {c : Char} (ascii : isAscii c = true) :
    byteLength (u ++ [c]) = byteLength u + 1 := by
  rw [byteLength_append, byteLength_cons_of_isAscii ascii]
  rfl

theorem byteLength_lt_append {v : Text} (nonempty : v ≠ []) :
    byteLength u < byteLength (u ++ v) := by
  have characters := List.length_pos_iff.2 nonempty
  have fewer := length_le_byteLength v
  rw [byteLength_append]
  omega

theorem isAscii_of_isQuote {q : Char} (quote : isQuote q = true) : isAscii q = true := by
  rw [isQuote, Bool.or_eq_true, beq_iff_eq, beq_iff_eq] at quote
  rcases quote with rfl | rfl <;> rfl

/-- Where a literal starts, its end is found behind the next quote of its kind. -/
theorem literalEnd?_append {q : Char} (quote : isQuote q = true) :
    literalEnd? (u ++ q :: v) (byteLength u) = some ((cutAt? q v).map fun parts =>
      byteLength (u ++ q :: parts.1 ++ [q])) := by
  have ascii := isAscii_of_isQuote quote
  have inside := sliceFrom?_append (u ++ [q]) v
  rw [byteLength_snoc u ascii, List.append_assoc, List.singleton_append] at inside
  rw [literalEnd?, byteAt?_append u v ascii]
  simp only [quote, if_true, inside, Option.bind_eq_bind, Option.bind_some, findIdx?_bytes ascii,
    Option.map_map]
  refine congrArg (fun f => some (Option.map f (cutAt? q v))) (funext fun parts => ?_)
  rw [Function.comp_apply, byteLength_snoc _ ascii, byteLength_append,
    byteLength_cons_of_isAscii ascii]
  omega

end Place

section Brace

variable {t u inner : Text}

/-- What is read where a `${` stands. -/
theorem braceAt (whole : t = u ++ '$' :: '{' :: inner) :
    (bytes t)[byteLength u]? = some '$' ∧ (bytes t)[byteLength u + 1]? = some '{' ∧
      sliceFrom? (byteLength u) t = some ('$' :: '{' :: inner) := by
  rw [whole]
  refine ⟨byteAt?_append _ _ rfl, ?_, sliceFrom?_append _ _⟩
  rw [byteAfter?_append _ _ rfl, bytes_cons_of_isAscii rfl]
  rfl

theorem cutAt?_brace (inner : Text) :
    cutAt? '}' ('$' :: '{' :: inner) =
      (cutAt? '}' inner).map fun (name, after) => ('$' :: '{' :: name, after) := by
  simp [cutAt?, Function.comp_def]

end Brace

section Literal

variable {t u rest : Text}

/-- A literal that stands in the text ends behind its second quote. -/
theorem literalEnd?_render {l : Literal} (proper : l.Proper) (whole : t = u ++ (l.render ++ rest)) :
    (bytes t)[byteLength u]? = some l.quote ∧
      literalEnd? t (byteLength u) = some (some (byteLength (u ++ l.render))) := by
  have quote := proper.quote_isQuote
  rw [whole, Literal.cons_quote_append]
  refine ⟨byteAt?_append _ _ (isAscii_of_isQuote quote), ?_⟩
  rw [literalEnd?_append _ _ quote, Literal.cutAt?_quote proper, Option.map_some, List.append_assoc]
  rfl

/-- No literal starts at a character other than a quote. -/
theorem literalEnd?_plain {c : Char} (plain : isQuote c = false) (whole : t = u ++ c :: rest) :
    literalEnd? t (byteLength u) = some none := by
  obtain ⟨b, member, byteHere⟩ := byteAt?_encode whole
  have other : isQuote b = false := (coarse_isQuote.encode member).trans plain
  rw [literalEnd?, byteHere]
  exact if_neg (by rw [other]; exact Bool.false_ne_true)

/-- A quote that is never closed starts no literal. -/
theorem literalEnd?_unclosed {q : Char} (quote : isQuote q = true) (fresh : q ∉ rest)
    (whole : t = u ++ q :: rest) :
    (bytes t)[byteLength u]? = some q ∧ literalEnd? t (byteLength u) = some none := by
  rw [whole]
  refine ⟨byteAt?_append _ _ (isAscii_of_isQuote quote), ?_⟩
  rw [literalEnd?_append _ _ quote, cutAt?_eq_none_iff.2 fresh]
  rfl

/-- The content of a literal lies between its quotes. -/
theorem slice?_content {l : Literal} (proper : l.Proper) (whole : t = u ++ (l.render ++ rest)) :
    (⟨byteLength u + 1, byteLength (u ++ l.render) - 1⟩ : Span).slice? t = some l.content := by
  have ascii := isAscii_of_isQuote proper.quote_isQuote
  have inner := slice?_append (u ++ [l.quote]) l.content ([l.quote] ++ rest)
  have front : u ++ l.render = u ++ [l.quote] ++ l.content ++ [l.quote] := by simp [Literal.render]
  have place : t = u ++ [l.quote] ++ l.content ++ ([l.quote] ++ rest) := by
    rw [whole, ← List.append_assoc, front, List.append_assoc _ [l.quote] rest]
  rw [← place] at inner
  rwa [front, byteLength_snoc _ ascii, Nat.add_sub_cancel, ← byteLength_snoc u ascii]

theorem isQuote_of_not_isAscii {b : Char} (outside : isAscii b = false) : isQuote b = false := by
  rw [← Bool.not_eq_true]
  exact fun quote => by rw [isAscii_of_isQuote quote] at outside; cases outside

end Literal

end FormLogic.Bytewise
