import FormLogic.Name.Pool
import FormLogic.Name.Sanitized
import Mathlib.Algebra.Group.Nat.Defs
import Mathlib.Data.List.Nodup
import Mathlib.Data.List.Perm.Subperm
import Mathlib.Data.Nat.Find

/-!
The names that a pool hands out. Candidates whose counters have one number of digits share the
shortened base, so they differ as the counters do; among them, more counters than there are names in
use include a free one. Hence a free name is always found, and its counter has no more digits than
the number of names in use makes necessary.
-/
namespace FormLogic

namespace Text

theorem isDigit_of_mem_ofNat {n : Nat} {c : Char} (member : c ∈ ofNat n) : c.isDigit = true :=
  Nat.isDigit_of_mem_toDigits (by decide) (by decide) member

theorem ofNat_injective : Function.Injective ofNat := by
  intro m n same
  have value (k : Nat) : Nat.ofDigitChars 10 (ofNat k) 0 = k := Nat.ofDigitChars_ten_toDigits
  rw [← value m, same, value n]

theorem length_ofNat_le {d n : Nat} (below : n < 10 ^ (d + 1)) : (ofNat n).length ≤ d + 1 :=
  (Nat.length_toDigits_le_iff (by decide) d.succ_pos).2 below

theorem length_ofNat {d n : Nat} (least : 10 ^ d ≤ n) (below : n < 10 ^ (d + 1)) :
    (ofNat n).length = d + 1 := by
  refine Nat.le_antisymm (length_ofNat_le below) ?_
  cases d with
  | zero => exact Nat.length_toDigits_pos
  | succ d =>
    by_contra short
    have small := (Nat.length_toDigits_le_iff (b := 10) (n := n) (by decide) d.succ_pos).1
      (Nat.le_of_not_lt short)
    omega

theorem utf8Size_of_isAscii {c : Char} (ascii : isAscii c = true) : c.utf8Size = 1 := by
  rw [Char.utf8Size_eq_one_iff]
  have below : c.val < 128 := of_decide_eq_true ascii
  exact UInt32.le_iff_toNat_le.2 (Nat.le_of_lt_succ (UInt32.lt_iff_toNat_lt.1 below))

theorem isAscii_of_isAlphanum {c : Char} (alphanumeric : c.isAlphanum = true) :
    isAscii c = true := by
  have bounded {most : Char} (within : c.val ≤ most.val) (low : most.val.toNat < 128) :
      isAscii c = true :=
    decide_eq_true (UInt32.lt_iff_toNat_lt.2
      (Nat.lt_of_le_of_lt (UInt32.le_iff_toNat_le.1 within) low))
  have classes : (c.isUpper || c.isLower || c.isDigit) = true := alphanumeric
  rw [Bool.or_eq_true, Bool.or_eq_true] at classes
  rcases classes with (upper | lower) | digit
  · exact bounded (of_decide_eq_true upper).2 (by decide)
  · exact bounded (of_decide_eq_true (Bool.and_eq_true_iff.1 lower).2) (by decide)
  · exact bounded (of_decide_eq_true (Bool.and_eq_true_iff.1 digit).2) (by decide)

theorem isAscii_of_isDigit {c : Char} (digit : c.isDigit = true) : isAscii c = true :=
  isAscii_of_isAlphanum (by simp [Char.isAlphanum, digit])

theorem length_le_byteLength (t : Text) : t.length ≤ byteLength t := by
  induction t with
  | nil => exact Nat.le_refl 0
  | cons c rest ih =>
    have positive := c.utf8Size_pos
    simp only [List.length_cons, byteLength]
    omega

theorem byteLength_of_ascii {t : Text} (ascii : ∀ c ∈ t, isAscii c = true) :
    byteLength t = t.length := by
  induction t with
  | nil => rfl
  | cons c rest ih =>
    rw [List.forall_mem_cons] at ascii
    simp only [byteLength, utf8Size_of_isAscii ascii.1, ih ascii.2, List.length_cons]
    omega

theorem byteLength_ofNat (n : Nat) : byteLength (ofNat n) = (ofNat n).length :=
  byteLength_of_ascii fun _ member => isAscii_of_isDigit (isDigit_of_mem_ofNat member)

theorem byteLength_takeBytes_le (limit : Nat) (t : Text) : byteLength (takeBytes limit t) ≤ limit := by
  induction t generalizing limit with
  | nil => exact Nat.zero_le limit
  | cons c rest ih =>
    rw [takeBytes]
    split
    · have tail := ih (limit - c.utf8Size)
      simp only [byteLength]
      omega
    · exact Nat.zero_le limit

theorem takeBytes_subset (limit : Nat) (t : Text) : takeBytes limit t ⊆ t := by
  induction t generalizing limit with
  | nil => exact List.Subset.refl []
  | cons c rest ih =>
    rw [takeBytes]
    split
    · exact List.cons_subset_cons c (ih _)
    · exact List.nil_subset _

/-- A cut that leaves room for one byte keeps the first character if that is in ASCII. -/
theorem head?_takeBytes {limit : Nat} (room : 0 < limit) {t : Text}
    (ascii : ∀ c ∈ t.head?, isAscii c = true) : (takeBytes limit t).head? = t.head? := by
  cases t with
  | nil => rfl
  | cons c rest =>
    have one := utf8Size_of_isAscii (ascii c rfl)
    rw [takeBytes, if_pos (by omega)]
    rfl

end Text

namespace Name

open Text

theorem folded_append (s t : Text) : folded (s ++ t) = folded s ++ folded t := List.map_append

theorem folded_ofNat (n : Nat) : folded (ofNat n) = ofNat n := by
  rw [folded, List.map_congr_left (g := id), List.map_id]
  intro c member
  have digit := isDigit_of_mem_ofNat member
  have low : ¬(c.val ≥ 'A'.val ∧ c.val ≤ 'Z'.val) := by
    simp only [Char.isDigit, Bool.and_eq_true, decide_eq_true_eq] at digit
    rintro ⟨least, _⟩
    have bounds := Nat.le_trans (UInt32.le_iff_toNat_le.1 least) (UInt32.le_iff_toNat_le.1 digit.2)
    exact absurd bounds (by decide)
  exact dif_neg low

namespace Pool

variable {pool : Pool} {base : Text}

theorem isTaken_eq_true {name : Text} : pool.isTaken name = true ↔ folded name ∈ pool.used :=
  List.contains_iff_mem

theorem isTaken_reserve {name other : Text} :
    (pool.reserve name).isTaken other = true ↔
      folded other = folded name ∨ pool.isTaken other = true := by
  unfold reserve
  split
  · next taken =>
    refine ⟨Or.inr, ?_⟩
    rintro (same | taken)
    · rwa [isTaken_eq_true, same, ← isTaken_eq_true]
    · exact taken
  · simp only [isTaken_eq_true, List.mem_cons]

theorem isTaken_reserveAll {names : List Text} {other : Text} :
    (pool.reserveAll names).isTaken other = true ↔
      folded other ∈ names.map folded ∨ pool.isTaken other = true := by
  unfold reserveAll
  induction names generalizing pool with
  | nil => simp
  | cons name rest ih =>
    rw [List.foldl_cons, ih, isTaken_reserve, List.map_cons, List.mem_cons, ← or_assoc,
      or_comm (a := folded other ∈ rest.map folded)]

theorem reserve_of_isTaken {name : Text} (taken : pool.isTaken name = true) :
    pool.reserve name = pool := if_pos taken

theorem limit_reserve (name : Text) : (pool.reserve name).limit = pool.limit := by
  unfold reserve
  split <;> rfl

theorem limit_reserveAll (names : List Text) : (pool.reserveAll names).limit = pool.limit := by
  unfold reserveAll
  induction names generalizing pool with
  | nil => rfl
  | cons name rest ih => rw [List.foldl_cons, ih, limit_reserve]

theorem length_reserve_le (name : Text) :
    (pool.reserve name).used.length ≤ pool.used.length + 1 := by
  unfold reserve
  split
  · exact Nat.le_succ _
  · exact Nat.le_refl _

theorem length_reserveAll_le (names : List Text) :
    (pool.reserveAll names).used.length ≤ pool.used.length + names.length := by
  unfold reserveAll
  induction names generalizing pool with
  | nil => exact Nat.le_refl _
  | cons name rest ih =>
    have first := @length_reserve_le pool name
    have later := @ih (pool.reserve name)
    rw [List.foldl_cons, List.length_cons]
    omega

/-! Free counters. -/

/-- Candidates with counters of one number of digits differ as the counters do. -/
theorem candidate_injective {m n : Nat} (digits : (ofNat m).length = (ofNat n).length)
    (same : folded (pool.candidate base m) = folded (pool.candidate base n)) : m = n := by
  simp only [candidate, byteLength_ofNat, digits, folded_append, folded_ofNat] at same
  exact ofNat_injective (List.append_cancel_left same)

/-- More counters of one number of digits than there are names in use include one that gives a free
name. -/
theorem exists_free (pool : Pool) {d start : Nat} (count : Nat) (least : 10 ^ d ≤ start)
    (below : start + count ≤ 10 ^ (d + 1)) (many : pool.used.length < count) (base : Text) :
    ∃ counter, start ≤ counter ∧ counter < start + count ∧
      pool.isTaken (pool.candidate base counter) = false := by
  by_contra allTaken
  have digits {n : Nat} (member : n ∈ List.range' start count) : (ofNat n).length = d + 1 := by
    rw [List.mem_range'_1] at member
    exact length_ofNat (by omega) (by omega)
  have taken : (List.range' start count).map (fun n => folded (pool.candidate base n)) ⊆ pool.used := by
    intro name member
    obtain ⟨n, inside, rfl⟩ := List.mem_map.1 member
    rw [List.mem_range'_1] at inside
    rw [← isTaken_eq_true]
    by_contra free
    exact allTaken ⟨n, inside.1, inside.2, Bool.eq_false_iff.2 free⟩
  have distinct : ((List.range' start count).map fun n => folded (pool.candidate base n)).Nodup :=
    (List.nodup_range' 1).map_on fun m left n right same =>
      candidate_injective ((digits left).trans (digits right).symm) same
  have fits := (List.subperm_of_subset distinct taken).length_le
  rw [List.length_map, List.length_range'] at fits
  omega

theorem exists_free_of_digits {d : Nat} (few : pool.used.length < 9 * 10 ^ d) (base : Text) :
    ∃ counter, 1 ≤ counter ∧ counter < 10 ^ (d + 1) ∧
      pool.isTaken (pool.candidate base counter) = false := by
  have wide : 10 ^ d + 9 * 10 ^ d ≤ 10 ^ (d + 1) := by rw [Nat.pow_succ]; omega
  obtain ⟨counter, least, below, free⟩ := exists_free pool _ (Nat.le_refl (10 ^ d)) wide few base
  have positive : 0 < 10 ^ d := Nat.pow_pos (by decide)
  exact ⟨counter, by omega, by omega, free⟩

/-- Among the first few more counters than there are names in use, one gives a free name. -/
theorem exists_free_le_counterBound (pool : Pool) (base : Text) :
    ∃ counter, 1 ≤ counter ∧ counter ≤ pool.counterBound ∧
      pool.isTaken (pool.candidate base counter) = false := by
  have enough : ∃ d, pool.used.length < 9 * 10 ^ d := by
    refine ⟨pool.used.length, ?_⟩
    have steep := Nat.lt_pow_self (n := pool.used.length) (a := 10) (by decide)
    omega
  -- The least number of digits that suffices leaves fewer than `counterBound` shorter counters.
  have few := Nat.find_spec enough
  have least (d : Nat) : d < Nat.find enough → 9 * 10 ^ d ≤ pool.used.length :=
    fun shorter => Nat.le_of_not_lt (Nat.find_min enough shorter)
  generalize Nat.find enough = d at few least
  unfold counterBound
  cases d with
  | zero =>
    obtain ⟨counter, positive, below, free⟩ := exists_free_of_digits few base
    exact ⟨counter, positive, by omega, free⟩
  | succ d =>
    have shorter := least d d.lt_succ_self
    have once : 10 ^ (d + 1) = 10 ^ d * 10 := Nat.pow_succ 10 d
    have twice : 10 ^ (d + 1 + 1) = 10 ^ (d + 1) * 10 := Nat.pow_succ 10 (d + 1)
    obtain ⟨counter, first, below, free⟩ := exists_free pool
      (min (12 * pool.used.length + 11) (10 ^ (d + 1 + 1)) - 10 ^ (d + 1))
      (Nat.le_refl (10 ^ (d + 1))) (by omega) (by omega) base
    exact ⟨counter, by omega, by omega, free⟩

/-- The counter that is chosen gives a free name, and no smaller one does. -/
theorem freeCounter_spec (pool : Pool) (base : Text) :
    1 ≤ pool.freeCounter base ∧
      pool.isTaken (pool.candidate base (pool.freeCounter base)) = false ∧
      ∀ counter, 1 ≤ counter → counter < pool.freeCounter base →
        pool.isTaken (pool.candidate base counter) = true := by
  obtain ⟨counter, positive, inside, free⟩ := exists_free_le_counterBound pool base
  have present : ((List.range' 1 pool.counterBound).find? fun counter =>
      !pool.isTaken (pool.candidate base counter)).isSome = true := by
    rw [List.find?_isSome]
    exact ⟨counter, List.mem_range'_1.2 (by omega), by rw [free]; rfl⟩
  obtain ⟨first, found⟩ := Option.isSome_iff_exists.1 present
  rw [freeCounter, found, Option.getD_some]
  obtain ⟨free, member, smaller⟩ := List.find?_range'_eq_some.1 found
  rw [List.mem_range'_1] at member
  refine ⟨member.1, by simpa using free, fun counter positive below => ?_⟩
  simpa using smaller counter positive below

theorem freeCounter_lt {d : Nat} (few : pool.used.length < 9 * 10 ^ d) (base : Text) :
    pool.freeCounter base < 10 ^ (d + 1) := by
  obtain ⟨counter, positive, below, free⟩ := exists_free_of_digits few base
  refine Nat.lt_of_le_of_lt (Nat.le_of_not_lt fun smaller => ?_) below
  have taken := (freeCounter_spec pool base).2.2 counter positive smaller
  rw [free] at taken
  cases taken

/-! The name for a base. -/

/-- A name is its base, cut to the limit, if that is free, and a numbered candidate otherwise. -/
theorem nameFor_cases (pool : Pool) (base : Text) :
    (pool.nameFor base = takeBytes pool.limit base ∧
        pool.isTaken (takeBytes pool.limit base) = false) ∨
      pool.nameFor base = pool.candidate (takeBytes pool.limit base)
        (pool.freeCounter (takeBytes pool.limit base)) := by
  unfold nameFor
  dsimp only
  split
  · exact Or.inr rfl
  · next free => exact Or.inl ⟨rfl, Bool.eq_false_iff.2 free⟩

theorem isTaken_nameFor (pool : Pool) (base : Text) :
    pool.isTaken (pool.nameFor base) = false := by
  rcases nameFor_cases pool base with ⟨same, free⟩ | numbered
  · rwa [same]
  · rw [numbered]
    exact (freeCounter_spec pool _).2.1

theorem mem_nameFor {c : Char} (member : c ∈ pool.nameFor base) : c ∈ base ∨ c.isDigit = true := by
  have cut {limit : Nat} {t : Text} (inside : c ∈ takeBytes limit t) : c ∈ t :=
    takeBytes_subset limit t inside
  rcases nameFor_cases pool base with ⟨same, _⟩ | numbered
  · rw [same] at member
    exact Or.inl (cut member)
  · rw [numbered, candidate, List.mem_append] at member
    rcases member with member | member
    · exact Or.inl (cut (cut member))
    · exact Or.inr (isDigit_of_mem_ofNat member)

theorem isAlphanum_of_mem_nameFor (clean : ∀ c ∈ base, c.isAlphanum = true) {c : Char}
    (member : c ∈ pool.nameFor base) : c.isAlphanum = true := by
  rcases mem_nameFor member with member | digit
  · exact clean c member
  · simp [Char.isAlphanum, digit]

theorem nameFor_ne_nil (room : 0 < pool.limit) (nonempty : base ≠ [])
    (ascii : ∀ c ∈ base.head?, isAscii c = true) : pool.nameFor base ≠ [] := by
  rcases nameFor_cases pool base with ⟨same, _⟩ | numbered
  · intro nothing
    have first := head?_takeBytes room ascii
    rw [← same, nothing] at first
    exact nonempty (List.head?_eq_none_iff.1 first.symm)
  · rw [numbered, candidate]
    exact List.append_ne_nil_of_right_ne_nil _ Nat.toDigits_ne_nil

/-- A name keeps within the limit as long as the names in use leave a counter within the limit. -/
theorem length_nameFor_le {d : Nat} (few : pool.used.length < 9 * 10 ^ d) (room : d < pool.limit)
    (base : Text) : (pool.nameFor base).length ≤ pool.limit := by
  refine Nat.le_trans (length_le_byteLength _) ?_
  rcases nameFor_cases pool base with ⟨same, _⟩ | numbered
  · rw [same]
    exact byteLength_takeBytes_le pool.limit base
  · have digits := length_ofNat_le (freeCounter_lt few (takeBytes pool.limit base))
    have front := byteLength_takeBytes_le
      (pool.limit - byteLength (ofNat (pool.freeCounter (takeBytes pool.limit base))))
      (takeBytes pool.limit base)
    rw [byteLength_ofNat] at front
    rw [numbered, candidate, byteLength_append, byteLength_ofNat]
    omega

/-- A name begins as its base does as long as the names in use leave a counter shorter than the
limit. -/
theorem head?_nameFor {d : Nat} (few : pool.used.length < 9 * 10 ^ d) (room : d + 1 < pool.limit)
    (nonempty : base ≠ []) (ascii : ∀ c ∈ base.head?, isAscii c = true) :
    (pool.nameFor base).head? = base.head? := by
  have whole : (takeBytes pool.limit base).head? = base.head? :=
    head?_takeBytes (by omega) ascii
  rcases nameFor_cases pool base with ⟨same, _⟩ | numbered
  · rw [same, whole]
  · have digits := length_ofNat_le (freeCounter_lt few (takeBytes pool.limit base))
    have front : (takeBytes (pool.limit -
        byteLength (ofNat (pool.freeCounter (takeBytes pool.limit base))))
          (takeBytes pool.limit base)).head? = base.head? := by
      rw [byteLength_ofNat, head?_takeBytes (by omega) (by rwa [whole]), whole]
    rw [numbered, candidate, List.head?_append, front, List.head?_eq_some_head nonempty,
      Option.some_or]

end Pool

end Name

end FormLogic
