import FormLogic.Proofs.Allocation

/-!
The search for a free name. When the base of a name is taken, the counters are tried one after the
other until a candidate is free. The search has no measure of its own: it ends because there are
finitely many names in use, and it ends at the counter that the pool chooses. No name is entered
twice into the names in use, so their number is the number of names that are taken.
-/
namespace FormLogic

namespace Text

variable {t : Text}

theorem takeBytes_of_ascii (ascii : ∀ c ∈ t, isAscii c = true) (limit : Nat) :
    takeBytes limit t = t.take limit := by
  induction t generalizing limit with
  | nil => rw [List.take_nil, takeBytes]
  | cons c rest ih =>
    rw [List.forall_mem_cons] at ascii
    rw [takeBytes, utf8Size_of_isAscii ascii.1]
    cases limit with
    | zero => rfl
    | succ limit =>
      rw [if_pos (Nat.le_add_left 1 limit), Nat.add_sub_cancel, ih ascii.2, List.take_succ_cons]

theorem cutsCleanly_of_ascii (ascii : ∀ c ∈ t, isAscii c = true) (limit : Nat) :
    cutsCleanly limit t = true := by
  have front : ∀ c ∈ t.take limit, isAscii c = true := fun c member =>
    ascii c (List.mem_of_mem_take member)
  rw [cutsCleanly, takeBytes_of_ascii ascii, byteLength_of_ascii front, byteLength_of_ascii ascii,
    List.length_take, beq_self_eq_true]

end Text

namespace Name.Pool

open Text

/-- What a pool may be asked for. -/
inductive Request where
  | reserve (name : Text)
  | allocate (base : Text)
  deriving DecidableEq, Repr

def serve (pool : Pool) : Request → Pool
  | .reserve name => pool.reserve name
  | .allocate base => (pool.allocate base).2

/-- Serves requests one after the other. -/
def serveAll (pool : Pool) (requests : List Request) : Pool := requests.foldl serve pool

variable {pool : Pool}

theorem nodup_reserve (distinct : pool.used.Nodup) (name : Text) :
    (pool.reserve name).used.Nodup := by
  unfold reserve
  split
  · exact distinct
  · next free =>
    rw [isTaken_eq_true] at free
    exact List.nodup_cons.2 ⟨free, distinct⟩

/-- A request enters one name at most. -/
theorem serve_eq_reserve (pool : Pool) (request : Request) :
    ∃ name, pool.serve request = pool.reserve name := by
  cases request with
  | reserve name => exact ⟨name, rfl⟩
  | allocate base => exact ⟨pool.nameFor base, rfl⟩

theorem limit_serveAll (pool : Pool) (requests : List Request) :
    (pool.serveAll requests).limit = pool.limit := by
  unfold serveAll
  induction requests generalizing pool with
  | nil => rfl
  | cons request rest ih =>
    obtain ⟨name, served⟩ := serve_eq_reserve pool request
    rw [List.foldl_cons, ih, served, limit_reserve]

theorem nodup_serveAll (distinct : pool.used.Nodup) (requests : List Request) :
    (pool.serveAll requests).used.Nodup := by
  unfold serveAll
  induction requests generalizing pool with
  | nil => exact distinct
  | cons request rest ih =>
    obtain ⟨name, served⟩ := serve_eq_reserve pool request
    rw [List.foldl_cons, served]
    exact ih (nodup_reserve distinct name)

/-- The search from a counter on, for a number of turns. A turn reserves the candidate if it is
free, and goes on to the next counter otherwise. -/
def search (pool : Pool) (base : Text) : (turns counter : Nat) → Option (Text × Pool)
  | 0, _ => none
  | turns + 1, counter =>
    let name := pool.candidate base counter
    if pool.isTaken name then search pool base turns (counter + 1)
    else some (name, pool.reserve name)

/-- The search ends at the first counter that gives a free name, in the turn that comes to it. -/
theorem search_eq {base : Text} {free counter : Nat} (le : counter ≤ free)
    (isFree : pool.isTaken (pool.candidate base free) = false)
    (taken : ∀ n, counter ≤ n → n < free → pool.isTaken (pool.candidate base n) = true)
    (turns : Nat) :
    pool.search base turns counter =
      if free < counter + turns then
        some (pool.candidate base free, pool.reserve (pool.candidate base free))
      else none := by
  induction turns generalizing counter with
  | zero => rw [search, if_neg (by omega)]
  | succ turns ih =>
    rw [search]
    rcases Nat.eq_or_lt_of_le le with rfl | less
    · rw [isFree, if_neg Bool.false_ne_true, if_pos (by omega)]
    · rw [taken counter (Nat.le_refl _) less, if_pos rfl,
        ih less fun n least below => taken n (Nat.le_of_succ_le least) below]
      rw [Nat.succ_add_eq_add_succ]

theorem freeCounter_le (pool : Pool) (base : Text) : pool.freeCounter base ≤ pool.counterBound := by
  obtain ⟨counter, positive, below, free⟩ := exists_free_le_counterBound pool base
  by_contra late
  have taken := (freeCounter_spec pool base).2.2 counter positive (by omega)
  rw [free] at taken
  cases taken

/-- A name is found by the search from the first counter on, and the search comes to it. -/
theorem search_freeCounter (pool : Pool) (base : Text) (turns : Nat) :
    pool.search base turns 1 =
      if pool.freeCounter base ≤ turns then
        some (pool.candidate base (pool.freeCounter base),
          pool.reserve (pool.candidate base (pool.freeCounter base)))
      else none := by
  obtain ⟨positive, free, taken⟩ := freeCounter_spec pool base
  rw [search_eq positive free taken, Nat.add_comm 1 turns]
  simp only [Nat.lt_succ_iff]

/-- No cut falls within a character of a base in ASCII. -/
theorem cutsCleanly_of_ascii (pool : Pool) {base : Text} (ascii : ∀ c ∈ base, isAscii c = true) :
    pool.cutsCleanly base = true := by
  have front : ∀ c ∈ base.take pool.limit, isAscii c = true := fun c member =>
    ascii c (List.mem_of_mem_take member)
  simp [cutsCleanly, takeBytes_of_ascii ascii, Text.cutsCleanly_of_ascii ascii,
    Text.cutsCleanly_of_ascii front]

theorem candidate_of_ascii (pool : Pool) {base : Text} (ascii : ∀ c ∈ base, isAscii c = true)
    (counter : Nat) :
    pool.candidate (base.take pool.limit) counter =
      base.take (pool.limit - (ofNat counter).length) ++ ofNat counter := by
  have front : ∀ c ∈ base.take pool.limit, isAscii c = true := fun c member =>
    ascii c (List.mem_of_mem_take member)
  rw [candidate, byteLength_ofNat, takeBytes_of_ascii front, List.take_take,
    Nat.min_eq_left (Nat.sub_le _ _)]

theorem isTaken_reserve_of_ne {name other : Text} (apart : folded other ≠ folded name) :
    (pool.reserve name).isTaken other = pool.isTaken other := by
  rw [Bool.eq_iff_iff, isTaken_reserve]
  exact or_iff_right apart

/-- There are fewer names in use than counters of as many digits as the limit. -/
def Roomy (pool : Pool) : Prop := pool.used.length < 9 * 10 ^ (pool.limit - 1)

/-- The name is the base, shortened for a counter, with that counter, and the search ends with
it. -/
structure Numbered (pool : Pool) (base name : Text) (after : Pool) (counter : Nat) : Prop where
  positive : 1 ≤ counter
  bound : counter ≤ pool.counterBound
  spelled : name = base.take (pool.limit - (ofNat counter).length) ++ ofNat counter
  found : ∀ turns, pool.search (base.take pool.limit) turns 1 =
    if counter ≤ turns then some (name, after) else none
  digits : pool.Roomy → (ofNat counter).length ≤ pool.limit

/-- The name is one that was free, and it is the only one whose standing changes. -/
structure Allocates (pool : Pool) (base name : Text) (after : Pool) : Prop where
  cut : pool.isTaken (base.take pool.limit) = false → name = base.take pool.limit
  numbered : pool.isTaken (base.take pool.limit) = true →
    ∃ counter, pool.Numbered base name after counter
  free : pool.isTaken name = false
  taken : after.isTaken name = true
  others : ∀ other, folded other ≠ folded name → after.isTaken other = pool.isTaken other
  length : pool.Roomy → name.length ≤ pool.limit

/-- Whatever a pool has been asked for before, a base in ASCII is given a name that was free and is
taken from then on: the base itself, cut to the limit, or else the base shortened for the counter at
which the search ends. Neither the name nor the counter exceeds the limit while the pool is roomy;
the names in use are all different, so it is their number that decides. -/
theorem allocate_fresh {limit : Nat} (room : 1 ≤ limit) (requests : List Request) {base : Text}
    (ascii : ∀ c ∈ base, isAscii c = true) :
    let pool := (empty limit).serveAll requests
    pool.limit = limit ∧ pool.used.Nodup ∧ pool.cutsCleanly base = true ∧
      pool.Allocates base (pool.allocate base).1 (pool.allocate base).2 := by
  intro pool
  have kept : pool.limit = limit := limit_serveAll _ requests
  have last : pool.limit - 1 + 1 = pool.limit := Nat.sub_add_cancel (kept ▸ room)
  have cut : takeBytes pool.limit base = base.take pool.limit := takeBytes_of_ascii ascii pool.limit
  have distinct : (empty limit).used.Nodup := List.nodup_nil
  refine ⟨kept, nodup_serveAll distinct requests, cutsCleanly_of_ascii pool ascii, ?_, ?_,
    isTaken_nameFor pool base, isTaken_reserve.2 (.inl rfl), fun other => isTaken_reserve_of_ne, ?_⟩
  · intro free
    change pool.nameFor base = base.take pool.limit
    simp [nameFor, cut, free]
  · intro taken
    have name : pool.nameFor base =
        pool.candidate (base.take pool.limit) (pool.freeCounter (base.take pool.limit)) := by
      simp [nameFor, cut, taken]
    refine ⟨pool.freeCounter (base.take pool.limit), (freeCounter_spec pool _).1,
      freeCounter_le pool _, ?_, ?_, ?_⟩
    · exact name.trans (candidate_of_ascii pool ascii _)
    · intro turns
      rw [search_freeCounter, ← name]
      rfl
    · intro few
      exact Nat.le_trans (length_ofNat_le (freeCounter_lt few _)) (Nat.le_of_eq last)
  · exact fun few => length_nameFor_le few (Nat.lt_of_succ_le (Nat.le_of_eq last)) base

/-- A pool of short names in which a base that ends in a digit meets its own numbered form. -/
def shortNames : Pool := (empty 2).serveAll [.reserve "A1".toList, .allocate "a2x".toList]

theorem allocate_fresh_digit :
    1 ≤ 2 ∧ (∀ c ∈ "a1".toList, isAscii c = true) ∧ shortNames.isTaken "a1".toList = true ∧
      shortNames.Roomy ∧ (shortNames.allocate "a1".toList).1 = "a3".toList ∧
      shortNames.Allocates "a1".toList "a3".toList (shortNames.reserve "a3".toList) := by
  have ascii : ∀ c ∈ "a1".toList, isAscii c = true := by decide
  have served :
      shortNames.allocate "a1".toList = ("a3".toList, shortNames.reserve "a3".toList) := by
    decide +kernel
  have allocates : shortNames.Allocates "a1".toList (shortNames.allocate "a1".toList).1
      (shortNames.allocate "a1".toList).2 :=
    (allocate_fresh (by decide) [.reserve "A1".toList, .allocate "a2x".toList] ascii).2.2.2
  rw [served] at allocates
  have roomy : shortNames.Roomy := by
    unfold Roomy
    decide +kernel
  exact ⟨by decide, ascii, by decide +kernel, roomy, by rw [served], allocates⟩

end Name.Pool

end FormLogic
