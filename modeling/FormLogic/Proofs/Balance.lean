import FormLogic.Proofs.Grouping

/-!
Counting parentheses. Outside literals an opening parenthesis counts up and a closing one down. A
text closes the groups that it is read in where the count comes to nothing at its end and never falls
below that before. A group is never closed where the count, begun with its opening parenthesis,
comes back to nothing nowhere.
-/
namespace FormLogic.Call

open Text

/-- What a character adds to the number of open groups: nothing within a literal. -/
def weight (quote : Option Char) (c : Char) : Int :=
  if quote.isSome then 0 else if c = '(' then 1 else if c = ')' then -1 else 0

/-- The opening parentheses of a text less the closing ones, those in literals left out. The quote is
that of the literal that is open before the text. -/
def balance : Option Char → Text → Int
  | _, [] => 0
  | quote, c :: rest => weight quote c + balance (quoteAfter quote [c]) rest

theorem balance_append (quote : Option Char) (s t : Text) :
    balance quote (s ++ t) = balance quote s + balance (quoteAfter quote s) t := by
  induction s generalizing quote with
  | nil => cases quote <;> simp [balance, quoteAfter]
  | cons c rest ih =>
    have later : quoteAfter (quoteAfter quote [c]) rest = quoteAfter quote (c :: rest) := by
      rw [← quoteAfter_append]
      rfl
    simp only [List.cons_append, balance, ih, later]
    omega

namespace Place

/-- No beginning of the text closes a group that is not open. -/
def Holds (p : Place) (t : Text) : Prop :=
  ∀ u, u <+: t → 0 ≤ (p.depth : Int) + balance p.quote u

theorem quote_next_eq (p : Place) (c : Char) : (p.next c).quote = quoteAfter p.quote [c] := by
  obtain ⟨depth, quote⟩ := p
  cases quote <;> simp [next, quoteAfter]

/-- The depth is the count, as long as no group is closed that is not open. -/
theorem depth_next {p : Place} {c : Char} (goesOn : ¬(c = ')' ∧ p = .outside)) :
    ((p.next c).depth : Int) = p.depth + weight p.quote c := by
  obtain ⟨depth, quote⟩ := p
  cases quote with
  | some q => simp [next, weight]
  | none =>
    have inside : c = ')' → depth ≠ 0 := fun closing zero => goesOn ⟨closing, by rw [zero]; rfl⟩
    by_cases opening : c = '('
    · simp [next, weight, opening]
    · by_cases closing : c = ')'
      · have := inside closing
        simp only [next, weight, closing]
        simp
        omega
      · simp [next, weight, opening, closing]

theorem balance_next {p : Place} {c : Char} (goesOn : ¬(c = ')' ∧ p = .outside)) (u : Text) :
    (p.depth : Int) + balance p.quote (c :: u) = (p.next c).depth + balance (p.next c).quote u := by
  rw [depth_next goesOn, quote_next_eq, balance]
  omega

theorem holds_nil (p : Place) : p.Holds [] := by
  intro u start
  rw [List.prefix_nil.1 start, balance]
  omega

theorem holds_cons (p : Place) (c : Char) (rest : Text) :
    p.Holds (c :: rest) ↔ ¬(c = ')' ∧ p = .outside) ∧ (p.next c).Holds rest := by
  constructor
  · intro holds
    have goesOn : ¬(c = ')' ∧ p = .outside) := by
      rintro ⟨rfl, rfl⟩
      have below := holds [')'] ⟨rest, rfl⟩
      simp [outside, balance, weight] at below
    refine ⟨goesOn, fun u start => ?_⟩
    rw [← balance_next goesOn]
    exact holds (c :: u) ((List.cons_prefix_cons).2 ⟨rfl, start⟩)
  · rintro ⟨goesOn, holds⟩ u start
    rcases List.prefix_cons_iff.1 start with rfl | ⟨u, rfl, later⟩
    · rw [balance]
      omega
    · rw [balance_next goesOn]
      exact holds u later

end Place

/-- A text closes its place where its literals end, its parentheses balance those that are open, and
no beginning of it closes more. -/
theorem closes_iff {p : Place} {t : Text} :
    closes p t = true ↔
      quoteAfter p.quote t = none ∧ (p.depth : Int) + balance p.quote t = 0 ∧ p.Holds t := by
  induction t generalizing p with
  | nil =>
    obtain ⟨depth, quote⟩ := p
    rw [closes_nil]
    constructor
    · rintro ⟨⟩
      exact ⟨rfl, rfl, Place.holds_nil _⟩
    · rintro ⟨outside, level, _⟩
      simp only [balance] at level
      have zero : depth = 0 := by omega
      cases quote with
      | none => rw [zero]; rfl
      | some q => cases outside
  | cons c rest ih =>
    rw [closes_cons, ih, Place.holds_cons, Place.quote_next]
    constructor
    · rintro ⟨goesOn, closed, level, holds⟩
      exact ⟨closed, (Place.balance_next goesOn rest).trans level, goesOn, holds⟩
    · rintro ⟨closed, level, goesOn, holds⟩
      exact ⟨goesOn, closed, (Place.balance_next goesOn rest).symm.trans level, holds⟩

theorem closeGroup_eq_none_iff_holds {p : Place} {t : Text} :
    closeGroup p t = none ↔ p.Holds t := by
  induction t generalizing p with
  | nil => exact ⟨fun _ => p.holds_nil, fun _ => rfl⟩
  | cons c rest ih =>
    rw [closeGroup, Place.holds_cons, ← ih]
    by_cases stop : c = ')' ∧ p = .outside
    · simp [stop]
    · simp [stop]

/-- Nowhere in the text is the group closed that a parenthesis has opened before it: the count that
begins with that parenthesis is not nothing behind any beginning of the text. -/
def Endless (inside : Text) : Prop := ∀ u, u <+: inside → balance none ('(' :: u) ≠ 0

theorem balance_opening (t : Text) : balance none ('(' :: t) = 1 + balance none t := rfl

theorem closeGroup_eq_none_iff {inside : Text} :
    closeGroup .outside inside = none ↔ Endless inside := by
  constructor
  · intro unclosed u start
    have level := closeGroup_eq_none_iff_holds.1 unclosed u start
    simp only [Place.outside] at level
    rw [balance_opening]
    omega
  · intro endless
    cases closed : closeGroup .outside inside with
    | none => rfl
    | some parts =>
      -- Behind the parenthesis that closes the group the count is nothing.
      obtain ⟨body, after⟩ := parts
      obtain ⟨outside, level, _⟩ := closes_iff.1 (closes_of_closeGroup closed)
      have start : body ++ [')'] <+: inside := by
        rw [eq_of_closeGroup closed]
        exact ⟨after, by simp⟩
      have back := endless _ start
      rw [balance_opening, balance_append, show quoteAfter none body = none from outside] at back
      simp only [Place.outside] at level
      simp [balance, weight] at back
      omega

/-- No beginning of what an endless group opens into closes it. -/
theorem Endless.not_closes {y after : Text} (endless : Endless (y ++ after)) (depth : Nat) :
    closes ⟨depth + 1, none⟩ y = false := by
  rw [Bool.eq_false_iff]
  intro closed
  obtain ⟨body, left, found, _⟩ := @closeGroup_of_closes .outside depth y closed
  have unclosed := closeGroup_eq_none_iff.2 endless
  rw [eq_of_closeGroup found, List.append_assoc, List.cons_append,
    closeGroup_append (closes_of_closeGroup found)] at unclosed
  cases unclosed

/-- Literals end within the text; outside them its parentheses balance without ever going negative,
and no comma stands outside all of its groups. -/
structure Undivided (t : Text) : Prop where
  terminated : Terminated t
  balanced : balance none t = 0
  nonnegative : ∀ u, u <+: t → 0 ≤ balance none u
  grouped : ∀ u v, t = u ++ ',' :: v → Terminated u → 0 < balance none u

theorem grouped_of_single {p : Place} {t : Text} (closed : closes p t = true)
    (single : splitArguments p t = [t]) {u v : Text} (cut : t = u ++ ',' :: v)
    (outside : quoteAfter p.quote u = none) : 0 < (p.depth : Int) + balance p.quote u := by
  induction t generalizing p u with
  | nil => simp at cut
  | cons c rest ih =>
    obtain ⟨goesOn, closed⟩ := (closes_cons p c rest).1 closed
    rw [splitArguments] at single
    split at single
    · exact absurd (List.cons.inj single).2 (splitArguments_ne_nil _ _)
    · next within =>
      cases u with
      | nil =>
        obtain ⟨depth, quote⟩ := p
        obtain ⟨rfl, -⟩ := List.cons.inj cut
        have noLiteral : quote = none := by cases quote <;> exact outside
        have positive : depth ≠ 0 := fun zero => within ⟨rfl, by rw [noLiteral, zero]; rfl⟩
        simp only [balance]
        omega
      | cons d u =>
        obtain ⟨rfl, later⟩ := List.cons.inj cut
        rw [Place.balance_next goesOn]
        refine ih closed ?_ later (by rwa [Place.quote_next])
        obtain ⟨first, more, parts⟩ :=
          List.exists_cons_of_ne_nil (splitArguments_ne_nil (p.next c) rest)
        rw [parts, List.modifyHead_cons] at single
        obtain ⟨same, rfl⟩ := List.cons.inj single
        rw [parts, (List.cons.inj same).2]

theorem Single.undivided {t : Text} (single : Single t) : Undivided t := by
  obtain ⟨outside, level, holds⟩ := closes_iff.1 single.closed
  simp only [Place.outside, Place.Holds] at level holds
  refine ⟨outside, by omega, fun u start => ?_, fun u v cut terminated => ?_⟩
  · have := holds u start
    omega
  · have positive := grouped_of_single single.closed single.split cut terminated
    simp only [Place.outside] at positive
    omega

/-- Each argument of a text that closes what it opens is one by itself. -/
theorem single_of_mem {t a : Text} (closed : closes .outside t = true)
    (member : a ∈ splitArguments .outside t) : Single a := by
  induction t, closed using argumentInduction with
  | last t closed single =>
    rw [single, List.mem_singleton] at member
    rw [member]
    exact ⟨closed, single⟩
  | more first rest closed left head single ih =>
    rw [splitArguments_append head single, List.mem_cons] at member
    rcases member with rfl | member
    · exact ⟨head, single⟩
    · exact ih member

end FormLogic.Call
