import FormLogic.Text.Character

/-!
Reading a text from left to right. A scanner reads one item at a time, knowing the character before
it; the items put together give the text back, and none of them is empty. What an item is depends on
the text behind it, so a text may be read in two parts only where its first part can be read without
looking at the second.
-/
namespace FormLogic.Text

theorem getLast?_cons_or (c : Char) (t : Text) (before : Option Char) :
    (c :: t).getLast?.or before = t.getLast?.or (some c) := by
  rw [List.getLast?_cons]
  cases t.getLast? <;> rfl

structure Scanner (Item : Type) where
  /-- The first item of the text `c :: rest` that stands behind `before`, and the text after it. -/
  next : (before : Option Char) → (c : Char) → (rest : Text) → Item × Text
  /-- The item as it stands in the text. -/
  source : Item → Text
  source_next : ∀ before c rest,
    source (next before c rest).1 ++ (next before c rest).2 = c :: rest
  source_next_ne_nil : ∀ before c rest, source (next before c rest).1 ≠ []

namespace Scanner

variable {Item : Type} (s : Scanner Item)

theorem length_next (before : Option Char) (c : Char) (rest : Text) :
    (s.next before c rest).2.length < (c :: rest).length := by
  have whole := congrArg List.length (s.source_next before c rest)
  have nonempty := List.length_pos_iff.2 (s.source_next_ne_nil before c rest)
  rw [List.length_append] at whole
  omega

/-- The items of a text that stands behind the character `before`. -/
def items (before : Option Char) (t : Text) : List Item :=
  match t with
  | [] => []
  | c :: rest =>
    let item := s.next before c rest
    item.1 :: items (s.source item.1).getLast? item.2
termination_by t.length
decreasing_by exact s.length_next before c rest

@[simp] theorem items_nil (before : Option Char) : s.items before [] = [] := by
  rw [items]

theorem items_cons (before : Option Char) (c : Char) (rest : Text) :
    s.items before (c :: rest) =
      (s.next before c rest).1 ::
        s.items (s.source (s.next before c rest).1).getLast? (s.next before c rest).2 := by
  rw [items]

theorem mem_items {item : Item} {before : Option Char} {t : Text} (member : item ∈ s.items before t) :
    ∃ before c rest, item = (s.next before c rest).1 := by
  fun_induction items s before t with
  | case1 => cases member
  | case2 before c rest next ih =>
    rcases List.mem_cons.1 member with same | member
    · exact ⟨before, c, rest, same⟩
    · exact ih member

/-- Nothing is lost: the items put together are the text. -/
theorem flatMap_source_items (before : Option Char) (t : Text) :
    (s.items before t).flatMap s.source = t := by
  fun_induction items s before t with
  | case1 => rfl
  | case2 before c rest item ih =>
    rw [List.flatMap_cons, ih]
    exact s.source_next before c rest

/-- The items behind a place between items are those of the text that is left there. -/
theorem items_behind {before : Option Char} {t : Text} {as bs : List Item}
    (cut : s.items before t = as ++ bs) :
    bs = s.items ((as.flatMap s.source).getLast?.or before) (bs.flatMap s.source) := by
  induction as generalizing before t with
  | nil =>
    rw [List.nil_append] at cut
    rw [← cut, flatMap_source_items]
    rfl
  | cons a as ih =>
    cases t with
    | nil => simp at cut
    | cons c rest =>
      rw [items_cons, List.cons_append] at cut
      obtain ⟨rfl, later⟩ := List.cons.inj cut
      have visible := s.source_next_ne_nil before c rest
      have last : ((s.source (s.next before c rest).1).getLast?).or before =
          (s.source (s.next before c rest).1).getLast? := by
        rw [List.getLast?_eq_some_getLast visible, Option.some_or]
      rw [List.flatMap_cons, List.getLast?_append, Option.or_assoc, last]
      exact ih later

/-- The character before the text that follows `t`, for a text `t` that stands behind `before`. -/
theorem getLast?_source_or (before : Option Char) (c : Char) (rest : Text) :
    (s.next before c rest).2.getLast?.or (s.source (s.next before c rest).1).getLast? =
      (c :: rest).getLast?.or before := by
  have whole := congrArg List.getLast? (s.source_next before c rest)
  rw [List.getLast?_append] at whole
  rw [whole, List.getLast?_cons, Option.some_or]

/-- A text may be read in two parts where no item looks past the end of the first. `Inside` says so
of the part that is still to be read, and passes on to what is left of it. -/
theorem items_append {Inside : Option Char → Text → Prop} {tail : Text}
    (inside_next : ∀ before c rest, Inside before (c :: rest) →
      s.next before c (rest ++ tail) =
          ((s.next before c rest).1, (s.next before c rest).2 ++ tail) ∧
        Inside (s.source (s.next before c rest).1).getLast? (s.next before c rest).2)
    (before : Option Char) (t : Text) (inside : Inside before t) :
    s.items before (t ++ tail) = s.items before t ++ s.items (t.getLast?.or before) tail := by
  fun_induction items s before t with
  | case1 => simp
  | case2 before c rest item ih =>
    obtain ⟨same, left⟩ := inside_next before c rest inside
    rw [List.cons_append, items_cons, same, ih left, s.getLast?_source_or]
    rfl

/-- What stands before a text matters to its first item only. -/
theorem items_congr_before {before other : Option Char} {t : Text}
    (same : ∀ c rest, t = c :: rest → s.next before c rest = s.next other c rest) :
    s.items before t = s.items other t := by
  cases t with
  | nil => simp
  | cons c rest => rw [items_cons, items_cons, same c rest rfl]

end Scanner

end FormLogic.Text
