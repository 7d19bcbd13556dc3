import FormLogic.Proofs.Braces

/-!
Where an expression may be read in two parts. Nothing that is read in the first part goes on in the
second: no name or path, no white space before a group, no `${`, no `current()` path and no `==`.
What is said of a text holds of its ends.
-/
namespace FormLogic

open Text Call Field.Reference

namespace Text

section

variable {p : Char → Bool} {u tail : Text}

theorem of_mem_takeWhile {c : Char} (member : c ∈ u.takeWhile p) : p c = true :=
  List.all_eq_true.1 List.all_takeWhile c member

theorem head?_dropWhile : (u.dropWhile p).head?.any p = false := by
  have stop := List.head?_dropWhile_not p u
  cases found : (u.dropWhile p).head? with
  | none => rfl
  | some c =>
    rw [found] at stop
    exact stop

/-- A run of characters and what stops it. -/
theorem takeWhile_run (all : ∀ c ∈ u, p c = true) (stop : tail.head?.any p = false) :
    (u ++ tail).takeWhile p = u := by
  rw [List.takeWhile_append_of_pos all]
  cases tail with
  | nil => simp
  | cons c later =>
    have fails : p c = false := stop
    rw [List.takeWhile_cons, fails]
    simp

theorem dropWhile_run (all : ∀ c ∈ u, p c = true) (stop : tail.head?.any p = false) :
    (u ++ tail).dropWhile p = tail := by
  rw [List.dropWhile_append_of_pos all]
  cases tail with
  | nil => rfl
  | cons c later =>
    have fails : p c = false := stop
    rw [List.dropWhile_cons, fails]
    simp

theorem any_getLast? (nonempty : u ≠ []) (all : ∀ c ∈ u, p c = true) :
    u.getLast?.any p = true := by
  rw [List.getLast?_eq_some_getLast nonempty]
  exact all _ (List.getLast_mem nonempty)

theorem any_head?_mono {q : Char → Bool} (sub : ∀ c, p c = true → q c = true)
    (never : u.head?.any q = false) : u.head?.any p = false := by
  cases u with
  | nil => rfl
  | cons c rest =>
    have fails : q c = false := never
    cases holds : p c with
    | false => exact holds
    | true => rw [sub c holds] at fails; cases fails

/-- What holds of each white space character. -/
theorem of_isSpace {c : Char} (space : isSpace c = true) {b : Bool}
    (table : ∀ d ∈ [' ', '\t', '\n', '\x0c', '\r'], p d = b) : p c = b := by
  apply table
  simp only [isSpace, Bool.or_eq_true, beq_iff_eq] at space
  rcases space with (((rfl | rfl) | rfl) | rfl) | rfl <;> simp

theorem not_isSpace_of_class {c : Char} (holds : p c = true)
    (without : ∀ d ∈ [' ', '\t', '\n', '\x0c', '\r'], p d = false) : isSpace c = false := by
  cases space : isSpace c with
  | false => rfl
  | true =>
    rw [of_isSpace space without] at holds
    cases holds

theorem of_isQuote {c : Char} (quote : isQuote c = true) {b : Bool}
    (table : ∀ d ∈ ['\'', '"'], p d = b) : p c = b := by
  apply table
  simp only [isQuote, Bool.or_eq_true, beq_iff_eq] at quote
  rcases quote with rfl | rfl <;> simp

theorem not_isNameChar_of_isSpace {c : Char} (space : isSpace c = true) : isNameChar c = false :=
  of_isSpace space (by decide)

end

theorem getLast?_append_cons (u : Text) (c : Char) (v : Text) :
    (u ++ c :: v).getLast? = (c :: v).getLast? := by
  simp [List.getLast?_cons]

theorem head?_append_left {u : Text} (nonempty : u ≠ []) (v : Text) : (u ++ v).head? = u.head? := by
  rw [List.head?_append, List.head?_eq_some_head nonempty, Option.some_or]

theorem isPathChar_of_isNameChar (c : Char) (holds : isNameChar c = true) :
    isPathChar c = true := by
  simp [isPathChar, holds]

end Text

/-- Nothing that is read in `u` goes on in `tail`. -/
structure Seam (u tail : Text) : Prop where
  path : u.getLast?.any isPathChar = true → tail.head?.any isPathChar = false
  group : u.getLast?.any (fun c => isNameChar c || isSpace c) = true →
    Piece.openedGroup? tail = none
  brace : u.getLast? = some '$' → tail.head? ≠ some '{'
  current : Field.currentCall <:+ u → tail.head? ≠ some '/'
  equals : u.getLast? = some '=' → tail.head? ≠ some '='

namespace Seam

theorem of_append {u v tail : Text} (seam : Seam (u ++ v) tail) : Seam v tail := by
  cases v with
  | nil => exact ⟨by simp, by simp, by simp, by simp [Field.currentCall], by simp⟩
  | cons c rest =>
    obtain ⟨path, group, brace, current, equals⟩ := seam
    rw [getLast?_append_cons] at path group brace equals
    exact ⟨path, group, brace, fun suffix => current (suffix.trans (List.suffix_append u _)),
      equals⟩

/-- White space that no group follows is a seam behind any text. -/
theorem of_space {u tail : Text} {c : Char} (head : tail.head? = some c)
    (space : isSpace c = true) (group : Piece.openedGroup? tail = none) : Seam u tail := by
  have notPath : isPathChar c = false := of_isSpace space (by decide)
  refine ⟨fun _ => by simpa [head] using notPath, fun _ => group, ?_, ?_, ?_⟩
  · rw [head]
    rintro - same
    exact ne_of_class space (by decide) (Option.some.inj same)
  · rw [head]
    rintro - same
    exact ne_of_class space (by decide) (Option.some.inj same)
  · rw [head]
    rintro - same
    exact ne_of_class space (by decide) (Option.some.inj same)

/-- Nothing goes on over the end of an argument. -/
theorem of_stop {u tail : Text} {stop : Char} (isStop : stop = ')' ∨ stop = ',') :
    Seam u (stop :: tail) := by
  rcases isStop with rfl | rfl
  · exact ⟨fun _ => rfl, fun _ => rfl, fun _ => by simp, fun _ => by simp, fun _ => by simp⟩
  · exact ⟨fun _ => rfl, fun _ => rfl, fun _ => by simp, fun _ => by simp, fun _ => by simp⟩

end Seam

namespace Call.Piece

theorem openedGroup?_eq_some_iff {t gap inside : Text} :
    openedGroup? t = some (gap, inside) ↔
      t = gap ++ '(' :: inside ∧ ∀ c ∈ gap, isSpace c = true := by
  constructor
  · intro opened
    refine ⟨eq_of_openedGroup? opened, ?_⟩
    unfold openedGroup? at opened
    split at opened
    · next found =>
      simp only [Option.some.injEq, Prod.mk.injEq] at opened
      rw [← opened.1]
      exact fun c member => of_mem_takeWhile member
    · cases opened
  · rintro ⟨rfl, spaces⟩
    have stop : ('(' :: inside).head?.any isSpace = false := rfl
    rw [openedGroup?, dropWhile_run spaces stop]
    simp only [takeWhile_run spaces stop]

/-- No group opens behind a name in the first part, nor between the parts. -/
theorem openedGroup?_append_of_none {t tail : Text} (noGroup : openedGroup? t = none)
    (seam : t.getLast?.all isSpace = true → openedGroup? tail = none) :
    openedGroup? (t ++ tail) = none := by
  cases found : openedGroup? (t ++ tail) with
  | none => rfl
  | some parts =>
    obtain ⟨gap, inside⟩ := parts
    obtain ⟨whole, spaces⟩ := openedGroup?_eq_some_iff.1 found
    rcases List.append_eq_append_iff.1 whole with ⟨more, left, right⟩ | ⟨more, left, right⟩
    · -- The first part is white space only, and the group opens in the second.
      have last : t.getLast?.all isSpace = true := by
        rw [Option.all_eq_true]
        intro c same
        exact spaces c (by rw [left]; exact List.mem_append_left _ (List.mem_of_getLast? same))
      have opened : openedGroup? tail = some (more, inside) :=
        openedGroup?_eq_some_iff.2
          ⟨right, fun c member => spaces c (by rw [left]; exact List.mem_append_right _ member)⟩
      rw [seam last] at opened
      cases opened
    · cases more with
      | nil =>
        have all : ∀ c ∈ t, isSpace c = true := by
          intro c member
          rw [left, List.append_nil] at member
          exact spaces c member
        have last : t.getLast?.all isSpace = true := by
          rw [Option.all_eq_true]
          intro c same
          exact all c (List.mem_of_getLast? same)
        have opened : openedGroup? tail = some ([], inside) :=
          openedGroup?_eq_some_iff.2 ⟨right.symm, by simp⟩
        rw [seam last] at opened
        cases opened
      | cons d more =>
        have opened : openedGroup? t = some (gap, more) := by
          refine openedGroup?_eq_some_iff.2 ⟨?_, spaces⟩
          rw [left, (List.cons.inj right).1]
        rw [noGroup] at opened
        cases opened

end Call.Piece

end FormLogic
