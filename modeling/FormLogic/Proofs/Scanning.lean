import FormLogic.Proofs.Balance
import FormLogic.Proofs.Standing

/-!
Where the scan for calls comes. At each place between pieces the text that is left is read by itself,
so an accepted name with a parenthesis behind it is there a call, or unbalanced where its group is
endless. The scan does not come to what it passes over: literals, `${` up to the next brace, names
and calls. Where no literal is open and no `${` reaches over the name, it comes to every name with an
endless group, for no call reaches over that.
-/
namespace FormLogic.Call

open Text FormLogic.Field FormLogic.Field.Reference

/-- An accepted name that stands as a whole token behind the character `before`, and the white space
between it and a parenthesis. -/
structure Opens (accept : Text → Bool) (before : Option Char) (run gap : Text) : Prop where
  named : Piece.Named before run
  spaces : ∀ c ∈ gap, isSpace c = true
  accepted : accept run = true

/-- The scan comes to the place behind `u`: what it passes over before ends there. -/
def Comes (accept : Text → Bool) (t u : Text) : Prop :=
  ∃ ps qs, piecesOf accept t = ps ++ qs ∧ joined ps = u

section Places

variable {accept : Text → Bool} {before : Option Char} {t : Text} {ps qs : List Piece} {p : Piece}

/-- Each piece is read at its place. -/
theorem reading_of_pieces (cut : pieces accept before t = ps ++ p :: qs) :
    Piece.Reading accept ((joined ps).getLast?.or before) (p.render ++ joined qs) p (joined qs) := by
  have behind := pieces_behind cut
  rw [joined_cons] at behind
  generalize same : p.render ++ joined qs = text at behind ⊢
  cases text with
  | nil =>
    rw [pieces_nil] at behind
    cases behind
  | cons c rest =>
    have reading := @Piece.reading_next accept ((joined ps).getLast?.or before) c rest
    have whole := Piece.render_next accept ((joined ps).getLast?.or before) c rest
    rw [pieces, Scanner.items_cons] at behind
    obtain ⟨first, later⟩ := List.cons.inj behind
    change p = (Piece.next accept _ c rest).1 at first
    rw [← first] at reading whole
    rwa [List.append_cancel_left (same.trans whole.symm)]

/-- What a call is where it is read. -/
theorem opens_of_call {text rest : Text} {c : Call}
    (reading : Piece.Reading accept before text (.call c) rest) :
    Opens accept before c.run c.gap ∧ closes .outside c.body = true := by
  cases reading with
  | step step =>
    cases step with
    | call named spaces accepted closed => exact ⟨⟨named, spaces, accepted⟩, closed⟩

theorem opens_of_unbalanced {text rest run gap : Text}
    (reading : Piece.Reading accept before text (.unbalanced run gap) rest) :
    Opens accept before run gap ∧ Endless rest := by
  cases reading with
  | step step =>
    cases step with
    | unbalanced named spaces accepted endless =>
      exact ⟨⟨named, spaces, accepted⟩, closeGroup_eq_none_iff.1 endless⟩

end Places

section Openings

variable {accept : Text → Bool} {before : Option Char} {t run gap inside : Text}
  {ps qs : List Piece}

/-- Where the scan comes to an accepted name whose group is endless, it finds it unbalanced. -/
theorem unbalanced_of_opens (cut : pieces accept before t = ps ++ qs)
    (left : joined qs = run ++ (gap ++ '(' :: inside))
    (opens : Opens accept ((joined ps).getLast?.or before) run gap) (endless : Endless inside) :
    ∃ more, qs = .unbalanced run gap :: more := by
  have step : Piece.Step accept ((joined ps).getLast?.or before) (run ++ gap ++ '(' :: inside)
      (.unbalanced run gap) inside :=
    .unbalanced opens.named opens.spaces opens.accepted (closeGroup_eq_none_iff.2 endless)
  have behind := pieces_behind cut
  rw [left, ← List.append_assoc, pieces_step step] at behind
  exact ⟨_, behind⟩

/-- The scan comes to a name with an endless group where no literal is open and nothing hides the
name: no call reaches over that. -/
theorem comes_of_endless {u : Text} (unhidden : Unhidden u (run ++ (gap ++ '(' :: inside)))
    (terminated : Terminated u) (opens : Opens accept u.getLast? run gap)
    (endless : Endless inside) : Comes accept (u ++ (run ++ (gap ++ '(' :: inside))) u := by
  have named : Piece.Named (u.getLast?.or none) run := by
    rw [Option.or_none]
    exact opens.named
  rcases pieces_comes_or_within unhidden terminated named with
    comes | ⟨ps, k, qs, b, y, cut, _, outside, body, same⟩
  · exact comes
  · -- The call's group holds the beginning of the name's, so it would close that too.
    obtain ⟨_, closed, _, _⟩ := mem_pieces (cut ▸ List.mem_append_right ps List.mem_cons_self)
    have opening : ')' ∉ run ++ gap ++ ['('] :=
      notMem_opening opens.named.all opens.spaces (by decide) (by decide) (by decide)
    have parts : run ++ gap ++ ['('] ++ inside = y ++ ')' :: joined qs := by
      simpa using same
    obtain ⟨z, rfl, rfl⟩ := append_of_notMem opening parts
    rw [body] at closed
    obtain ⟨depth, inner⟩ := closes_of_append closed
    rw [show quoteAfter Place.outside.quote b = none from outside, List.append_assoc,
      List.singleton_append, Piece.closes_opening_append opens.named.all opens.spaces,
      endless.not_closes] at inner
    cases inner

end Openings

end FormLogic.Call
