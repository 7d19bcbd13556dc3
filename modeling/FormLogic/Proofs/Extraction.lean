import FormLogic.Proofs.Bytewise.Calls
import FormLogic.Proofs.Scanning

/-!
What a scan for calls reports. The occurrences come from left to right and no two calls overlap; a
call is reported as it stands in the text, each argument at its place; and a name is reported as
unbalanced exactly where its group is endless.
-/
namespace FormLogic.Call

open Text FormLogic.Field.Reference Bytewise

namespace Occurrence

def span : Occurrence → Span
  | call _ _ span => span
  | unbalanced _ span => span

def isCall : Occurrence → Bool
  | call .. => true
  | unbalanced .. => false

end Occurrence

/-- The call is reported as it stands in the text: a name, white space and a group, with an argument
for each part of the group between commas. -/
structure Faithful (t name : Text) (arguments : List Argument) (span : Span) : Prop where
  text : ∃ gap body, span.slice? t = some (name ++ gap ++ '(' :: body ++ [')']) ∧ Blank gap ∧
    (arguments = [] ↔ Blank body) ∧
    (arguments ≠ [] → body = [','].intercalate (arguments.map Argument.raw))
  placed : ∀ a ∈ arguments, a.span.slice? t = some a.raw
  undivided : ∀ a ∈ arguments, Undivided a.raw

/-- Behind `u` an accepted name stands in the text, and `inside` behind the parenthesis that follows
it. -/
structure Opening (accept : Text → Bool) (t u run gap inside : Text) : Prop where
  text : t = u ++ (run ++ (gap ++ '(' :: inside))
  opens : Opens accept u.getLast? run gap

/-- The occurrences are those of the text: in order, apart, as they stand there, and none missing
where no literal is open and no `${` reaches over the name. -/
structure Exact (accept : Text → Bool) (t : Text) (found : List Occurrence) : Prop where
  ordered : found.Pairwise fun a b => a.span.start < b.span.start
  apart : (found.filter Occurrence.isCall).Pairwise fun a b => a.span.stop ≤ b.span.start
  faithful : ∀ name arguments span, .call name arguments span ∈ found →
    Faithful t name arguments span
  unbalanced_only : ∀ run span, .unbalanced run span ∈ found →
    ∃ u gap inside, Opening accept t u run gap inside ∧ Endless inside ∧
      span = ⟨byteLength u, byteLength t⟩
  unbalanced_iff : ∀ u run gap inside, Opening accept t u run gap inside → Terminated u →
    Unhidden u (run ++ (gap ++ '(' :: inside)) →
    (.unbalanced run ⟨byteLength u, byteLength t⟩ ∈ found ↔ Endless inside)
  /-- A call that stands in the text is reported, or it stands in an argument of a call that is. -/
  complete : ∀ u c v, t = u ++ (c.render ++ v) → Behind none u c → accept c.run = true →
    Unhidden u (c.render ++ v) →
    .call c.name (c.placedArguments (byteLength u)) (c.spanAt (byteLength u)) ∈ found ∨
      ∃ name arguments span, .call name arguments span ∈ found ∧
        ∃ a ∈ arguments, c.StandsAt (byteLength u) a

section Order

variable {size start : Nat} {o : Occurrence} {ps : List Piece}

theorem le_start_of_mem (member : o ∈ occurrencesFrom size start ps) : start ≤ o.span.start := by
  induction ps generalizing start with
  | nil => cases member
  | cons p rest ih =>
    have later (behind : o ∈ occurrencesFrom size (start + byteLength p.render) rest) :
        start ≤ o.span.start := by
      have := ih behind
      omega
    cases p with
    | plain text => exact later member
    | call c =>
      rcases List.mem_cons.1 member with rfl | behind
      · exact Nat.le_refl start
      · exact later behind
    | unbalanced run gap =>
      rcases List.mem_cons.1 member with rfl | behind
      · exact Nat.le_refl start
      · exact later behind

/-- An occurrence ends before the next begins if it is a call, and begins before it in any case. -/
theorem pairwise_occurrencesFrom (size start : Nat) (ps : List Piece) :
    (occurrencesFrom size start ps).Pairwise fun a b =>
      a.span.start < b.span.start ∧ (a.isCall = true → a.span.stop ≤ b.span.start) := by
  induction ps generalizing start with
  | nil => exact List.Pairwise.nil
  | cons p rest ih =>
    have later (visible : p.render ≠ []) {o : Occurrence}
        (member : o ∈ occurrencesFrom size (start + byteLength p.render) rest) :
        start < o.span.start ∧ start + byteLength p.render ≤ o.span.start := by
      have behind := le_start_of_mem member
      have longer := byteLength_lt_append [] visible
      simp only [List.nil_append, byteLength] at longer
      omega
    cases p with
    | plain text => exact ih _
    | call c =>
      refine List.pairwise_cons.2 ⟨fun o member => ?_, ih _⟩
      obtain ⟨before, behind⟩ := later (by simp [Piece.render, render]) member
      exact ⟨before, fun _ => behind⟩
    | unbalanced run gap =>
      refine List.pairwise_cons.2 ⟨fun o member => ?_, ih _⟩
      obtain ⟨before, _⟩ := later (by simp [Piece.render]) member
      exact ⟨before, fun impossible => by cases impossible⟩

end Order

section Calls

variable {size start : Nat} {o : Occurrence} {accept : Text → Bool} {t : Text}

/-- An occurrence is that of a piece at its place. -/
theorem mem_occurrencesFrom {ps : List Piece} (member : o ∈ occurrencesFrom size start ps) :
    ∃ qs p rs, ps = qs ++ p :: rs ∧
      o ∈ occurrencesFrom size (start + byteLength (joined qs)) [p] := by
  induction ps generalizing start with
  | nil => cases member
  | cons p rest ih =>
    rw [occurrencesFrom_cons] at member
    rcases List.mem_append.1 member with here | later
    · exact ⟨[], p, rest, rfl, here⟩
    · obtain ⟨qs, q, rs, rfl, place⟩ := ih later
      refine ⟨p :: qs, q, rs, rfl, ?_⟩
      rwa [joined_cons, byteLength_append, ← Nat.add_assoc]

theorem occurrencesFrom_append (size start : Nat) (ps qs : List Piece) :
    occurrencesFrom size start (ps ++ qs) = occurrencesFrom size start ps ++
      occurrencesFrom size (start + byteLength (joined ps)) qs := by
  induction ps generalizing start with
  | nil => rfl
  | cons p rest ih =>
    rw [List.cons_append, occurrencesFrom_cons, ih, joined_cons, byteLength_append, ← Nat.add_assoc,
      ← List.append_assoc, ← occurrencesFrom_cons]

theorem mem_occurrences_iff : o ∈ occurrences accept t ↔
    ∃ ps p qs, piecesOf accept t = ps ++ p :: qs ∧
      o ∈ occurrencesFrom (byteLength t) (byteLength (joined ps)) [p] := by
  constructor
  · intro member
    obtain ⟨ps, p, qs, cut, here⟩ := mem_occurrencesFrom member
    rw [Nat.zero_add] at here
    exact ⟨ps, p, qs, cut, here⟩
  · rintro ⟨ps, p, qs, cut, here⟩
    rw [occurrences, cut, occurrencesFrom_append, Nat.zero_add, occurrencesFrom_cons]
    simp [here]

/-- An occurrence is that of a piece that the scan reads. -/
theorem reading_of_mem (member : o ∈ occurrences accept t) :
    ∃ (u : Text) (p : Piece) (v : Text), t = u ++ (p.render ++ v) ∧
      Piece.Reading accept u.getLast? (p.render ++ v) p v ∧
      o ∈ occurrencesFrom (byteLength t) (byteLength u) [p] := by
  obtain ⟨ps, p, qs, cut, here⟩ := mem_occurrences_iff.1 member
  have reading := reading_of_pieces cut
  have whole := text_of_pieces cut
  rw [joined_cons] at whole
  rw [Option.or_none] at reading
  exact ⟨joined ps, p, joined qs, whole, reading, here⟩

/-- A call is reported where it stands, with an accepted name and a group that is closed. -/
theorem place_of_call {name : Text} {arguments : List Argument} {span : Span}
    (member : .call name arguments span ∈ occurrences accept t) :
    ∃ (u : Text) (c : Call) (v : Text), t = u ++ (c.render ++ v) ∧
      Opens accept u.getLast? c.run c.gap ∧ closes .outside c.body = true ∧ name = c.name ∧
      arguments = c.placedArguments (byteLength u) ∧ span = c.spanAt (byteLength u) := by
  obtain ⟨u, p, v, whole, reading, here⟩ := reading_of_mem member
  cases p with
  | plain text => cases here
  | unbalanced run gap => simp [occurrencesFrom] at here
  | call c =>
    simp only [occurrencesFrom, List.mem_singleton, Occurrence.call.injEq] at here
    obtain ⟨opens, closed⟩ := opens_of_call reading
    exact ⟨u, c, v, whole, opens, closed, here⟩

/-- A name is reported as unbalanced where it stands, with an endless group. -/
theorem place_of_unbalanced {run : Text} {span : Span}
    (member : .unbalanced run span ∈ occurrences accept t) :
    ∃ u gap inside, Opening accept t u run gap inside ∧ Endless inside ∧
      span = ⟨byteLength u, byteLength t⟩ := by
  obtain ⟨u, p, v, whole, reading, here⟩ := reading_of_mem member
  cases p with
  | plain text => cases here
  | call c => simp [occurrencesFrom] at here
  | unbalanced other gap =>
    simp only [occurrencesFrom, List.mem_singleton, Occurrence.unbalanced.injEq] at here
    obtain ⟨rfl, rfl⟩ := here
    obtain ⟨opens, endless⟩ := opens_of_unbalanced reading
    refine ⟨u, gap, v, ⟨?_, opens⟩, endless, rfl⟩
    rw [whole]
    simp [Piece.render]

end Calls

section Openings

variable {accept : Text → Bool} {t u run gap inside : Text}

/-- A place is told by its offset, and with it what stands there. -/
theorem Opening.inside_eq {u' gap' inside' : Text} (opening : Opening accept t u run gap inside)
    (other : Opening accept t u' run gap' inside') (same : byteLength u = byteLength u') :
    inside = inside' := by
  have front := @splitAtByte?_append u (run ++ (gap ++ '(' :: inside))
  rw [← opening.text, same, other.text, splitAtByte?_append] at front
  have behind := List.append_cancel_left (Prod.mk.inj (Option.some.inj front)).2
  have first : Piece.openedGroup? (gap ++ '(' :: inside) = some (gap, inside) :=
    Piece.openedGroup?_eq_some_iff.2 ⟨rfl, opening.opens.spaces⟩
  have second : Piece.openedGroup? (gap' ++ '(' :: inside') = some (gap', inside') :=
    Piece.openedGroup?_eq_some_iff.2 ⟨rfl, other.opens.spaces⟩
  rw [← behind, second, Option.some.injEq, Prod.mk.injEq] at first
  exact first.2.symm

/-- Where the scan comes to an accepted name with an endless group, it reports it. -/
theorem unbalanced_mem (opening : Opening accept t u run gap inside) (comes : Comes accept t u)
    (endless : Endless inside) :
    .unbalanced run ⟨byteLength u, byteLength t⟩ ∈ occurrences accept t := by
  obtain ⟨ps, qs, cut, rfl⟩ := comes
  have left := List.append_cancel_left ((text_of_pieces cut).symm.trans opening.text)
  have opens : Opens accept ((joined ps).getLast?.or none) run gap := by
    rw [Option.or_none]
    exact opening.opens
  obtain ⟨more, rfl⟩ := unbalanced_of_opens cut left opens endless
  exact mem_occurrences_iff.2 ⟨ps, _, more, cut, List.mem_singleton_self _⟩

theorem call_mem {ps qs : List Piece} {c : Call} (cut : piecesOf accept t = ps ++ .call c :: qs) :
    .call c.name (c.placedArguments (byteLength (joined ps))) (c.spanAt (byteLength (joined ps))) ∈
      occurrences accept t :=
  mem_occurrences_iff.2 ⟨ps, _, qs, cut, List.mem_singleton_self _⟩

/-- An accepted call that nothing hides is reported, or it stands in an argument of a call that is. -/
theorem call_mem_or_argument {c : Call} {v : Text} (unhidden : Unhidden u (c.render ++ v))
    (behind : Behind none u c) (accepted : accept c.run = true) :
    .call c.name (c.placedArguments (byteLength u)) (c.spanAt (byteLength u)) ∈
        occurrences accept (u ++ (c.render ++ v)) ∨
      ∃ name arguments span, .call name arguments span ∈ occurrences accept (u ++ (c.render ++ v)) ∧
        ∃ a ∈ arguments, c.StandsAt (byteLength u) a := by
  rcases mem_pieces_or_within unhidden behind accepted with
    ⟨ps, qs, cut, rfl⟩ | ⟨ps, k, qs, b, y, cut, rfl, inner, body⟩
  · exact Or.inl (call_mem cut)
  · obtain ⟨_, closed, _, _⟩ := mem_pieces (cut ▸ List.mem_append_right ps List.mem_cons_self)
    have place : byteLength (joined ps ++ (k.run ++ k.gap ++ ['('] ++ b)) =
        k.bodyStart (byteLength (joined ps)) + byteLength b := by
      have opening : byteLength ['('] = 1 := rfl
      rw [bodyStart]
      simp only [byteLength_append, opening]
      omega
    rw [place]
    exact Or.inr ⟨_, _, _, call_mem cut, standsAt_of_body inner body closed _⟩

end Openings

/-- A call that is cut out of a text is reported as it stands there. -/
theorem faithful_call {t u v : Text} {c : Call} (whole : t = u ++ (c.render ++ v))
    (spaces : ∀ d ∈ c.gap, isSpace d = true) (closed : closes .outside c.body = true) :
    Faithful t c.name (c.placedArguments (byteLength u)) (c.spanAt (byteLength u)) := by
  have place := @inPlace_call t u v c (by rw [whole, List.append_assoc])
  have raws : (c.placedArguments (byteLength u)).map Argument.raw = c.arguments :=
    map_raw_placeArguments _ _
  have blank_iff : c.body.all isBlank = true ↔ Blank c.body := List.all_eq_true
  constructor
  · obtain ⟨trail, run, trailBlank⟩ := trimEnd_split c.run
    have slice : (c.spanAt (byteLength u)).slice? t = some c.render := by
      rw [whole, ← List.append_assoc, spanAt, ← byteLength_append, slice?_append]
    refine ⟨trail ++ c.gap, c.body, ?_, ?_, ?_, ?_⟩
    · rw [slice, name, ← List.append_assoc, ← run, render]
    · intro d member
      rcases List.mem_append.1 member with member | member
      · exact trailBlank d member
      · exact isBlank_of_isSpace (spaces d member)
    · rw [← List.map_eq_nil_iff, raws, arguments, ← blank_iff]
      split
      · next blank => simp [blank]
      · next visible => simp [visible, splitArguments_ne_nil]
    · intro present
      rw [Ne, ← List.map_eq_nil_iff, raws, arguments] at present
      rw [raws, arguments]
      split
      · next blank => simp [blank] at present
      · exact (intercalate_splitArguments .outside c.body).symm
  · exact place.2
  · intro a member
    have raw : a.raw ∈ c.arguments := by
      rw [← raws]
      exact List.mem_map_of_mem member
    exact (single_of_mem closed (mem_splitArguments raw)).undivided

/-- The scan for calls is exact but for what a `${` hides: it reports the calls from left to right as
they stand in the text, and each name whose group is endless. -/
theorem occurrences_exact (accept : Text → Bool) (t : Text) :
    Exact accept t (occurrences accept t) := by
  have order := pairwise_occurrencesFrom (byteLength t) 0 (piecesOf accept t)
  constructor
  · exact order.imp fun both => both.1
  · rw [List.pairwise_filter]
    exact order.imp fun both isCall _ => both.2 isCall
  · intro name arguments span member
    obtain ⟨u, c, v, whole, opens, closed, rfl, rfl, rfl⟩ := place_of_call member
    exact faithful_call whole opens.spaces closed
  · intro run span member
    exact place_of_unbalanced member
  · intro u run gap inside opening terminated unhidden
    constructor
    · intro member
      obtain ⟨u', gap', inside', other, endless, same⟩ := place_of_unbalanced member
      rwa [opening.inside_eq other (congrArg Span.start same)]
    · intro endless
      have comes := comes_of_endless unhidden terminated opening.opens endless
      rw [← opening.text] at comes
      exact unbalanced_mem opening comes endless
  · rintro u c v rfl behind accepted unhidden
    exact call_mem_or_argument unhidden behind accepted

example : occurrences (fun _ => true) "f(a, ' )') and g(".toList =
    [.call ['f'] [⟨['a'], ⟨2, 3⟩⟩, ⟨" ' )'".toList, ⟨4, 9⟩⟩] ⟨0, 10⟩,
      .unbalanced ['g'] ⟨15, 17⟩] := by
  decide +kernel

/-- An accepted name with an endless group is overlooked between `${` and a brace, although no token
stands there. -/
theorem opening_overlooked_in_braces :
    Opening (fun _ => true) "$\x7b f( \x7d".toList "$\x7b ".toList ['f'] [] " \x7d".toList ∧
      Terminated "$\x7b ".toList ∧ Endless " \x7d".toList ∧
      occurrences (fun _ => true) "$\x7b f( \x7d".toList = [] := by
  have endless : Endless " \x7d".toList := closeGroup_eq_none_iff.1 (by decide)
  have opens : Opens (fun _ => true) "$\x7b ".toList.getLast? ['f'] [] :=
    ⟨⟨by decide, by decide, by decide⟩, by decide, rfl⟩
  exact ⟨⟨by decide, opens⟩, by decide, endless, by decide +kernel⟩

/-- A call is accepted under the maximal run of name characters that starts it, at the start of a
token. The name it is reported under is that run unless the run ends in white space, which only
characters beyond ASCII can do. -/
theorem accepted_of_call {accept : Text → Bool} {t name : Text} {arguments : List Argument}
    {span : Span} (member : .call name arguments span ∈ occurrences accept t) :
    ∃ u run v, t = u ++ (run ++ v) ∧ byteLength u = span.start ∧ Piece.Named u.getLast? run ∧
      v.head?.any isNameChar = false ∧ accept run = true ∧ name = trimEnd run ∧
      (name = run ↔ ∀ c ∈ run.getLast?, isBlank c = false) := by
  obtain ⟨u, c, v, whole, opens, _, rfl, _, rfl⟩ := place_of_call member
  refine ⟨u, c.run, c.gap ++ '(' :: (c.body ++ ')' :: v), ?_, rfl, opens.named, ?_, opens.accepted,
    rfl, trimEnd_eq_self_iff⟩
  · rw [whole]
    simp [render]
  · exact Piece.head?_gap opens.spaces _

theorem accepted_of_call_within :
    .call ['f'] [⟨['a'], ⟨6, 7⟩⟩] ⟨3, 8⟩ ∈ occurrences (· == ['f']) "g (f (a))".toList ∧
    ∃ u run v, "g (f (a))".toList = u ++ (run ++ v) ∧ byteLength u = 3 ∧
      Piece.Named u.getLast? run ∧ v.head?.any isNameChar = false ∧ (run == ['f']) = true ∧
      ['f'] = trimEnd run ∧ (['f'] = run ↔ ∀ c ∈ run.getLast?, isBlank c = false) := by
  have member : .call ['f'] [⟨['a'], ⟨6, 7⟩⟩] ⟨3, 8⟩ ∈
      occurrences (· == ['f']) "g (f (a))".toList := by
    decide +kernel
  exact ⟨member, accepted_of_call member⟩

/-- With a no-break space behind its name a call is reported under another name than the one it was
accepted under. -/
theorem call_reported_unaccepted :
    occurrences (· == "f\u00a0".toList) "f\u00a0(x)".toList =
        [.call ['f'] [⟨['x'], ⟨4, 5⟩⟩] ⟨0, 6⟩] ∧
      (['f'] == "f\u00a0".toList) = false := by
  constructor <;> decide +kernel

end FormLogic.Call
