import FormLogic.Call.Occurrence
import FormLogic.Proofs.Bytewise.Loop
import FormLogic.Proofs.Grouping
import FormLogic.Proofs.Trimming

/-!
The group of a call by its offsets. The bytes are gone through from the opening parenthesis on, with
a count of the groups that are open. The count is one more than the depth within the group, so it is
not zero where a parenthesis closes; an argument lies between two of the places where a parenthesis or
a comma is found.
-/
namespace FormLogic.Bytewise

open Text Call

/-- The state of matching a group: how many groups are open, the quote of the literal that is open,
where the current argument begins, and the arguments before it. -/
structure Matching where
  depth : Nat
  quote : Option Char
  start : Nat
  done : List Argument

/-- The arguments with the last one, which does not count when it is blank and the only one. -/
def Matching.close (m : Matching) (last : Text) (stop : Nat) : List Argument :=
  if m.done ≠ [] ∨ trim last ≠ [] then m.done ++ [⟨last, ⟨m.start, stop⟩⟩] else m.done

/-- Goes through the bytes from offset `k` on, up to the parenthesis that closes the group. Gives the
arguments and the offset behind the parenthesis. Closing more groups than are open has no value. -/
def matchGroup? (t : Text) : Nat → Matching → Text → Option (Option (List Argument × Nat))
  | _, _, [] => some none
  | k, m, b :: rest =>
    match m.quote with
    | some quote => matchGroup? t (k + 1) { m with quote := if b = quote then none else m.quote } rest
    | none =>
      if isQuote b then matchGroup? t (k + 1) { m with quote := some b } rest
      else if b = '(' then matchGroup? t (k + 1) { m with depth := m.depth + 1 } rest
      else if b = ')' then
        match m.depth with
        | 0 => none
        | 1 => do
          let last ← (⟨m.start, k⟩ : Span).slice? t
          return some (m.close last k, k + 1)
        | depth + 2 => matchGroup? t (k + 1) { m with depth := depth + 1 } rest
      else if b = ',' ∧ m.depth = 1 then do
        let raw ← (⟨m.start, k⟩ : Span).slice? t
        matchGroup? t (k + 1)
          { m with start := k + 1, done := m.done ++ [⟨raw, ⟨m.start, k⟩⟩] } rest
      else matchGroup? t (k + 1) m rest

/-- A matched call: its name, its arguments and its place. -/
abbrev Matched := Text × List Argument × Span

/-- Matches the call whose name starts at `start` and whose parenthesis opens at `opening`. -/
def matchCall? (t : Text) (start opening : Nat) : Option (Option Matched) := do
  let name ← (⟨start, opening⟩ : Span).slice? t
  let group ← matchGroup? t opening ⟨0, none, opening + 1, []⟩ ((bytes t).drop opening)
  return group.map fun (arguments, stop) => (trimEnd name, arguments, ⟨start, stop⟩)

/-! ### Arguments -/

/-- Places the pieces of a group behind the arguments that are done. -/
def settle (done : List Argument) (start : Nat) : List Text → List Argument
  | [] => done
  | [last] => Matching.close ⟨1, none, start, done⟩ last (start + byteLength last)
  | raw :: more =>
    settle (done ++ [⟨raw, ⟨start, start + byteLength raw⟩⟩]) (start + byteLength raw + 1) more

theorem settle_cons {more : List Text} (nonempty : more ≠ []) (done : List Argument) (start : Nat)
    (raw : Text) :
    settle done start (raw :: more) =
      settle (done ++ [⟨raw, ⟨start, start + byteLength raw⟩⟩]) (start + byteLength raw + 1)
        more := by
  obtain ⟨next, later, rfl⟩ := List.exists_cons_of_ne_nil nonempty
  rfl

theorem settle_of_ne_nil {done : List Argument} (nonempty : done ≠ []) (start : Nat) (raws : List Text) :
    settle done start raws = done ++ placeArguments start raws := by
  induction raws generalizing done start with
  | nil => simp [settle, placeArguments]
  | cons raw more ih =>
    cases more with
    | nil => simp [settle, placeArguments, Matching.close, nonempty]
    | cons next more =>
      rw [settle, ih (by simp)]
      · simp [placeArguments]
      · simp

theorem splitArguments_blank {body : Text} (blank : Blank body) :
    splitArguments .outside body = [body] := by
  induction body with
  | nil => rfl
  | cons c rest ih =>
    have space := blank c (.head _)
    have plain : isQuote c = false := not_isQuote space rfl rfl
    rw [splitArguments, if_neg fun both => ne_of_class space rfl both.1,
      Place.next_outside (ne_of_class space rfl) plain, ih fun d member => blank d (.tail _ member)]
    rfl

/-- A group without commas directly inside it is its only piece. -/
theorem eq_of_splitArguments {p : Place} {body raw : Text} (single : splitArguments p body = [raw]) :
    raw = body := by
  induction body generalizing p raw with
  | nil =>
    rw [splitArguments] at single
    exact (List.cons.inj single).1.symm
  | cons c rest ih =>
    rw [splitArguments] at single
    split at single
    · exact absurd (List.cons.inj single).2 (splitArguments_ne_nil _ _)
    · cases parts : splitArguments (p.next c) rest with
      | nil => exact absurd parts (splitArguments_ne_nil _ _)
      | cons first more =>
        rw [parts, List.modifyHead_cons] at single
        obtain ⟨rfl, rfl⟩ := List.cons.inj single
        rw [ih parts]

/-- The arguments of a group are its pieces, but a blank group has none. -/
theorem settle_splitArguments (start : Nat) (body : Text) :
    settle [] start (splitArguments .outside body) =
      placeArguments start (if body.all isBlank then [] else splitArguments .outside body) := by
  have blank_iff : body.all isBlank = true ↔ trim body = [] := by
    rw [trim_eq_nil_iff, List.all_eq_true]
    rfl
  by_cases blank : trim body = []
  · rw [if_pos (blank_iff.2 blank), splitArguments_blank ((trim_eq_nil_iff body).1 blank)]
    simp [settle, Matching.close, blank, placeArguments]
  · rw [if_neg (mt blank_iff.1 blank)]
    cases parts : splitArguments .outside body with
    | nil => exact absurd parts (splitArguments_ne_nil _ _)
    | cons first more =>
      cases more with
      | nil =>
        rw [eq_of_splitArguments parts]
        simp [settle, Matching.close, blank, placeArguments]
      | cons second more =>
        rw [settle, settle_of_ne_nil (by simp)]
        · simp [placeArguments]
        · simp

/-! ### Matching -/

section Matching

variable {t : Text} {k : Nat} {m : Matching}

/-- Bytes outside ASCII belong to the current argument. -/
theorem matchGroup?_outside {outer : Text} (outside : ∀ b ∈ outer, isAscii b = false)
    (quote : ∀ q ∈ m.quote, isQuote q = true) (rest : Text) :
    matchGroup? t k m (outer ++ rest) = matchGroup? t (k + outer.length) m rest := by
  induction outer generalizing k with
  | nil => rfl
  | cons b outer ih =>
    have high := outside b (.head _)
    have other (d : Char) (ascii : isAscii d = true) : b ≠ d := by
      rintro rfl
      rw [high] at ascii
      cases ascii
    have later := @ih (k + 1) fun d member => outside d (.tail _ member)
    have length : k + 1 + outer.length = k + (b :: outer).length := by
      rw [List.length_cons]
      omega
    rw [length] at later
    rw [← later, List.cons_append, matchGroup?]
    obtain ⟨depth, within, start, done⟩ := m
    cases within with
    | some q => simp only [other q (isAscii_of_isQuote (quote q rfl)), if_false]
    | none =>
      simp only [isQuote_of_not_isAscii high, other '(' rfl, other ')' rfl, other ',' rfl,
        false_and, Bool.false_eq_true, if_false]

/-- A character that neither closes the group nor ends an argument is passed over; the place behind
it is where the next one stands. -/
theorem matchGroup?_joins {p : Place} {c : Char} {start : Nat} {done : List Argument}
    (quote : ∀ q ∈ p.quote, isQuote q = true) (goesOn : ¬(c = ')' ∧ p = .outside))
    (inside : ¬(c = ',' ∧ p = .outside)) (rest : Text) :
    matchGroup? t k ⟨p.depth + 1, p.quote, start, done⟩ (bytes (c :: rest)) =
      matchGroup? t (k + c.utf8Size) ⟨(p.next c).depth + 1, (p.next c).quote, start, done⟩
        (bytes rest) := by
  obtain ⟨depth, within⟩ := p
  cases ascii : isAscii c with
  | false =>
    have stays : Place.next ⟨depth, within⟩ c = ⟨depth, within⟩ := by
      have other (d : Char) (asciiD : isAscii d = true) : c ≠ d := by
        rintro rfl
        rw [ascii] at asciiD
        cases asciiD
      cases within with
      | none => exact Place.next_none (other _ rfl) (other _ rfl) (isQuote_of_not_isAscii ascii) depth
      | some q => exact Place.next_content (other q (isAscii_of_isQuote (quote q rfl))) depth
    have outer : ∀ b ∈ encode c, isAscii b = false := fun b => not_isAscii_of_mem_encode ascii
    rw [bytes_cons, matchGroup?_outside outer quote, length_encode, stays]
  | true =>
    rw [bytes_cons_of_isAscii ascii, utf8Size_of_isAscii ascii, matchGroup?]
    cases within with
    | some q =>
      by_cases same : c = q
      · subst same
        simp only [Place.next_same, if_true]
      · simp only [Place.next_content same, same, if_false]
    | none =>
      cases isQ : isQuote c with
      | true => simp only [Place.next_quote isQ, if_true]
      | false =>
        simp only [Bool.false_eq_true, if_false]
        by_cases opening : c = '('
        · subst opening
          simp [Place.next, isQuote]
        · by_cases closing : c = ')'
          · subst closing
            cases depth with
            | zero => exact absurd ⟨rfl, rfl⟩ goesOn
            | succ depth => simp [Place.next, isQuote]
          · have between : ¬(c = ',' ∧ depth + 1 = 1) := fun both => inside ⟨both.1, by
              rw [Nat.succ.inj both.2]; rfl⟩
            rw [if_neg opening, if_neg closing, if_neg between,
              Place.next_none opening closing isQ]

/-- A comma directly inside the group ends the argument before it. -/
theorem matchGroup?_comma {u raw rest : Text} (whole : t = u ++ raw ++ ',' :: rest)
    (done : List Argument) :
    matchGroup? t (byteLength (u ++ raw)) ⟨1, none, byteLength u, done⟩ (bytes (',' :: rest)) =
      matchGroup? t (byteLength (u ++ raw ++ [',']))
        ⟨1, none, byteLength (u ++ raw ++ [',']),
          done ++ [⟨raw, ⟨byteLength u, byteLength u + byteLength raw⟩⟩]⟩ (bytes rest) := by
  have cut := slice?_append u raw (',' :: rest)
  rw [← whole, byteLength_append] at cut
  rw [bytes_cons_of_isAscii rfl, matchGroup?, byteLength_snoc _ rfl, byteLength_append]
  simp [isQuote, cut]

/-- The parenthesis that closes the group ends the last argument. -/
theorem matchGroup?_close {u raw rest : Text} (whole : t = u ++ raw ++ ')' :: rest)
    (done : List Argument) :
    matchGroup? t (byteLength (u ++ raw)) ⟨1, none, byteLength u, done⟩ (bytes (')' :: rest)) =
      some (some (settle done (byteLength u) [raw], byteLength (u ++ raw) + 1)) := by
  have last := slice?_append u raw (')' :: rest)
  rw [← whole, byteLength_append] at last
  rw [bytes_cons_of_isAscii rfl, matchGroup?, byteLength_append]
  simp [isQuote, last, settle, Matching.close]

end Matching

/-- From a place within the group on, with `raw` the part of the current argument that lies before
it, the group is closed where its parentheses balance. -/
theorem matchGroup?_append {t u raw v : Text} {p : Place} (whole : t = u ++ raw ++ v)
    (quote : ∀ q ∈ p.quote, isQuote q = true) (done : List Argument) :
    matchGroup? t (byteLength (u ++ raw)) ⟨p.depth + 1, p.quote, byteLength u, done⟩ (bytes v) =
      some ((closeGroup p v).map fun (body, _) =>
        (settle done (byteLength u) ((splitArguments p body).modifyHead (raw ++ ·)),
          byteLength (u ++ raw ++ body) + 1)) := by
  induction v generalizing u raw p done with
  | nil => rfl
  | cons c rest ih =>
    rw [closeGroup]
    split
    · next stop =>
      obtain ⟨rfl, rfl⟩ := stop
      have same := matchGroup?_close whole done
      simp only [Option.map_some, splitArguments, List.modifyHead_cons, List.append_nil]
      exact same
    · next goesOn =>
      by_cases comma : c = ',' ∧ p = .outside
      · obtain ⟨rfl, rfl⟩ := comma
        have place : t = u ++ raw ++ [','] ++ [] ++ rest := by simp [whole]
        have later := ih (p := .outside) place (by simp [Place.outside])
          (done ++ [⟨raw, ⟨byteLength u, byteLength u + byteLength raw⟩⟩])
        rw [List.append_nil] at later
        rw [Place.next_outside (by decide) rfl, Option.map_map]
        refine (matchGroup?_comma whole done).trans (later.trans ?_)
        refine congrArg (fun f => some (Option.map f _)) (funext fun parts => ?_)
        obtain ⟨body, after⟩ := parts
        have nonempty := splitArguments_ne_nil .outside body
        have front : byteLength (u ++ raw ++ [',']) = byteLength u + byteLength raw + 1 := by
          rw [byteLength_snoc _ rfl, byteLength_append]
        simp only [Function.comp_apply]
        rw [splitArguments, if_pos ⟨rfl, rfl⟩, List.modifyHead_cons, List.append_nil,
          settle_cons nonempty, front]
        simp only [List.nil_append, List.append_assoc, List.cons_append]
        exact congrArg (fun pieces => (settle _ _ pieces, _)) (congrFun List.modifyHead_id _)
      · have place : t = u ++ (raw ++ [c]) ++ rest := by simp [whole]
        have later := ih (p := p.next c) place (Place.isQuote_next quote c) done
        have size : byteLength (u ++ (raw ++ [c])) = byteLength (u ++ raw) + c.utf8Size := by
          simp only [byteLength_append, byteLength]
          omega
        rw [size] at later
        rw [matchGroup?_joins quote goesOn comma, later, Option.map_map]
        refine congrArg (fun f => some (Option.map f _)) (funext fun parts => ?_)
        obtain ⟨body, after⟩ := parts
        simp only [Function.comp_apply]
        rw [splitArguments, if_neg comma, List.modifyHead_modifyHead]
        simp [Function.comp_def]

theorem isBlank_of_isSpace {c : Char} (space : isSpace c = true) : isBlank c = true := by
  simp only [isSpace, Bool.or_eq_true, beq_iff_eq, or_assoc] at space
  rcases space with rfl | rfl | rfl | rfl | rfl <;> rfl

theorem trimEnd_append_spaces {gap : Text} (spaces : ∀ c ∈ gap, isSpace c = true) (run : Text) :
    trimEnd (run ++ gap) = trimEnd run := by
  have reversed : Blank gap.reverse :=
    fun c member => isBlank_of_isSpace (spaces c (List.mem_reverse.1 member))
  rw [trimEnd_eq, trimEnd_eq, List.reverse_append, trimStart_blank_append reversed]

/-- A call is matched where its group closes; what is matched is the call with its places. -/
theorem matchCall?_append {t u run gap inside : Text} (spaces : ∀ c ∈ gap, isSpace c = true)
    (whole : t = u ++ (run ++ (gap ++ '(' :: inside))) :
    matchCall? t (byteLength u) (byteLength (u ++ (run ++ gap))) =
      some ((closeGroup .outside inside).map fun (body, _) =>
        let call : Call := ⟨run, gap, body⟩
        (call.name, call.placedArguments (byteLength u), call.spanAt (byteLength u))) := by
  have name := slice?_append u (run ++ gap) ('(' :: inside)
  have front : t = u ++ (run ++ gap) ++ '(' :: inside := by simp [whole]
  rw [← front] at name
  have entry : t = u ++ (run ++ gap) ++ ['('] ++ [] ++ inside := by simp [front]
  have group := @matchGroup?_append t _ [] inside .outside entry (by simp [Place.outside]) []
  have behind : byteLength (u ++ (run ++ gap) ++ ['(']) = byteLength (u ++ (run ++ gap)) + 1 :=
    byteLength_snoc _ rfl
  rw [List.append_nil, behind] at group
  have opened : (bytes t).drop (byteLength (u ++ (run ++ gap))) = '(' :: bytes inside := by
    rw [front, drop_bytes_append, bytes_cons_of_isAscii rfl]
  have entered : matchGroup? t (byteLength (u ++ (run ++ gap)))
      ⟨0, none, byteLength (u ++ (run ++ gap)) + 1, []⟩ ('(' :: bytes inside) = _ := group
  rw [matchCall?, name, opened, Option.bind_eq_bind, Option.bind_some, entered, Option.bind_eq_bind,
    Option.bind_some, Option.map_map, trimEnd_append_spaces spaces]
  refine congrArg (fun f => some (Option.map f _)) (funext fun parts => ?_)
  obtain ⟨body, after⟩ := parts
  have pieces : (splitArguments .outside body).modifyHead ([] ++ ·) = splitArguments .outside body :=
    congrFun List.modifyHead_id _
  have start : byteLength (u ++ (run ++ gap)) + 1 =
      bodyStart ⟨run, gap, body⟩ (byteLength u) := by
    rw [bodyStart]
    simp only [byteLength_append]
    omega
  have stop : byteLength (u ++ (run ++ gap) ++ ['('] ++ body) + 1 =
      byteLength u + byteLength (render ⟨run, gap, body⟩) := by
    have written : render ⟨run, gap, body⟩ = run ++ gap ++ ['('] ++ body ++ [')'] := by
      simp [render]
    rw [written, byteLength_snoc _ rfl]
    simp only [byteLength_append]
    omega
  simp only [Function.comp_apply, pieces, settle_splitArguments, start, stop]
  rfl

end FormLogic.Bytewise
