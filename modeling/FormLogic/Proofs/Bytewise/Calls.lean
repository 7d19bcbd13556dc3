import FormLogic.Call.Occurrence
import FormLogic.Proofs.Bytewise.Groups
import FormLogic.Proofs.Bytewise.References
import FormLogic.Proofs.Pieces

/-!
Scanning for calls by offsets. A turn passes over a literal, a braced name, a call or a single byte.
Where it starts at a place between characters, the piece that it passes over is the one that is read
there character by character, so it comes to such a place again.
-/
namespace FormLogic.Bytewise

open Text Call

def scanTurn (accept : Text → Bool) (t : Text) (i : Nat) (found : List Occurrence) :
    Option (Flow (List Occurrence)) := do
  let b ← (bytes t)[i]?
  if isQuote b then
    match ← literalEnd? t i with
    | none => return .stop found
    | some stop => return .go stop found
  else if b = '$' ∧ (bytes t)[i + 1]? = some '{' then
    match cutAt? '}' (← sliceFrom? i t) with
    | none => return .go (i + 2) found
    | some (front, _) => return .go (i + byteLength front + 1) found
  else if isNameStart b && (← startsTokenAt? t i) then
    let stop := runEnd isNameChar t i
    let run ← (⟨i, stop⟩ : Span).slice? t
    let opening := runEnd isSpace t stop
    if (bytes t)[opening]? = some '(' ∧ accept run then
      match ← matchCall? t i opening with
      | none => return .go (opening + 1) (found ++ [.unbalanced run ⟨i, byteLength t⟩])
      | some (name, arguments, span) => return .go span.stop (found ++ [.call name arguments span])
    else return .go stop found
  else return .go (i + 1) found

/-- The calls to accepted names in a text, from left to right. -/
def scanCalls? (accept : Text → Bool) (t : Text) : Option (List Occurrence) :=
  loop (byteLength t) (scanTurn accept t) 0 []

section Turns

variable {accept : Text → Bool} {t u rest : Text} {found : List Occurrence}

theorem scanTurn_quote {q : Char} (quote : isQuote q = true) (whole : t = u ++ q :: rest) :
    scanTurn accept t (byteLength u) found =
      some (match cutAt? q rest with
        | none => .stop found
        | some (content, _) => .go (byteLength (u ++ (q :: content ++ [q]))) found) := by
  have byteHere := byteAt?_append u rest (isAscii_of_isQuote quote)
  rw [← whole] at byteHere
  have closing := literalEnd?_append u rest quote
  rw [← whole] at closing
  simp only [scanTurn, byteHere, quote, closing, Option.bind_eq_bind, Option.bind_some, if_true]
  cases cutAt? q rest with
  | none => rfl
  | some parts => simp

theorem scanTurn_brace {inner : Text} (whole : t = u ++ '$' :: '{' :: inner) :
    scanTurn accept t (byteLength u) found =
      some (.go (match cutAt? '}' inner with
        | none => byteLength (u ++ ['$', '{'])
        | some (name, _) => byteLength (u ++ (['$', '{'] ++ name ++ ['}']))) found) := by
  obtain ⟨dollar, next, behind⟩ := braceAt whole
  have plain : isQuote '$' = false := rfl
  simp only [scanTurn, dollar, plain, next, behind, cutAt?_brace, Option.bind_eq_bind, Option.bind_some,
    and_self, Bool.false_eq_true, if_false, if_true]
  cases cutAt? '}' inner with
  | none => rw [byteLength_append]; rfl
  | some parts =>
    obtain ⟨name, after⟩ := parts
    have stop : byteLength u + byteLength ('$' :: '{' :: name) + 1 =
        byteLength (u ++ (['$', '{'] ++ name ++ ['}'])) := by
      rw [← List.append_assoc, byteLength_snoc _ rfl, byteLength_append]
      rfl
    exact congrArg (fun n => some (Flow.go n found)) stop

/-- The parenthesis that may follow a name is found behind the white space. -/
theorem opensAt (whole : t = u ++ rest) :
    (bytes t)[runEnd isSpace t (byteLength u)]? = some '(' ↔ (Piece.openedGroup? rest).isSome := by
  have gapEnd := runEnd_append u rest coarse_isSpace
  have split : rest = rest.takeWhile isSpace ++ rest.dropWhile isSpace :=
    List.takeWhile_append_dropWhile.symm
  have first := getElem?_bytes_append (u ++ rest.takeWhile isSpace) (rest.dropWhile isSpace) 0
  rw [Nat.add_zero, List.append_assoc, ← split, ← whole, ← List.head?_eq_getElem?] at first
  rw [← whole] at gapEnd
  rw [gapEnd, first, @head?_bytes_eq_iff '(' rfl]
  rw [Piece.openedGroup?]
  split
  · next inside same => simp [same]
  · next other =>
    cases same : rest.dropWhile isSpace with
    | nil => simp
    | cons d inside => simp; rintro rfl; exact other inside same

theorem scanTurn_name {c : Char} (whole : t = u ++ c :: rest)
    (start : isNameStart c = true) (starts : startsToken u.getLast? = true) :
    scanTurn accept t (byteLength u) found =
      some (.go (byteLength (u ++ (Piece.ofName accept (c :: rest)).1.render))
        (found ++ occurrencesFrom (byteLength t) (byteLength u)
          [(Piece.ofName accept (c :: rest)).1])) := by
  have byteHere : (bytes t)[byteLength u]? = some c := by
    rw [whole, byteAt?_append _ _ (isAscii_of_isNameStart start)]
  have plain := not_isQuote start rfl rfl
  have noBrace : c ≠ '$' := ne_of_class start rfl
  have token : startsTokenAt? t (byteLength u) = some true := by
    rw [whole, startsTokenAt?_append, starts]
  simp only [scanTurn, byteHere, plain, noBrace, start, token, Option.bind_eq_bind, Option.bind_some,
    false_and, Bool.and_self, Bool.false_eq_true, if_false, if_true]
  generalize c :: rest = v at whole ⊢
  have stop : runEnd isNameChar t (byteLength u) = byteLength (u ++ v.takeWhile isNameChar) := by
    rw [whole, runEnd_append _ _ coarse_isNameChar]
  have split : v = v.takeWhile isNameChar ++ v.dropWhile isNameChar :=
    List.takeWhile_append_dropWhile.symm
  rw [Piece.ofName, stop]
  generalize v.takeWhile isNameChar = run at split ⊢
  generalize v.dropWhile isNameChar = after at split ⊢
  subst split
  rw [← List.append_assoc] at whole
  have sliced : (⟨byteLength u, byteLength (u ++ run)⟩ : Span).slice? t = some run := by
    rw [whole, slice?_append]
  have gapEnd : runEnd isSpace t (byteLength (u ++ run)) =
      byteLength (u ++ run ++ after.takeWhile isSpace) := by
    rw [whole, runEnd_append _ _ coarse_isSpace]
  simp only [sliced, Option.bind_some, opensAt whole]
  cases opened : Piece.openedGroup? after with
  | none =>
    simp [Piece.render, occurrencesFrom]
  | some parts =>
    obtain ⟨gap, inside⟩ := parts
    obtain ⟨same, spaces⟩ := Piece.openedGroup?_eq_some_iff.1 opened
    have opening : runEnd isSpace t (byteLength (u ++ run)) = byteLength (u ++ (run ++ gap)) := by
      rw [gapEnd, same, takeWhile_run spaces rfl, List.append_assoc]
    cases accepted : accept run with
    | false => simp [Piece.render, occurrencesFrom]
    | true =>
      have place : t = u ++ (run ++ (gap ++ '(' :: inside)) := by
        rw [whole, same, List.append_assoc]
      have matched := matchCall?_append spaces place
      simp only [opening, matched, Option.isSome_some, and_self, if_true, Option.bind_some]
      cases closed : closeGroup .outside inside with
      | none =>
        have behind := byteLength_snoc (c := '(') (u ++ (run ++ gap)) rfl
        rw [List.append_assoc u] at behind
        simp only [Option.map_none, Piece.render, behind]
        rfl
      | some parts =>
        have behind := byteLength_append u (render ⟨run, gap, parts.1⟩)
        simp only [Option.map_some, Piece.render, behind]
        rfl

/-- No piece but a name, a literal or a braced name takes up more than one character. -/
theorem passesOver_scanTurn (accept : Text → Bool) (t : Text) : PassesOver t (scanTurn accept t) := by
  intro i found b byteHere outside
  have other : b ≠ '$' := by
    rintro rfl
    cases outside
  have start : isNameStart b = false := by
    rw [← Bool.not_eq_true]
    exact fun start => by rw [isAscii_of_isNameStart start] at outside; cases outside
  obtain ⟨inside, -⟩ := List.getElem?_eq_some_iff.1 byteHere
  obtain ⟨before, last⟩ := byteBefore?_of_lt inside
  simp only [scanTurn, byteHere, isQuote_of_not_isAscii outside, other, start, startsTokenAt?, last,
    Option.bind_eq_bind, Option.bind_some, Option.map_some, false_and, Bool.false_and,
    Bool.false_eq_true, if_false]
  rfl

theorem scanTurn_char {c : Char} (whole : t = u ++ c :: rest) (plain : isQuote c = false)
    (closed : Piece.openedBrace? (c :: rest) = none)
    (within : ¬(isNameStart c && startsToken u.getLast?) = true) (ascii : isAscii c = true) :
    scanTurn accept t (byteLength u) found = some (.go (byteLength u + 1) found) := by
  have byteHere : (bytes t)[byteLength u]? = some c := by rw [whole, byteAt?_append _ _ ascii]
  have next : (bytes t)[byteLength u + 1]? = (bytes rest).head? := by
    rw [whole, byteAfter?_append _ _ ascii]
  have noBrace : ¬(c = '$' ∧ (bytes rest).head? = some '{') := by
    rw [@head?_bytes_eq_iff '{' rfl]
    rintro ⟨rfl, opened⟩
    obtain ⟨inner, rfl⟩ := List.head?_eq_some_iff.1 opened
    cases closed
  have token : startsTokenAt? t (byteLength u) = some (startsToken u.getLast?) := by
    rw [whole, startsTokenAt?_append]
  simp only [scanTurn, byteHere, next, plain, noBrace, token, within, Option.bind_eq_bind,
    Option.bind_some, Bool.false_eq_true, if_false]
  rfl

/-- A turn passes over the piece that begins where it starts, and finds the call that the piece is. -/
theorem scan_piece {c : Char} (whole : t = u ++ c :: rest) :
    loop (byteLength t) (scanTurn accept t) (byteLength u) found =
      loop (byteLength t) (scanTurn accept t)
        (byteLength (u ++ (Piece.next accept u.getLast? c rest).1.render))
        (found ++ occurrencesFrom (byteLength t) (byteLength u)
          [(Piece.next accept u.getLast? c rest).1]) := by
  have inside : byteLength u < byteLength t := by
    rw [whole]
    exact byteLength_lt_append _ (List.cons_ne_nil c rest)
  cases quote : isQuote c with
  | true =>
    have turn := @scanTurn_quote accept t u rest found c quote whole
    rw [Piece.next, if_pos quote]
    cases cut : cutAt? c rest with
    | none =>
      -- Both loops end: the one on the left stops, the one on the right is at the end of the text.
      rw [cut] at turn
      simp only [Piece.render, occurrencesFrom, List.append_nil]
      rw [loop_stop inside turn, loop_end (by rw [whole])]
    | some parts =>
      rw [cut] at turn
      simp only [Piece.render, occurrencesFrom, List.append_nil]
      exact loop_go inside turn (byteLength_lt_append _ (by simp))
  | false =>
    cases opened : Piece.openedBrace? (c :: rest) with
    | some inner =>
      obtain ⟨rfl, rfl⟩ := List.cons.inj (Piece.eq_of_openedBrace? opened)
      have turn := @scanTurn_brace accept t u found inner whole
      cases cut : cutAt? '}' inner with
      | none =>
        rw [cut] at turn
        simp only [Piece.next, quote, opened, cut, Bool.false_eq_true, if_false, Piece.render,
          occurrencesFrom, List.append_nil]
        exact loop_go inside turn (byteLength_lt_append _ (by simp))
      | some parts =>
        rw [cut] at turn
        simp only [Piece.next, quote, opened, cut, Bool.false_eq_true, if_false, Piece.render,
          occurrencesFrom, List.append_nil]
        exact loop_go inside turn (byteLength_lt_append _ (by simp))
    | none =>
      by_cases start : (isNameStart c && startsToken u.getLast?) = true
      · have named : Piece.next accept u.getLast? c rest = Piece.ofName accept (c :: rest) := by
          rw [Piece.next, if_neg (by simp [quote]), opened]
          exact if_pos start
        have present := Piece.render_next_ne_nil accept u.getLast? c rest
        rw [named] at present ⊢
        rw [Bool.and_eq_true] at start
        exact loop_go inside (scanTurn_name whole start.1 start.2) (byteLength_lt_append _ present)
      · have alone := @scanTurn_char accept t u rest found c whole quote opened start
        simp only [Piece.next, quote, opened, start, Bool.false_eq_true, if_false, Piece.render,
          occurrencesFrom, List.append_nil]
        exact (passesOver_scanTurn accept t).char whole alone

end Turns

theorem occurrencesFrom_cons (size start : Nat) (piece : Piece) (rest : List Piece) :
    occurrencesFrom size start (piece :: rest) = occurrencesFrom size start [piece] ++
      occurrencesFrom size (start + byteLength piece.render) rest := by
  cases piece <;> rfl

/-- From a place between characters on, the calls of the rest of the text are found. -/
theorem scanFrom {accept : Text → Bool} {t u v : Text} {before : Option Char} (whole : t = u ++ v)
    (last : before = u.getLast?) (found : List Occurrence) :
    loop (byteLength t) (scanTurn accept t) (byteLength u) found =
      some (found ++ occurrencesFrom (byteLength t) (byteLength u) (pieces accept before v)) := by
  rw [pieces]
  fun_induction Scanner.items (Piece.scanner accept) before v generalizing u found with
  | case1 before =>
    rw [loop_end (by rw [whole, List.append_nil])]
    simp [occurrencesFrom]
  | @case2 before c rest item ih =>
    have present : item.1.render ≠ [] := Piece.render_next_ne_nil accept before c rest
    have parts : item.1.render ++ item.2 = c :: rest := Piece.render_next accept before c rest
    have step := @scan_piece accept t u rest found c whole
    rw [← last] at step
    have place : t = u ++ item.1.render ++ item.2 := by rw [whole, List.append_assoc, parts]
    have later := ih place (getLast?_append_of_ne_nil present).symm
      (found ++ occurrencesFrom (byteLength t) (byteLength u) [item.1])
    rw [occurrencesFrom_cons, ← List.append_assoc, ← byteLength_append]
    exact step.trans later

theorem scanCalls?_eq (accept : Text → Bool) (t : Text) :
    scanCalls? accept t = some (occurrences accept t) :=
  @scanFrom accept t [] t none rfl rfl []

/-! ### Where the calls are -/

/-- The places of a call and of its arguments lie in the text, between characters. -/
def InPlace (t : Text) : Occurrence → Prop
  | .call _ arguments span =>
    (span.slice? t).isSome ∧ ∀ a ∈ arguments, a.span.slice? t = some a.raw
  | .unbalanced _ span => (span.slice? t).isSome

/-- Arguments are where they are placed. -/
theorem slice?_placeArguments {t u w : Text} {raws : List Text}
    (whole : t = u ++ [','].intercalate raws ++ w) :
    ∀ a ∈ placeArguments (byteLength u) raws, a.span.slice? t = some a.raw := by
  induction raws generalizing u with
  | nil => exact fun a member => absurd member List.not_mem_nil
  | cons raw more ih =>
    rw [placeArguments, List.forall_mem_cons, ← byteLength_append]
    cases more with
    | nil =>
      rw [List.intercalate_singleton] at whole
      exact ⟨by rw [whole, slice?_append], fun a member => absurd member List.not_mem_nil⟩
    | cons next more =>
      rw [List.intercalate_cons_cons] at whole
      have front : t = u ++ raw ++ ([','] ++ [','].intercalate (next :: more) ++ w) := by
        simp [whole]
      have later := @ih (u ++ raw ++ [',']) (by simp [whole])
      rw [byteLength_snoc _ rfl] at later
      exact ⟨by rw [front, slice?_append], later⟩

theorem inPlace_call {t u w : Text} {c : Call} (whole : t = u ++ c.render ++ w) :
    InPlace t (.call c.name (c.placedArguments (byteLength u)) (c.spanAt (byteLength u))) := by
  refine ⟨?_, ?_⟩
  · rw [spanAt, ← byteLength_append, whole, slice?_append]
    rfl
  · have body : t = u ++ c.run ++ c.gap ++ ['('] ++ [','].intercalate (splitArguments .outside c.body) ++
        (')' :: w) := by
      rw [whole, intercalate_splitArguments, render]
      simp
    have start : byteLength (u ++ c.run ++ c.gap ++ ['(']) = c.bodyStart (byteLength u) := by
      rw [byteLength_snoc _ rfl, bodyStart, byteLength_append, byteLength_append]
    have inside := slice?_placeArguments body
    rw [start] at inside
    rw [placedArguments, arguments]
    split
    · exact fun a member => absurd member List.not_mem_nil
    · exact inside

theorem inPlace_occurrencesFrom {t u : Text} {ps : List Piece} (whole : t = u ++ joined ps) :
    ∀ o ∈ occurrencesFrom (byteLength t) (byteLength u) ps, InPlace t o := by
  induction ps generalizing u with
  | nil => exact fun o member => absurd member List.not_mem_nil
  | cons piece rest ih =>
    have split : t = u ++ piece.render ++ joined rest := by
      rw [whole, joined, List.flatMap_cons, ← List.append_assoc]
      rfl
    have later := ih split
    rw [byteLength_append] at later
    cases piece with
    | plain text => exact later
    | call c => exact List.forall_mem_cons.2 ⟨inPlace_call split, later⟩
    | unbalanced run gap =>
      have uncut := slice?_append u (joined (.unbalanced run gap :: rest)) []
      rw [List.append_nil, ← whole] at uncut
      exact List.forall_mem_cons.2 ⟨by rw [InPlace, uncut]; rfl, later⟩

theorem inPlace_of_mem_occurrences {accept : Text → Bool} {t : Text} :
    ∀ o ∈ occurrences accept t, InPlace t o :=
  @inPlace_occurrencesFrom t [] (piecesOf accept t) (joined_pieces accept none t).symm

end FormLogic.Bytewise
