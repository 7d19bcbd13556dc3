import FormLogic.Proofs.Extraction

/-!
Descending into calls. A scan that accepts more names hides what stands in the arguments of the calls
that it finds, and looking for the fewer names in those arguments gives back what a scan for them
alone finds: outside the calls both read the same pieces, and a group is read like its arguments, each
from a place where a token may start.
-/
namespace FormLogic

open Text

/-- The same piece of a text that begins `n` bytes further on. -/
def Span.shift (n : Nat) (s : Span) : Span := ⟨n + s.start, n + s.stop⟩

namespace Call

open FormLogic.Field.Reference Bytewise

def Argument.shift (n : Nat) (a : Argument) : Argument := ⟨a.raw, a.span.shift n⟩

namespace Occurrence

def shift (n : Nat) : Occurrence → Occurrence
  | call name arguments span => call name (arguments.map (Argument.shift n)) (span.shift n)
  | unbalanced run span => unbalanced run (span.shift n)

end Occurrence

/-- The balanced calls to accepted names in a text. -/
def callsIn (accept : Text → Bool) (t : Text) : List Occurrence :=
  (occurrences accept t).filter Occurrence.isCall

/-- The calls to accepted names in an argument, where they stand in the text around it. -/
def callsInArgument (accept : Text → Bool) (a : Argument) : List Occurrence :=
  (callsIn accept a.raw).map (Occurrence.shift a.span.start)

/-- What a call holds that has been found: itself if its name is accepted, and else the calls in its
arguments. -/
def descend (accept : Text → Bool) : Occurrence → List Occurrence
  | .call name arguments span =>
    if accept name then [.call name arguments span] else arguments.flatMap (callsInArgument accept)
  | .unbalanced .. => []

/-- The balanced calls among pieces that begin at byte `start`. -/
def callsFrom (start : Nat) (ps : List Piece) : List Occurrence :=
  (occurrencesFrom 0 start ps).filter Occurrence.isCall

section Placing

variable {ps qs : List Piece}

theorem filter_occurrencesFrom (size start : Nat) (ps : List Piece) :
    (occurrencesFrom size start ps).filter Occurrence.isCall = callsFrom start ps := by
  rw [callsFrom]
  induction ps generalizing start with
  | nil => rfl
  | cons p rest ih =>
    rw [occurrencesFrom_cons, occurrencesFrom_cons 0, List.filter_append, List.filter_append, ih]
    cases p <;> rfl

theorem callsFrom_append (start : Nat) (ps qs : List Piece) :
    callsFrom start (ps ++ qs) =
      callsFrom start ps ++ callsFrom (start + byteLength (joined ps)) qs := by
  rw [callsFrom, occurrencesFrom_append, List.filter_append]
  rfl

theorem callsFrom_cons (start : Nat) (p : Piece) (rest : List Piece) :
    callsFrom start (p :: rest) =
      callsFrom start [p] ++ callsFrom (start + byteLength p.render) rest := by
  rw [callsFrom, occurrencesFrom_cons, List.filter_append]
  rfl

theorem callsFrom_call (start : Nat) (c : Call) (rest : List Piece) :
    callsFrom start (.call c :: rest) =
      .call c.name (c.placedArguments start) (c.spanAt start) ::
        callsFrom (start + byteLength c.render) rest :=
  rfl

theorem callsFrom_eq_nil (start : Nat) (plain : ∀ c, .call c ∉ ps) : callsFrom start ps = [] := by
  induction ps generalizing start with
  | nil => rfl
  | cons p rest ih =>
    rw [callsFrom_cons, ih _ fun c member => plain c (List.mem_cons_of_mem p member)]
    cases p with
    | plain text => rfl
    | call c => exact absurd List.mem_cons_self (plain c)
    | unbalanced run gap => rfl

theorem map_shift_placeArguments (n start : Nat) (raws : List Text) :
    (placeArguments start raws).map (Argument.shift n) = placeArguments (n + start) raws := by
  induction raws generalizing start with
  | nil => rfl
  | cons raw rest ih =>
    rw [placeArguments, placeArguments, List.map_cons, ih]
    simp [Argument.shift, Span.shift, Nat.add_assoc]

/-- The calls of a text that stands further on stand further on. -/
theorem callsFrom_shift (n start : Nat) (ps : List Piece) :
    callsFrom (n + start) ps = (callsFrom start ps).map (Occurrence.shift n) := by
  induction ps generalizing start with
  | nil => rfl
  | cons p rest ih =>
    have later := ih (start + byteLength p.render)
    rw [← Nat.add_assoc] at later
    cases p with
    | plain text => exact later
    | unbalanced run gap => exact later
    | call c =>
      have body : c.bodyStart (n + start) = n + c.bodyStart start := by
        simp only [bodyStart]
        omega
      simp only [Piece.render] at later
      rw [callsFrom_call, callsFrom_call, List.map_cons, later]
      simp only [Occurrence.shift, placedArguments, map_shift_placeArguments, body, spanAt,
        Span.shift, Nat.add_assoc]

theorem callsIn_eq (accept : Text → Bool) (t : Text) :
    callsIn accept t = callsFrom 0 (piecesOf accept t) :=
  filter_occurrencesFrom _ 0 _

theorem callsInArgument_eq (accept : Text → Bool) (a : Argument) :
    callsInArgument accept a = callsFrom a.span.start (piecesOf accept a.raw) := by
  rw [callsInArgument, callsIn_eq, ← callsFrom_shift, Nat.add_zero]

end Placing

section Descending

variable {P Q : Text → Bool} {before : Option Char} {t u v : Text}

/-- No call is found in what is passed over. -/
theorem Passes.callsFrom (passes : Passes P before u v) (start : Nat) :
    Call.callsFrom start (pieces P before (u ++ v)) =
      Call.callsFrom (start + byteLength u) (pieces P (u.getLast?.or before) v) := by
  obtain ⟨ps, plain, rfl, same⟩ := passes
  rw [same, callsFrom_append, callsFrom_eq_nil start plain, List.nil_append]

/-- What is read of a group's text is what is read of its arguments. -/
theorem callsFrom_splitArguments (closed : closes .outside t = true) (wellBraced : WellBraced t)
    (starts : startsToken before = true) (start : Nat) :
    callsFrom start (pieces P before t) =
      (placeArguments start (splitArguments .outside t)).flatMap (callsInArgument P) := by
  induction t, closed using argumentInduction generalizing before start with
  | last t closed single =>
    have alone : pieces P before t = piecesOf P t := pieces_congr (Or.inl starts)
    simp [single, placeArguments, callsInArgument_eq, alone]
  | more first rest closed left head single ih =>
    have terminated : Terminated (first ++ [',']) := terminated_append (terminated_of_closes head) rfl
    have front : WellBraced first := wellBraced.of_append_cons (by decide) (by decide)
    have back : WellBraced rest := by
      rw [List.append_cons] at wellBraced
      exact wellBraced.of_append terminated
    have alone : pieces P before first = piecesOf P first := pieces_congr (Or.inl starts)
    have comma : Passes P (first.getLast?.or before) [','] rest := .chars (by decide)
    have behind : startsToken ([','].getLast?.or (first.getLast?.or before)) = true := rfl
    rw [pieces_append head front (.of_stop (Or.inr rfl)), callsFrom_append, joined_pieces,
      ← List.singleton_append, comma.callsFrom, ih back behind, List.singleton_append,
      splitArguments_append head single, placeArguments, List.flatMap_cons, callsInArgument_eq, alone]
    rfl

theorem callsFrom_blank (blank : Blank t) (start : Nat) :
    callsFrom start (pieces P before t) = [] := by
  have passes : Passes P before t [] := .chars fun c member =>
    ⟨(isBlank_plain (blank c member)).2.2, ne_of_class (blank c member) (by decide),
      not_isNameStart_of_isBlank (blank c member)⟩
  have nothing := passes.callsFrom start
  rw [List.append_nil, pieces_nil] at nothing
  exact nothing

/-- What is read of a group's text is what is read of the call's arguments. -/
theorem callsFrom_body {c : Call} (closed : closes .outside c.body = true)
    (wellBraced : WellBraced c.body) (starts : startsToken before = true) (start : Nat) :
    callsFrom (c.bodyStart start) (pieces P before c.body) =
      (c.placedArguments start).flatMap (callsInArgument P) := by
  rw [placedArguments, arguments]
  split
  · next blank => exact callsFrom_blank (List.all_eq_true.1 blank) _
  · exact callsFrom_splitArguments closed wellBraced starts _

/-- A call whose name is not accepted is read through. -/
theorem callsFrom_through {c : Call} {rest : Text} (named : Piece.Named before c.run)
    (spaces : ∀ d ∈ c.gap, isSpace d = true) (closed : closes .outside c.body = true)
    (wellBraced : WellBraced c.body) (refused : P c.run = false) (start : Nat) :
    callsFrom start (pieces P before (c.render ++ rest)) =
      (c.placedArguments start).flatMap (callsInArgument P) ++
        callsFrom (start + byteLength c.render) (pieces P (some ')') rest) := by
  have opening : Passes P before (c.run ++ (c.gap ++ ['('])) (c.body ++ ')' :: rest) :=
    .opening named spaces refused
  have closing : Passes P (c.body.getLast?.or (some '(')) [')'] rest := .chars (by decide)
  have whole : c.render ++ rest = (c.run ++ (c.gap ++ ['('])) ++ (c.body ++ ')' :: rest) := by
    simp [render]
  have last : (c.run ++ (c.gap ++ ['('])).getLast?.or before = some '(' := by
    rw [← List.append_assoc, List.getLast?_concat, Option.some_or]
  have inside : start + byteLength (c.run ++ (c.gap ++ ['('])) = c.bodyStart start := by
    rw [bodyStart, byteLength_append, byteLength_snoc _ (by decide)]
    omega
  have behind : c.bodyStart start + byteLength c.body + byteLength [')'] =
      start + byteLength c.render := by
    have parts : c.render = (c.run ++ (c.gap ++ ['('])) ++ (c.body ++ [')']) := by simp [render]
    rw [parts, byteLength_append, byteLength_append c.body, ← inside]
    omega
  rw [whole, opening.callsFrom, last, inside, pieces_append closed wellBraced (.of_stop (Or.inl rfl)),
    callsFrom_append, joined_pieces, callsFrom_body closed wellBraced rfl, ← List.singleton_append,
    closing.callsFrom, behind]
  rfl

/-- What is read in one way but as a call with the more names is passed over with the fewer. -/
theorem passes_of_step (sub : ∀ name, P name = true → Q name = true) {p : Piece} {rest : Text}
    (step : Piece.Step Q before t p rest) (other : ∀ c, p ≠ .call c) :
    Passes P before p.render rest := by
  cases step with
  | literal proper => exact .plain (List.cons_ne_nil _ _) (.literal proper)
  | unclosed quote fresh =>
    refine .plain (List.cons_ne_nil _ _) ?_
    rw [List.append_nil]
    exact .unclosed quote fresh
  | token fresh valid => exact .plain (List.cons_ne_nil _ _) (.token fresh valid)
  | @word run rest named stop other =>
    have refused : Q run = false → P run = false := fun refused => by
      rw [← Bool.not_eq_true] at refused ⊢
      exact fun accepted => refused (sub run accepted)
    exact .name named.head named.all (other.imp_right refused) stop
  | call named spaces accepted closed => exact absurd rfl (other _)
  | @unbalanced run gap inside named spaces accepted endless =>
    cases accepted' : P run with
    | true =>
      have same : Piece.Step P before (run ++ gap ++ ['('] ++ rest) (.unbalanced run gap) rest := by
        rw [List.append_assoc]
        exact .unbalanced named spaces accepted' endless
      refine ⟨[.unbalanced run gap], by simp, by simp [joined], ?_⟩
      rw [same.getLast?_or]
      exact pieces_step same
    | false =>
      have through := @Passes.opening P before rest run gap named spaces accepted'
      rwa [← List.append_assoc] at through
  | char plain noBrace within => exact .plain (List.cons_ne_nil _ _) (.char plain noBrace within)

/-- A name is trimmed only of white space beyond ASCII. -/
theorem name_eq_run {c : Call} (names : ∀ d ∈ c.run, isNameChar d = true)
    (ascii : ∀ d ∈ c.run, isBlank d = true → isAscii d = true) : c.name = c.run := by
  refine trimEnd_eq_self_iff.2 fun d last => ?_
  have member := List.mem_of_getLast? last
  rw [Bool.eq_false_iff]
  intro blank
  rw [not_isBlank_of_isNameChar (names d member) (ascii d member blank)] at blank
  cases blank

/-- From each place on, the calls to fewer names are those that are found on the way down from the
calls to more names. -/
theorem callsFrom_descend (sub : ∀ name, P name = true → Q name = true) (before : Option Char)
    (t : Text) (wellBraced : WellBraced t) (ascii : ∀ c ∈ t, isBlank c = true → isAscii c = true)
    (start : Nat) :
    callsFrom start (pieces P before t) =
      (callsFrom start (pieces Q before t)).flatMap (descend P) := by
  induction before, t, wellBraced using @Piece.stepInduction Q generalizing start with
  | nil before _ =>
    rw [pieces_nil, pieces_nil]
    rfl
  | step before t p rest wellBraced left step ih =>
    have whole := step.render_append
    have last := step.getLast?_or before
    have inside : ∀ c ∈ rest, isBlank c = true → isAscii c = true := fun c member =>
      ascii c (by rw [← whole]; exact List.mem_append_right _ member)
    have later := ih inside (start + byteLength p.render)
    rw [pieces_step step, callsFrom_cons, List.flatMap_append, ← later, ← whole]
    cases p with
    | plain text =>
      rw [(passes_of_step sub step (by simp)).callsFrom, last]
      rfl
    | unbalanced run gap =>
      rw [(passes_of_step sub step (by simp)).callsFrom, last]
      rfl
    | call c =>
      cases step with
      | call named spaces accepted closed =>
        have visible : c.name = c.run :=
          name_eq_run named.all fun d member => ascii d (by simp [render, member])
        have found : (callsFrom start [.call c]).flatMap (descend P) =
            descend P (.call c.name (c.placedArguments start) (c.spanAt start)) :=
          List.flatMap_singleton ..
        rw [found, descend, visible]
        have body := (closed_body named.all spaces closed wellBraced).braces
        cases accepted' : P c.run with
        | true =>
          have same : Piece.Step P before (c.render ++ rest) (.call c) rest :=
            .call named spaces accepted' closed
          rw [Piece.render, pieces_step same, callsFrom_call, visible]
          rfl
        | false =>
          have final : c.render.getLast? = some ')' := List.getLast?_concat
          rw [Piece.render, callsFrom_through named spaces closed body accepted', final,
            if_neg Bool.false_ne_true]

end Descending

/-- Looking for fewer names in the calls that a scan for more names finds, and in their arguments
where the name of the call is not one of the fewer, finds what a scan for the fewer finds. -/
theorem callsIn_descend {P Q : Text → Bool} (sub : ∀ name, P name = true → Q name = true) {t : Text}
    (wellBraced : WellBraced t) (ascii : ∀ c ∈ t, isBlank c = true → isAscii c = true) :
    callsIn P t = (callsIn Q t).flatMap (descend P) := by
  rw [callsIn_eq, callsIn_eq]
  exact callsFrom_descend sub none t wellBraced ascii 0

theorem callsIn_descend_nested :
    callsIn (fun _ => true) "g(f($\x7bx\x7d, 'f('), 1 + f (b))".toList =
        [.call ['g'] [⟨"f($\x7bx\x7d, 'f(')".toList, ⟨2, 15⟩⟩, ⟨" 1 + f (b)".toList, ⟨16, 26⟩⟩]
          ⟨0, 27⟩] ∧
      callsIn (· == ['f']) "g(f($\x7bx\x7d, 'f('), 1 + f (b))".toList =
        (callsIn (fun _ => true) "g(f($\x7bx\x7d, 'f('), 1 + f (b))".toList).flatMap
          (descend (· == ['f'])) ∧
      (callsIn (· == ['f']) "g(f($\x7bx\x7d, 'f('), 1 + f (b))".toList).map Occurrence.span =
        [⟨2, 15⟩, ⟨21, 26⟩] := by
  refine ⟨by decide +kernel, callsIn_descend (fun _ _ => rfl) ?_ (by decide), by decide +kernel⟩
  decide

end Call

end FormLogic
