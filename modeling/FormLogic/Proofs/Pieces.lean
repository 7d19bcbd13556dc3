import FormLogic.Proofs.Closed
import FormLogic.Proofs.Seam

/-!
How a well-braced text is cut into pieces. Each way in which a piece is read is one case of `Step`,
which the scanner takes and takes alone. A text that closes what it opens is cut into pieces without
a look behind its seam, so replacing its calls is replacing those of the first part of a text.
-/
namespace FormLogic.Call

open Text FormLogic.Field FormLogic.Field.Reference

namespace Piece

/-- The text is a name, and a token may start where it stands. -/
structure Named (before : Option Char) (run : Text) : Prop where
  head : run.head?.any isNameStart = true
  all : ∀ c ∈ run, isNameChar c = true
  starts : startsToken before = true

/-- How the first piece of a well-braced text is read. -/
inductive Step (accept : Text → Bool) (before : Option Char) : Text → Piece → Text → Prop where
  | literal {l : Literal} {rest : Text} (proper : l.Proper) :
    Step accept before (l.render ++ rest) (.plain l.render) rest
  | unclosed {q : Char} {rest : Text} (quote : isQuote q = true) (fresh : q ∉ rest) :
    Step accept before (q :: rest) (.plain (q :: rest)) []
  | token {name rest : Text} (fresh : '}' ∉ name) (valid : (bracedName? name).isSome = true) :
    Step accept before (['$', '{'] ++ name ++ ['}'] ++ rest) (.plain (['$', '{'] ++ name ++ ['}']))
      rest
  | word {run rest : Text} (named : Named before run) (stop : rest.head?.any isNameChar = false)
    (other : openedGroup? rest = none ∨ accept run = false) :
    Step accept before (run ++ rest) (.plain run) rest
  | call {c : Call} {rest : Text} (named : Named before c.run)
    (spaces : ∀ d ∈ c.gap, isSpace d = true) (accepted : accept c.run = true)
    (closed : closes .outside c.body = true) :
    Step accept before (c.render ++ rest) (.call c) rest
  | unbalanced {run gap inside : Text} (named : Named before run)
    (spaces : ∀ d ∈ gap, isSpace d = true) (accepted : accept run = true)
    (endless : closeGroup .outside inside = none) :
    Step accept before (run ++ gap ++ '(' :: inside) (.unbalanced run gap) inside
  | char {c : Char} {rest : Text} (plain : isQuote c = false)
    (noBrace : c = '$' → rest.head? ≠ some '{')
    (within : (isNameStart c && startsToken before) = false) :
    Step accept before (c :: rest) (.plain [c]) rest

variable {accept : Text → Bool} {before : Option Char} {after : Text}

theorem head?_gap {gap : Text} (spaces : ∀ d ∈ gap, isSpace d = true) (inside : Text) :
    (gap ++ '(' :: inside).head?.any isNameChar = false := by
  cases gap with
  | nil => rfl
  | cons d more => exact not_isNameChar_of_isSpace (spaces d (by simp))

theorem ofName_word {run rest : Text} (all : ∀ c ∈ run, isNameChar c = true)
    (stop : rest.head?.any isNameChar = false)
    (other : openedGroup? rest = none ∨ accept run = false) :
    ofName accept (run ++ rest) = (.plain run, rest) := by
  rw [ofName, takeWhile_run all stop, dropWhile_run all stop]
  cases opened : openedGroup? rest with
  | none => rfl
  | some parts =>
    rcases other with noGroup | refused
    · rw [noGroup] at opened
      cases opened
    · simp [refused]

theorem ofName_call {c : Call} {rest : Text} (all : ∀ d ∈ c.run, isNameChar d = true)
    (spaces : ∀ d ∈ c.gap, isSpace d = true) (accepted : accept c.run = true)
    (closed : closeGroup .outside rest = some (c.body, after)) :
    ofName accept (c.run ++ (c.gap ++ '(' :: rest)) = (.call c, after) := by
  have opened : openedGroup? (c.gap ++ '(' :: rest) = some (c.gap, rest) :=
    openedGroup?_eq_some_iff.2 ⟨rfl, spaces⟩
  have stop := head?_gap spaces rest
  simp only [ofName, takeWhile_run all stop, dropWhile_run all stop, opened, accepted, ↓reduceIte,
    closed]

theorem ofName_unbalanced {run gap inside : Text} (all : ∀ d ∈ run, isNameChar d = true)
    (spaces : ∀ d ∈ gap, isSpace d = true) (accepted : accept run = true)
    (endless : closeGroup .outside inside = none) :
    ofName accept (run ++ (gap ++ '(' :: inside)) = (.unbalanced run gap, inside) := by
  have opened : openedGroup? (gap ++ '(' :: inside) = some (gap, inside) :=
    openedGroup?_eq_some_iff.2 ⟨rfl, spaces⟩
  have stop := head?_gap spaces inside
  simp only [ofName, takeWhile_run all stop, dropWhile_run all stop, opened, accepted, ↓reduceIte,
    endless]

theorem openedBrace?_eq_none {c : Char} {rest : Text} (noBrace : c = '$' → rest.head? ≠ some '{') :
    openedBrace? (c :: rest) = none := by
  cases found : openedBrace? (c :: rest) with
  | none => rfl
  | some inner =>
    obtain ⟨dollar, brace⟩ := List.cons.inj (eq_of_openedBrace? found)
    rw [brace] at noBrace
    exact absurd rfl (noBrace dollar)

/-- A name is read as a name. -/
theorem Named.next {run : Text} (named : Named before run) (rest : Text) :
    ∃ c more, run ++ rest = c :: more ∧ next accept before c more = ofName accept (run ++ rest) := by
  obtain ⟨head, all, starts⟩ := named
  cases run with
  | nil => cases head
  | cons c more =>
    have start : isNameStart c = true := head
    have noBrace : c = '$' → (more ++ rest).head? ≠ some '{' :=
      fun same => absurd same (ne_of_class start (by decide))
    refine ⟨c, more ++ rest, rfl, ?_⟩
    rw [Piece.next, not_isQuote start (by decide) (by decide), openedBrace?_eq_none noBrace, start,
      starts]
    rfl

theorem Named.head_append {run : Text} (named : Named before run) (rest : Text) :
    (run ++ rest).head?.any isNameStart = true := by
  have start := named.head
  cases run with
  | nil => cases start
  | cons c more => exact start

/-- A name cannot stand within a name. -/
theorem Named.notName {run u : Text} (named : Named (u.getLast?.or before) run)
    (nonempty : u ≠ []) : ¬∀ c ∈ u, isNameChar c = true := by
  intro names
  obtain ⟨c, last, name⟩ := (Option.any_eq_true _ _).1 (any_getLast? nonempty names)
  have starts := named.starts
  rw [last, Option.some_or, startsToken, Option.any_some, extendsToken, name] at starts
  cases starts

/-- What stands in braces is read whole. -/
theorem next_braced {name : Text} (fresh : '}' ∉ name) :
    next accept before '$' ('{' :: (name ++ '}' :: after)) =
      (.plain (['$', '{'] ++ name ++ ['}']), after) := by
  simp only [next, openedBrace?, cutAt?_append_cons fresh]
  rfl

/-- The scanner reads a piece in the way the step says. -/
theorem next_of_step {t rest : Text} {p : Piece} (step : Step accept before t p rest) :
    ∃ c more, t = c :: more ∧ next accept before c more = (p, rest) := by
  cases step with
  | @literal l rest proper =>
    refine ⟨l.quote, l.content ++ l.quote :: rest, Literal.cons_quote_append l rest, ?_⟩
    rw [next, if_pos proper.quote_isQuote, Literal.cutAt?_quote proper]
    rfl
  | @unclosed q rest quote fresh =>
    refine ⟨q, rest, rfl, ?_⟩
    rw [next, if_pos quote, cutAt?_eq_none_iff.2 fresh]
  | @token name rest fresh valid =>
    exact ⟨'$', '{' :: (name ++ '}' :: rest), by simp, next_braced fresh⟩
  | @word run rest named stop other =>
    obtain ⟨c, more, whole, same⟩ := named.next rest
    refine ⟨c, more, whole, ?_⟩
    rw [same, ofName_word named.all stop other]
  | @call c rest named spaces accepted closed =>
    obtain ⟨first, more, whole, same⟩ := named.next (c.gap ++ '(' :: (c.body ++ ')' :: rest))
    refine ⟨first, more, by rw [← whole]; simp [Call.render], ?_⟩
    rw [same, ofName_call named.all spaces accepted (closeGroup_append closed rest)]
  | @unbalanced run gap _ named spaces accepted endless =>
    obtain ⟨first, more, whole, same⟩ := named.next (gap ++ '(' :: rest)
    refine ⟨first, more, by rw [← whole]; simp, ?_⟩
    rw [same, ofName_unbalanced named.all spaces accepted endless]
  | @char c rest plain noBrace within =>
    refine ⟨c, rest, rfl, ?_⟩
    rw [next, plain, openedBrace?_eq_none noBrace, within]
    rfl

theorem named_takeWhile {c : Char} {rest : Text}
    (start : (isNameStart c && startsToken before) = true) :
    Named before ((c :: rest).takeWhile isNameChar) := by
  rw [Bool.and_eq_true] at start
  refine ⟨?_, fun d member => of_mem_takeWhile member, start.2⟩
  rw [List.takeWhile_cons, if_pos (isNameChar_of_isNameStart start.1)]
  exact start.1

/-- Where no `${` opens, a piece is read in one of the ways of `Step`. -/
theorem step_next_of_unopened (c : Char) (rest : Text)
    (unopened : isQuote c = true ∨ openedBrace? (c :: rest) = none) :
    Step accept before (c :: rest) (next accept before c rest).1 (next accept before c rest).2 := by
  unfold next
  split
  · next quote =>
    split
    · next content after cut =>
      obtain ⟨whole, fresh⟩ := cutAt?_eq_some_iff.1 cut
      have step : Step accept before (Literal.render ⟨c, content⟩ ++ after) _ after :=
        .literal ⟨quote, fresh⟩
      rwa [Literal.cons_quote_append, ← whole] at step
    · next uncut => exact .unclosed quote (cutAt?_eq_none_iff.1 uncut)
  · next plain =>
    have unopened := unopened.resolve_left plain
    rw [Bool.not_eq_true] at plain
    rw [unopened]
    dsimp only
    split
    · next start =>
      have named := @named_takeWhile before c rest start
      have whole : (c :: rest).takeWhile isNameChar ++ (c :: rest).dropWhile isNameChar =
        c :: rest := List.takeWhile_append_dropWhile
      have stop : ((c :: rest).dropWhile isNameChar).head?.any isNameChar = false :=
        head?_dropWhile
      generalize (c :: rest).takeWhile isNameChar = run at *
      generalize (c :: rest).dropWhile isNameChar = after at *
      rw [← whole]
      cases opened : openedGroup? after with
      | none =>
        rw [ofName_word named.all stop (Or.inl opened)]
        exact .word named stop (Or.inl opened)
      | some parts =>
        obtain ⟨gap, inside⟩ := parts
        obtain ⟨rfl, spaces⟩ := openedGroup?_eq_some_iff.1 opened
        cases accepted : accept run with
        | false =>
          rw [ofName_word named.all stop (Or.inr accepted)]
          exact .word named stop (Or.inr accepted)
        | true =>
          cases closed : closeGroup .outside inside with
          | none =>
            rw [ofName_unbalanced named.all spaces accepted closed, ← List.append_assoc]
            exact .unbalanced named spaces accepted closed
          | some parts =>
            obtain ⟨body, later⟩ := parts
            rw [@ofName_call accept later ⟨run, gap, body⟩ inside named.all spaces accepted
              closed, eq_of_closeGroup closed]
            have step : Step accept before (Call.render ⟨run, gap, body⟩ ++ later) _ later :=
              .call named spaces accepted (closes_of_closeGroup closed)
            simpa [Call.render] using step
    · next start =>
      rw [Bool.not_eq_true] at start
      refine .char plain ?_ start
      rintro rfl brace
      cases rest with
      | nil => cases brace
      | cons d inner =>
        rw [List.head?_cons, Option.some.injEq] at brace
        rw [brace] at unopened
        cases unopened

/-- Each piece of a well-braced text is read in one of the ways of `Step`. -/
theorem step_next (c : Char) (rest : Text) (wellBraced : WellBraced (c :: rest)) :
    Step accept before (c :: rest) (next accept before c rest).1 (next accept before c rest).2 := by
  cases opened : openedBrace? (c :: rest) with
  | none => exact step_next_of_unopened c rest (Or.inr opened)
  | some inner =>
    obtain ⟨rfl, rfl⟩ := List.cons.inj (eq_of_openedBrace? opened)
    obtain ⟨name, after, rfl, fresh, valid⟩ := wellBraced.opened
    have step : Step accept before _ _ after := .token fresh valid
    rw [next_braced fresh]
    simpa using step

/-- How the first piece of any text is read: as in a well-braced text, or as whatever stands between
`${` and the next brace, or as a `${` that no brace follows. -/
inductive Reading (accept : Text → Bool) (before : Option Char) : Text → Piece → Text → Prop where
  | step {t rest : Text} {p : Piece} (step : Step accept before t p rest) :
    Reading accept before t p rest
  | braced {inner rest : Text} (fresh : '}' ∉ inner) :
    Reading accept before (['$', '{'] ++ inner ++ ['}'] ++ rest)
      (.plain (['$', '{'] ++ inner ++ ['}'])) rest
  | opened {inner : Text} (fresh : '}' ∉ inner) :
    Reading accept before ('$' :: '{' :: inner) (.plain ['$', '{']) inner

theorem reading_next (c : Char) (rest : Text) :
    Reading accept before (c :: rest) (next accept before c rest).1
      (next accept before c rest).2 := by
  cases found : openedBrace? (c :: rest) with
  | none => exact .step (step_next_of_unopened c rest (Or.inr found))
  | some inner =>
    obtain ⟨rfl, rfl⟩ := List.cons.inj (eq_of_openedBrace? found)
    cases cut : cutAt? '}' inner with
    | none =>
      have read : next accept before '$' ('{' :: inner) = (.plain ['$', '{'], inner) := by
        simp only [next, openedBrace?, cut]
        rfl
      rw [read]
      exact .opened (cutAt?_eq_none_iff.1 cut)
    | some parts =>
      obtain ⟨name, after⟩ := parts
      obtain ⟨rfl, fresh⟩ := cutAt?_eq_some_iff.1 cut
      have reading : Reading accept before _ _ after := .braced fresh
      rw [next_braced fresh]
      simpa using reading

/-- The piece and the text behind it are the text. -/
theorem Step.render_append {t rest : Text} {p : Piece} (step : Step accept before t p rest) :
    p.render ++ rest = t := by
  obtain ⟨c, more, rfl, same⟩ := next_of_step step
  have whole := render_next accept before c more
  rwa [same] at whole

theorem isNameChar_plain {c : Char} (name : isNameChar c = true) :
    c ≠ '(' ∧ c ≠ ')' ∧ isQuote c = false :=
  ⟨ne_of_class name (by decide), ne_of_class name (by decide),
    not_isQuote name (by decide) (by decide)⟩

theorem isSpace_plain {c : Char} (space : isSpace c = true) :
    c ≠ '(' ∧ c ≠ ')' ∧ isQuote c = false :=
  ⟨ne_of_class space (by decide), ne_of_class space (by decide),
    not_isQuote space (by decide) (by decide)⟩

/-- The beginning of a call opens a group. -/
theorem closes_opening_append {run gap : Text} (names : ∀ d ∈ run, isNameChar d = true)
    (spaces : ∀ d ∈ gap, isSpace d = true) (depth : Nat) (inside : Text) :
    closes ⟨depth, none⟩ (run ++ gap ++ '(' :: inside) = closes ⟨depth + 1, none⟩ inside := by
  rw [List.append_assoc, closes_append_of_plain fun d member => isNameChar_plain (names d member),
    closes_append_of_plain fun d member => isSpace_plain (spaces d member), closes_opening]

theorem closes_call_append {c : Call} (names : ∀ d ∈ c.run, isNameChar d = true)
    (spaces : ∀ d ∈ c.gap, isSpace d = true) (closed : closes .outside c.body = true) (depth : Nat)
    (rest : Text) : closes ⟨depth, none⟩ (c.render ++ rest) = closes ⟨depth, none⟩ rest := by
  have whole : c.render ++ rest = c.run ++ c.gap ++ '(' :: (c.body ++ ')' :: rest) := by
    simp [Call.render]
  rw [whole, closes_opening_append names spaces, closes_outside_append closed, closes_closing]

/-- What is left of a text that closes what it opens does so too, from some depth on. -/
theorem Step.closes {t rest : Text} {p : Piece} (step : Step accept before t p rest) {depth : Nat}
    (closed : closes ⟨depth, none⟩ t = true) : ∃ depth, Call.closes ⟨depth, none⟩ rest = true := by
  cases step with
  | literal proper => exact ⟨depth, by rwa [closes_render_append proper] at closed⟩
  | unclosed quote fresh => exact ⟨0, rfl⟩
  | token fresh valid => exact ⟨depth, by rwa [closes_braced_append valid] at closed⟩
  | word named stop other =>
    refine ⟨depth, ?_⟩
    rwa [closes_append_of_plain fun d member => isNameChar_plain (named.all d member)] at closed
  | call named spaces accepted body =>
    exact ⟨depth, by rwa [closes_call_append named.all spaces body] at closed⟩
  | unbalanced named spaces accepted endless =>
    exact ⟨depth + 1, by rwa [closes_opening_append named.all spaces] at closed⟩
  | @char c rest plain noBrace within => exact closes_of_cons plain closed

/-- A piece closes its literals, or it is the last one. -/
theorem Step.terminated {t rest : Text} {p : Piece} (step : Step accept before t p rest) :
    Terminated p.render ∨ rest = [] := by
  cases step with
  | literal proper => exact Or.inl (Literal.terminated_render proper)
  | unclosed quote fresh => exact Or.inr rfl
  | token fresh valid =>
    exact Or.inl (terminated_of_noQuote fun c member => (braced_plain valid c member).2.2)
  | word named stop other =>
    exact Or.inl (terminated_of_noQuote fun c member => (isNameChar_plain (named.all c member)).2.2)
  | call named spaces accepted closed =>
    have whole := closes_call_append named.all spaces closed 0 []
    rw [List.append_nil] at whole
    exact Or.inl (terminated_of_closes (whole.trans rfl))
  | unbalanced named spaces accepted endless =>
    exact Or.inl (terminated_of_noQuote (noQuote_opening named.all spaces))
  | char plain noBrace within => exact Or.inl ((terminated_cons plain []).2 rfl)

theorem Step.wellBraced {t rest : Text} {p : Piece} (step : Step accept before t p rest)
    (wellBraced : WellBraced t) : WellBraced rest := by
  rcases step.terminated with terminated | rfl
  · rw [← step.render_append] at wellBraced
    exact wellBraced.of_append terminated
  · exact bracesHold_nil none

/-- Induction along the pieces of a well-braced text. -/
theorem stepInduction {motive : (before : Option Char) → (t : Text) → WellBraced t → Prop}
    (nil : ∀ before (wellBraced : WellBraced []), motive before [] wellBraced)
    (step : ∀ before t p rest (wellBraced : WellBraced t) (left : WellBraced rest),
      Step accept before t p rest → motive p.render.getLast? rest left → motive before t wellBraced)
    (before : Option Char) (t : Text) (wellBraced : WellBraced t) : motive before t wellBraced := by
  induction before, t using Scanner.items.induct (scanner accept) with
  | case1 before => exact nil before wellBraced
  | case2 before c rest item ih =>
    have first := @step_next accept before c rest wellBraced
    have left := first.wellBraced wellBraced
    exact step before _ _ _ wellBraced left first (ih left)

/-- A piece of a text that closes what it opens is read alike where a seam follows the text. -/
theorem Step.append {t rest tail : Text} {p : Piece} (step : Step accept before t p rest)
    {depth : Nat} (closed : Call.closes ⟨depth, none⟩ t = true) (seam : Seam t tail) :
    Step accept before (t ++ tail) p (rest ++ tail) := by
  cases step with
  | literal proper =>
    rw [List.append_assoc]
    exact .literal proper
  | unclosed quote fresh =>
    have stuck := terminated_of_closes closed
    rw [Terminated, quoteAfter, quote, if_pos rfl, quoteAfter_some_of_notMem fresh] at stuck
    cases stuck
  | token fresh valid =>
    rw [List.append_assoc]
    exact .token fresh valid
  | @word run rest named stop other =>
    rw [List.append_assoc]
    have nonempty : run ≠ [] := by
      rintro rfl
      cases named.head
    have isName : rest = [] → (run ++ rest).getLast?.any isNameChar = true := by
      rintro rfl
      rw [List.append_nil]
      exact any_getLast? nonempty named.all
    refine .word named ?_ (other.imp_left fun noGroup => openedGroup?_append_of_none noGroup ?_)
    · cases rest with
      | nil =>
        refine any_head?_mono isPathChar_of_isNameChar (seam.path ?_)
        have last := isName rfl
        rw [Option.any_eq_true] at last ⊢
        obtain ⟨c, same, name⟩ := last
        exact ⟨c, same, isPathChar_of_isNameChar c name⟩
      | cons c more => exact stop
    · intro spaces
      apply seam.group
      cases rest with
      | nil =>
        have last := isName rfl
        rw [Option.any_eq_true] at last ⊢
        obtain ⟨c, same, name⟩ := last
        exact ⟨c, same, by rw [name, Bool.true_or]⟩
      | cons c more =>
        rw [getLast?_append_cons, List.getLast?_eq_some_getLast (List.cons_ne_nil c more)] at *
        have space : isSpace ((c :: more).getLast (List.cons_ne_nil c more)) = true := spaces
        rw [Option.any_some, space, Bool.or_true]
  | call named spaces accepted body =>
    rw [List.append_assoc]
    exact .call named spaces accepted body
  | @unbalanced run gap inside named spaces accepted endless =>
    rw [closes_opening_append named.all spaces] at closed
    obtain ⟨body, after, found, _⟩ := @closeGroup_of_closes .outside depth rest closed
    rw [endless] at found
    cases found
  | @char c rest plain noBrace within =>
    refine .char plain ?_ within
    rintro rfl
    cases rest with
    | nil => exact seam.brace rfl
    | cons d more => exact noBrace rfl

/-- The piece as it stands once calls are replaced. -/
def rewritten (f : Call → Text) : Piece → Text
  | call c => f c
  | p => p.render

end Piece

variable {accept : Text → Bool} {before : Option Char} {t : Text}

theorem pieces_nil (before : Option Char) : pieces accept before [] = [] :=
  (Piece.scanner accept).items_nil before

theorem pieces_step {t rest : Text} {p : Piece} (step : Piece.Step accept before t p rest) :
    pieces accept before t = p :: pieces accept p.render.getLast? rest := by
  obtain ⟨c, more, rfl, same⟩ := Piece.next_of_step step
  rw [pieces, Scanner.items_cons]
  simp only [Piece.scanner, same]
  rfl

/-- Every call that is cut out has an accepted name and closes what it opens. -/
theorem mem_pieces {c : Call} {t : Text} (member : .call c ∈ pieces accept before t) :
    accept c.run = true ∧ closes .outside c.body = true ∧
      (∀ d ∈ c.run, isNameChar d = true) ∧ ∀ d ∈ c.gap, isSpace d = true := by
  obtain ⟨before, first, rest, same⟩ := (Piece.scanner accept).mem_items member
  have reading := @Piece.reading_next accept before first rest
  rw [show (Piece.next accept before first rest).1 = .call c from same.symm] at reading
  generalize first :: rest = text at reading
  cases reading with
  | step step =>
    cases step with
    | call named spaces accepted closed => exact ⟨accepted, closed, named.all, spaces⟩

/-- Pieces of a text that closes what it opens are found without a look behind its seam. -/
theorem pieces_append {t tail : Text} {depth : Nat} (closed : closes ⟨depth, none⟩ t = true)
    (wellBraced : WellBraced t) (seam : Seam t tail) (before : Option Char) :
    pieces accept before (t ++ tail) =
      pieces accept before t ++ pieces accept (t.getLast?.or before) tail := by
  refine @Scanner.items_append _ (Piece.scanner accept)
    (fun _ t => (∃ depth, closes ⟨depth, none⟩ t = true) ∧ WellBraced t ∧ Seam t tail) tail ?_
    before t ⟨⟨depth, closed⟩, wellBraced, seam⟩
  rintro before c rest ⟨⟨depth, closed⟩, wellBraced, seam⟩
  have step := @Piece.step_next accept before c rest wellBraced
  obtain ⟨d, more, whole, same⟩ := Piece.next_of_step (step.append closed seam)
  obtain ⟨rfl, rfl⟩ := List.cons.inj whole
  refine ⟨same, step.closes closed, step.wellBraced wellBraced, ?_⟩
  rw [← step.render_append] at seam
  exact seam.of_append

/-- The text with its calls replaced. -/
def rewrite (accept : Text → Bool) (f : Call → Text) (before : Option Char) (t : Text) : Text :=
  (pieces accept before t).flatMap (Piece.rewritten f)

theorem rewrite_nil (f : Call → Text) : rewrite accept f before [] = [] := by
  rw [rewrite, pieces_nil]
  rfl

theorem rewrite_step (f : Call → Text) {t rest : Text} {p : Piece}
    (step : Piece.Step accept before t p rest) :
    rewrite accept f before t =
      p.rewritten f ++ rewrite accept f p.render.getLast? rest := by
  rw [rewrite, pieces_step step, List.flatMap_cons]
  rfl

theorem rewrite_append (f : Call → Text) {t tail : Text} {depth : Nat}
    (closed : closes ⟨depth, none⟩ t = true) (wellBraced : WellBraced t) (seam : Seam t tail) :
    rewrite accept f before (t ++ tail) =
      rewrite accept f before t ++ rewrite accept f (t.getLast?.or before) tail := by
  rw [rewrite, pieces_append closed wellBraced seam, List.flatMap_append]
  rfl

/-- Only what is written for the calls in a text matters. -/
theorem rewrite_congr {f g : Call → Text} {t : Text}
    (same : ∀ c, .call c ∈ pieces accept before t → f c = g c) :
    rewrite accept f before t = rewrite accept g before t := by
  rw [rewrite, rewrite]
  generalize pieces accept before t = ps at same
  induction ps with
  | nil => rfl
  | cons p rest ih =>
    rw [List.flatMap_cons, List.flatMap_cons,
      ih fun c member => same c (List.mem_cons_of_mem p member)]
    cases p with
    | plain text => rfl
    | call c => exact congrArg (· ++ _) (same c List.mem_cons_self)
    | unbalanced run gap => rfl

/-- A text ends as it did where what is written for its calls ends in a parenthesis. -/
theorem getLast?_rewrite {f : Call → Text}
    (last : ∀ c, .call c ∈ pieces accept before t → (f c).getLast? = some ')') :
    (rewrite accept f before t).getLast? = t.getLast? := by
  have whole := joined_pieces accept before t
  conv => rhs; rw [← whole]
  rw [rewrite, joined]
  generalize pieces accept before t = ps at last
  induction ps with
  | nil => rfl
  | cons p rest ih =>
    have later := ih fun c member => last c (List.mem_cons_of_mem p member)
    rw [List.flatMap_cons, List.flatMap_cons, List.getLast?_append, List.getLast?_append, later]
    cases p with
    | plain text => rfl
    | call c =>
      have final : (Piece.call c).render.getLast? = some ')' := List.getLast?_concat
      rw [final, Piece.rewritten, last c List.mem_cons_self]
    | unbalanced run gap => rfl

/-- A text begins as it did, unless its first call does not. -/
theorem head?_rewrite {f : Call → Text}
    (head : ∀ c, .call c ∈ pieces accept before t →
      c.run ≠ [] ∧ ((f c).head? = c.run.head? ∨ (f c).head? = some '(')) :
    (rewrite accept f before t).head? = t.head? ∨ (rewrite accept f before t).head? = some '(' := by
  cases t with
  | nil => rw [rewrite_nil]; exact Or.inl rfl
  | cons c rest =>
    have whole := Piece.render_next accept before c rest
    have nonempty := Piece.render_next_ne_nil accept before c rest
    rw [pieces, Scanner.items_cons] at head
    rw [rewrite, pieces, Scanner.items_cons, List.flatMap_cons]
    simp only [Piece.scanner] at head ⊢
    generalize Piece.next accept before c rest = parts at whole nonempty head
    have same : parts.1.render.head? = some c := by
      have first := congrArg List.head? whole
      rwa [head?_append_left nonempty] at first
    cases piece : parts.1 with
    | plain text =>
      rw [piece] at same
      simp only [Piece.rewritten, List.head?_append, same]
      exact Or.inl rfl
    | call call =>
      obtain ⟨named, first⟩ := head call (by rw [piece]; exact List.mem_cons_self)
      rw [piece, Piece.render, Call.render, List.append_assoc, List.append_assoc,
        head?_append_left named] at same
      simp only [Piece.rewritten, List.head?_append]
      rcases first with first | first
      · rw [first, same]
        exact Or.inl rfl
      · rw [first]
        exact Or.inr rfl
    | unbalanced run gap =>
      rw [piece] at same
      simp only [Piece.rewritten, List.head?_append, same]
      exact Or.inl rfl

theorem keep_plain {R : Text → Text → Prop}
    (char : ∀ c s w, isQuote c = false → (c = '$' → s.head? ≠ some '{') → R s w →
      R (c :: s) (c :: w)) {u s w : Text} (plain : ∀ c ∈ u, c ≠ '$' ∧ isQuote c = false)
    (rest : R s w) : R (u ++ s) (u ++ w) := by
  induction u with
  | nil => exact rest
  | cons c more ih =>
    obtain ⟨noDollar, noQuote⟩ := plain c (by simp)
    exact char c _ _ noQuote (fun same => absurd same noDollar)
      (ih fun d member => plain d (List.mem_cons_of_mem c member))

/-- What holds between a well-braced text and the text with its calls replaced, if it holds piece by
piece. -/
theorem rewrite_induction {R : Text → Text → Prop} {f : Call → Text} (nil : R [] [])
    (literal : ∀ (l : Literal) s w, l.Proper → R s w → R (l.render ++ s) (l.render ++ w))
    (unclosed : ∀ q rest, isQuote q = true → q ∉ rest → R (q :: rest) (q :: rest))
    (token : ∀ name s w, (bracedName? name).isSome = true → '}' ∉ name → R s w →
      R (['$', '{'] ++ name ++ ['}'] ++ s) (['$', '{'] ++ name ++ ['}'] ++ w))
    (char : ∀ c s w, isQuote c = false → (c = '$' → s.head? ≠ some '{') → R s w →
      R (c :: s) (c :: w))
    (call : ∀ (c : Call) s w, accept c.run = true → (∀ d ∈ c.run, isNameChar d = true) →
      (∀ d ∈ c.gap, isSpace d = true) → Closed c.body → R s w → R (c.render ++ s) (f c ++ w))
    (before : Option Char) (t : Text) (wellBraced : WellBraced t) :
    R t (rewrite accept f before t) := by
  induction before, t, wellBraced using @Piece.stepInduction accept with
  | nil before _ =>
    rw [rewrite_nil]
    exact nil
  | step before t p rest wellBraced left step ih =>
    have nameChar {d : Char} (name : isNameChar d = true) : d ≠ '$' ∧ isQuote d = false :=
      ⟨ne_of_class name (by decide), not_isQuote name (by decide) (by decide)⟩
    rw [rewrite_step f step]
    cases step with
    | literal proper => exact literal _ _ _ proper ih
    | unclosed quote fresh =>
      rw [rewrite_nil, List.append_nil]
      exact unclosed _ _ quote fresh
    | token fresh valid => exact token _ _ _ valid fresh ih
    | word named stop other =>
      exact keep_plain char (fun d member => nameChar (named.all d member)) ih
    | call named spaces accepted closed =>
      exact call _ _ _ accepted named.all spaces
        (closed_body named.all spaces closed wellBraced) ih
    | @unbalanced run gap inside named spaces accepted endless =>
      have plain : ∀ d ∈ run ++ gap ++ ['('], d ≠ '$' ∧ isQuote d = false := by
        intro d member
        simp only [List.mem_append, List.mem_singleton] at member
        rcases member with (member | member) | rfl
        · exact nameChar (named.all d member)
        · exact ⟨ne_of_class (spaces d member) (by decide), (Piece.isSpace_plain (spaces d member)).2.2⟩
        · decide
      have kept := keep_plain char plain ih
      simpa [Piece.rewritten, Piece.render] using kept
    | char plain noBrace within => exact char _ _ _ plain noBrace ih

section Passes

variable {other : Option Char} {u v : Text}

/-- No call is cut out of `u`, and what stands behind it is read by itself. -/
def Passes (accept : Text → Bool) (before : Option Char) (u v : Text) : Prop :=
  ∃ ps, (∀ c, .call c ∉ ps) ∧ joined ps = u ∧
    pieces accept before (u ++ v) = ps ++ pieces accept (u.getLast?.or before) v

namespace Passes

theorem nil (v : Text) : Passes accept before [] v := ⟨[], by simp, rfl, rfl⟩

theorem append {w : Text} (first : Passes accept before u (w ++ v))
    (second : Passes accept (u.getLast?.or before) w v) : Passes accept before (u ++ w) v := by
  obtain ⟨ps, plain, rfl, same⟩ := first
  obtain ⟨qs, plain', rfl, same'⟩ := second
  refine ⟨ps ++ qs, fun c member => ?_, List.flatMap_append, ?_⟩
  · rcases List.mem_append.1 member with member | member
    · exact plain c member
    · exact plain' c member
  · rw [List.append_assoc, same, same', List.getLast?_append, List.append_assoc, Option.or_assoc]

theorem plain (nonempty : u ≠ []) (step : Piece.Step accept before (u ++ v) (.plain u) v) :
    Passes accept before u v := by
  refine ⟨[.plain u], by simp, by simp [joined, Piece.render], ?_⟩
  rw [pieces_step step, Piece.render, List.getLast?_eq_some_getLast nonempty, Option.some_or]
  rfl

theorem char {c : Char} (plain : isQuote c = false) (noDollar : c ≠ '$')
    (within : (isNameStart c && startsToken before) = false) : Passes accept before [c] v :=
  .plain (List.cons_ne_nil c []) (.char plain (fun dollar => absurd dollar noDollar) within)

/-- Characters that no name, token or literal begins with are passed over one by one. -/
theorem chars (plain : ∀ c ∈ u, isQuote c = false ∧ c ≠ '$' ∧ isNameStart c = false) :
    Passes accept before u v := by
  induction u generalizing before with
  | nil => exact .nil v
  | cons c rest ih =>
    obtain ⟨noQuote, noDollar, noStart⟩ := plain c List.mem_cons_self
    have first : Passes accept before [c] (rest ++ v) :=
      .char noQuote noDollar (by rw [noStart, Bool.false_and])
    exact first.append (ih fun d member => plain d (List.mem_cons_of_mem c member))

theorem spaces (spaces : ∀ c ∈ u, isSpace c = true) : Passes accept before u v :=
  .chars fun c member => ⟨(Piece.isSpace_plain (spaces c member)).2.2,
    ne_of_class (spaces c member) (by decide), of_isSpace (spaces c member) (by decide)⟩

/-- Path characters are passed over one by one where no name may start. -/
theorem path (path : ∀ c ∈ u, isPathChar c = true)
    (within : startsToken before = false ∨ u.head?.any isNameStart = false) :
    Passes accept before u v := by
  induction u generalizing before with
  | nil => exact .nil v
  | cons c rest ih =>
    have isPath := path c List.mem_cons_self
    have joins : extendsToken c = true := by
      simp only [isPathChar, Bool.or_eq_true, beq_iff_eq] at isPath
      rcases isPath with (name | rfl) | rfl
      · simp [extendsToken, name]
      · decide
      · decide
    have first : Passes accept before [c] (rest ++ v) := by
      refine .char (not_isQuote isPath (by decide) (by decide)) (ne_of_class isPath (by decide)) ?_
      rcases within with within | noStart
      · rw [within, Bool.and_false]
      · have noStart : isNameStart c = false := noStart
        rw [noStart, Bool.false_and]
    refine first.append (ih (fun d member => path d (List.mem_cons_of_mem c member)) (Or.inl ?_))
    simp [startsToken, joins]

/-- A name that is no accepted name before a group is passed over. -/
theorem name (head : u.head?.any isNameStart = true) (all : ∀ c ∈ u, isNameChar c = true)
    (other : Piece.openedGroup? v = none ∨ accept u = false)
    (stop : v.head?.any isNameChar = false) : Passes accept before u v := by
  have nonempty : u ≠ [] := by
    rintro rfl
    cases head
  cases starts : startsToken before with
  | true => exact .plain nonempty (.word ⟨head, all, starts⟩ stop other)
  | false => exact .path (fun c member => isPathChar_of_isNameChar c (all c member)) (Or.inl starts)

/-- The beginning of a call is passed over where the name is not accepted. -/
theorem opening {run gap : Text} (named : Piece.Named before run)
    (spaces : ∀ d ∈ gap, isSpace d = true) (refused : accept run = false) :
    Passes accept before (run ++ (gap ++ ['('])) v := by
  refine .append (.name named.head named.all (Or.inr refused) ?_) (.append (.spaces spaces) ?_)
  · rw [List.append_assoc]
    exact Piece.head?_gap spaces v
  · exact .chars (by decide)

end Passes

/-- What stands before a text matters only if the text begins with a name. -/
theorem pieces_congr (same : startsToken before = startsToken other ∨
    t.head?.any isNameStart = false) : pieces accept before t = pieces accept other t := by
  apply Scanner.items_congr_before
  rintro c rest rfl
  have start : (isNameStart c && startsToken before) = (isNameStart c && startsToken other) := by
    rcases same with same | noStart
    · rw [same]
    · have fails : isNameStart c = false := noStart
      rw [fails, Bool.false_and, Bool.false_and]
  simp only [Piece.scanner, Piece.next, start]

/-- Pieces without a call stay as they are. -/
theorem flatMap_rewritten {f : Call → Text} {ps : List Piece} (plain : ∀ c, .call c ∉ ps) :
    ps.flatMap (Piece.rewritten f) = joined ps := by
  rw [joined]
  induction ps with
  | nil => rfl
  | cons p rest ih =>
    rw [List.flatMap_cons, List.flatMap_cons,
      ih fun c member => plain c (List.mem_cons_of_mem p member)]
    cases p with
    | plain text => rfl
    | call c => exact absurd List.mem_cons_self (plain c)
    | unbalanced run gap => rfl

end Passes

end FormLogic.Call
