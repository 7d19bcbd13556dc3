import FormLogic.Call
import FormLogic.Proofs.Quotation

/-!
Parentheses and commas outside literals. A text closes its place when it ends outside literals and
has closed the groups it is read in, and never more than those. The group of a call ends behind a
text that closes whatever it opens; so do the arguments, which are cut at the commas directly
inside.
-/
namespace FormLogic.Call

open Text

namespace Place

/-- The same place, seen from outside `outer` more groups. -/
def within (outer : Nat) (p : Place) : Place := ⟨outer + p.depth, p.quote⟩

theorem next_within {p : Place} {c : Char} (goesOn : ¬(c = ')' ∧ p = outside)) (outer : Nat) :
    (p.within outer).next c = (p.next c).within outer := by
  obtain ⟨depth, quote⟩ := p
  cases quote with
  | some q => rfl
  | none =>
    have inside : c = ')' → depth ≠ 0 := fun closing zero => goesOn ⟨closing, by rw [zero]; rfl⟩
    simp only [next, within, Place.mk.injEq, and_true]
    split
    · omega
    · split
      · next closing =>
        have := inside closing
        omega
      · rfl

theorem next_outside {c : Char} (opening : c ≠ '(') (plain : isQuote c = false) :
    outside.next c = outside := by
  simp [next, outside, opening, plain]

theorem next_none {c : Char} (opening : c ≠ '(') (closing : c ≠ ')') (plain : isQuote c = false)
    (depth : Nat) : next ⟨depth, none⟩ c = ⟨depth, none⟩ := by
  simp [next, opening, closing, plain]

theorem next_plain {c : Char} (plain : isQuote c = false) (depth : Nat) :
    ∃ deeper, next ⟨depth, none⟩ c = ⟨deeper, none⟩ := by
  simp [next, plain]

/-- A quote opens a literal. -/
theorem next_quote {q : Char} (quote : isQuote q = true) (depth : Nat) :
    next ⟨depth, none⟩ q = ⟨depth, some q⟩ := by
  have opening : q ≠ '(' := ne_of_class quote (by decide)
  have closing : q ≠ ')' := ne_of_class quote (by decide)
  simp [next, opening, closing, quote]

theorem next_content {q c : Char} (other : c ≠ q) (depth : Nat) :
    next ⟨depth, some q⟩ c = ⟨depth, some q⟩ := by
  simp [next, other]

theorem next_same (q : Char) (depth : Nat) : next ⟨depth, some q⟩ q = ⟨depth, none⟩ := by
  simp [next]

theorem ne_outside (q : Char) (depth : Nat) : (⟨depth, some q⟩ : Place) ≠ outside := by
  rintro ⟨⟩

theorem quote_next (p : Place) (c : Char) (t : Text) :
    quoteAfter (p.next c).quote t = quoteAfter p.quote (c :: t) := by
  obtain ⟨depth, quote⟩ := p
  cases quote <;> rfl

/-- What is open is a literal that a quote has opened. -/
theorem isQuote_next {p : Place} (quote : ∀ q ∈ p.quote, isQuote q = true) (c : Char) :
    ∀ q ∈ (p.next c).quote, isQuote q = true := by
  obtain ⟨depth, within⟩ := p
  intro q member
  cases within with
  | none =>
    cases isQ : isQuote c with
    | true =>
      have same : c = q := by simpa [next, isQ] using member
      exact same ▸ isQ
    | false => simp [next, isQ] at member
  | some opener =>
    by_cases same : c = opener
    · simp [next, same] at member
    · have kept : opener = q := by simpa [next, same] using member
      exact quote q (by rw [kept]; rfl)

end Place

/-- Whether a text closes the literal and the groups that it is read in, and whatever it opens. -/
def closes (p : Place) : Text → Bool
  | [] => p == .outside
  | c :: rest => !(c == ')' && p == .outside) && closes (p.next c) rest

theorem closes_nil (p : Place) : closes p [] = true ↔ p = .outside := by
  simp [closes]

theorem closes_cons (p : Place) (c : Char) (rest : Text) :
    closes p (c :: rest) = true ↔ ¬(c = ')' ∧ p = .outside) ∧ closes (p.next c) rest = true := by
  rw [closes, Bool.and_eq_true, Bool.not_eq_true', Bool.and_eq_false_iff, beq_eq_false_iff_ne,
    beq_eq_false_iff_ne, Classical.not_and_iff_not_or_not]

/-- What closes the groups that it is read in may be followed by what closes those around them. -/
theorem closes_append {p : Place} {s : Text} (closed : closes p s = true) (outer : Nat)
    (t : Text) : closes (p.within outer) (s ++ t) = closes ⟨outer, none⟩ t := by
  induction s generalizing p with
  | nil => rw [(closes_nil p).1 closed]; rfl
  | cons c rest ih =>
    obtain ⟨goesOn, closed⟩ := (closes_cons p c rest).1 closed
    have stays : ¬(c = ')' ∧ p.within outer = .outside) := by
      rintro ⟨closing, same⟩
      apply goesOn ⟨closing, ?_⟩
      obtain ⟨depth, quote⟩ := p
      simp only [Place.within, Place.outside, Place.mk.injEq] at same ⊢
      exact ⟨by omega, same.2⟩
    rw [List.cons_append, Bool.eq_iff_iff, closes_cons, Place.next_within goesOn, ih closed]
    exact ⟨fun both => both.2, fun right => ⟨stays, right⟩⟩

theorem closes_outside_append {s : Text} (closed : closes .outside s = true) (depth : Nat)
    (t : Text) : closes ⟨depth, none⟩ (s ++ t) = closes ⟨depth, none⟩ t :=
  closes_append closed depth t

theorem quoteAfter_of_closes {p : Place} {t : Text} (closed : closes p t = true) :
    quoteAfter p.quote t = none := by
  induction t generalizing p with
  | nil => rw [(closes_nil p).1 closed]; rfl
  | cons c rest ih => rw [← Place.quote_next]; exact ih ((closes_cons p c rest).1 closed).2

theorem terminated_of_closes {depth : Nat} {t : Text} (closed : closes ⟨depth, none⟩ t = true) :
    Terminated t :=
  quoteAfter_of_closes closed

/-- A character that is neither a quote nor a parenthesis changes no place outside literals. -/
theorem closes_cons_of_plain {c : Char} (opening : c ≠ '(') (closing : c ≠ ')')
    (plain : isQuote c = false) (depth : Nat) (rest : Text) :
    closes ⟨depth, none⟩ (c :: rest) = closes ⟨depth, none⟩ rest := by
  rw [Bool.eq_iff_iff, closes_cons, Place.next_none opening closing plain]
  exact ⟨fun both => both.2, fun right => ⟨fun both => closing both.1, right⟩⟩

theorem closes_opening (depth : Nat) (rest : Text) :
    closes ⟨depth, none⟩ ('(' :: rest) = closes ⟨depth + 1, none⟩ rest := by
  rw [Bool.eq_iff_iff, closes_cons]
  exact ⟨fun both => both.2, fun right => ⟨fun both => absurd both.1 (by decide), right⟩⟩

theorem closes_closing (depth : Nat) (rest : Text) :
    closes ⟨depth + 1, none⟩ (')' :: rest) = closes ⟨depth, none⟩ rest := by
  rw [Bool.eq_iff_iff, closes_cons]
  refine ⟨fun both => both.2, fun right => ⟨fun both => ?_, right⟩⟩
  have impossible := both.2
  simp [Place.outside] at impossible

theorem not_closes_closing (rest : Text) : closes .outside (')' :: rest) = false := by
  rw [Bool.eq_false_iff, ne_eq, closes_cons]
  exact fun both => both.1 ⟨rfl, rfl⟩

/-- Behind one character the same is closed if what is left closes the same. -/
theorem closes_cons_congr {c : Char} {s t : Text} (plain : isQuote c = false)
    (same : ∀ depth, closes ⟨depth, none⟩ s = closes ⟨depth, none⟩ t) (depth : Nat) :
    closes ⟨depth, none⟩ (c :: s) = closes ⟨depth, none⟩ (c :: t) := by
  by_cases opening : c = '('
  · rw [opening, closes_opening, closes_opening, same]
  · by_cases closing : c = ')'
    · rw [closing]
      cases depth with
      | zero => exact (not_closes_closing s).trans (not_closes_closing t).symm
      | succ depth => rw [closes_closing, closes_closing, same]
    · rw [closes_cons_of_plain opening closing plain, closes_cons_of_plain opening closing plain,
        same]

/-- Behind a character outside literals, what is left closes the groups that are open there. -/
theorem closes_of_cons {c : Char} {rest : Text} (plain : isQuote c = false) {depth : Nat}
    (closed : closes ⟨depth, none⟩ (c :: rest) = true) :
    ∃ depth, closes ⟨depth, none⟩ rest = true := by
  by_cases opening : c = '('
  · rw [opening, closes_opening] at closed
    exact ⟨depth + 1, closed⟩
  · by_cases closing : c = ')'
    · rw [closing] at closed
      cases depth with
      | zero =>
        have refused := not_closes_closing rest
        rw [Place.outside, closed] at refused
        cases refused
      | succ depth => exact ⟨depth, by rwa [closes_closing] at closed⟩
    · exact ⟨depth, by rwa [closes_cons_of_plain opening closing plain] at closed⟩

/-- A text without quotes and parentheses opens and closes nothing. -/
theorem closes_append_of_plain {s : Text}
    (plain : ∀ c ∈ s, c ≠ '(' ∧ c ≠ ')' ∧ isQuote c = false) (depth : Nat) (t : Text) :
    closes ⟨depth, none⟩ (s ++ t) = closes ⟨depth, none⟩ t := by
  induction s with
  | nil => rfl
  | cons c rest ih =>
    obtain ⟨opening, closing, quote⟩ := plain c (by simp)
    rw [List.cons_append, closes_cons_of_plain opening closing quote]
    exact ih fun d member => plain d (List.mem_cons_of_mem c member)

/-- Characters that are neither quotes nor parentheses close nothing. -/
theorem closes_append_right {p : Place} (quote : ∀ q ∈ p.quote, isQuote q = true) {t : Text}
    (plain : ∀ c ∈ t, c ≠ '(' ∧ c ≠ ')' ∧ isQuote c = false) (s : Text) :
    closes p (s ++ t) = closes p s := by
  induction s generalizing p with
  | nil =>
    rw [List.nil_append]
    induction t with
    | nil => rfl
    | cons c rest ih =>
      obtain ⟨opening, closing, noQuote⟩ := plain c (by simp)
      have stays : p.next c = p := by
        obtain ⟨depth, within⟩ := p
        cases within with
        | none => exact Place.next_none opening closing noQuote depth
        | some q =>
          have other : c ≠ q := by
            rintro rfl
            rw [quote c rfl] at noQuote
            cases noQuote
          simp [Place.next, other]
      have later := ih fun d member => plain d (List.mem_cons_of_mem c member)
      rw [Bool.eq_iff_iff, closes_cons, stays, later]
      exact ⟨fun both => both.2, fun right => ⟨fun both => closing both.1, right⟩⟩
  | cons c rest ih =>
    rw [List.cons_append, Bool.eq_iff_iff, closes_cons, closes_cons, ih (Place.isQuote_next quote c)]

theorem closes_content {q : Char} {content : Text} (fresh : q ∉ content) (depth : Nat)
    (rest : Text) :
    closes ⟨depth, some q⟩ (content ++ q :: rest) = closes ⟨depth, none⟩ rest := by
  have stays (c : Char) : ¬(c = ')' ∧ (⟨depth, some q⟩ : Place) = .outside) :=
    fun both => by have impossible := both.2; simp [Place.outside] at impossible
  induction content with
  | nil =>
    rw [List.nil_append, Bool.eq_iff_iff, closes_cons]
    simp [stays, Place.next]
  | cons c content ih =>
    simp only [List.mem_cons, not_or] at fresh
    rw [List.cons_append, Bool.eq_iff_iff, closes_cons, ← ih fresh.2]
    simp [stays, Place.next, Ne.symm fresh.1]

theorem closes_render_append {l : Literal} (proper : l.Proper) (depth : Nat) (rest : Text) :
    closes ⟨depth, none⟩ (l.render ++ rest) = closes ⟨depth, none⟩ rest := by
  have quote := proper.quote_isQuote
  have closing : l.quote ≠ ')' := ne_of_class quote (by decide)
  rw [Literal.cons_quote_append, Bool.eq_iff_iff, closes_cons, Place.next_quote quote,
    closes_content proper.quote_notMem]
  exact ⟨fun both => both.2, fun right => ⟨fun both => closing both.1, right⟩⟩

/-- A group is closed by the parenthesis behind a text that closes whatever it opens. -/
theorem closeGroup_append {p : Place} {body : Text} (closed : closes p body = true)
    (after : Text) : closeGroup p (body ++ ')' :: after) = some (body, after) := by
  induction body generalizing p with
  | nil => rw [List.nil_append, closeGroup, if_pos ⟨rfl, (closes_nil p).1 closed⟩]
  | cons c rest ih =>
    obtain ⟨goesOn, closed⟩ := (closes_cons p c rest).1 closed
    rw [List.cons_append, closeGroup, if_neg goesOn, ih closed]
    rfl

/-- The text before the parenthesis that closes a group closes whatever it opens. -/
theorem closes_of_closeGroup {p : Place} {t body after : Text}
    (found : closeGroup p t = some (body, after)) : closes p body = true := by
  induction t generalizing p body with
  | nil => simp [closeGroup] at found
  | cons c rest ih =>
    rw [closeGroup] at found
    split at found
    · next stop =>
      simp only [Option.some.injEq, Prod.mk.injEq] at found
      rw [← found.1]
      exact (closes_nil p).2 stop.2
    · next goesOn =>
      simp only [Option.map_eq_some_iff, Prod.mk.injEq, Prod.exists] at found
      obtain ⟨inner, tail, found, rfl, rfl⟩ := found
      exact (closes_cons p c inner).2 ⟨goesOn, ih found⟩

/-- A group is closed within a text that closes all that is open there. -/
theorem closeGroup_of_closes {p : Place} {outer : Nat} {t : Text}
    (closed : closes (p.within (outer + 1)) t = true) :
    ∃ body after, closeGroup p t = some (body, after) ∧ closes ⟨outer, none⟩ after = true := by
  induction t generalizing p with
  | nil =>
    have same := (closes_nil _).1 closed
    simp only [Place.within, Place.outside, Place.mk.injEq] at same
    omega
  | cons c rest ih =>
    obtain ⟨_, closed⟩ := (closes_cons _ c rest).1 closed
    by_cases stop : c = ')' ∧ p = .outside
    · refine ⟨[], rest, by rw [closeGroup, if_pos stop], ?_⟩
      rw [stop.1, stop.2] at closed
      exact closed
    · rw [Place.next_within stop] at closed
      obtain ⟨body, after, found, left⟩ := ih closed
      exact ⟨c :: body, after, by rw [closeGroup, if_neg stop, found]; rfl, left⟩

theorem splitArguments_ne_nil (p : Place) (t : Text) : splitArguments p t ≠ [] := by
  induction t generalizing p with
  | nil => simp [splitArguments]
  | cons c rest ih =>
    rw [splitArguments]
    split
    · exact List.cons_ne_nil _ _
    · exact fun none => ih _ (List.modifyHead_eq_nil_iff.1 none)

theorem modifyHead_append (s t : Text) (as : List Text) :
    (as.modifyHead (t ++ ·)).modifyHead (s ++ ·) = as.modifyHead (s ++ t ++ ·) := by
  cases as with
  | nil => rfl
  | cons a rest => simp

/-- A text without a comma belongs to the first argument of what it begins. -/
theorem splitArguments_append_of_single {p : Place} {s : Text} (closed : closes p s = true)
    (single : splitArguments p s = [s]) (t : Text) :
    splitArguments p (s ++ t) = (splitArguments .outside t).modifyHead (s ++ ·) := by
  induction s generalizing p with
  | nil =>
    rw [(closes_nil p).1 closed, List.nil_append]
    cases splitArguments .outside t <;> rfl
  | cons c rest ih =>
    have closed := ((closes_cons p c rest).1 closed).2
    rw [splitArguments] at single
    split at single
    · exact absurd (List.cons.inj single).2 (splitArguments_ne_nil _ _)
    · next goesOn =>
      have inner : splitArguments (p.next c) rest = [rest] := by
        cases found : splitArguments (p.next c) rest with
        | nil => exact absurd found (splitArguments_ne_nil _ _)
        | cons first others =>
          rw [found, List.modifyHead_cons] at single
          simp only [List.cons.injEq, true_and] at single
          rw [single.1, single.2]
      rw [List.cons_append, splitArguments, if_neg goesOn, ih closed inner]
      exact modifyHead_append [c] rest _

/-- The arguments of a text that begins with one argument and a comma. -/
theorem splitArguments_append {p : Place} {s : Text} (closed : closes p s = true)
    (single : splitArguments p s = [s]) (t : Text) :
    splitArguments p (s ++ ',' :: t) = s :: splitArguments .outside t := by
  rw [splitArguments_append_of_single closed single, splitArguments, if_pos ⟨rfl, rfl⟩,
    List.modifyHead_cons, List.append_nil]

/-- A text that closes whatever it opens is one argument, or it is one argument, a comma and the
other arguments. -/
theorem splitArguments_cases {p : Place} {t : Text} (closed : closes p t = true) :
    splitArguments p t = [t] ∨
      ∃ first rest, t = first ++ ',' :: rest ∧ closes p first = true ∧
        splitArguments p first = [first] ∧ closes .outside rest = true := by
  induction t generalizing p with
  | nil => exact Or.inl rfl
  | cons c rest ih =>
    obtain ⟨goesOn, closed⟩ := (closes_cons p c rest).1 closed
    by_cases comma : c = ',' ∧ p = .outside
    · refine Or.inr ⟨[], rest, by rw [comma.1]; rfl, (closes_nil p).2 comma.2, rfl, ?_⟩
      rw [comma.1, comma.2] at closed
      exact closed
    · have step (s : Text) : splitArguments p (c :: s) =
          (splitArguments (p.next c) s).modifyHead (c :: ·) := by
        rw [splitArguments, if_neg comma]
      rcases ih closed with single | ⟨first, later, rfl, closed, single, left⟩
      · left
        rw [step, single]
        rfl
      · refine Or.inr ⟨c :: first, later, rfl, (closes_cons p c first).2 ⟨goesOn, closed⟩, ?_, left⟩
        rw [step, single]
        rfl

/-- Texts that close whatever they open are arguments without a comma, put together with commas. -/
@[elab_as_elim]
theorem argumentInduction {motive : (t : Text) → closes .outside t = true → Prop}
    (last : ∀ t (closed : closes .outside t = true), splitArguments .outside t = [t] →
      motive t closed)
    (more : ∀ first rest (closed : closes .outside (first ++ ',' :: rest) = true)
      (left : closes .outside rest = true), closes .outside first = true →
      splitArguments .outside first = [first] → motive rest left →
      motive (first ++ ',' :: rest) closed)
    (t : Text) (closed : closes .outside t = true) : motive t closed := by
  rcases splitArguments_cases closed with single | ⟨first, rest, rfl, head, single, left⟩
  · exact last t closed single
  · have shorter : rest.length < (first ++ ',' :: rest).length := by
      rw [List.length_append, List.length_cons]
      omega
    exact more first rest closed left head single (argumentInduction last more rest left)
termination_by t.length

/-- The pieces of a group put together with commas are its text. -/
theorem intercalate_splitArguments (p : Place) (t : Text) :
    [','].intercalate (splitArguments p t) = t := by
  induction t generalizing p with
  | nil => rfl
  | cons c rest ih =>
    rw [splitArguments]
    split
    · next comma =>
      rw [List.intercalate_cons_of_ne_nil (splitArguments_ne_nil _ _), ih, comma.1]
      rfl
    · have inner := ih (p.next c)
      obtain ⟨first, more, parts⟩ := List.exists_cons_of_ne_nil (splitArguments_ne_nil (p.next c) rest)
      rw [parts] at inner ⊢
      rw [List.modifyHead_cons, ← inner]
      cases more with
      | nil => simp
      | cons second more => simp [List.intercalate_cons_cons]

/-- An argument closes whatever it opens, and a comma or nothing stands on either side of it. -/
theorem argument_place {t a : Text} (closed : closes .outside t = true)
    (member : a ∈ splitArguments .outside t) :
    closes .outside a = true ∧ ∃ before after, t = before ++ (a ++ after) ∧ Terminated before ∧
      (∀ c ∈ before.getLast?, c = ',') ∧ (after = [] ∨ ∃ later, after = ',' :: later) := by
  induction t, closed using argumentInduction with
  | last t closed single =>
    rw [single, List.mem_singleton] at member
    rw [member]
    exact ⟨closed, [], [], by simp, rfl, by simp, Or.inl rfl⟩
  | more first rest closed left head single ih =>
    rw [splitArguments_append head single, List.mem_cons] at member
    rcases member with rfl | member
    · exact ⟨head, [], ',' :: rest, by simp, rfl, by simp, Or.inr ⟨rest, rfl⟩⟩
    · obtain ⟨inner, before, after, same, terminated, last, stop⟩ := ih member
      refine ⟨inner, first ++ ',' :: before, after, by rw [same]; simp, ?_, ?_, stop⟩
      · exact terminated_append (terminated_of_closes head)
          ((terminated_cons (by decide) before).2 terminated)
      · intro c member
        rw [Option.mem_def, List.getLast?_append, List.getLast?_cons, Option.some_or,
          Option.some.injEq] at member
        cases tail : before.getLast? with
        | none => rw [tail] at member; exact member.symm
        | some d => rw [tail] at member; exact last c (by rw [tail]; exact congrArg some member)

theorem mem_splitArguments {c : Call} {a : Text} (member : a ∈ c.arguments) :
    a ∈ splitArguments .outside c.body := by
  rw [arguments] at member
  split at member
  · cases member
  · exact member

/-- The text closes whatever it opens, and no comma stands directly in it. -/
structure Single (t : Text) : Prop where
  closed : closes .outside t = true
  split : splitArguments .outside t = [t]

section Single

variable {s t : Text}

/-- Commas in a group do not count. -/
theorem splitArguments_within {p : Place} (closed : closes p s = true) (t : Text) :
    splitArguments (p.within 1) (s ++ ')' :: t) =
      (splitArguments .outside t).modifyHead (s ++ [')'] ++ ·) := by
  induction s generalizing p with
  | nil =>
    rw [(closes_nil p).1 closed, List.nil_append, splitArguments, if_neg (by simp)]
    rfl
  | cons c rest ih =>
    obtain ⟨goesOn, closed⟩ := (closes_cons p c rest).1 closed
    have inside : ¬(c = ',' ∧ p.within 1 = .outside) := by
      rintro ⟨_, same⟩
      have depth := congrArg Place.depth same
      simp only [Place.within, Place.outside] at depth
      omega
    rw [List.cons_append, splitArguments, if_neg inside, Place.next_within goesOn, ih closed]
    exact modifyHead_append [c] (rest ++ [')']) _

/-- Commas in a literal do not count. -/
theorem splitArguments_content {q : Char} {content : Text} (fresh : q ∉ content) (depth : Nat)
    (t : Text) :
    splitArguments ⟨depth, some q⟩ (content ++ q :: t) =
      (splitArguments ⟨depth, none⟩ t).modifyHead (content ++ [q] ++ ·) := by
  have within (c : Char) : ¬(c = ',' ∧ (⟨depth, some q⟩ : Place) = .outside) :=
    fun both => Place.ne_outside q depth both.2
  induction content with
  | nil =>
    rw [List.nil_append, splitArguments, if_neg (within q), Place.next_same]
    rfl
  | cons c content ih =>
    simp only [List.mem_cons, not_or] at fresh
    rw [List.cons_append, splitArguments, if_neg (within c), Place.next_content (Ne.symm fresh.1),
      ih fresh.2]
    exact modifyHead_append [c] (content ++ [q]) _

/-- A literal stands within one argument. -/
theorem splitArguments_render {l : Literal} (proper : l.Proper) (depth : Nat) (t : Text) :
    splitArguments ⟨depth, none⟩ (l.render ++ t) =
      (splitArguments ⟨depth, none⟩ t).modifyHead (l.render ++ ·) := by
  have quote := proper.quote_isQuote
  have noComma : l.quote ≠ ',' := ne_of_class quote (by decide)
  rw [Literal.cons_quote_append, splitArguments, if_neg fun both => noComma both.1,
    Place.next_quote quote, splitArguments_content proper.quote_notMem]
  exact modifyHead_append [l.quote] (l.content ++ [l.quote]) _

namespace Single

theorem nil : Single [] := ⟨rfl, rfl⟩

theorem append (left : Single s) (right : Single t) : Single (s ++ t) := by
  refine ⟨(closes_outside_append left.closed 0 t).trans right.closed, ?_⟩
  rw [splitArguments_append_of_single left.closed left.split, right.split]
  rfl

theorem plain (plain : ∀ c ∈ t, (c ≠ '(' ∧ c ≠ ')' ∧ isQuote c = false) ∧ c ≠ ',') : Single t := by
  induction t with
  | nil => exact .nil
  | cons c rest ih =>
    obtain ⟨⟨opening, closing, noQuote⟩, noComma⟩ := plain c List.mem_cons_self
    obtain ⟨closed, alone⟩ := ih fun d member => plain d (List.mem_cons_of_mem c member)
    have stays : Place.next .outside c = .outside := Place.next_outside opening noQuote
    constructor
    · rw [closes_cons, stays]
      exact ⟨fun both => closing both.1, closed⟩
    · rw [splitArguments, if_neg fun both => noComma both.1, stays, alone]
      rfl

/-- A group counts as one, whatever commas stand in it. -/
theorem group (closed : closes .outside t = true) : Single ('(' :: t ++ [')']) := by
  constructor
  · change closes ⟨0, none⟩ ('(' :: (t ++ [')'])) = true
    rw [closes_opening, closes_outside_append closed, closes_closing]
    rfl
  · have inner := splitArguments_within closed []
    change splitArguments .outside ('(' :: (t ++ [')'])) = _
    rw [splitArguments, if_neg (by decide)]
    change (splitArguments (Place.outside.within 1) _).modifyHead _ = _
    rw [inner]
    simp [splitArguments]

theorem literal {l : Literal} (proper : l.Proper) : Single l.render := by
  constructor
  · have whole := closes_render_append proper 0 []
    rwa [List.append_nil] at whole
  · have whole := splitArguments_render proper 0 []
    rw [List.append_nil] at whole
    rw [Place.outside, whole]
    simp [splitArguments]

theorem closes_intercalate {ts : List Text} (single : ∀ t ∈ ts, Single t) :
    closes .outside ([',', ' '].intercalate ts) = true := by
  match ts with
  | [] => rfl
  | [t] =>
    rw [List.intercalate_singleton]
    exact (single t List.mem_cons_self).closed
  | t :: u :: rest =>
    have later := closes_intercalate fun v (member : v ∈ u :: rest) =>
      single v (List.mem_cons_of_mem t member)
    have gap := closes_append_of_plain (s := [',', ' ']) (by decide) 0
      ([',', ' '].intercalate (u :: rest))
    rw [List.intercalate_cons_cons, List.append_assoc]
    exact (closes_outside_append (single t List.mem_cons_self).closed 0 _).trans (gap.trans later)

/-- Texts without commas are the arguments of a text in which commas and spaces stand between them. -/
theorem splitArguments_intercalate {t : Text} {ts : List Text} (single : ∀ u ∈ t :: ts, Single u) :
    splitArguments .outside ([',', ' '].intercalate (t :: ts)) = t :: ts.map (' ' :: ·) := by
  have first := single t List.mem_cons_self
  match ts with
  | [] =>
    rw [List.intercalate_singleton]
    exact first.split
  | u :: rest =>
    have later := splitArguments_intercalate fun v (member : v ∈ u :: rest) =>
      single v (List.mem_cons_of_mem t member)
    have space : Single [' '] := .plain (by decide)
    rw [List.intercalate_cons_cons, List.append_assoc]
    change splitArguments .outside (t ++ ',' :: ([' '] ++ _)) = _
    rw [splitArguments_append first.closed first.split,
      splitArguments_append_of_single space.closed space.split, later]
    rfl

end Single

end Single

end FormLogic.Call
