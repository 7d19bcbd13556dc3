import FormLogic.Literal

/-!
Where a text stands within a literal. Reading a text from outside literals leads back outside, or
into a literal that the text leaves open. A text that closes its literals is cut into segments
without a look at what follows it, so its literals are those of any text that begins with it.
-/
namespace FormLogic

namespace Text

theorem cutAt?_eq_none_iff {stop : Char} {t : Text} : cutAt? stop t = none ↔ stop ∉ t := by
  induction t with
  | nil => simp [cutAt?]
  | cons c rest ih =>
    by_cases same : c = stop
    · simp [cutAt?, same]
    · simp [cutAt?, same, ih, Ne.symm same]

theorem cutAt?_append_cons {stop : Char} {before : Text} (fresh : stop ∉ before) (after : Text) :
    cutAt? stop (before ++ stop :: after) = some (before, after) :=
  cutAt?_eq_some_iff.2 ⟨rfl, fresh⟩

/-- A class of characters that holds neither quote holds none. -/
theorem not_isQuote {p : Char → Bool} {c : Char} (holds : p c = true) (single : p '\'' = false)
    (double : p '"' = false) : isQuote c = false := by
  rw [isQuote, Bool.or_eq_false_iff, beq_eq_false_iff_ne, beq_eq_false_iff_ne]
  constructor
  · rintro rfl
    rw [single] at holds
    cases holds
  · rintro rfl
    rw [double] at holds
    cases holds

/-- A class of characters without the character `d` has only others. -/
theorem ne_of_class {p : Char → Bool} {c d : Char} (holds : p c = true) (without : p d = false) :
    c ≠ d := by
  rintro rfl
  rw [without] at holds
  cases holds

theorem notMem_of_class {p : Char → Bool} {c : Char} {cs : List Char} (holds : p c = true)
    (without : ∀ d ∈ cs, p d = false) : c ∉ cs := by
  intro member
  rw [without c member] at holds
  cases holds

/-- The quote of the literal that is open behind a text, given that of the one open before it. -/
def quoteAfter : Option Char → Text → Option Char
  | quote, [] => quote
  | some q, c :: rest => quoteAfter (if c = q then none else some q) rest
  | none, c :: rest => quoteAfter (if isQuote c then some c else none) rest

/-- The literals of the text are closed within it. -/
def Terminated (t : Text) : Prop := quoteAfter none t = none

instance (t : Text) : Decidable (Terminated t) := inferInstanceAs (Decidable (_ = _))

theorem quoteAfter_append (quote : Option Char) (s t : Text) :
    quoteAfter quote (s ++ t) = quoteAfter (quoteAfter quote s) t := by
  induction s generalizing quote with
  | nil => rfl
  | cons c rest ih => cases quote <;> simp only [List.cons_append, quoteAfter, ih]

theorem quoteAfter_some_of_notMem {q : Char} {t : Text} (fresh : q ∉ t) :
    quoteAfter (some q) t = some q := by
  induction t with
  | nil => rfl
  | cons c rest ih =>
    simp only [List.mem_cons, not_or] at fresh
    rw [quoteAfter, if_neg (Ne.symm fresh.1), ih fresh.2]

theorem quoteAfter_some_append {q : Char} {content : Text} (fresh : q ∉ content) (after : Text) :
    quoteAfter (some q) (content ++ q :: after) = quoteAfter none after := by
  rw [quoteAfter_append, quoteAfter_some_of_notMem fresh, quoteAfter, if_pos rfl]

theorem terminated_of_noQuote {t : Text} (plain : ∀ c ∈ t, isQuote c = false) : Terminated t := by
  induction t with
  | nil => rfl
  | cons c rest ih =>
    rw [Terminated, quoteAfter, plain c (by simp)]
    exact ih fun d member => plain d (List.mem_cons_of_mem c member)

theorem quoteAfter_append_of_terminated {s : Text} (closed : Terminated s) (t : Text) :
    quoteAfter none (s ++ t) = quoteAfter none t := by
  rw [quoteAfter_append, closed]

theorem terminated_append {s t : Text} (left : Terminated s) (right : Terminated t) :
    Terminated (s ++ t) :=
  (quoteAfter_append_of_terminated left t).trans right

theorem terminated_cons {c : Char} (plain : isQuote c = false) (t : Text) :
    Terminated (c :: t) ↔ Terminated t := by
  rw [Terminated, quoteAfter, plain]
  rfl

end Text

open Text

namespace Literal

/-- The literal can stand in a text: it has a quote for its quote, and that quote ends it. -/
structure Proper (l : Literal) : Prop where
  quote_isQuote : isQuote l.quote = true
  quote_notMem : l.quote ∉ l.content

theorem cons_quote_append (l : Literal) (rest : Text) :
    l.render ++ rest = l.quote :: (l.content ++ l.quote :: rest) := by
  simp [render]

theorem cutAt?_quote {l : Literal} (proper : l.Proper) (rest : Text) :
    cutAt? l.quote (l.content ++ l.quote :: rest) = some (l.content, rest) :=
  cutAt?_append_cons proper.quote_notMem rest

theorem quoteAfter_render_append {l : Literal} (proper : l.Proper) (rest : Text) :
    quoteAfter none (l.render ++ rest) = quoteAfter none rest := by
  rw [cons_quote_append, quoteAfter, proper.quote_isQuote]
  exact quoteAfter_some_append proper.quote_notMem rest

theorem terminated_render {l : Literal} (proper : l.Proper) : Terminated l.render := by
  have whole := quoteAfter_render_append proper []
  rwa [List.append_nil] at whole

theorem isQuote_quoteFor (content : Text) : isQuote (quoteFor content) = true := by
  unfold quoteFor
  split <;> decide

/-- A literal with the quotes of the target grammar is proper, unless its content holds both
quotes. -/
theorem proper_quoteFor {content : Text} (quotable : '"' ∈ content → '\'' ∉ content) :
    (⟨quoteFor content, content⟩ : Literal).Proper := by
  by_cases double : '"' ∈ content
  · exact ⟨by simp [quoteFor, double, isQuote], by simpa [quoteFor, double] using quotable double⟩
  · exact ⟨by simp [quoteFor, double, isQuote], by simp [quoteFor, double]⟩

/-- A text that is one literal, white space around it aside. -/
theorem parse?_eq_some {t : Text} {l : Literal} (found : parse? t = some l) :
    l.Proper ∧ trim t = l.render := by
  unfold parse? at found
  split at found
  · cases found
  · next c rest trimmed =>
    split at found
    · next literal start =>
      cases found
      unfold ofStart? at start
      split at start
      · next quote =>
        obtain ⟨⟨content, after⟩, cut, same⟩ := Option.map_eq_some_iff.1 start
        obtain ⟨rfl, rfl⟩ := Prod.mk.inj same
        obtain ⟨whole, fresh⟩ := cutAt?_eq_some_iff.1 cut
        exact ⟨⟨quote, fresh⟩, by rw [trimmed, whole]; rfl⟩
      · cases start
    · cases found

/-- The quotes of the target grammar fit the content of a proper literal. -/
theorem Proper.proper_quoteFor {l : Literal} (proper : l.Proper) :
    (⟨quoteFor l.content, l.content⟩ : Literal).Proper := by
  apply Literal.proper_quoteFor
  intro double single
  have quote := proper.quote_isQuote
  simp only [isQuote, Bool.or_eq_true, beq_iff_eq] at quote
  rcases quote with quote | quote
  · exact proper.quote_notMem (quote ▸ single)
  · exact proper.quote_notMem (quote ▸ double)

/-- Texts are made of plain characters and literals, and may end in a literal left open. -/
@[elab_as_elim]
theorem segmentInduction {motive : Text → Prop} (nil : motive [])
    (plain : ∀ c rest, isQuote c = false → motive rest → motive (c :: rest))
    (literal : ∀ (l : Literal) rest, l.Proper → motive rest → motive (l.render ++ rest))
    (unclosed : ∀ q rest, isQuote q = true → q ∉ rest → motive (q :: rest)) (t : Text) :
    motive t := by
  match t with
  | [] => exact nil
  | c :: rest =>
    cases quote : isQuote c with
    | false => exact plain c rest quote (segmentInduction nil plain literal unclosed rest)
    | true =>
      cases cut : cutAt? c rest with
      | none => exact unclosed c rest quote (cutAt?_eq_none_iff.1 cut)
      | some parts =>
        obtain ⟨content, after⟩ := parts
        have shorter := length_of_cutAt? cut
        obtain ⟨whole, fresh⟩ := cutAt?_eq_some_iff.1 cut
        have later := segmentInduction nil plain literal unclosed after
        have step := literal ⟨c, content⟩ after ⟨quote, fresh⟩ later
        rwa [cons_quote_append, ← whole] at step
termination_by t.length

theorem segments_nil : segments [] = [] := Segment.scanner.items_nil none

theorem segments_cons {c : Char} (plain : isQuote c = false) (rest : Text) :
    segments (c :: rest) = .plain c :: segments rest := by
  have step : Segment.next c rest = (.plain c, rest) := by simp [Segment.next, plain]
  rw [segments, Scanner.items_cons]
  simp only [Segment.scanner, step]
  exact congrArg _ (Scanner.items_congr_before _ fun _ _ _ => rfl)

theorem segments_literal {l : Literal} (proper : l.Proper) (rest : Text) :
    segments (l.render ++ rest) = .literal l :: segments rest := by
  have step : Segment.next l.quote (l.content ++ l.quote :: rest) = (.literal l, rest) := by
    simp [Segment.next, proper.quote_isQuote, cutAt?_quote proper]
  rw [cons_quote_append, segments, Scanner.items_cons]
  simp only [Segment.scanner, step]
  exact congrArg _ (Scanner.items_congr_before _ fun _ _ _ => rfl)

theorem segments_unclosed {q : Char} {rest : Text} (quote : isQuote q = true) (fresh : q ∉ rest) :
    segments (q :: rest) = [.unclosed (q :: rest)] := by
  have step : Segment.next q rest = (.unclosed (q :: rest), []) := by
    simp [Segment.next, quote, cutAt?_eq_none_iff.2 fresh]
  rw [segments, Scanner.items_cons]
  simp only [Segment.scanner, step, Scanner.items_nil]

/-- A text that closes its literals is cut into segments without a look at what follows it. -/
theorem segments_append {s : Text} (closed : Terminated s) (t : Text) :
    segments (s ++ t) = segments s ++ segments t := by
  induction s using segmentInduction with
  | nil => rw [segments_nil]; rfl
  | plain c rest plain ih =>
    rw [List.cons_append, segments_cons plain, segments_cons plain,
      ih ((terminated_cons plain rest).1 closed)]
    rfl
  | literal l rest proper ih =>
    rw [Terminated, quoteAfter_render_append proper] at closed
    rw [List.append_assoc, segments_literal proper, segments_literal proper, ih closed]
    rfl
  | unclosed q rest quote fresh =>
    rw [Terminated, quoteAfter, quote, if_pos rfl, quoteAfter_some_of_notMem fresh] at closed
    cases closed

/-- The literals of a text, from left to right. -/
def literals (t : Text) : List Literal :=
  (segments t).filterMap fun
    | .literal l => some l
    | _ => none

/-- The text from the quote on that is never closed, empty if there is none. -/
def unclosed (t : Text) : Text :=
  (segments t).flatMap fun
    | .unclosed text => text
    | _ => []

theorem literals_append {s : Text} (closed : Terminated s) (t : Text) :
    literals (s ++ t) = literals s ++ literals t := by
  rw [literals, segments_append closed, List.filterMap_append]
  rfl

theorem unclosed_append {s : Text} (closed : Terminated s) (t : Text) :
    unclosed (s ++ t) = unclosed s ++ unclosed t := by
  rw [unclosed, segments_append closed, List.flatMap_append]
  rfl

theorem requote_append {s : Text} (closed : Terminated s) (t : Text) :
    requote (s ++ t) = requote s ++ requote t := by
  rw [requote, segments_append closed, List.flatMap_append]
  rfl

theorem literals_cons {c : Char} (plain : isQuote c = false) (rest : Text) :
    literals (c :: rest) = literals rest := by
  rw [literals, segments_cons plain]
  rfl

theorem unclosed_cons {c : Char} (plain : isQuote c = false) (rest : Text) :
    unclosed (c :: rest) = unclosed rest := by
  rw [unclosed, segments_cons plain]
  rfl

theorem requote_nil : requote [] = [] := by
  rw [requote, segments_nil]
  rfl

theorem requote_cons {c : Char} (plain : isQuote c = false) (rest : Text) :
    requote (c :: rest) = c :: requote rest := by
  rw [requote, segments_cons plain]
  rfl

theorem requote_append_of_noQuote {s : Text} (plain : ∀ c ∈ s, isQuote c = false) (t : Text) :
    requote (s ++ t) = s ++ requote t := by
  induction s with
  | nil => rfl
  | cons c rest ih =>
    rw [List.cons_append, requote_cons (plain c List.mem_cons_self),
      ih fun d member => plain d (List.mem_cons_of_mem c member)]
    rfl

theorem requote_of_noQuote {t : Text} (plain : ∀ c ∈ t, isQuote c = false) : requote t = t := by
  have whole := requote_append_of_noQuote plain []
  rwa [requote_nil, List.append_nil] at whole

theorem literals_render_append {l : Literal} (proper : l.Proper) (rest : Text) :
    literals (l.render ++ rest) = l :: literals rest := by
  rw [literals, segments_literal proper]
  rfl

theorem unclosed_render_append {l : Literal} (proper : l.Proper) (rest : Text) :
    unclosed (l.render ++ rest) = unclosed rest := by
  rw [unclosed, segments_literal proper]
  rfl

theorem requote_render_append {l : Literal} (proper : l.Proper) (rest : Text) :
    requote (l.render ++ rest) = quoted l.content ++ requote rest := by
  rw [requote, segments_literal proper]
  rfl

theorem requote_unclosed {q : Char} {rest : Text} (quote : isQuote q = true) (fresh : q ∉ rest) :
    requote (q :: rest) = q :: rest := by
  rw [requote, segments_unclosed quote fresh]
  simp [Segment.requoted, Segment.source]

/-- A literal is left open exactly where the text from its quote on is not empty. -/
theorem unclosed_eq_nil_iff (t : Text) : unclosed t = [] ↔ Terminated t := by
  induction t using segmentInduction with
  | nil => exact ⟨fun _ => rfl, fun _ => by rw [unclosed, segments_nil]; rfl⟩
  | plain c rest plain ih => rw [unclosed_cons plain, terminated_cons plain, ih]
  | literal l rest proper ih =>
    rw [unclosed_render_append proper, Terminated, quoteAfter_render_append proper, ih, Terminated]
  | unclosed q rest quote fresh =>
    have left : unclosed (q :: rest) = q :: rest := by
      rw [unclosed, segments_unclosed quote fresh]
      simp
    have state : quoteAfter none (q :: rest) = some q := by
      rw [quoteAfter, quote, if_pos rfl, quoteAfter_some_of_notMem fresh]
    rw [left, Terminated, state]
    simp

/-- The texts before, between and behind the literals of a text that is cut into segments. -/
def Segment.gaps : List Segment → List Text
  | [] => [[]]
  | .plain c :: rest => (gaps rest).modifyHead (c :: ·)
  | .literal _ :: rest => [] :: gaps rest
  | .unclosed _ :: rest => gaps rest

/-- The texts before, between and behind the literals of a text, one more than there are literals. What
stands from a quote on that is never closed is left out. -/
def gaps (t : Text) : List Text := Segment.gaps (segments t)

theorem gaps_cons {c : Char} (plain : isQuote c = false) (rest : Text) :
    gaps (c :: rest) = (gaps rest).modifyHead (c :: ·) := by
  rw [gaps, segments_cons plain]
  rfl

theorem gaps_append_of_noQuote {s : Text} (plain : ∀ c ∈ s, isQuote c = false) (t : Text) :
    gaps (s ++ t) = (gaps t).modifyHead (s ++ ·) := by
  induction s with
  | nil => exact (congrFun List.modifyHead_id (gaps t)).symm
  | cons c rest ih =>
    rw [List.cons_append, gaps_cons (plain c List.mem_cons_self),
      ih fun d member => plain d (List.mem_cons_of_mem c member), List.modifyHead_modifyHead]
    rfl

theorem gaps_render_append {l : Literal} (proper : l.Proper) (rest : Text) :
    gaps (l.render ++ rest) = [] :: gaps rest := by
  rw [gaps, segments_literal proper]
  rfl

/-- What is seen of a text's literals: `f` of each that is closed, and the text of one left open. -/
def quotation {α : Type} (f : Literal → α) (t : Text) : List α × Text :=
  ((literals t).map f, unclosed t)

section

variable {α : Type} {f : Literal → α}

theorem quotation_nil : quotation f [] = ([], []) := by
  rw [quotation, literals, unclosed, segments_nil]
  rfl

theorem quotation_cons {c : Char} (plain : isQuote c = false) (rest : Text) :
    quotation f (c :: rest) = quotation f rest := by
  rw [quotation, literals_cons plain, unclosed_cons plain]
  rfl

theorem quotation_render_append {l : Literal} (proper : l.Proper) (rest : Text) :
    quotation f (l.render ++ rest) = (f l :: (quotation f rest).1, (quotation f rest).2) := by
  rw [quotation, literals_render_append proper, unclosed_render_append proper]
  rfl

theorem quotation_append {s : Text} (closed : Terminated s) (t : Text) :
    quotation f (s ++ t) = ((quotation f s).1 ++ (quotation f t).1, (quotation f t).2) := by
  rw [quotation, literals_append closed, unclosed_append closed, List.map_append,
    (unclosed_eq_nil_iff s).2 closed, List.nil_append]
  rfl

/-- A text without quotes adds nothing. -/
theorem quotation_append_of_noQuote {s : Text} (plain : ∀ c ∈ s, isQuote c = false) (t : Text) :
    quotation f (s ++ t) = quotation f t := by
  induction s with
  | nil => rfl
  | cons c rest ih =>
    rw [List.cons_append, quotation_cons (plain c (by simp)),
      ih fun d member => plain d (List.mem_cons_of_mem c member)]

end

end Literal

end FormLogic
