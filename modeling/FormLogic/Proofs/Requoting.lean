import FormLogic.Proofs.Grouping
import FormLogic.Proofs.Trimming

/-!
Requoting a text before it is cut up. Requoting changes no character but quotes, and literals begin
and end where they did; so a text is trimmed, its groups end and its arguments are cut alike before
and after, and a text that begins with characters other than quotes still begins with them.
-/
namespace FormLogic

open Text Call

namespace Literal

theorem requote_render {l : Literal} (proper : l.Proper) : requote l.render = quoted l.content := by
  have whole := requote_render_append proper []
  rwa [requote_nil, List.append_nil, List.append_nil] at whole

theorem requote_quoted_append {content : Text}
    (proper : (⟨quoteFor content, content⟩ : Literal).Proper) (t : Text) :
    requote (quoted content ++ t) = quoted content ++ requote t :=
  requote_render_append proper t

/-- Requoting twice changes nothing more. -/
theorem requote_requote (t : Text) : requote (requote t) = requote t := by
  induction t using segmentInduction with
  | nil => rw [requote_nil, requote_nil]
  | plain c rest plain ih => rw [requote_cons plain, requote_cons plain, ih]
  | literal l rest proper ih =>
    rw [requote_render_append proper, requote_quoted_append proper.proper_quoteFor, ih]
  | unclosed q rest quote fresh => rw [requote_unclosed quote fresh, requote_unclosed quote fresh]

/-- The literals of a requoted text have the contents that they had, in the quotes for them. -/
theorem literals_requote (t : Text) :
    literals (requote t) = (literals t).map fun l => ⟨quoteFor l.content, l.content⟩ := by
  induction t using segmentInduction with
  | nil => rw [requote_nil, literals, segments_nil]; rfl
  | plain c rest plain ih => rw [requote_cons plain, literals_cons plain, literals_cons plain, ih]
  | literal l rest proper ih =>
    rw [requote_render_append proper, quoted, literals_render_append proper.proper_quoteFor,
      literals_render_append proper, ih, List.map_cons]
  | unclosed q rest quote fresh =>
    rw [requote_unclosed quote fresh, literals, segments_unclosed quote fresh]
    rfl

/-- Requoting changes nothing between literals. -/
theorem gaps_requote (t : Text) : gaps (requote t) = gaps t := by
  induction t using segmentInduction with
  | nil => rw [requote_nil]
  | plain c rest plain ih => rw [requote_cons plain, gaps_cons plain, gaps_cons plain, ih]
  | literal l rest proper ih =>
    rw [requote_render_append proper, quoted, gaps_render_append proper.proper_quoteFor,
      gaps_render_append proper, ih]
  | unclosed q rest quote fresh => rw [requote_unclosed quote fresh]

section Ends

variable {p : Char → Bool}

theorem of_isQuote_quoteFor (alike : p '\'' = p '"') (content : Text) :
    p (quoteFor content) = p '"' := by
  unfold quoteFor
  split
  · exact alike
  · rfl

theorem of_isQuote_alike {q : Char} (quote : isQuote q = true) (alike : p '\'' = p '"') :
    p q = p '"' := by
  simp only [isQuote, Bool.or_eq_true, beq_iff_eq] at quote
  rcases quote with rfl | rfl
  · exact alike
  · rfl

/-- The first character stays in every class that does not tell the quotes apart. -/
theorem any_head?_requote (alike : p '\'' = p '"') (t : Text) :
    (requote t).head?.any p = t.head?.any p := by
  cases t using segmentInduction with
  | nil => rw [requote_nil]
  | plain c rest plain => rw [requote_cons plain]; rfl
  | literal l rest proper =>
    rw [requote_render_append proper]
    exact (of_isQuote_quoteFor alike l.content).trans
      (of_isQuote_alike proper.quote_isQuote alike).symm
  | unclosed q rest quote fresh => rw [requote_unclosed quote fresh]

theorem head?_requote_iff {c : Char} (plain : isQuote c = false) (t : Text) :
    (requote t).head? = some c ↔ t.head? = some c := by
  have single : ('\'' == c) = ('"' == c) := by
    have left : '\'' ≠ c := fun same => by rw [← same] at plain; cases plain
    have right : '"' ≠ c := fun same => by rw [← same] at plain; cases plain
    rw [beq_eq_false_iff_ne.2 left, beq_eq_false_iff_ne.2 right]
  have same := any_head?_requote (p := (· == c)) single t
  rw [Bool.eq_iff_iff] at same
  simpa [Option.any_eq_true] using same

theorem getLast?_render (l : Literal) : l.render.getLast? = some l.quote := by
  rw [Literal.render, List.getLast?_concat]

/-- The last character stays in every class that does not tell the quotes apart. -/
theorem any_getLast?_requote (alike : p '\'' = p '"') (t : Text) (before : Option Char) :
    ((requote t).getLast?.or before).any p = (t.getLast?.or before).any p := by
  induction t using segmentInduction generalizing before with
  | nil => rw [requote_nil]
  | plain c rest plain ih =>
    rw [requote_cons plain, getLast?_cons_or, getLast?_cons_or]
    exact ih _
  | literal l rest proper ih =>
    rw [requote_render_append proper, List.getLast?_append, List.getLast?_append, quoted,
      getLast?_render, getLast?_render, Option.or_assoc, Option.or_assoc]
    refine (ih _).trans ?_
    cases rest.getLast? with
    | none =>
      exact (of_isQuote_quoteFor alike l.content).trans
        (of_isQuote_alike proper.quote_isQuote alike).symm
    | some c => rfl
  | unclosed q rest quote fresh => rw [requote_unclosed quote fresh]

end Ends

theorem requote_append_right {t : Text} (plain : ∀ c ∈ t, isQuote c = false) (s : Text) :
    requote (s ++ t) = requote s ++ t := by
  induction s using segmentInduction with
  | nil => rw [requote_nil]; exact requote_of_noQuote plain
  | plain c rest quoteless ih =>
    rw [List.cons_append, requote_cons quoteless, requote_cons quoteless, ih, List.cons_append]
  | literal l rest proper ih =>
    rw [List.append_assoc, requote_render_append proper, requote_render_append proper, ih,
      List.append_assoc]
  | unclosed q rest quote fresh =>
    rw [requote_unclosed quote fresh, List.cons_append]
    refine requote_unclosed quote fun member => ?_
    rcases List.mem_append.1 member with member | member
    · exact fresh member
    · rw [plain q member] at quote
      cases quote

theorem requote_eq_nil_iff {t : Text} : requote t = [] ↔ t = [] := by
  constructor
  · intro nothing
    have head := any_head?_requote (p := fun _ => true) rfl t
    rw [nothing] at head
    cases t with
    | nil => rfl
    | cons c rest => cases head
  · rintro rfl
    exact requote_nil

/-- A text that begins with characters other than quotes does so before it is requoted. -/
theorem of_requote_eq_append {t u v : Text} (plain : ∀ c ∈ u, isQuote c = false)
    (same : requote t = u ++ v) : ∃ w, t = u ++ w ∧ requote w = v := by
  induction u generalizing t with
  | nil => exact ⟨t, rfl, same⟩
  | cons c u ih =>
    have first := plain c List.mem_cons_self
    have head : t.head? = some c := by
      rw [← head?_requote_iff first, same]
      rfl
    obtain ⟨rest, rfl⟩ := List.head?_eq_some_iff.1 head
    rw [requote_cons first, List.cons_append] at same
    obtain ⟨w, rfl, behind⟩ := ih (fun d member => plain d (List.mem_cons_of_mem c member))
      (List.cons.inj same).2
    exact ⟨w, rfl, behind⟩

theorem isBlank_noQuote {t : Text} (blank : Blank t) : ∀ c ∈ t, isQuote c = false :=
  fun c member => not_isQuote (blank c member) (by decide) (by decide)

theorem trim_requote (t : Text) : trim (requote t) = requote (trim t) := by
  obtain ⟨lead, trail, whole, leadBlank, trailBlank⟩ := trim_split t
  have trimmed : Trimmed (requote (trim t)) := by
    have ends := trimmed_trim t
    have head := any_head?_requote (p := isBlank) (by decide) (trim t)
    have last := any_getLast?_requote (p := isBlank) (by decide) (trim t) none
    rw [Option.or_none, Option.or_none] at last
    exact ⟨(Option.any_eq_false _ _).1 (head.trans ((Option.any_eq_false _ _).2 ends.head)),
      (Option.any_eq_false _ _).1 (last.trans ((Option.any_eq_false _ _).2 ends.last))⟩
  conv => lhs; rw [whole]
  rw [requote_append_of_noQuote (isBlank_noQuote leadBlank),
    requote_append_right (isBlank_noQuote trailBlank)]
  exact trim_blank_append trimmed leadBlank trailBlank

end Literal

namespace Call

open Literal

/-- A group does not end within a literal. -/
theorem closeGroup_content {q : Char} {content : Text} (fresh : q ∉ content) (depth : Nat)
    (t : Text) :
    closeGroup ⟨depth, some q⟩ (content ++ q :: t) =
      (closeGroup ⟨depth, none⟩ t).map fun (body, after) => (content ++ q :: body, after) := by
  have within (c : Char) : ¬(c = ')' ∧ (⟨depth, some q⟩ : Place) = .outside) :=
    fun both => Place.ne_outside q depth both.2
  induction content with
  | nil =>
    rw [List.nil_append, closeGroup, if_neg (within q), Place.next_same]
    rfl
  | cons c content ih =>
    simp only [List.mem_cons, not_or] at fresh
    rw [List.cons_append, closeGroup, if_neg (within c), Place.next_content (Ne.symm fresh.1),
      ih fresh.2, Option.map_map]
    rfl

theorem closeGroup_open {q : Char} {t : Text} (fresh : q ∉ t) (depth : Nat) :
    closeGroup ⟨depth, some q⟩ t = none := by
  induction t with
  | nil => rfl
  | cons c rest ih =>
    simp only [List.mem_cons, not_or] at fresh
    rw [closeGroup, if_neg fun both => Place.ne_outside q depth both.2,
      Place.next_content (Ne.symm fresh.1), ih fresh.2]
    rfl

theorem closeGroup_quote {q : Char} (quote : isQuote q = true) (depth : Nat) (t : Text) :
    closeGroup ⟨depth, none⟩ (q :: t) =
      (closeGroup ⟨depth, some q⟩ t).map fun (body, after) => (q :: body, after) := by
  have closing : q ≠ ')' := ne_of_class quote (by decide)
  rw [closeGroup, if_neg fun both => closing both.1, Place.next_quote quote]

theorem closeGroup_render {l : Literal} (proper : l.Proper) (depth : Nat) (t : Text) :
    closeGroup ⟨depth, none⟩ (l.render ++ t) =
      (closeGroup ⟨depth, none⟩ t).map fun (body, after) => (l.render ++ body, after) := by
  rw [cons_quote_append, closeGroup_quote proper.quote_isQuote,
    closeGroup_content proper.quote_notMem, Option.map_map]
  congr 1
  funext found
  simp [cons_quote_append]

/-- A group ends where it did before its literals were requoted. -/
theorem closeGroup_requote (t : Text) (depth : Nat) :
    closeGroup ⟨depth, none⟩ (requote t) =
      (closeGroup ⟨depth, none⟩ t).map fun (body, after) => (requote body, requote after) := by
  induction t using segmentInduction generalizing depth with
  | nil => rw [requote_nil]; rfl
  | plain c rest plain ih =>
    obtain ⟨deeper, step⟩ := Place.next_plain plain depth
    rw [requote_cons plain, closeGroup, closeGroup]
    split
    · rw [Option.map_some]
      dsimp only
      rw [requote_nil]
    · rw [step, ih, Option.map_map, Option.map_map]
      congr 1
      funext found
      simp [requote_cons plain]
  | literal l rest proper ih =>
    rw [requote_render_append proper, quoted, closeGroup_render proper.proper_quoteFor, ih,
      closeGroup_render proper, Option.map_map, Option.map_map]
    congr 1
    funext found
    simp [requote_render_append proper, quoted]
  | unclosed q rest quote fresh =>
    rw [requote_unclosed quote fresh, closeGroup_quote quote, closeGroup_open fresh]
    rfl

theorem splitArguments_open {q : Char} {t : Text} (fresh : q ∉ t) (depth : Nat) :
    splitArguments ⟨depth, some q⟩ t = [t] := by
  induction t with
  | nil => rfl
  | cons c rest ih =>
    simp only [List.mem_cons, not_or] at fresh
    rw [splitArguments, if_neg fun both => Place.ne_outside q depth both.2,
      Place.next_content (Ne.symm fresh.1), ih fresh.2]
    rfl

theorem map_modifyHead {u v : Text} {ts : List Text}
    (same : ∀ t, requote (u ++ t) = v ++ requote t) :
    (ts.modifyHead (u ++ ·)).map requote = (ts.map requote).modifyHead (v ++ ·) := by
  cases ts with
  | nil => rfl
  | cons t rest => simp [same]

/-- Arguments end where they did before literals were requoted. -/
theorem splitArguments_requote (t : Text) (depth : Nat) :
    splitArguments ⟨depth, none⟩ (requote t) = (splitArguments ⟨depth, none⟩ t).map requote := by
  induction t using segmentInduction generalizing depth with
  | nil => rw [requote_nil, splitArguments, List.map_singleton, requote_nil]
  | plain c rest plain ih =>
    obtain ⟨deeper, step⟩ := Place.next_plain plain depth
    rw [requote_cons plain, splitArguments, splitArguments]
    split
    · rw [List.map_cons, requote_nil, Place.outside, ih]
    · rw [step, ih]
      exact (map_modifyHead (u := [c]) (v := [c]) fun t => requote_cons plain t).symm
  | literal l rest proper ih =>
    rw [requote_render_append proper, quoted, splitArguments_render proper.proper_quoteFor, ih,
      splitArguments_render proper]
    exact (map_modifyHead fun t => requote_render_append proper t).symm
  | unclosed q rest quote fresh =>
    have comma : q ≠ ',' := ne_of_class quote (by decide)
    have whole : splitArguments ⟨depth, none⟩ (q :: rest) = [q :: rest] := by
      rw [splitArguments, if_neg fun both => comma both.1, Place.next_quote quote,
        splitArguments_open fresh]
      rfl
    rw [requote_unclosed quote fresh, whole, List.map_singleton, requote_unclosed quote fresh]

/-- The call with its literals requoted. -/
def requoted (c : Call) : Call := ⟨c.run, c.gap, requote c.body⟩

theorem arguments_requoted (c : Call) : c.requoted.arguments = c.arguments.map requote := by
  have blank : (requote c.body).all isBlank = c.body.all isBlank := by
    have nothing (t : Text) : t.all isBlank = true ↔ trim t = [] := by
      rw [trim_eq_nil_iff, List.all_eq_true]
      rfl
    rw [Bool.eq_iff_iff, nothing, nothing, trim_requote, requote_eq_nil_iff]
  rw [arguments, arguments, requoted, blank]
  split
  · rfl
  · exact splitArguments_requote c.body 0

end Call

end FormLogic
