import FormLogic.Proofs.Quotation
import FormLogic.Proofs.Trimming

/-!
Reading a literal back. A text is read as a literal exactly if it is one without the white space
around it, and white space between the quotes is never taken off. So a content comes back from
between the quotes of the target grammar unless it holds both of them, and a literal that was read
comes back from its own spelling.
-/
namespace FormLogic.Literal

open Text

variable {l : Literal}

theorem render_injective : Function.Injective render := by
  intro k l same
  obtain ⟨quotes, behind⟩ := List.cons.inj same
  rw [quotes] at behind
  have contents : k.content = l.content := List.append_cancel_right behind
  cases k
  cases l
  cases quotes
  cases contents
  rfl

theorem not_isBlank_of_isQuote {c : Char} (quote : isQuote c = true) : isBlank c = false := by
  simp only [isQuote, Bool.or_eq_true, beq_iff_eq] at quote
  rcases quote with rfl | rfl <;> decide

/-- A literal has its quotes at both ends, so there is nothing to trim. -/
theorem trim_render (quote : isQuote l.quote = true) : trim l.render = l.render := by
  have visible := not_isBlank_of_isQuote quote
  refine trim_of_trimmed ⟨?_, ?_⟩
  · intro c first
    cases first
    exact visible
  · intro c last
    rw [render, List.getLast?_concat] at last
    cases last
    exact visible

theorem parse?_of_trim {t : Text} (proper : l.Proper) (whole : trim t = l.render) :
    parse? t = some l := by
  have start : ofStart? l.quote (l.content ++ [l.quote]) = some (l, []) := by
    rw [ofStart?, if_pos proper.quote_isQuote, cutAt?_quote proper []]
    rfl
  rw [parse?, whole, render, List.cons_append]
  dsimp only
  rw [start]

theorem parse?_eq_some_iff {t : Text} : parse? t = some l ↔ l.Proper ∧ trim t = l.render :=
  ⟨parse?_eq_some, fun ⟨proper, whole⟩ => parse?_of_trim proper whole⟩

theorem parse?_render (proper : l.Proper) : parse? l.render = some l :=
  parse?_of_trim proper (trim_render proper.quote_isQuote)

/-- The quotes of the target grammar enclose every content that does not hold both of them. -/
theorem proper_quoteFor_iff {content : Text} :
    (⟨quoteFor content, content⟩ : Literal).Proper ↔ ¬('"' ∈ content ∧ '\'' ∈ content) := by
  refine ⟨fun proper both => proper.quote_notMem ?_, fun apart => proper_quoteFor (not_and.1 apart)⟩
  have single : quoteFor content = '\'' := by simp [quoteFor, both.1]
  rw [single]
  exact both.2

/-- A content with both quotes is not read as any literal: the text ends behind the quote that the
content holds. -/
theorem parse?_quoted (content : Text) :
    parse? (quoted content) =
      if '"' ∈ content ∧ '\'' ∈ content then none else some ⟨quoteFor content, content⟩ := by
  split
  · next both =>
    refine Option.eq_none_iff_forall_ne_some.2 fun l found => ?_
    obtain ⟨proper, whole⟩ := parse?_eq_some_iff.1 found
    rw [quoted, trim_render (isQuote_quoteFor content)] at whole
    exact proper_quoteFor_iff.1 (render_injective whole ▸ proper) both
  · next apart => exact parse?_render (proper_quoteFor_iff.2 apart)

/-- Quoting and reading are inverse to each other. A content comes back exactly if it does not hold
both quotes, and nothing is read otherwise. A literal that is read is the text without the white
space around it and does not hold its own quote; it comes back from its own spelling, and its content
from the spelling of the target grammar. -/
theorem parse?_quoted_inverse :
    (∀ content, ((∃ l, parse? (quoted content) = some l ∧ l.content = content) ↔
          ¬('"' ∈ content ∧ '\'' ∈ content)) ∧
        ('"' ∈ content ∧ '\'' ∈ content → parse? (quoted content) = none)) ∧
      ∀ t l, parse? t = some l →
        l.render = trim t ∧ parse? l.render = some l ∧ l.quote ∉ l.content ∧
          ∃ m, parse? (quoted l.content) = some m ∧ m.content = l.content := by
  constructor
  · intro content
    rw [parse?_quoted]
    split
    · next both => simp [both]
    · next apart => exact ⟨⟨fun _ => apart, fun _ => ⟨_, rfl, rfl⟩⟩, fun both => absurd both apart⟩
  · intro t l found
    obtain ⟨proper, whole⟩ := parse?_eq_some_iff.1 found
    exact ⟨whole.symm, parse?_render proper, proper.quote_notMem,
      _, parse?_render proper.proper_quoteFor, rfl⟩

/-- A literal with a double quote and white space in its content, between other kinds of white
space. -/
theorem parse?_quoted_inverse_spaced :
    parse? "\u00a0\n' “é” or \"e\"\u2003' \t".toList = some ⟨'\'', " “é” or \"e\"\u2003".toList⟩ ∧
      (∃ m, parse? (quoted " “é” or \"e\"\u2003".toList) = some m ∧
        m.content = " “é” or \"e\"\u2003".toList) ∧
      parse? (quoted "'\"".toList) = none := by
  have found : parse? "\u00a0\n' “é” or \"e\"\u2003' \t".toList =
      some ⟨'\'', " “é” or \"e\"\u2003".toList⟩ := by decide +kernel
  obtain ⟨_, _, _, back⟩ := parse?_quoted_inverse.2 _ _ found
  exact ⟨found, back, (parse?_quoted_inverse.1 "'\"".toList).2 (by decide)⟩

end FormLogic.Literal
