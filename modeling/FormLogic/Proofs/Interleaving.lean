import FormLogic.Proofs.Passes

/-!
Texts put together from what stands between their literals and from the literals. A rewriting that
writes literals anew and copies the rest is told by the new literals alone, so requoting, which keeps
contents and what stands between literals, is known exactly; and what stands between literals and the
kind of a quote are of no concern to each other, so it does not matter whether operators get their target
form before or after.
-/
namespace FormLogic

open Text

namespace Text

/-- Texts with other texts between them, for as long as there are any. -/
def interleaved : List Text → List Text → Text
  | [], _ => []
  | s :: _, [] => s
  | s :: ss, t :: ts => s ++ (t ++ interleaved ss ts)

theorem interleaved_modifyHead {u : Text} {ss : List Text} (nonempty : ss ≠ []) (ts : List Text) :
    interleaved (ss.modifyHead (u ++ ·)) ts = u ++ interleaved ss ts := by
  cases ss with
  | nil => exact absurd rfl nonempty
  | cons s rest => cases ts <;> simp [interleaved]

end Text

namespace Literal

theorem gaps_ne_nil (t : Text) : gaps t ≠ [] := by
  induction t using segmentInduction with
  | nil => rw [gaps, segments_nil]; exact List.cons_ne_nil _ _
  | plain c rest plain ih =>
    rw [gaps_cons plain]
    cases same : gaps rest with
    | nil => exact absurd same ih
    | cons s others => exact List.cons_ne_nil _ _
  | literal l rest proper ih => rw [gaps_render_append proper]; exact List.cons_ne_nil _ _
  | unclosed q rest quote fresh => rw [gaps, segments_unclosed quote fresh]; exact List.cons_ne_nil _ _

/-- A text is what stands between its literals, with the literals there, and the text from a quote on
that is never closed. -/
theorem interleaved_gaps (t : Text) :
    interleaved (gaps t) ((literals t).map render) ++ unclosed t = t := by
  induction t using segmentInduction with
  | nil => rw [gaps, literals, unclosed, segments_nil]; rfl
  | plain c rest plain ih =>
    rw [gaps_cons plain, literals_cons plain, unclosed_cons plain]
    exact (congrArg (· ++ _) (interleaved_modifyHead (u := [c]) (gaps_ne_nil rest) _)).trans
      (congrArg (c :: ·) ih)
  | literal l rest proper ih =>
    rw [gaps_render_append proper, literals_render_append proper, unclosed_render_append proper,
      List.map_cons, interleaved, List.nil_append, List.append_assoc, ih]
  | unclosed q rest quote fresh =>
    rw [gaps, literals, unclosed, segments_unclosed quote fresh]
    exact List.append_nil (q :: rest)

theorem unclosed_requote (t : Text) : unclosed (requote t) = unclosed t :=
  congrArg Prod.snd (Conversion.quotation_requote (f := Literal.content) (fun _ _ => rfl) t)

/-- Requoting keeps the contents of literals, what stands between and behind them, and the text from a
quote on that is never closed. Each literal gets double quotes unless its content holds one. Requoting
again changes nothing, and operators may get their target form before or after. -/
theorem requote_faithful (t : Text) :
    (literals (requote t)).map content = (literals t).map content ∧
      gaps (requote t) = gaps t ∧
      unclosed (requote t) = unclosed t ∧
      (∀ l ∈ literals (requote t), l.quote = if '"' ∈ l.content then '\'' else '"') ∧
      requote t = interleaved (gaps t) ((literals t).map fun l => quoted l.content) ++ unclosed t ∧
      requote (requote t) = requote t ∧
      requote (Operator.normalize t) = Operator.normalize (requote t) := by
  have requotedLiterals := literals_requote t
  refine ⟨?_, gaps_requote t, unclosed_requote t, ?_, ?_, requote_requote t,
    Operator.requote_normalize t⟩
  · rw [requotedLiterals, List.map_map]
    rfl
  · intro l member
    rw [requotedLiterals] at member
    obtain ⟨k, _, rfl⟩ := List.mem_map.1 member
    simp [quoteFor]
  · have parts := interleaved_gaps (requote t)
    rw [gaps_requote, unclosed_requote, requotedLiterals, List.map_map] at parts
    exact parts.symm

/-- A content with a double quote beside one without, and a quote that is never closed. -/
theorem requote_faithful_mixed :
    requote "a='x' and'say \"hi\"'or b='y".toList = "a=\"x\" and'say \"hi\"'or b='y".toList ∧
      (∃ l ∈ literals (requote "a='x' and'say \"hi\"'or b='y".toList),
        l.content = "say \"hi\"".toList ∧ l.quote = '\'') ∧
      requote (Operator.normalize "a='x' and'say \"hi\"'or b='y".toList) =
        "a==\"x\"  and  'say \"hi\"'  or  b=='y".toList := by
  obtain ⟨_, _, _, quotes, _, _, either⟩ := requote_faithful "a='x' and'say \"hi\"'or b='y".toList
  refine ⟨by decide +kernel, ⟨⟨'\'', "say \"hi\"".toList⟩, by decide +kernel, rfl, ?_⟩, ?_⟩
  · exact quotes ⟨'\'', "say \"hi\"".toList⟩ (by decide +kernel)
  · rw [either]
    decide +kernel

end Literal

end FormLogic
