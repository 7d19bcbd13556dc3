import FormLogic.Proofs.Preservation
import FormLogic.Proofs.Requoting

/-!
The passes of a conversion over a text whose literals have been requoted. No scanner looks into a
literal or tells the quotes apart, so each reads the same items in both texts, requoted where they
are literals. What a pass writes for the requoted text is therefore what it writes for the text,
requoted.
-/
namespace FormLogic

open Text Call Literal

section Ends

variable {p : Char → Bool}

theorem any_last_requote (alike : p '\'' = p '"') (t : Text) :
    (requote t).getLast?.any p = t.getLast?.any p := by
  have same := any_getLast?_requote alike t none
  rwa [Option.or_none, Option.or_none] at same

theorem any_or_head?_requote (alike : p '\'' = p '"') (t : Text) (after : Option Char) :
    ((requote t).head?.or after).any p = (t.head?.or after).any p := by
  have same := any_head?_requote alike t
  cases t with
  | nil => rw [requote_nil]
  | cons c rest =>
    cases head : (requote (c :: rest)).head? with
    | none => rw [List.head?_eq_none_iff, requote_eq_nil_iff] at head; cases head
    | some d => rw [head] at same; exact same

theorem startsToken_requote (t : Text) :
    startsToken (requote t).getLast? = startsToken t.getLast? := by
  rw [startsToken, startsToken, any_last_requote (by decide)]

end Ends

namespace Field.Reference

theorem startsPath_of_quote {c : Char} (quote : isQuote c = true) (rest : Text) :
    startsPath (c :: rest) = false := by
  rw [startsPath_eq, beq_eq_false_iff_ne.2 (ne_of_class quote (by decide)),
    beq_eq_false_iff_ne.2 (ne_of_class quote (by decide))]
  rfl

theorem startsPath_requote (t : Text) : startsPath (requote t) = startsPath t := by
  cases t using segmentInduction with
  | nil => rw [requote_nil]
  | plain c rest plain =>
    rw [requote_cons plain, startsPath_eq, startsPath_eq, any_head?_requote (by decide),
      any_head?_requote (by decide)]
  | literal l rest proper =>
    rw [requote_render_append proper, quoted, cons_quote_append, cons_quote_append,
      startsPath_of_quote proper.proper_quoteFor.quote_isQuote,
      startsPath_of_quote proper.quote_isQuote]
  | unclosed q rest quote fresh => rw [requote_unclosed quote fresh]

namespace Fragment

/-- The fragment with its literal requoted. -/
def requoted : Fragment → Fragment
  | plain text => plain (requote text)
  | reference token => reference token

variable {before : Option Char}

/-- A reference that is read in a requoted text stands in the text itself. -/
theorem Step.of_requote {t token after : Text}
    (step : Step before (requote t) (.reference token) after) :
    ∃ rest, t = token ++ rest ∧ Step before t (.reference token) rest := by
  have noQuote := step.shape.noQuote
  obtain ⟨rest, rfl, behind⟩ := of_requote_eq_append noQuote step.source_append.symm
  refine ⟨rest, rfl, ?_⟩
  rw [← behind] at step
  generalize whole : requote (token ++ rest) = s at step
  cases step with
  | braced fresh valid => exact .braced fresh valid
  | current starts all slash stop =>
    refine .current starts all slash ?_
    split
    · next atEnd =>
      rw [if_pos atEnd] at stop
      exact fun head => stop ((head?_requote_iff (by decide) rest).2 head)
    · next continued =>
      rw [if_neg continued, any_head?_requote (by decide)] at stop
      exact stop
  | path starts isPath all stop =>
    rw [any_head?_requote (by decide)] at stop
    rw [← whole, startsPath_requote] at isPath
    exact .path starts isPath all stop

/-- A requoted text begins with the fragment of the text, requoted. -/
theorem Step.requote {t rest : Text} {s : Fragment} (step : Step before t s rest) :
    Step before (requote t) s.requoted (requote rest) := by
  cases step with
  | literal proper =>
    rw [requote_render_append proper, requoted, requote_render proper]
    exact .literal proper.proper_quoteFor
  | unclosed quote fresh =>
    rw [requoted, requote_unclosed quote fresh, requote_nil]
    exact .unclosed quote fresh
  | braced fresh valid =>
    rw [requote_append_of_noQuote fun c member => (braced_plain valid c member).2.2]
    exact .braced fresh valid
  | @current path rest starts all slash stop =>
    rw [requote_append_of_noQuote (Shape.current all).noQuote]
    refine .current starts all slash ?_
    split
    · next atEnd =>
      rw [if_pos atEnd] at stop
      exact fun head => stop ((head?_requote_iff (by decide) rest).1 head)
    · next continued =>
      rw [if_neg continued] at stop
      rw [any_head?_requote (by decide)]
      exact stop
  | @path token rest starts isPath all stop =>
    have whole : Literal.requote (token ++ rest) = token ++ Literal.requote rest :=
      requote_append_of_noQuote (fun c member => (isPathChar_plain (all c member)).2.2) rest
    rw [whole]
    refine .path starts ?_ all ?_
    · rw [← whole, startsPath_requote]
      exact isPath
    · rw [any_head?_requote (by decide)]
      exact stop
  | @char c rest plain noToken =>
    rw [requote_cons plain, requoted, requote_of_noQuote (t := [c]) (by simpa using plain)]
    refine .char plain ?_
    -- A token in the requoted text would be one in the text.
    cases found : token? before (c :: Literal.requote rest) with
    | none => rfl
    | some cut =>
      have reference := step_token found
      rw [← requote_cons plain] at reference
      obtain ⟨later, _, other⟩ := reference.of_requote
      obtain ⟨d, more, same, read⟩ := next_of_step other
      cases same
      have char := Step.char plain noToken
      obtain ⟨d, more, same, read'⟩ := next_of_step char
      cases same
      rw [read] at read'
      cases read'

end Fragment

section

variable {meaning : Text → Text} {before written after : Option Char}

theorem noQuote_spaced (referent : ∀ token, Shape token → Referent (meaning token)) {token : Text}
    (shape : Shape token) :
    ∀ c ∈ spaced meaning written after token, isQuote c = false :=
  fun c member => (((referent token shape).written (separator_eq _ _) (separator_eq _ _)).1 c
    member).2

theorem spaced_congr {after' : Option Char} (same : after.any isWordChar = after'.any isWordChar)
    (token : Text) : spaced meaning written after token = spaced meaning written after' token := by
  rw [spaced, spaced, separator_congr rfl same]

/-- Replacing references and requoting may be done in either order. -/
theorem requote_replaced (referent : ∀ token, Shape token → Referent (meaning token)) (t : Text) :
    Literal.requote (replaced meaning before written after t) =
      replaced meaning before written after (Literal.requote t) := by
  induction before, t using Fragment.stepInduction generalizing written with
  | nil before => rw [replaced_nil, requote_nil, replaced_nil]
  | step before t s rest step ih =>
    cases s with
    | reference token =>
      have behind : spaced meaning written ((Literal.requote rest).head?.or after) token =
          spaced meaning written (rest.head?.or after) token := by
        refine spaced_congr ?_ token
        rw [any_or_head?_requote (by decide)]
      rw [replaced_reference step, replaced_reference step.requote, behind,
        requote_append_of_noQuote (noQuote_spaced referent step.shape)]
      exact congrArg (_ ++ ·) ih
    | plain text =>
      have later : replaced meaning (Literal.requote text).getLast? (Literal.requote text).getLast?
          after (Literal.requote rest) =
          Literal.requote (replaced meaning text.getLast? text.getLast? after rest) :=
        (replaced_congr (startsToken_requote text) (any_last_requote (by decide) text) rfl _).trans
          ih.symm
      rw [replaced_plain step, replaced_plain step.requote, later]
      cases step with
      | literal proper => rw [requote_append (terminated_render proper)]
      | unclosed quote fresh => rw [replaced_nil, requote_nil, List.append_nil, List.append_nil]
      | char plain noToken => rw [requote_append ((terminated_cons plain []).2 rfl)]

end

end Field.Reference

namespace Operator

theorem standsAlone_requote (before : Option Char) (t : Text) :
    standsAlone before (requote t) = standsAlone before t := by
  have same : ((requote t).head? != some '=') = (t.head? != some '=') := by
    rw [Bool.eq_iff_iff, bne_iff_ne, bne_iff_ne, Ne, Ne, head?_requote_iff (by decide)]
  rw [standsAlone, standsAlone, same]

theorem endsWord_requote (t : Text) : endsWord (requote t) = endsWord t := by
  rw [endsWord, endsWord, any_head?_requote (by decide)]

theorem noQuote_word (word : BooleanWord) : ∀ c ∈ word.render, isQuote c = false := by
  cases word <;> decide

namespace Token

/-- The token with its literal requoted. -/
def requoted : Token → Token
  | quotedText text => quotedText (requote text)
  | token => token

variable {before : Option Char}

/-- A requoted text begins with the token of the text, requoted. -/
theorem Step.requote {t rest : Text} {token : Token} (step : Step before t token rest) :
    Step before (requote t) token.requoted (requote rest) := by
  cases step with
  | literal proper =>
    rw [requote_render_append proper, requoted, requote_render proper]
    exact .literal proper.proper_quoteFor
  | unclosed quote fresh =>
    rw [requoted, requote_unclosed quote fresh, requote_nil]
    exact .unclosed quote fresh
  | equals alone =>
    rw [requote_cons (by decide)]
    exact .equals (by rw [standsAlone_requote]; exact alone)
  | @boolean word rest starts ends =>
    rw [requote_append_of_noQuote (noQuote_word word)]
    exact .boolean starts (by rw [endsWord_requote]; exact ends)
  | space space =>
    rw [requote_cons (isSpace_plain space)]
    exact .space space
  | @other c rest plain visible joined noWord =>
    rw [requote_cons plain]
    refine .other plain visible (fun equal => by rw [standsAlone_requote]; exact joined equal) ?_
    -- A boolean word in the requoted text would be one in the text.
    cases found : booleanWord? before (c :: Literal.requote rest) with
    | none => rfl
    | some cut =>
      obtain ⟨word, after⟩ := cut
      obtain ⟨starts, ends⟩ := ends_of_booleanWord? found
      have whole := eq_of_booleanWord? found
      rw [← requote_cons plain] at whole
      obtain ⟨later, same, behind⟩ := of_requote_eq_append (noQuote_word word) whole
      rw [← behind, endsWord_requote] at ends
      rw [same, booleanWord?_render starts ends] at noWord
      cases noWord

end Token

variable {before : Option Char}

theorem tokens_requote (t : Text) :
    tokens before (requote t) = (tokens before t).map Token.requoted := by
  induction before, t using Token.stepInduction with
  | nil before => rw [requote_nil, tokens_nil]; rfl
  | step before t token rest step ih =>
    have last : tokens token.requoted.source.getLast? (requote rest) =
        tokens token.source.getLast? (requote rest) := by
      cases token with
      | quotedText text =>
        refine tokens_congr_before ?_ (any_last_requote (by decide) text) _
        rw [startsWord, startsWord]
        exact congrArg _ (any_last_requote (by decide) text)
      | _ => rfl
    rw [tokens_step step, tokens_step step.requote, List.map_cons, last, ih]

theorem leadsToBoolean_requoted (ts : List Token) :
    leadsToBoolean (ts.map Token.requoted) = leadsToBoolean ts := by
  induction ts with
  | nil => rfl
  | cons token rest ih => cases token <;> first | exact ih | rfl

/-- Normalizing operators and requoting may be done in either order. -/
theorem requote_render (spaced : Bool) (t : Text) :
    requote (render spaced (tokens before t)) = render spaced (tokens before (requote t)) := by
  rw [tokens_requote]
  induction before, t using Token.stepInduction generalizing spaced with
  | nil before => rw [tokens_nil]; exact requote_nil
  | step before t token rest step ih =>
    rw [tokens_step step, List.map_cons]
    cases step with
    | literal proper =>
      rw [render, Token.requoted, render, requote_append (terminated_render proper), ih]
    | unclosed quote fresh =>
      rw [tokens_nil, render, Token.requoted, render, render, List.map_nil, render, List.append_nil,
        List.append_nil]
    | equals alone =>
      dsimp only [Token.requoted]
      rw [render, render, requote_cons (by decide), requote_cons (by decide), ih]
    | @boolean word rest starts ends =>
      dsimp only [Token.requoted]
      rw [render, render, requote_append_of_noQuote fun c member => (boolean_plain word c member).2.2,
        ih]
    | space space =>
      dsimp only [Token.requoted]
      rw [render, render, leadsToBoolean_requoted]
      split
      · exact ih spaced
      · rw [requote_cons (isSpace_plain space), ih]
    | other plain visible joined noWord =>
      dsimp only [Token.requoted]
      rw [render, render, requote_cons plain, ih]

theorem requote_normalize (t : Text) : requote (normalize t) = normalize (requote t) :=
  requote_render false t

end Operator

namespace Call

open Field.Reference

namespace Piece

/-- The piece with its literals requoted. -/
def requoted : Piece → Piece
  | plain text => plain (requote text)
  | call c => call c.requoted
  | unbalanced run gap => unbalanced run gap

variable {accept : Text → Bool} {before : Option Char}

theorem requote_call_append {c : Call} (names : ∀ d ∈ c.run, isNameChar d = true)
    (spaces : ∀ d ∈ c.gap, isSpace d = true) (closed : closes .outside c.body = true) (t : Text) :
    requote (c.render ++ t) = c.requoted.render ++ requote t := by
  have whole : c.render ++ t = c.run ++ c.gap ++ ['('] ++ (c.body ++ ([')'] ++ t)) := by
    simp [Call.render]
  rw [whole, requote_append_of_noQuote (noQuote_opening names spaces),
    requote_append (terminated_of_closes closed),
    requote_append_of_noQuote (s := [')']) (by decide)]
  simp [Call.requoted, Call.render]

theorem openedGroup?_requote {t : Text} (noGroup : openedGroup? t = none) :
    openedGroup? (requote t) = none := by
  cases found : openedGroup? (requote t) with
  | none => rfl
  | some cut =>
    obtain ⟨gap, inside⟩ := cut
    obtain ⟨whole, spaces⟩ := openedGroup?_eq_some_iff.1 found
    have plain : ∀ c ∈ gap ++ ['('], isQuote c = false := by
      intro c member
      rcases List.mem_append.1 member with member | member
      · exact (isSpace_plain (spaces c member)).2.2
      · rw [List.mem_singleton.1 member]
        decide
    have front : requote t = (gap ++ ['(']) ++ inside := by rw [whole]; simp
    obtain ⟨rest, same, _⟩ := of_requote_eq_append plain front
    have opened : openedGroup? t = some (gap, rest) :=
      openedGroup?_eq_some_iff.2 ⟨by rw [same]; simp, spaces⟩
    rw [opened] at noGroup
    cases noGroup

/-- A requoted text begins with the piece of the text, requoted. -/
theorem Step.requote {t rest : Text} {p : Piece} (step : Step accept before t p rest) :
    Step accept before (requote t) p.requoted (requote rest) := by
  cases step with
  | literal proper =>
    rw [requote_render_append proper, requoted, requote_render proper]
    exact .literal proper.proper_quoteFor
  | unclosed quote fresh =>
    rw [requoted, requote_unclosed quote fresh, requote_nil]
    exact .unclosed quote fresh
  | token fresh valid =>
    have plain := fun c member => (braced_plain valid c member).2.2
    rw [requote_append_of_noQuote plain, requoted, requote_of_noQuote plain]
    exact .token fresh valid
  | @word run rest named stop other =>
    have plain := fun c member => (isNameChar_plain (named.all c member)).2.2
    rw [requote_append_of_noQuote plain, requoted, requote_of_noQuote plain]
    refine .word named ?_ (other.imp_left openedGroup?_requote)
    rw [any_head?_requote (by decide)]
    exact stop
  | call named spaces accepted closed =>
    rw [requote_call_append named.all spaces closed]
    refine .call named spaces accepted ?_
    exact (Conversion.closes_requote _ 0).trans closed
  | @unbalanced run gap inside named spaces accepted endless =>
    have whole : run ++ gap ++ '(' :: rest = run ++ gap ++ ['('] ++ rest := by simp
    rw [whole, requote_append_of_noQuote (noQuote_opening named.all spaces), List.append_assoc,
      List.singleton_append]
    refine .unbalanced named spaces accepted ?_
    rw [Place.outside, closeGroup_requote, ← Place.outside, endless]
    rfl
  | @char c rest plain noBrace within =>
    rw [requote_cons plain, requoted, requote_of_noQuote (t := [c]) (by simpa using plain)]
    refine .char plain (fun dollar head => noBrace dollar ?_) within
    exact (head?_requote_iff (by decide) rest).1 head

end Piece

variable {accept : Text → Bool} {before : Option Char}

/-- Rewriting the calls of a text and requoting may be done in either order, if that holds of each
call. -/
theorem requote_rewrite {f g : Call → Text}
    (same : ∀ c, accept c.run = true → (∀ d ∈ c.run, isNameChar d = true) → Closed c.body →
      Terminated (f c) ∧ Terminated (g c.requoted) ∧ requote (f c) = requote (g c.requoted))
    (t : Text) (wellBraced : WellBraced t) :
    requote (rewrite accept f before t) = requote (rewrite accept g before (requote t)) := by
  induction before, t, wellBraced using @Piece.stepInduction accept with
  | nil before _ => rw [rewrite_nil, requote_nil, rewrite_nil, requote_nil]
  | step before t p rest wellBraced left step ih =>
    have later : rewrite accept g p.requoted.render.getLast? (requote rest) =
        rewrite accept g p.render.getLast? (requote rest) := by
      rw [rewrite, rewrite]
      congr 1
      refine pieces_congr (Or.inl ?_)
      cases p with
      | plain text => exact startsToken_requote text
      | call c =>
        dsimp only [Piece.requoted, Piece.render]
        rw [Call.render, Call.render, List.getLast?_concat, List.getLast?_concat]
      | unbalanced run gap => rfl
    rw [rewrite_step f step, rewrite_step g step.requote, later]
    have kept (text : Text) (plain : ∀ c ∈ text, isQuote c = false) :
        requote (text ++ rewrite accept f p.render.getLast? rest) =
          requote (requote text ++ rewrite accept g p.render.getLast? (requote rest)) := by
      rw [requote_of_noQuote plain, requote_append_of_noQuote plain, requote_append_of_noQuote plain,
        ih]
    cases step with
    | @literal l rest proper =>
      dsimp only [Piece.rewritten, Piece.requoted, Piece.render] at ih ⊢
      rw [requote_render proper, requote_append (terminated_render proper), requote_render proper,
        requote_quoted_append proper.proper_quoteFor, ih]
    | unclosed quote fresh =>
      dsimp only [Piece.rewritten, Piece.requoted, Piece.render]
      rw [requote_nil, rewrite_nil, rewrite_nil, List.append_nil, List.append_nil, requote_requote]
    | token fresh valid => exact kept _ fun c member => (braced_plain valid c member).2.2
    | word named stop other =>
      exact kept _ fun c member => (Piece.isNameChar_plain (named.all c member)).2.2
    | call named spaces accepted closed =>
      obtain ⟨first, second, alike⟩ :=
        same _ accepted named.all (closed_body named.all spaces closed wellBraced)
      dsimp only [Piece.rewritten, Piece.requoted]
      rw [requote_append first, requote_append second, alike, ih]
    | @unbalanced run gap inside named spaces accepted endless =>
      dsimp only [Piece.rewritten, Piece.requoted, Piece.render] at ih ⊢
      have plain := noQuote_opening named.all spaces
      rw [requote_append_of_noQuote plain, requote_append_of_noQuote plain, ih]
    | @char c rest plain noBrace within =>
      exact kept [c] fun d member => by rw [List.mem_singleton.1 member]; exact plain

end Call

end FormLogic
