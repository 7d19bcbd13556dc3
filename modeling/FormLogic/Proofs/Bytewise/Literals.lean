import FormLogic.Proofs.Bytewise.Loop

/-!
Literals by their offsets. A pass copies the text between the places that it rewrites; all that it
cuts out lies between characters. Requoting by offsets and reading a literal by its offsets give what
they give character by character.
-/
namespace FormLogic.Bytewise

open Text

/-- What a pass has written. -/
structure Output where
  /-- Where the part of the source begins that has not been copied yet. -/
  last : Nat
  text : Text

namespace Output

/-- The output with the source copied up to offset `stop`. -/
def upTo? (o : Output) (t : Text) (stop : Nat) : Option Text :=
  ((⟨o.last, stop⟩ : Span).slice? t).map (o.text ++ ·)

/-- The output with the rest of the source copied. -/
def finish? (o : Output) (t : Text) : Option Text := (sliceFrom? o.last t).map (o.text ++ ·)

variable {t a b v : Text}

theorem upTo?_append (whole : t = a ++ b ++ v) (out : Text) :
    (⟨byteLength a, out⟩ : Output).upTo? t (byteLength (a ++ b)) = some (out ++ b) := by
  rw [upTo?, whole, slice?_append]
  rfl

theorem finish?_append (whole : t = a ++ b) (out : Text) :
    (⟨byteLength a, out⟩ : Output).finish? t = some (out ++ b) := by
  rw [finish?, whole, sliceFrom?_append]
  rfl

end Output

/-! ### Requoting -/

def requoteTurn (t : Text) (i : Nat) (o : Output) : Option (Flow Output) := do
  let b ← (bytes t)[i]?
  if isQuote b then
    match ← literalEnd? t i with
    | none => return .stop o
    | some stop =>
      let front ← o.upTo? t i
      let content ← (⟨i + 1, stop - 1⟩ : Span).slice? t
      return .go stop ⟨stop, front ++ Literal.quoted content⟩
  else return .go (i + 1) o

/-- Gives each literal the quotes of the target grammar. -/
def requote? (t : Text) : Option Text := do
  let o ← loop (byteLength t) (requoteTurn t) 0 ⟨0, []⟩
  o.finish? t

variable {t u v : Text}

theorem requoteTurn_plain {i : Nat} {b : Char} {o : Output} (byteHere : (bytes t)[i]? = some b)
    (plain : isQuote b = false) : requoteTurn t i o = some (.go (i + 1) o) := by
  simp only [requoteTurn, byteHere, plain, Option.bind_eq_bind, Option.bind_some, Bool.false_eq_true,
    if_false]
  rfl

theorem passesOver_requoteTurn (t : Text) : PassesOver t (requoteTurn t) :=
  fun _ _ _ byteHere outside => requoteTurn_plain byteHere (isQuote_of_not_isAscii outside)

/-- From a place between characters on, the rest of the text is requoted. -/
theorem requoteFrom {a b : Text} (whole : t = a ++ b ++ v) (out : Text) :
    ((loop (byteLength t) (requoteTurn t) (byteLength (a ++ b)) ⟨byteLength a, out⟩).bind
      (·.finish? t)) = some (out ++ b ++ Literal.requote v) := by
  induction v using Literal.segmentInduction generalizing a b out with
  | nil =>
    rw [List.append_nil] at whole
    rw [loop_end (by rw [whole]), Option.bind_some, Output.finish?_append whole,
      Literal.requote_nil, List.append_nil]
  | plain c rest plain ih =>
    have step := (passesOver_requoteTurn t).char (s := ⟨byteLength a, out⟩) whole fun ascii =>
      requoteTurn_plain (by rw [whole, byteAt?_append _ _ ascii]) plain
    have later := ih (a := a) (b := b ++ [c]) (by simp [whole]) out
    rw [← List.append_assoc] at later
    rw [step, later, Literal.requote_cons plain]
    simp
  | literal l rest proper ih =>
    obtain ⟨byteHere, closing⟩ := literalEnd?_render proper whole
    have turn : requoteTurn t (byteLength (a ++ b)) ⟨byteLength a, out⟩ =
        some (.go (byteLength (a ++ b ++ l.render))
          ⟨byteLength (a ++ b ++ l.render), out ++ b ++ Literal.quoted l.content⟩) := by
      simp only [requoteTurn, byteHere, proper.quote_isQuote, closing, Output.upTo?_append whole,
        slice?_content proper whole, Option.bind_eq_bind, Option.bind_some, if_true]
      rfl
    have place : t = a ++ b ++ l.render ++ [] ++ rest := by simp [whole]
    have later := ih place (out ++ b ++ Literal.quoted l.content)
    rw [List.append_nil, List.append_nil] at later
    have inside : byteLength (a ++ b) < byteLength t := by
      rw [whole]
      exact byteLength_lt_append _ (by simp [Literal.render])
    have ahead : byteLength (a ++ b) < byteLength (a ++ b ++ l.render) :=
      byteLength_lt_append _ (by simp [Literal.render])
    rw [loop_go inside turn ahead, later,
      Literal.requote_render_append proper, List.append_assoc]
  | unclosed q rest quote fresh =>
    obtain ⟨byteHere, closing⟩ := literalEnd?_unclosed quote fresh whole
    have turn : requoteTurn t (byteLength (a ++ b)) ⟨byteLength a, out⟩ =
        some (.stop ⟨byteLength a, out⟩) := by
      simp only [requoteTurn, byteHere, quote, closing, Option.bind_eq_bind, Option.bind_some, if_true]
      rfl
    have copied := Output.finish?_append (whole.trans (List.append_assoc ..)) out
    have inside : byteLength (a ++ b) < byteLength t := by
      rw [whole]
      exact byteLength_lt_append _ (List.cons_ne_nil q rest)
    rw [loop_stop inside turn, Option.bind_some, copied,
      Literal.requote_unclosed quote fresh, List.append_assoc]

theorem requote?_eq (t : Text) : requote? t = some (Literal.requote t) :=
  requoteFrom (a := []) (b := []) rfl []

/-! ### Reading one literal -/

/-- Reads a text that is one literal, white space around it aside. -/
def parseLiteral? (t : Text) : Option (Option Literal) := do
  let t := trim t
  match ← literalEnd? t 0 with
  | none => return none
  | some stop =>
    if stop = byteLength t then do
      let front ← (⟨0, 1⟩ : Span).slice? t
      let content ← (⟨1, stop - 1⟩ : Span).slice? t
      return front.head?.map (⟨·, content⟩)
    else return none

theorem parseLiteral?_eq (t : Text) : parseLiteral? t = some (Literal.parse? t) := by
  rw [parseLiteral?, Literal.parse?]
  cases trimmed : trim t with
  | nil => rfl
  | cons c rest =>
    cases quote : isQuote c with
    | false =>
      have closing : literalEnd? (c :: rest) 0 = some none :=
        @literalEnd?_plain (c :: rest) [] rest c quote rfl
      simp only [Literal.ofStart?, quote, closing, Option.bind_eq_bind, Option.bind_some,
        Bool.false_eq_true, if_false]
      rfl
    | true =>
      cases cut : cutAt? c rest with
      | none =>
        have closing : literalEnd? (c :: rest) 0 = some none :=
          (@literalEnd?_unclosed (c :: rest) [] rest c quote (cutAt?_eq_none_iff.1 cut) rfl).2
        simp only [Literal.ofStart?, quote, cut, closing, Option.bind_eq_bind, Option.bind_some,
          if_true, Option.map_none]
        rfl
      | some parts =>
        obtain ⟨content, after⟩ := parts
        obtain ⟨whole, fresh⟩ := cutAt?_eq_some_iff.1 cut
        have proper : (⟨c, content⟩ : Literal).Proper := ⟨quote, fresh⟩
        have place : c :: rest = [] ++ (Literal.render ⟨c, content⟩ ++ after) := by
          rw [whole]
          exact (Literal.cons_quote_append ⟨c, content⟩ after).symm
        have closing : literalEnd? (c :: rest) 0 =
            some (some (byteLength (Literal.render ⟨c, content⟩))) :=
          (literalEnd?_render proper place).2
        have front : (⟨0, 1⟩ : Span).slice? (c :: rest) = some [c] := by
          have one := byteLength_snoc [] (isAscii_of_isQuote quote)
          have first := slice?_append [] [c] rest
          rwa [one] at first
        have inner : (⟨1, byteLength (Literal.render ⟨c, content⟩) - 1⟩ : Span).slice? (c :: rest) =
            some content := slice?_content proper place
        simp only [Literal.ofStart?, quote, cut, closing, Option.bind_eq_bind, Option.bind_some,
          if_true, Option.map_some]
        cases after with
        | nil =>
          rw [List.append_nil, List.nil_append] at place
          rw [if_pos (by rw [place]), front, inner]
          rfl
        | cons d more =>
          have short := byteLength_lt_append (Literal.render ⟨c, content⟩) (List.cons_ne_nil d more)
          rw [← List.nil_append (Literal.render _ ++ _), ← place] at short
          rw [if_neg (Nat.ne_of_lt short)]
          rfl

end FormLogic.Bytewise
