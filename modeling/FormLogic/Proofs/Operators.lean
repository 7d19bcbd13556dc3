import FormLogic.Operator
import FormLogic.Proofs.Seam

/-!
How operators get their form in the target grammar. Each way in which a token is read is one case of
`Step`. Words and equals signs are the only tokens with more than one character outside literals, so
a text is read in two parts wherever neither goes on behind the seam. Literals and groups stay as
they are, and no `${` arises.
-/
namespace FormLogic.Operator

open Text Call Field.Reference

/-- No word and no equals sign of `u` goes on in `tail`. -/
structure Apart (u tail : Text) : Prop where
  word : u.getLast?.any isNameChar = true → tail.head?.any isNameChar = false
  equals : u.getLast? = some '=' → tail.head? ≠ some '='

theorem Apart.of_append {u v tail : Text} (apart : Apart (u ++ v) tail) : Apart v tail := by
  cases v with
  | nil => exact ⟨by simp, by simp⟩
  | cons c rest =>
    obtain ⟨word, equals⟩ := apart
    rw [getLast?_append_cons] at word equals
    exact ⟨word, equals⟩

namespace Token

/-- How the first token of a text is read. -/
inductive Step (before : Option Char) : Text → Token → Text → Prop where
  | literal {l : Literal} {rest : Text} (proper : l.Proper) :
    Step before (l.render ++ rest) (.quotedText l.render) rest
  | unclosed {q : Char} {rest : Text} (quote : isQuote q = true) (fresh : q ∉ rest) :
    Step before (q :: rest) (.quotedText (q :: rest)) []
  | equals {rest : Text} (alone : standsAlone before rest = true) :
    Step before ('=' :: rest) .equals rest
  | boolean {word : BooleanWord} {rest : Text} (starts : startsWord before = true)
    (ends : endsWord rest = true) : Step before (word.render ++ rest) (.boolean word) rest
  | space {c : Char} {rest : Text} (space : isSpace c = true) : Step before (c :: rest) (.space c) rest
  | other {c : Char} {rest : Text} (plain : isQuote c = false) (visible : isSpace c = false)
    (joined : c = '=' → standsAlone before rest = false)
    (noWord : booleanWord? before (c :: rest) = none) : Step before (c :: rest) (.other c) rest

variable {before : Option Char}

theorem booleanWord?_render {word : BooleanWord} {rest : Text} (starts : startsWord before = true)
    (ends : endsWord rest = true) :
    booleanWord? before (word.render ++ rest) = some (word, rest) := by
  cases word <;> simp [BooleanWord.render, booleanWord?, starts, ends]

theorem ends_of_booleanWord? {t rest : Text} {word : BooleanWord}
    (found : booleanWord? before t = some (word, rest)) :
    startsWord before = true ∧ endsWord rest = true := by
  unfold booleanWord? at found
  split at found
  · split at found
    · next both => cases found; simpa using both
    · cases found
  · split at found
    · next both => cases found; simpa using both
    · cases found
  · cases found

theorem booleanWord?_eq_none {c : Char} (notA : c ≠ 'a') (notO : c ≠ 'o') (rest : Text) :
    booleanWord? before (c :: rest) = none := by
  cases found : booleanWord? before (c :: rest) with
  | none => rfl
  | some parts =>
    obtain ⟨word, after⟩ := parts
    have whole := eq_of_booleanWord? found
    cases word with
    | conjunction => exact absurd (List.cons.inj whole).1 notA
    | disjunction => exact absurd (List.cons.inj whole).1 notO

/-- The scanner reads a token in the way the step says. -/
theorem next_of_step {t rest : Text} {token : Token} (step : Step before t token rest) :
    ∃ c more, t = c :: more ∧ next before c more = (token, rest) := by
  cases step with
  | @literal l rest proper =>
    refine ⟨l.quote, l.content ++ l.quote :: rest, Literal.cons_quote_append l rest, ?_⟩
    rw [next, if_pos proper.quote_isQuote, Literal.cutAt?_quote proper]
  | @unclosed q rest quote fresh =>
    refine ⟨q, rest, rfl, ?_⟩
    rw [next, if_pos quote, cutAt?_eq_none_iff.2 fresh]
  | @equals rest alone =>
    refine ⟨'=', rest, rfl, ?_⟩
    rw [next, if_neg (by decide), if_pos rfl, if_pos alone]
  | @boolean word rest starts ends =>
    obtain ⟨c, more, whole, plain, notEquals⟩ : ∃ c more, word.render ++ rest = c :: more ∧
        isQuote c = false ∧ c ≠ '=' := by
      cases word
      · exact ⟨'a', ['n', 'd'] ++ rest, rfl, by decide, by decide⟩
      · exact ⟨'o', ['r'] ++ rest, rfl, by decide, by decide⟩
    have found := @booleanWord?_render before word rest starts ends
    rw [whole] at found
    exact ⟨c, more, whole, by rw [next, plain, if_neg notEquals, found]; rfl⟩
  | @space c rest space =>
    have plain : isQuote c = false := not_isQuote space (by decide) (by decide)
    have noWord : booleanWord? before (c :: rest) = none :=
      booleanWord?_eq_none (ne_of_class space (by decide)) (ne_of_class space (by decide)) rest
    refine ⟨c, rest, rfl, ?_⟩
    rw [next, plain, if_neg (ne_of_class space (by decide)), noWord, if_pos space]
    rfl
  | @other c rest plain visible joined noWord =>
    refine ⟨c, rest, rfl, ?_⟩
    rw [next, plain]
    by_cases equal : c = '='
    · rw [if_pos equal, joined equal]
      rfl
    · rw [if_neg equal, noWord, visible]
      rfl

/-- Each token is read in one of the ways of `Step`. -/
theorem step_next (before : Option Char) (c : Char) (rest : Text) :
    Step before (c :: rest) (next before c rest).1 (next before c rest).2 := by
  unfold next
  split
  · next quote =>
    split
    · next content after cut =>
      obtain ⟨whole, fresh⟩ := cutAt?_eq_some_iff.1 cut
      have step : Step before (Literal.render ⟨c, content⟩ ++ after) _ after :=
        .literal ⟨quote, fresh⟩
      rwa [Literal.cons_quote_append, ← whole] at step
    · next uncut => exact .unclosed quote (cutAt?_eq_none_iff.1 uncut)
  · next plain =>
    rw [Bool.not_eq_true] at plain
    split
    · next equal =>
      subst equal
      cases alone : standsAlone before rest with
      | true => exact .equals alone
      | false =>
        exact .other plain (by decide) (fun _ => alone)
          (booleanWord?_eq_none (by decide) (by decide) rest)
    · next notEquals =>
      split
      · next word after found =>
        obtain ⟨starts, ends⟩ := ends_of_booleanWord? found
        rw [eq_of_booleanWord? found]
        exact .boolean starts ends
      · next noWord =>
        cases space : isSpace c with
        | true => exact .space space
        | false => exact .other plain space (fun equal => absurd equal notEquals) noWord

/-- The token and the text behind it are the text. -/
theorem Step.source_append {t rest : Text} {token : Token} (step : Step before t token rest) :
    token.source ++ rest = t := by
  obtain ⟨c, more, rfl, same⟩ := next_of_step step
  have whole := source_next before c more
  rwa [same] at whole

/-- A token closes its literal, or it is the last one. -/
theorem Step.source_terminated {t rest : Text} {token : Token} (step : Step before t token rest) :
    Terminated token.source ∨ rest = [] := by
  cases step with
  | literal proper => exact Or.inl (Literal.terminated_render proper)
  | unclosed quote fresh => exact Or.inr rfl
  | equals alone => exact Or.inl rfl
  | @boolean word rest starts ends => exact Or.inl (by cases word <;> rfl)
  | space space =>
    have plain := not_isQuote space (by decide) (by decide)
    exact Or.inl ((terminated_cons plain []).2 rfl)
  | other plain visible joined noWord => exact Or.inl ((terminated_cons plain []).2 rfl)

theorem Step.terminated {t rest : Text} {token : Token} (step : Step before t token rest)
    (terminated : Terminated t) : Terminated rest := by
  rcases step.source_terminated with closed | rfl
  · rwa [← step.source_append, Terminated, quoteAfter_append_of_terminated closed] at terminated
  · rfl

/-- Induction along the tokens of a text. -/
theorem stepInduction {motive : Option Char → Text → Prop} (nil : ∀ before, motive before [])
    (step : ∀ before t token rest, Step before t token rest → motive token.source.getLast? rest →
      motive before t) (before : Option Char) (t : Text) : motive before t := by
  induction before, t using Scanner.items.induct scanner with
  | case1 before => exact nil before
  | case2 before c rest item ih => exact step before _ _ _ (step_next before c rest) ih

theorem booleanWord?_append_of_none {c : Char} {rest tail : Text} (apart : Apart (c :: rest) tail)
    (noWord : booleanWord? before (c :: rest) = none) :
    booleanWord? before (c :: (rest ++ tail)) = none := by
  cases found : booleanWord? before (c :: (rest ++ tail)) with
  | none => rfl
  | some parts =>
    obtain ⟨word, after⟩ := parts
    obtain ⟨starts, ends⟩ := ends_of_booleanWord? found
    have whole : (c :: rest) ++ tail = word.render ++ after := eq_of_booleanWord? found
    rcases List.append_eq_append_iff.1 whole with ⟨more, left, right⟩ | ⟨more, left, right⟩
    · -- The word begins in the first part, so nothing of it stands behind the seam.
      have names : ∀ d ∈ word.render, isNameChar d = true := by
        cases word <;> decide
      have last : (c :: rest).getLast?.any isNameChar = true :=
        any_getLast? (List.cons_ne_nil c rest) fun d member =>
          names d (by rw [left]; exact List.mem_append_left more member)
      cases more with
      | cons d later =>
        have stop := apart.word last
        rw [right] at stop
        exact absurd (stop.symm.trans (names d (by rw [left]; simp))) (by decide)
      | nil =>
        have found : booleanWord? before (word.render ++ []) = some (word, []) :=
          booleanWord?_render starts rfl
        rw [left, List.append_nil, List.append_nil, noWord] at found
        cases found
    · have ends : endsWord more = true := by
        cases more with
        | nil => rfl
        | cons d later =>
          rw [right] at ends
          exact ends
      have found := @booleanWord?_render before word more starts ends
      rw [← left, noWord] at found
      cases found

/-- A token of a text that closes its literals is read alike where the texts stand apart. -/
theorem Step.append {t rest tail : Text} {token : Token} (step : Step before t token rest)
    (terminated : Terminated t) (apart : Apart t tail) :
    Step before (t ++ tail) token (rest ++ tail) := by
  cases step with
  | literal proper =>
    rw [List.append_assoc]
    exact .literal proper
  | unclosed quote fresh =>
    rw [Terminated, quoteAfter, quote, if_pos rfl, quoteAfter_some_of_notMem fresh] at terminated
    cases terminated
  | @equals rest alone =>
    refine .equals ?_
    cases rest with
    | cons d more => exact alone
    | nil =>
      simp only [standsAlone, Bool.and_eq_true] at alone ⊢
      refine ⟨alone.1, ?_⟩
      simpa using apart.equals rfl
  | @boolean word rest starts ends =>
    rw [List.append_assoc]
    refine .boolean starts ?_
    cases rest with
    | cons d more => exact ends
    | nil =>
      have last : (word.render ++ []).getLast?.any isNameChar = true := by cases word <;> decide
      rw [List.nil_append, endsWord, apart.word last]
      rfl
  | space space => exact .space space
  | @other c rest plain visible joined noWord =>
    refine .other plain visible (fun equal => ?_) (booleanWord?_append_of_none apart noWord)
    have refused := joined equal
    cases rest with
    | cons d more => exact refused
    | nil =>
      simp only [standsAlone, List.head?_nil, Bool.and_eq_false_iff] at refused ⊢
      rcases refused with left | right
      · exact Or.inl left
      · simp at right

end Token

theorem tokens_step {before : Option Char} {t rest : Text} {token : Token}
    (step : Token.Step before t token rest) :
    tokens before t = token :: tokens token.source.getLast? rest := by
  obtain ⟨c, more, rfl, same⟩ := Token.next_of_step step
  rw [tokens, Scanner.items_cons]
  simp only [Token.scanner, same]
  rfl

theorem tokens_nil (before : Option Char) : tokens before [] = [] :=
  Scanner.items_nil Token.scanner before

theorem normalize_nil : normalize [] = [] := by rw [normalize, tokens_nil, render]

/-- Tokens of a text that closes its literals are found without a look behind its end. -/
theorem tokens_append {t tail : Text} (terminated : Terminated t) (apart : Apart t tail)
    (before : Option Char) :
    tokens before (t ++ tail) = tokens before t ++ tokens (t.getLast?.or before) tail := by
  refine @Scanner.items_append _ Token.scanner (fun _ t => Terminated t ∧ Apart t tail) tail ?_
    before t ⟨terminated, apart⟩
  rintro before c rest ⟨terminated, apart⟩
  have step := Token.step_next before c rest
  obtain ⟨d, more, whole, same⟩ := Token.next_of_step (step.append terminated apart)
  obtain ⟨rfl, rfl⟩ := List.cons.inj whole
  refine ⟨same, step.terminated terminated, ?_⟩
  rw [← step.source_append] at apart
  exact apart.of_append

/-- Whether white space has been written already at the end of some tokens. -/
def spacedAfter (spaced : Bool) : List Token → Bool
  | [] => spaced
  | .space _ :: rest => spacedAfter spaced rest
  | .boolean _ :: rest => spacedAfter true rest
  | .equals :: rest => spacedAfter false rest
  | .quotedText _ :: rest => spacedAfter false rest
  | .other _ :: rest => spacedAfter false rest

/-- The last token is not white space. -/
def endsVisibly (ts : List Token) : Bool :=
  ts.getLast?.any fun
    | .space _ => false
    | _ => true

theorem endsVisibly_cons (token : Token) {rest : List Token} (nonempty : rest ≠ []) :
    endsVisibly (token :: rest) = endsVisibly rest := by
  cases rest with
  | nil => exact absurd rfl nonempty
  | cons next later => rw [endsVisibly, List.getLast?_cons_cons, endsVisibly]

theorem leadsToBoolean_append {ts us : List Token}
    (visible : leadsToBoolean us = true → endsVisibly ts = true) :
    leadsToBoolean (ts ++ us) = leadsToBoolean ts := by
  induction ts with
  | nil =>
    rw [List.nil_append]
    cases leads : leadsToBoolean us with
    | false => rfl
    | true => exact absurd (visible leads) (by decide)
  | cons token rest ih =>
    cases token with
    | space c =>
      rw [List.cons_append, leadsToBoolean, leadsToBoolean]
      apply ih
      intro leads
      have last := visible leads
      cases rest with
      | nil => cases last
      | cons next later => rwa [endsVisibly_cons _ (List.cons_ne_nil next later)] at last
    | quotedText text => rfl
    | equals => rfl
    | boolean word => rfl
    | other c => rfl

/-- Tokens are written one part after the other, unless white space ends the first part and leads
to a boolean word in the second. -/
theorem render_append {ts us : List Token} (spaced : Bool)
    (visible : leadsToBoolean us = true → endsVisibly ts = true) :
    render spaced (ts ++ us) = render spaced ts ++ render (spacedAfter spaced ts) us := by
  induction ts generalizing spaced with
  | nil => rfl
  | cons token rest ih =>
    have later : ∀ spaced, render spaced (rest ++ us) =
        render spaced rest ++ render (spacedAfter spaced rest) us := by
      intro spaced
      cases rest with
      | nil => rfl
      | cons next more =>
        rw [endsVisibly_cons _ (List.cons_ne_nil next more)] at visible
        exact ih spaced visible
    cases token with
    | space c =>
      have leads : leadsToBoolean (rest ++ us) = leadsToBoolean rest := by
        have whole := leadsToBoolean_append visible
        rwa [List.cons_append, leadsToBoolean, leadsToBoolean] at whole
      rw [List.cons_append, render, render, leads, spacedAfter]
      split
      · exact later spaced
      · next closed =>
        have unspaced : spaced = false := by
          cases spaced with
          | false => rfl
          | true => exact absurd rfl closed
        rw [later, unspaced]
        rfl
    | quotedText text => rw [List.cons_append, render, render, later, spacedAfter, List.append_assoc]
    | equals => rw [List.cons_append, render, render, later, spacedAfter]; rfl
    | boolean word =>
      rw [List.cons_append, render, render, later, spacedAfter]
      simp only [List.append_assoc]
    | other c => rw [List.cons_append, render, render, later, spacedAfter]; rfl

theorem head?_render_of_leadsToBoolean {ts : List Token} (leads : leadsToBoolean ts = true) :
    (render false ts).head? = some ' ' := by
  induction ts with
  | nil => cases leads
  | cons token rest ih =>
    cases token with
    | space c =>
      have leads : leadsToBoolean rest = true := leads
      rw [render, leads]
      exact ih leads
    | boolean word => rfl
    | quotedText text => cases leads
    | equals => cases leads
    | other c => cases leads

section Boolean

variable {before : Option Char}

theorem tokens_spaces {v : Text} (spaces : ∀ c ∈ v, isSpace c = true) (t : Text) :
    tokens before (v ++ t) = v.map .space ++ tokens (v.getLast?.or before) t := by
  induction v generalizing before with
  | nil => rfl
  | cons c rest ih =>
    rw [getLast?_cons_or, List.cons_append, tokens_step (.space (spaces c List.mem_cons_self)),
      ih fun d member => spaces d (List.mem_cons_of_mem c member)]
    rfl

/-- Of what stands before a text it matters only whether a word or an operator goes on. -/
theorem tokens_congr_before {other : Option Char} (word : startsWord before = startsWord other)
    (joined : before.any (fun c => c == '!' || c == '<' || c == '>' || c == '=') =
      other.any (fun c => c == '!' || c == '<' || c == '>' || c == '=')) (t : Text) :
    tokens before t = tokens other t := by
  apply Scanner.items_congr_before
  rintro c rest rfl
  have alone : standsAlone before rest = standsAlone other rest := by
    rw [standsAlone, standsAlone, joined]
  have found (t : Text) : booleanWord? before t = booleanWord? other t := by
    simp only [booleanWord?, word]
  simp only [Token.scanner]
  rw [Token.next, Token.next, alone, found]

/-- What stands before a text does not matter if a word may start and an equals sign may stand alone
behind it. -/
theorem tokens_fresh (word : startsWord before = true)
    (other : before.any (fun c => c == '!' || c == '<' || c == '>' || c == '=') = false) (t : Text) :
    tokens before t = tokens none t :=
  tokens_congr_before word other t

/-- What stands before a text does not matter if it is white space, or if the text begins with a
parenthesis or a quote. -/
theorem tokens_congr {t : Text}
    (same : before.all isSpace = true ∨ t.head?.any (fun c => c == '(' || isQuote c) = true) :
    tokens before t = tokens none t := by
  rcases same with space | first
  · cases before with
    | none => rfl
    | some d =>
      exact tokens_fresh (of_isSpace (p := fun c => startsWord (some c)) space (by decide))
        (of_isSpace (p := fun c => c == '!' || c == '<' || c == '>' || c == '=') space (by decide)) t
  · apply Scanner.items_congr_before
    rintro c rest rfl
    simp only [Token.scanner]
    simp only [List.head?_cons, Option.any_some, Bool.or_eq_true, beq_iff_eq] at first
    rcases first with rfl | quote
    · rfl
    · rw [Token.next, Token.next, if_pos quote, if_pos quote]

theorem head_tokens {t : Text} (visible : t.head?.any isSpace = false) (c : Char) (ts : List Token) :
    tokens before t ≠ .space c :: ts := by
  intro same
  cases t with
  | nil => rw [tokens_nil] at same; cases same
  | cons d rest =>
    have step := Token.step_next before d rest
    rw [tokens_step step] at same
    rw [(List.cons.inj same).1] at step
    generalize whole : d :: rest = t at step
    cases step with
    | space space =>
      rw [← (List.cons.inj whole).1] at space
      exact absurd (visible.symm.trans space) (by decide)

/-- A text ends in white space where its last token does. -/
theorem endsVisibly_tokens {t : Text} (nonempty : t ≠ []) (visible : t.getLast?.any isSpace = false) :
    endsVisibly (tokens before t) = true := by
  have whole := Token.scanner.flatMap_source_items before t
  rcases List.eq_nil_or_concat (Token.scanner.items before t) with empty | ⟨ts, token, same⟩
  · rw [empty] at whole
    exact absurd whole.symm nonempty
  · rw [List.concat_eq_append] at same
    have member : token ∈ Token.scanner.items before t := by rw [same]; simp
    obtain ⟨b, c, rest, item⟩ := Token.scanner.mem_items member
    have step := Token.step_next b c rest
    change token = (Token.next b c rest).1 at item
    rw [← item] at step
    rw [tokens, same, endsVisibly, List.getLast?_concat]
    cases token with
    | space d =>
      rw [same, List.flatMap_append, List.flatMap_singleton] at whole
      have last : t.getLast? = some d := by
        rw [← whole]
        exact List.getLast?_concat
      generalize c :: rest = u at step
      cases step with
      | space space =>
        rw [last] at visible
        exact absurd (visible.symm.trans space) (by decide)
    | quotedText text => rfl
    | equals => rfl
    | boolean word => rfl
    | other d => rfl

theorem leadsToBoolean_spaces (v : Text) (ts : List Token) :
    leadsToBoolean (v.map .space ++ ts) = leadsToBoolean ts := by
  induction v with
  | nil => rfl
  | cons c rest ih => exact ih

/-- White space before a boolean word gives way to two spaces. -/
theorem render_to_boolean (spaced : Bool) (v : Text) (word : BooleanWord) (ts : List Token) :
    render spaced (v.map .space ++ .boolean word :: ts) =
      [' ', ' '] ++ word.render ++ [' ', ' '] ++ render true ts := by
  induction v with
  | nil => rfl
  | cons c rest ih =>
    rw [List.map_cons, List.cons_append, render, leadsToBoolean_spaces, leadsToBoolean,
      Bool.or_true, if_pos rfl, ih]

/-- White space behind a boolean word has been written already. -/
theorem render_from_boolean (v : Text) (ts : List Token) :
    render true (v.map .space ++ ts) = render true ts := by
  induction v with
  | nil => rfl
  | cons c rest ih => rw [List.map_cons, List.cons_append, render, Bool.true_or, if_pos rfl, ih]

theorem render_spaced {ts : List Token} (visible : ∀ c rest, ts ≠ .space c :: rest)
    (spaced : Bool) : render spaced ts = render false ts := by
  cases ts with
  | nil => rfl
  | cons token rest =>
    cases token with
    | space c => exact absurd rfl (visible c rest)
    | quotedText text => rfl
    | equals => rfl
    | boolean word => rfl
    | other c => rfl

/-- White space around a boolean word, or characters beside it that no word runs on from. -/
structure Flanked (u v v' w : Text) : Prop where
  spaces : ∀ c ∈ v, isSpace c = true
  spaces' : ∀ c ∈ v', isSpace c = true
  last : u.getLast?.any isSpace = false
  head : w.head?.any isSpace = false
  ends : v ≠ [] ∨ u.getLast?.any (fun c => c == ')' || isQuote c) = true
  begins : v' ≠ [] ∨ w.head?.any (fun c => c == '(' || isQuote c) = true

namespace Flanked

variable {u v v' w : Text}

theorem apart (flanked : Flanked u v v' w) (word : BooleanWord) (rest : Text) :
    Apart u (v ++ (word.render ++ rest)) := by
  have noEquals : (v ++ (word.render ++ rest)).head? ≠ some '=' := by
    cases spaces : v with
    | nil => cases word <;> exact fun impossible => absurd (Option.some.inj impossible) (by decide)
    | cons c more =>
      have space := flanked.spaces c (by rw [spaces]; exact List.mem_cons_self)
      exact fun impossible => ne_of_class space (by decide) (Option.some.inj impossible)
  refine ⟨fun name => ?_, fun _ => noEquals⟩
  cases spaces : v with
  | nil =>
    have last := flanked.ends.resolve_left fun nonempty => nonempty spaces
    rw [Option.any_eq_true] at last name
    obtain ⟨c, same, last⟩ := last
    obtain ⟨d, same', name⟩ := name
    rw [Option.some.inj (same.symm.trans same')] at last
    simp only [Bool.or_eq_true, beq_iff_eq] at last
    rcases last with rfl | quote
    · cases name
    · rw [not_isQuote name (by decide) (by decide)] at quote
      cases quote
  | cons c more =>
    exact not_isNameChar_of_isSpace
      (flanked.spaces c (by rw [spaces]; exact List.mem_cons_self))

theorem startsWord (flanked : Flanked u v v' w) :
    Operator.startsWord (v.getLast?.or u.getLast?) = true := by
  rcases Decidable.em (v = []) with touching | spaced
  · have last := flanked.ends.resolve_left fun nonempty => nonempty touching
    rw [touching, List.getLast?_nil, Option.none_or]
    rw [Option.any_eq_true] at last
    obtain ⟨c, same, last⟩ := last
    simp only [isQuote, Bool.or_eq_true, beq_iff_eq] at last
    rw [same]
    rcases last with rfl | rfl | rfl <;> decide
  · rw [List.getLast?_eq_some_getLast spaced, Option.some_or]
    exact of_isSpace (p := fun c => Operator.startsWord (some c))
      (flanked.spaces _ (List.getLast_mem spaced)) (by decide)

theorem endsWord (flanked : Flanked u v v' w) : Operator.endsWord (v' ++ w) = true := by
  rw [Operator.endsWord]
  cases spaces : v' with
  | nil =>
    have first := flanked.begins.resolve_left fun nonempty => nonempty spaces
    rw [Option.any_eq_true] at first
    obtain ⟨c, same, first⟩ := first
    simp only [isQuote, Bool.or_eq_true, beq_iff_eq] at first
    rw [List.nil_append, same]
    rcases first with rfl | rfl | rfl <;> decide
  | cons c more =>
    rw [List.cons_append, List.head?_cons, Option.any_some, not_isNameChar_of_isSpace
      (flanked.spaces' c (by rw [spaces]; exact List.mem_cons_self))]
    rfl

/-- Two texts with a boolean word between them are brought into the target grammar apart. -/
theorem normalize_eq (flanked : Flanked u v v' w) (terminated : Terminated u) (word : BooleanWord) :
    normalize (u ++ (v ++ (word.render ++ v') ++ w)) =
      normalize u ++ ([' ', ' '] ++ word.render ++ [' ', ' '] ++ normalize w) := by
  have right : tokens (v'.getLast?.or word.render.getLast?) w = tokens none w := by
    apply tokens_congr
    rcases flanked.begins with nonempty | first
    · rw [List.getLast?_eq_some_getLast nonempty, Option.some_or]
      exact Or.inl (flanked.spaces' _ (List.getLast_mem nonempty))
    · exact Or.inr first
  have cut : tokens none (u ++ (v ++ (word.render ++ v') ++ w)) =
      tokens none u ++ (v.map .space ++ .boolean word :: (v'.map .space ++ tokens none w)) := by
    have apart := flanked.apart word (v' ++ w)
    rw [List.append_assoc, List.append_assoc, tokens_append terminated apart,
      tokens_spaces flanked.spaces, Option.or_none,
      tokens_step (.boolean flanked.startsWord flanked.endsWord),
      tokens_spaces flanked.spaces']
    simp only [Token.source]
    rw [right]
  have tail (spaced : Bool) :
      render spaced (v.map .space ++ .boolean word :: (v'.map .space ++ tokens none w)) =
        [' ', ' '] ++ word.render ++ [' ', ' '] ++ normalize w := by
    rw [render_to_boolean, render_from_boolean, render_spaced (head_tokens flanked.head)]
    rfl
  rw [normalize, cut]
  rcases Decidable.em (u = []) with empty | nonempty
  · rw [empty, tokens_nil, List.nil_append, tail, normalize_nil, List.nil_append]
  · rw [render_append false fun _ => endsVisibly_tokens nonempty flanked.last, tail]
    rfl

end Flanked

end Boolean

/-- What holds between a text and its form in the target grammar, if it holds token by token. The flag
says that white space behind a boolean word comes first. -/
theorem render_induction {R : Bool → Text → Text → Prop} (nil : ∀ spaced, R spaced [] [])
    (literal : ∀ spaced (l : Literal) s w, l.Proper → R false s w →
      R spaced (l.render ++ s) (l.render ++ w))
    (unclosed : ∀ spaced q rest, isQuote q = true → q ∉ rest → R spaced (q :: rest) (q :: rest))
    (char : ∀ spaced c s w, isQuote c = false → R false s w → R spaced (c :: s) (c :: w))
    (trailing : ∀ c s w, isSpace c = true → R true s w → R true (c :: s) w)
    (leading : ∀ c s w, isSpace c = true → w.head? = some ' ' → R false s w → R false (c :: s) w)
    (equals : ∀ spaced s w, R false s w → R spaced ('=' :: s) ('=' :: '=' :: w))
    (boolean : ∀ spaced (word : BooleanWord) s w, R true s w →
      R spaced (word.render ++ s) ([' ', ' '] ++ word.render ++ [' ', ' '] ++ w))
    (spaced : Bool) (before : Option Char) (t : Text) :
    R spaced t (render spaced (tokens before t)) := by
  induction before, t using Token.stepInduction generalizing spaced with
  | nil before =>
    rw [tokens_nil]
    exact nil spaced
  | step before t token rest step inner =>
    rw [tokens_step step]
    cases step with
    | literal proper => exact literal _ _ _ _ proper (inner _)
    | unclosed quote fresh =>
      rw [tokens_nil, render, render, List.append_nil]
      exact unclosed _ _ _ quote fresh
    | equals alone => exact equals _ _ _ (inner _)
    | boolean starts ends => exact boolean _ _ _ _ (inner _)
    | space space =>
      rw [render]
      split
      · next both =>
        cases spaced with
        | true => exact trailing _ _ _ space (inner _)
        | false =>
          exact leading _ _ _ space (head?_render_of_leadsToBoolean (by simpa using both)) (inner _)
      · exact char _ _ _ _ (not_isQuote space (by decide) (by decide)) (inner _)
    | other plain visible joined noWord => exact char _ _ _ _ plain (inner _)

section

variable {spaced : Bool} {before : Option Char} {t : Text}

theorem isSpace_plain {c : Char} (space : isSpace c = true) : isQuote c = false :=
  not_isQuote space (by decide) (by decide)

theorem boolean_plain (word : BooleanWord) :
    ∀ c ∈ [' ', ' '] ++ word.render ++ [' ', ' '],
      (c ≠ '(' ∧ c ≠ ')') ∧ c ≠ '$' ∧ isQuote c = false := by
  cases word <;> decide

/-- Operators open and close no groups. -/
theorem closes_render (depth : Nat) :
    closes ⟨depth, none⟩ (render spaced (tokens before t)) = closes ⟨depth, none⟩ t := by
  refine (render_induction (R := fun _ s w => ∀ depth, closes ⟨depth, none⟩ s =
    closes ⟨depth, none⟩ w) (fun _ _ => rfl) ?_ (fun _ _ _ _ _ _ => rfl) ?_ ?_ ?_ ?_ ?_
    spaced before t depth).symm
  · intro _ l s w proper same depth
    rw [closes_render_append proper, closes_render_append proper, same]
  · intro _ c s w plain same depth
    exact closes_cons_congr plain same depth
  · intro c s w space same depth
    rw [closes_cons_of_plain (ne_of_class space (by decide)) (ne_of_class space (by decide))
      (isSpace_plain space), same]
  · intro c s w space _ same depth
    rw [closes_cons_of_plain (ne_of_class space (by decide)) (ne_of_class space (by decide))
      (isSpace_plain space), same]
  · intro _ s w same depth
    have plain := closes_append_of_plain (s := ['=', '=']) (by decide) depth w
    rw [closes_cons_of_plain (by decide) (by decide) (by decide), same]
    exact plain.symm
  · intro _ word s w same depth
    have inner : ∀ c ∈ word.render, c ≠ '(' ∧ c ≠ ')' ∧ isQuote c = false := by
      cases word <;> decide
    rw [closes_append_of_plain inner, same]
    refine (closes_append_of_plain (fun c member => ?_) depth w).symm
    obtain ⟨groups, _, plain⟩ := boolean_plain word c member
    exact ⟨groups.1, groups.2, plain⟩

/-- Operators touch no literal. -/
theorem quotation_render {α : Type} {f : Literal → α} :
    Literal.quotation f (render spaced (tokens before t)) = Literal.quotation f t := by
  refine (render_induction (R := fun _ s w => Literal.quotation f s = Literal.quotation f w)
    (fun _ => rfl) ?_ (fun _ _ _ _ _ => rfl) ?_ ?_ ?_ ?_ ?_ spaced before t).symm
  · intro _ l s w proper same
    rw [Literal.quotation_render_append proper, Literal.quotation_render_append proper, same]
  · intro _ c s w plain same
    rw [Literal.quotation_cons plain, Literal.quotation_cons plain, same]
  · intro c s w space same
    rw [Literal.quotation_cons (isSpace_plain space), same]
  · intro c s w space _ same
    rw [Literal.quotation_cons (isSpace_plain space), same]
  · intro _ s w same
    have plain := Literal.quotation_append_of_noQuote (f := f) (s := ['=', '=']) (by decide) w
    rw [Literal.quotation_cons (by decide), same]
    exact plain.symm
  · intro _ word s w same
    have inner : ∀ c ∈ word.render, isQuote c = false := by cases word <;> decide
    rw [Literal.quotation_append_of_noQuote inner, same]
    exact (Literal.quotation_append_of_noQuote
      (fun c member => (boolean_plain word c member).2.2) w).symm

theorem unbraced_of_cons {c : Char} {rest : Text} (plain : isQuote c = false)
    (unbraced : Unbraced (c :: rest)) : Unbraced rest :=
  @Unbraced.of_append [c] rest unbraced ((terminated_cons plain []).2 rfl)

/-- No `${` arises between operators. -/
theorem unbraced_render (unbraced : Unbraced t) : Unbraced (render spaced (tokens before t)) := by
  refine (render_induction (R := fun spaced s w => Unbraced s → Unbraced w ∧
    (spaced = false → w.head? = some '{' → s.head? = some '{'))
    (fun _ holds => ⟨holds, fun _ same => same⟩) ?_ ?_ ?_ ?_ ?_ ?_ ?_
    spaced before t unbraced).1
  · intro _ l s w proper same holds
    have later := holds.of_append (Literal.terminated_render proper)
    exact ⟨bracesHold_literal proper (same later).1, fun _ same => same⟩
  · exact fun _ q rest quote fresh holds => ⟨holds, fun _ same => same⟩
  · intro _ c s w plain same holds
    obtain ⟨unbraced, head⟩ := same (unbraced_of_cons plain holds)
    exact ⟨bracesHold_plain plain (fun dollar brace => holds.noBrace dollar (head rfl brace)) unbraced,
      fun _ same => same⟩
  · intro c s w space same holds
    exact ⟨(same (unbraced_of_cons (isSpace_plain space) holds)).1,
      fun impossible => by cases impossible⟩
  · intro c s w space head same holds
    refine ⟨(same (unbraced_of_cons (isSpace_plain space) holds)).1, fun _ brace => ?_⟩
    rw [head] at brace
    cases brace
  · intro _ s w same holds
    obtain ⟨unbraced, _⟩ := same (unbraced_of_cons (by decide) holds)
    refine ⟨@bracesHold_append_plain _ ['=', '='] w (by decide) unbraced, fun _ brace => ?_⟩
    cases brace
  · intro _ word s w same holds
    have closed : Terminated word.render := by cases word <;> rfl
    obtain ⟨unbraced, _⟩ := same (holds.of_append closed)
    refine ⟨bracesHold_append_plain (fun c member => (boolean_plain word c member).2) unbraced,
      fun _ brace => ?_⟩
    cases brace

end

end FormLogic.Operator
