import FormLogic.Proofs.Compilation
import FormLogic.Proofs.Passes
import FormLogic.Proofs.Respacing
import FormLogic.Proofs.Standing

/-!
Texts that conversion leaves as they are. In such a text operators and literals have their form already,
no reference stands in it, and each call of a built-in function is written as conversion writes it.
The form of a text is found apart on either side of a parenthesis or a comma, so the arguments of the
calls have their form too, and the induction goes from a text to the arguments in it.
-/
namespace FormLogic

open Text

namespace Text

/-- The characters beside an argument. -/
def separators : List Char := ['(', ')', ',']

/-- A text is cut in one way behind as many characters of one kind. -/
theorem append_cons_inj_of_count {x : Char} {s s' t t' : Text} (count : s.count x = s'.count x)
    (same : s ++ x :: t = s' ++ x :: t') : s = s' ∧ t = t' := by
  induction s generalizing s' with
  | nil =>
    cases s' with
    | nil => exact ⟨rfl, (List.cons.inj same).2⟩
    | cons c rest =>
      rw [← (List.cons.inj same).1] at count
      simp at count
  | cons c s ih =>
    cases s' with
    | nil =>
      rw [(List.cons.inj same).1] at count
      simp at count
    | cons d s' =>
      obtain ⟨rfl, later⟩ := List.cons.inj same
      rw [List.count_cons, List.count_cons] at count
      obtain ⟨rfl, rest⟩ := ih (Nat.add_right_cancel count) later
      exact ⟨rfl, rest⟩

end Text

namespace Operator

variable {u v : Text} {c : Char}

/-- Operators on either side of a separator get their form apart from each other. -/
theorem normalize_separator (terminated : Terminated u) (separator : c ∈ separators) (v : Text) :
    normalize (u ++ c :: v) = normalize u ++ c :: normalize v := by
  have noQuote := (by decide : ∀ d ∈ separators, isQuote d = false) c separator
  have visible := (by decide : ∀ d ∈ separators, isSpace d = false) c separator
  have other := (by decide : ∀ d ∈ separators, d ∉ ['=', 'a', 'o']) c separator
  have noName := (by decide : ∀ d ∈ separators, isNameChar d = false) c separator
  have fresh := (by decide : ∀ d ∈ separators, startsWord (some d) = true) c separator
  have joins := (by decide : ∀ d ∈ separators,
    (d == '!' || d == '<' || d == '>' || d == '=') = false) c separator
  have apart : Apart u (c :: v) := by
    refine ⟨fun _ => noName, fun _ same => ?_⟩
    rw [Option.some.inj same] at other
    exact other List.mem_cons_self
  have step : Token.Step (u.getLast?.or none) (c :: v) (.other c) v :=
    Grammar.step_other _ noQuote visible other v
  have cut : tokens none (u ++ c :: v) = tokens none u ++ .other c :: tokens none v := by
    rw [tokens_append terminated apart, tokens_step step]
    exact congrArg (tokens none u ++ Token.other c :: ·) (tokens_fresh fresh joins v)
  have leads : leadsToBoolean (.other c :: tokens none v) = true →
      endsVisibly (tokens none u) = true := fun impossible => absurd impossible Bool.false_ne_true
  rw [normalize, cut, render_append false leads, render]
  rfl

/-- Only white space and equals signs are written or left out. -/
theorem count_normalize (noSpace : isSpace c = false) (noEquals : c ≠ '=') (t : Text) :
    (normalize t).count c = t.count c := by
  have apart {d : Char} (space : isSpace d = true) : d ≠ c := by
    rintro rfl
    rw [space] at noSpace
    cases noSpace
  have blank : ' ' ≠ c := apart (by decide)
  refine @render_induction (fun _ s w => w.count c = s.count c) (fun _ => rfl) ?_ (fun _ _ _ _ _ => rfl)
    ?_ ?_ ?_ ?_ ?_ false none t
  · intro _ l s w _ ih
    rw [List.count_append, List.count_append, ih]
  · intro _ d s w _ ih
    rw [List.count_cons, List.count_cons, ih]
  · intro d s w space ih
    rw [List.count_cons_of_ne (apart space), ih]
  · intro d s w space _ ih
    rw [List.count_cons_of_ne (apart space), ih]
  · intro _ s w ih
    rw [List.count_cons_of_ne noEquals.symm, List.count_cons_of_ne noEquals.symm,
      List.count_cons_of_ne noEquals.symm, ih]
  · intro _ word s w ih
    have margin : [' ', ' '].count c = 0 := by
      rw [List.count_eq_zero]
      simp [blank.symm]
    simp only [List.count_append, margin, ih]
    omega

theorem terminated_normalize (t : Text) : Terminated (normalize t) ↔ Terminated t := by
  have same : Literal.unclosed (normalize t) = Literal.unclosed t :=
    congrArg Prod.snd (@quotation_render false none t _ (id : Literal → Literal))
  rw [← Literal.unclosed_eq_nil_iff, ← Literal.unclosed_eq_nil_iff, same]

end Operator

namespace Literal

theorem count_requote {c : Char} (plain : isQuote c = false) (t : Text) :
    (requote t).count c = t.count c := by
  have count (l : Literal) (quote : isQuote l.quote = true) : l.render.count c = l.content.count c := by
    have other : l.quote ≠ c := by
      rintro rfl
      rw [quote] at plain
      cases plain
    simp [render, List.count_append, List.count_cons_of_ne other]
  induction t using segmentInduction with
  | nil => rw [requote_nil]
  | plain d rest noQuote ih => rw [requote_cons noQuote, List.count_cons, List.count_cons, ih]
  | literal l rest proper ih =>
    rw [requote_render_append proper, List.count_append, List.count_append, ih,
      count l proper.quote_isQuote, quoted, count _ (isQuote_quoteFor _)]
  | unclosed q rest quote fresh => rw [requote_unclosed quote fresh]

end Literal

namespace Conversion

open Text Call FormLogic.Field FormLogic.Field.Reference
open Grammar (quoted callText)

/-- Operators and literals of a text in the form that they have in the target grammar. -/
def formed (policy : QuotePolicy) (t : Text) : Text := quoted policy (Operator.normalize t)

section Formed

variable {policy : QuotePolicy} {u v : Text} {c : Char}

theorem formed_formed (policy : QuotePolicy) (t : Text) :
    formed policy (formed policy t) = formed policy t := by
  unfold formed quoted
  split
  · rw [← Operator.requote_normalize, Literal.requote_requote, Operator.normalize_normalize]
  · exact Operator.normalize_normalize t

theorem formed_separator (terminated : Terminated u) (separator : c ∈ separators) (v : Text) :
    formed policy (u ++ c :: v) = formed policy u ++ c :: formed policy v := by
  have noQuote := (by decide : ∀ d ∈ separators, isQuote d = false) c separator
  unfold formed quoted
  rw [Operator.normalize_separator terminated separator]
  split
  · rw [Literal.requote_append ((Operator.terminated_normalize u).2 terminated),
      Literal.requote_cons noQuote]
  · rfl

theorem count_formed (separator : c ∈ separators) (t : Text) :
    (formed policy t).count c = t.count c := by
  have visible := (by decide : ∀ d ∈ separators, isSpace d = false) c separator
  have noQuote := (by decide : ∀ d ∈ separators, isQuote d = false) c separator
  have normal := Operator.count_normalize visible
    ((by decide : ∀ d ∈ separators, d ≠ '=') c separator) t
  unfold formed quoted
  split
  · rw [Literal.count_requote noQuote, normal]
  · exact normal

end Formed

section Settled

variable {policy : QuotePolicy} {accept : Text → Bool} {u v t a : Text} {c : Char} {call : Call}

/-- Where a text has its form, so do the parts on either side of a separator. -/
theorem formed_of_cut (terminated : Terminated u) (separator : c ∈ separators)
    (same : formed policy (u ++ c :: v) = u ++ c :: v) :
    formed policy u = u ∧ formed policy v = v := by
  rw [formed_separator terminated separator] at same
  exact append_cons_inj_of_count (count_formed separator u) same

/-- Where a text has its form, so does each argument of a call in it. -/
theorem formed_argument (wellBraced : WellBraced t) (member : .call call ∈ pieces accept none t)
    (inside : a ∈ call.arguments) (same : formed policy t = t) : formed policy a = a := by
  obtain ⟨u, v, rfl, behind⟩ := behind_of_mem_pieces wellBraced member
  obtain ⟨closed, front, back, body, outside, comma, stop⟩ :=
    argument_place behind.closed (mem_splitArguments inside)
  have opening : Terminated (u ++ call.run ++ call.gap) := by
    have name := terminated_of_noQuote (noQuote_opening behind.named.all behind.spaces)
    rw [List.append_assoc]
    exact terminated_append behind.terminated (terminated_of_append_plain name (by decide))
  -- The text is cut at the call's parentheses, and its body at the commas beside the argument.
  have group : formed policy (call.body ++ ')' :: v) = call.body ++ ')' :: v := by
    refine (formed_of_cut (c := '(') opening (by decide) ?_).2
    simpa [Call.render] using same
  obtain ⟨whole, _⟩ := formed_of_cut (terminated_of_closes behind.closed) (by decide) group
  have rest : formed policy (a ++ back) = a ++ back := by
    rw [body] at whole
    rcases List.eq_nil_or_concat front with rfl | ⟨before, last, rfl⟩
    · exact whole
    · rw [List.concat_eq_append] at outside comma whole
      obtain rfl := comma last List.getLast?_concat
      rw [List.append_assoc, List.singleton_append] at whole
      exact (formed_of_cut (terminated_of_append_plain outside (by decide)) (by decide) whole).2
  rcases stop with rfl | ⟨later, rfl⟩
  · rwa [List.append_nil] at rest
  · exact (formed_of_cut (terminated_of_closes closed) (by decide) rest).1

theorem splice_of_plain {meaning : Text → Text} {written after : Option Char} {fs : List Fragment}
    (plain : ∀ token, .reference token ∉ fs) :
    splice meaning written after fs = fs.flatMap Fragment.source := by
  induction fs generalizing written with
  | nil => rfl
  | cons f rest ih =>
    cases f with
    | plain text =>
      rw [splice, ih fun token member => plain token (List.mem_cons_of_mem _ member)]
      rfl
    | reference token => exact absurd List.mem_cons_self (plain token)

/-- A text stays as it is where each call in it is replaced by itself. -/
theorem rewrite_of_render {f : Call → Text} {before : Option Char}
    (kept : ∀ call, .call call ∈ pieces accept before t → f call = call.render) :
    rewrite accept f before t = t := by
  have itself : Piece.rewritten Call.render = Piece.render := funext fun p => by cases p <;> rfl
  rw [rewrite_congr kept, rewrite, itself]
  exact joined_pieces accept before t

theorem replaced_of_tokens {meaning : Text → Text} (written after : Option Char)
    (unreferenced : Reference.tokens t = []) : replaced meaning none written after t = t := by
  have plain : ∀ token, .reference token ∉ fragments none t := by
    intro token member
    have inside : token ∈ Reference.tokens t := List.mem_filterMap.2 ⟨_, member, rfl⟩
    rw [unreferenced] at inside
    cases inside
  rw [replaced, splice_of_plain plain]
  exact Fragment.scanner.flatMap_source_items none t

/-- The calls of a text that are replaced in a stage. -/
def callsOf (stage : Stage) (t : Text) : List Call :=
  (pieces (Context.accepts stage) none t).filterMap fun
    | .call call => some call
    | _ => none

theorem mem_callsOf {stage : Stage} (member : .call call ∈ pieces (Context.accepts stage) none t) :
    call ∈ callsOf stage t :=
  List.mem_filterMap.2 ⟨_, member, rfl⟩

/-- The call is written as conversion writes it, and it is not replaced by a comparison. -/
structure Tidy (call : Call) : Prop where
  written : call.render = callText call.run (call.arguments.map trim)
  kept : ¬(call.run = RuleSet.selectedName ∧ call.arguments.length = 2)

instance (call : Call) : Decidable (Tidy call) :=
  decidable_of_iff (call.render = callText call.run (call.arguments.map trim) ∧
      ¬(call.run = RuleSet.selectedName ∧ call.arguments.length = 2))
    ⟨fun both => ⟨both.1, both.2⟩, fun tidy => ⟨tidy.written, tidy.kept⟩⟩

/-- A text with no reference in which each call of a built-in function is tidy, and so are the calls
in its arguments. -/
inductive Settled : Text → Prop
  | intro {t : Text} (wellBraced : WellBraced t) (unreferenced : Reference.tokens t = [])
      (tidy : ∀ stage, ∀ call ∈ callsOf stage t, Tidy call)
      (arguments : ∀ stage, ∀ call ∈ callsOf stage t, ∀ a ∈ call.arguments, Settled a) : Settled t

/-- A tidy call whose arguments are left as they are is left as it is. -/
theorem Tidy.replacement (tidy : Tidy call) (ctx : Context) {convert : Text → Text}
    (same : ∀ a ∈ call.arguments, convert a = a) : ctx.replacement convert call = call.render := by
  have arguments : (call.arguments.map fun a => trim (convert a)) = call.arguments.map trim :=
    List.map_congr_left fun a inside => congrArg trim (same a inside)
  rw [replacement_render ctx convert tidy.kept, arguments, tidy.written, callText]
  simp

/-- What conversion gives has its form. -/
theorem formed_output (ctx : Context) {depth : Nat} (positive : 0 < depth) (t : Text) :
    formed ctx.options.quotePolicy (ctx.output depth t) = ctx.output depth t := by
  cases depth with
  | zero => exact absurd positive (Nat.lt_irrefl 0)
  | succ depth =>
    rw [Context.output, Grammar.finish_eq]
    exact formed_formed _ _

/-- A settled text that has its form is converted into itself. -/
theorem Settled.output (settled : Settled t) (ctx : Context) {depth : Nat} (fits : nesting t < depth)
    (same : formed ctx.options.quotePolicy t = t) :
    ctx.Converts depth t ∧ ctx.output depth t = t := by
  induction settled generalizing depth with
  | @intro t wellBraced unreferenced tidy _ ih =>
    cases depth with
    | zero => exact absurd fits (Nat.not_lt_zero _)
    | succ depth =>
      have inside (stage : Stage) (call : Call)
          (member : .call call ∈ pieces (Context.accepts stage) none t) (a : Text)
          (argument : a ∈ call.arguments) : ctx.Converts depth a ∧ ctx.output depth a = a := by
        have fewer := Context.nesting_argument member argument
        exact ih stage call (mem_callsOf member) a argument (by omega)
          (formed_argument wellBraced member argument same)
      have kept (stage : Stage) : ctx.replaceIn (ctx.output depth) stage t = t :=
        rewrite_of_render fun call member =>
          (tidy stage call (mem_callsOf member)).replacement ctx fun a argument =>
            (inside stage call member a argument).2
      constructor
      · rw [Context.converts_succ_iff, kept]
        exact ⟨fun call member a argument => (inside _ call member a argument).1,
          fun call member a argument => (inside _ call member a argument).1⟩
      · rw [Context.output, kept, kept, Grammar.finish_eq, replaced_of_tokens _ _ unreferenced]
        exact same

end Settled

end Conversion

end FormLogic
