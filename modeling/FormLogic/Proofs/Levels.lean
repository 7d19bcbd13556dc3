import FormLogic.Proofs.Output
import FormLogic.Proofs.References

/-!
How many levels a conversion needs. More levels change nothing for a text that some number of them
suffices for. No pass adds parentheses to a text, and an argument has fewer of them than its text, so
one level more than there are opening parentheses is enough.
-/
namespace FormLogic.Conversion

open Text Call FormLogic.Field FormLogic.Field.Reference

namespace Context

variable {ctx : Context}

theorem convertedCall_congr {f g : Text → Text} {call : Call}
    (same : ∀ a ∈ call.arguments, f a = g a) : convertedCall f call = convertedCall g call := by
  rw [convertedCall, convertedCall]
  congr 1
  exact List.map_congr_left fun a member => by rw [same a member]

theorem replacement_congr {f g : Text → Text} {call : Call}
    (same : ∀ a ∈ call.arguments, f a = g a) : ctx.replacement f call = ctx.replacement g call := by
  rw [replacement, replacement, convertedCall_congr same]

theorem replaceIn_congr {f g : Text → Text} {stage : Stage} {t : Text}
    (same : ∀ call, .call call ∈ pieces (accepts stage) none t → ∀ a ∈ call.arguments, f a = g a) :
    ctx.replaceIn f stage t = ctx.replaceIn g stage t :=
  rewrite_congr fun call member => replacement_congr (same call member)

theorem Converts.next {depth : Nat} {t : Text} (converts : ctx.Converts depth t) :
    ctx.Converts (depth + 1) t ∧ ctx.output (depth + 1) t = ctx.output depth t := by
  induction depth generalizing t with
  | zero => exact absurd converts (not_converts_zero t)
  | succ depth ih =>
    obtain ⟨logical, predicate⟩ := converts_succ_iff.1 converts
    have first : ctx.replaceIn (ctx.output (depth + 1)) .logical t =
        ctx.replaceIn (ctx.output depth) .logical t :=
      replaceIn_congr fun call member a inside => (ih (logical call member a inside)).2
    have second : ctx.replaceIn (ctx.output (depth + 1)) .predicate
        (ctx.replaceIn (ctx.output depth) .logical t) =
        ctx.replaceIn (ctx.output depth) .predicate (ctx.replaceIn (ctx.output depth) .logical t) :=
      replaceIn_congr fun call member a inside => (ih (predicate call member a inside)).2
    constructor
    · refine converts_succ_iff.2 ⟨fun call member a inside => (ih (logical call member a inside)).1,
        ?_⟩
      rw [first]
      exact fun call member a inside => (ih (predicate call member a inside)).1
    · rw [output, output, first, second]

/-- More levels change nothing. -/
theorem Converts.mono {depth more : Nat} {t : Text} (converts : ctx.Converts depth t)
    (le : depth ≤ more) : ctx.Converts more t ∧ ctx.output more t = ctx.output depth t := by
  induction le with
  | refl => exact ⟨converts, rfl⟩
  | step _ ih => exact ⟨ih.1.next.1, ih.1.next.2.trans ih.2⟩

end Context

/-- Characters of which no pass writes more than it reads. -/
structure Light (ctx : Context) (p : Char → Bool) : Prop where
  space : p ' ' = false
  equals : p '=' = false
  single : p '\'' = false
  double : p '"' = false
  codes : ∀ e ∈ ctx.registry.entries, ∀ choice ∈ e.choices, ∀ c ∈ choice.2, p c = false
  references : ∀ token, Shape token →
    (ctx.registry.resolve token ctx.owner).text.countP p ≤ token.countP p

section

variable {ctx : Context} {p : Char → Bool}

theorem countP_eq_zero {t : Text} (never : ∀ c ∈ t, p c = false) : t.countP p = 0 :=
  List.countP_eq_zero.2 fun c member => by rw [never c member]; decide

theorem Light.separator (light : Light ctx p) (left right : Option Char) :
    (separator left right).countP p = 0 := by
  rcases separator_eq left right with same | same <;> rw [same]
  · rfl
  · exact countP_eq_zero fun c member => by rw [List.mem_singleton.1 member]; exact light.space

theorem mem_of_answerCode? {e : Entry} {value code : Text} (found : e.answerCode? value = some code) :
    ∃ choice ∈ e.choices, choice.2 = code := by
  rw [Entry.answerCode?] at found
  generalize e.choices = choices at found
  induction choices with
  | nil => cases found
  | cons choice rest ih =>
    rw [List.lookup_cons] at found
    split at found
    · exact ⟨choice, List.mem_cons_self, Option.some.inj found⟩
    · obtain ⟨other, member, same⟩ := ih found
      exact ⟨other, List.mem_cons_of_mem choice member, same⟩

theorem mem_fragments {before : Option Char} {t token : Text}
    (member : .reference token ∈ fragments before t) : Shape token := by
  obtain ⟨before, c, rest, same⟩ := Fragment.scanner.mem_items member
  have step := Fragment.step_next before c rest
  have reference : (Fragment.next before c rest).1 = .reference token := same.symm
  rw [reference] at step
  exact step.shape

theorem Light.splice (light : Light ctx p) {written after : Option Char} {fs : List Fragment}
    (shapes : ∀ token, .reference token ∈ fs → Shape token) :
    (splice (fun token => (ctx.registry.resolve token ctx.owner).text) written after fs).countP p ≤
      (fs.flatMap Fragment.source).countP p := by
  induction fs generalizing written with
  | nil => exact Nat.le_refl 0
  | cons s rest ih =>
    have later := fun written => @ih written
      fun token member => shapes token (List.mem_cons_of_mem s member)
    cases s with
    | plain text =>
      rw [Reference.splice, List.flatMap_cons, List.countP_append, List.countP_append]
      exact Nat.add_le_add_left (later _) _
    | reference token =>
      have text := light.references token (shapes token List.mem_cons_self)
      rw [splice_reference, List.flatMap_cons, List.countP_append, List.countP_append, spaced,
        List.countP_append, List.countP_append, light.separator, light.separator]
      have behind := later ((spaced (fun token => (ctx.registry.resolve token ctx.owner).text) written
        ((firstChar rest).or after) token).getLast?.or written)
      refine Nat.add_le_add ?_ behind
      rw [Nat.zero_add, Nat.add_zero]
      exact text

theorem Light.replaceReferences (light : Light ctx p) (t : Text) :
    (ctx.registry.replaceReferences ctx.owner t).countP p ≤ t.countP p := by
  have whole := Fragment.scanner.flatMap_source_items none t
  conv => rhs; rw [← whole]
  exact light.splice fun token member => mem_fragments member

theorem Light.render (light : Light ctx p) (spaced : Bool) (ts : List Operator.Token) :
    (Operator.render spaced ts).countP p ≤ (ts.flatMap Operator.Token.source).countP p := by
  induction ts generalizing spaced with
  | nil => exact Nat.le_refl 0
  | cons token rest ih =>
    have spaces : [' ', ' '].countP p = 0 :=
      countP_eq_zero fun c member => by
        have same : c = ' ' := by simpa using member
        rw [same]
        exact light.space
    rw [List.flatMap_cons, List.countP_append]
    cases token with
    | space c =>
      rw [Operator.render]
      split
      · exact Nat.le_trans (ih spaced) (Nat.le_add_left _ _)
      · rw [← List.singleton_append, List.countP_append]
        exact Nat.add_le_add_left (ih false) _
    | boolean word =>
      rw [Operator.render]
      simp only [List.countP_append, spaces]
      have later := ih true
      change 0 + word.render.countP p + 0 + _ ≤ word.render.countP p + _
      omega
    | equals =>
      have later := ih false
      rw [Operator.render]
      simp only [List.countP_cons, light.equals, Operator.Token.source, List.countP_nil]
      simpa using later
    | quotedText text =>
      rw [Operator.render, List.countP_append]
      exact Nat.add_le_add_left (ih false) _
    | other c =>
      rw [Operator.render, ← List.singleton_append, List.countP_append]
      exact Nat.add_le_add_left (ih false) _

theorem Light.normalize (light : Light ctx p) (t : Text) :
    (Operator.normalize t).countP p ≤ t.countP p := by
  have whole := Operator.Token.scanner.flatMap_source_items none t
  conv => rhs; rw [← whole]
  exact light.render false _

theorem Light.quote (light : Light ctx p) {c : Char} (quote : isQuote c = true) : p c = false := by
  simp only [isQuote, Bool.or_eq_true, beq_iff_eq] at quote
  rcases quote with rfl | rfl
  · exact light.single
  · exact light.double

theorem Light.literal (light : Light ctx p) {quote : Char} (quoting : isQuote quote = true)
    (content : Text) : (Literal.render ⟨quote, content⟩).countP p = content.countP p := by
  have ends : [quote].countP p = 0 :=
    countP_eq_zero fun c member => by rw [List.mem_singleton.1 member]; exact light.quote quoting
  have whole : Literal.render ⟨quote, content⟩ = [quote] ++ content ++ [quote] := rfl
  rw [whole, List.countP_append, List.countP_append, ends]
  omega

theorem Light.requote (light : Light ctx p) (t : Text) :
    (Literal.requote t).countP p ≤ t.countP p := by
  induction t using Literal.segmentInduction with
  | nil => exact Nat.le_of_eq (congrArg _ Literal.requote_nil)
  | plain c rest plain ih =>
    rw [Literal.requote_cons plain, List.countP_cons, List.countP_cons]
    omega
  | literal l rest proper ih =>
    rw [Literal.requote_render_append proper, List.countP_append, List.countP_append,
      light.literal proper.quote_isQuote l.content, Literal.quoted,
      light.literal (Literal.isQuote_quoteFor l.content)]
    exact Nat.add_le_add_left ih _
  | unclosed q rest quote fresh =>
    exact Nat.le_of_eq (congrArg _ (Literal.requote_unclosed quote fresh))

theorem Light.finish (light : Light ctx p) (t : Text) :
    (ctx.converter.finish ctx.owner t).countP p ≤ t.countP p := by
  have normal : (Operator.normalize (ctx.registry.replaceReferences ctx.owner t)).countP p ≤
      t.countP p := Nat.le_trans (light.normalize _) (light.replaceReferences t)
  rw [Converter.finish]
  split
  · exact Nat.le_trans (light.requote _) normal
  · exact normal

theorem Light.selectedValue (light : Light ctx p) (field value : Argument)
    (le : value.converted.countP p ≤ value.raw.countP p) :
    (selectedValue ctx field value).countP p ≤ value.raw.countP p := by
  unfold Conversion.selectedValue
  split
  · next l found =>
    obtain ⟨proper, trimmed⟩ := Literal.parse?_eq_some found
    have inside : l.content.countP p ≤ value.raw.countP p := by
      have whole := ((trim_sublist _).trans (trim_sublist value.raw)).countP_le (p := p)
      rw [Argument.source] at trimmed
      rwa [trimmed, light.literal proper.quote_isQuote l.content] at whole
    have content : (((ctx.registry.resolve field.source ctx.owner).found?.bind
        (·.answerCode? l.content)).getD l.content).countP p ≤ value.raw.countP p := by
      cases entry : (ctx.registry.resolve field.source ctx.owner).found? with
      | none => exact inside
      | some e =>
        cases code : e.answerCode? l.content with
        | none =>
          rw [Option.bind_some, code]
          exact inside
        | some text =>
          rw [Option.bind_some, code, Option.getD_some]
          obtain ⟨choice, member, rfl⟩ := mem_of_answerCode? code
          rw [countP_eq_zero (light.codes e (Registry.mem_of_found? entry) choice member)]
          exact Nat.zero_le _
    dsimp only
    split
    · rw [light.literal proper.quote_isQuote]
      exact content
    · rw [Literal.quoted, light.literal (Literal.isQuote_quoteFor _)]
      exact content
    · rw [Literal.quoted, light.literal (Literal.isQuote_quoteFor _)]
      exact content
  · exact Nat.le_trans (trim_sublist value.converted).countP_le le

theorem Light.intercalate (light : Light ctx p) {f : Text → Text} (as : List Text)
    (le : ∀ a ∈ as, (f a).countP p ≤ a.countP p) :
    ([',', ' '].intercalate (as.map f)).countP p ≤ ([','].intercalate as).countP p := by
  match as with
  | [] => exact Nat.le_refl 0
  | [a] =>
    rw [List.map_singleton, List.intercalate_singleton, List.intercalate_singleton]
    exact le a List.mem_cons_self
  | a :: b :: rest =>
    have first := le a List.mem_cons_self
    have later := light.intercalate (b :: rest) fun c member => le c (List.mem_cons_of_mem a member)
    have gap : [',', ' '].countP p = [','].countP p := by
      rw [List.countP_cons, List.countP_cons, List.countP_cons, light.space]
      rfl
    rw [List.map_cons] at later
    rw [List.map_cons, List.map_cons, List.intercalate_cons_cons, List.intercalate_cons_cons,
      List.countP_append, List.countP_append, List.countP_append, List.countP_append, gap]
    omega

theorem countP_arguments (call : Call) :
    ([','].intercalate call.arguments).countP p ≤ call.body.countP p := by
  rw [Call.arguments]
  split
  · exact Nat.zero_le _
  · exact Nat.le_of_eq (congrArg (List.countP p) (intercalate_splitArguments .outside call.body))

theorem countP_render (call : Call) :
    call.render.countP p = call.run.countP p + call.gap.countP p + ['('].countP p +
      call.body.countP p + [')'].countP p := by
  have whole : call.render = call.run ++ call.gap ++ ['('] ++ call.body ++ [')'] := by
    simp [Call.render]
  rw [whole]
  simp only [List.countP_append]

/-- What replaces a call is no heavier than the call, if that is so of its arguments. -/
theorem Light.replacement (light : Light ctx p) {convert : Text → Text} {call : Call}
    (le : ∀ a ∈ call.arguments, (convert a).countP p ≤ a.countP p) :
    (ctx.replacement convert call).countP p ≤ call.render.countP p := by
  have body := countP_arguments (p := p) call
  rw [Context.replacement, countP_render]
  split
  · next both =>
    obtain ⟨field, value, pair⟩ := exists_pair both.2
    rw [pair] at le body
    have first := Nat.le_trans (trim_sublist (convert field)).countP_le (le field (by simp))
    have second := light.selectedValue ⟨field, ⟨0, 0⟩, convert field⟩
      ⟨value, ⟨0, 0⟩, convert value⟩ (le value (by simp))
    have equals : [' ', '=', '=', ' '].countP p = 0 := countP_eq_zero (by
      simp [light.space, light.equals])
    have text : compareSelected (Context.convertedCall convert call) ctx =
        some (['('] ++ trim (convert field) ++ [' ', '=', '=', ' '] ++
          Conversion.selectedValue ctx ⟨field, ⟨0, 0⟩, convert field⟩
            ⟨value, ⟨0, 0⟩, convert value⟩ ++ [')']) := by
      rw [Context.convertedCall, pair]
      rfl
    rw [text, Option.getD_some]
    rw [List.intercalate_cons_cons, List.intercalate_singleton] at body
    simp only [List.countP_append, equals] at body ⊢
    dsimp only at second
    omega
  · have arguments := light.intercalate (f := fun a => trim (convert a)) call.arguments
      fun a member => Nat.le_trans (trim_sublist _).countP_le (le a member)
    have text : (Context.convertedCall convert call).render =
        call.run ++ ['('] ++ [',', ' '].intercalate (call.arguments.map fun a => trim (convert a)) ++
          [')'] := by
      rw [ConvertedCall.render, Context.convertedCall, List.map_map]
      simp [Function.comp_def, Argument.text]
    rw [text]
    simp only [List.countP_append]
    omega

theorem Light.replaceIn (light : Light ctx p) {convert : Text → Text}
    (le : ∀ a, (convert a).countP p ≤ a.countP p) (stage : Stage) (t : Text) :
    (ctx.replaceIn convert stage t).countP p ≤ t.countP p := by
  have whole := joined_pieces (Context.accepts stage) none t
  conv => rhs; rw [← whole]
  rw [Context.replaceIn, rewrite, joined]
  generalize pieces (Context.accepts stage) none t = ps
  induction ps with
  | nil => exact Nat.le_refl 0
  | cons piece rest ih =>
    rw [List.flatMap_cons, List.flatMap_cons, List.countP_append, List.countP_append]
    refine Nat.add_le_add ?_ ih
    cases piece with
    | plain text => exact Nat.le_refl _
    | call call => exact light.replacement fun a _ => le a
    | unbalanced run gap => exact Nat.le_refl _

/-- No conversion makes a text heavier. -/
theorem Light.output (light : Light ctx p) (depth : Nat) (t : Text) :
    (ctx.output depth t).countP p ≤ t.countP p := by
  induction depth generalizing t with
  | zero => exact Nat.le_refl _
  | succ depth ih =>
    rw [Context.output]
    refine Nat.le_trans (light.finish _) ?_
    exact Nat.le_trans (light.replaceIn ih .predicate _) (light.replaceIn ih .logical t)

end

/-- No pass writes a character of its own but a space, an equals sign and quotes. -/
theorem light_of_absent {ctx : Context} {stop : Char} (foreign : stop ∉ [' ', '=', '\'', '"'])
    (identifiers : ∀ e ∈ ctx.registry.entries, stop ∉ e.identifier)
    (codes : ∀ e ∈ ctx.registry.entries, ∀ choice ∈ e.choices, stop ∉ choice.2)
    (owner : ∀ name ∈ ctx.owner, ctx.registry.lookup? name = none → stop ∉ name) :
    Light ctx (· == stop) := by
  have free {t : Text} (absent : stop ∉ t) : ∀ c ∈ t, (c == stop) = false := fun c inside =>
    beq_eq_false_iff_ne.2 fun same => absent (same ▸ inside)
  have other {c : Char} (member : c ∈ [' ', '=', '\'', '"']) : (c == stop) = false :=
    beq_eq_false_iff_ne.2 fun same => foreign (same ▸ member)
  refine ⟨other (by simp), other (by simp), other (by simp), other (by simp), ?_, ?_⟩
  · exact fun e member choice inside => free (codes e member choice inside)
  · intro token _
    rcases Registry.resolve_parts ctx.registry ctx.owner token with
      ⟨e, member, same⟩ | part | ⟨name, member, unknown, part⟩
    · rw [same, countP_eq_zero (free (identifiers e member))]
      exact Nat.zero_le _
    · exact part.countP_le
    · have fewer := part.countP_le (p := (· == stop))
      rw [countP_eq_zero (free (owner name member unknown))] at fewer
      exact Nat.le_trans fewer (Nat.zero_le _)

/-- No identifier and no answer code opens a parenthesis, nor does an owner that is no field. -/
structure Flat (ctx : Context) : Prop where
  identifiers : ∀ e ∈ ctx.registry.entries, '(' ∉ e.identifier
  codes : ∀ e ∈ ctx.registry.entries, ∀ choice ∈ e.choices, '(' ∉ choice.2
  owner : ∀ name ∈ ctx.owner, ctx.registry.lookup? name = none → '(' ∉ name

/-- No pass writes an opening parenthesis where identifiers, codes and owner have none. -/
theorem Flat.light {ctx : Context} (flat : Flat ctx) : Light ctx (· == '(') :=
  light_of_absent (by decide) flat.identifiers flat.codes flat.owner

theorem nesting_append (s t : Text) : nesting (s ++ t) = nesting s + nesting t := List.count_append

theorem Converter.nesting_lt_depthFor (t : Text) : nesting t < Converter.depthFor t := by
  rw [Converter.depthFor]
  omega

theorem Converter.depthFor_pos (t : Text) : 0 < Converter.depthFor t :=
  Nat.zero_lt_of_lt (Converter.nesting_lt_depthFor t)

theorem exists_of_output {result : Except Failure Converted} {t : Text}
    (outcome : result.toOption.map Converted.output = some t) :
    ∃ c, result = .ok c ∧ c.output = t := by
  cases result with
  | error failure => cases outcome
  | ok c => exact ⟨c, rfl, Option.some.inj outcome⟩

namespace Context

variable {ctx : Context}

/-- An argument has fewer opening parentheses than the text that its call stands in. -/
theorem nesting_argument {accept : Text → Bool} {before : Option Char} {t a : Text} {call : Call}
    (member : .call call ∈ pieces accept before t) (inside : a ∈ call.arguments) :
    nesting a < nesting t := by
  obtain ⟨_, closed, _, _⟩ := mem_pieces member
  obtain ⟨_, front, after, whole, _⟩ := argument_place closed (mem_splitArguments inside)
  have piece : call.render.Sublist t := by
    have inside : call.render ∈ (pieces accept before t).map Piece.render :=
      List.mem_map.2 ⟨.call call, member, rfl⟩
    have whole := List.sublist_flatten_of_mem inside
    rwa [← List.flatMap_def, ← joined, joined_pieces] at whole
  have total : nesting call.render ≤ nesting t := piece.countP_le
  have parts := countP_render (p := (· == '(')) call
  have body : call.body.countP (· == '(') = front.countP (· == '(') +
      (a.countP (· == '(') + after.countP (· == '(')) := by
    rw [whole, List.countP_append, List.countP_append]
  have opening : ['('].countP (· == '(') = 1 := rfl
  change a.countP (· == '(') < t.countP (· == '(')
  change call.render.countP (· == '(') ≤ t.countP (· == '(') at total
  omega

/-- One level more than there are opening parentheses suffices. -/
theorem converts_of_nesting (light : Light ctx (· == '(')) {depth : Nat} {t : Text}
    (fits : nesting t < depth) : ctx.Converts depth t := by
  induction depth generalizing t with
  | zero => omega
  | succ depth ih =>
    refine converts_succ_iff.2 ⟨?_, ?_⟩
    · intro call member a inside
      have fewer := nesting_argument member inside
      exact ih (by omega)
    · intro call member a inside
      have fewer := nesting_argument member inside
      have kept : nesting (ctx.replaceIn (ctx.output depth) .logical t) ≤ nesting t :=
        light.replaceIn (light.output depth) .logical t
      exact ih (by omega)

/-- An expression is converted exactly if the levels suffice, and then into the outcome. -/
theorem convertFor_iff {t : Text} {output : Text} :
    (∃ c, ctx.converter.convertFor ctx.owner t = .ok c ∧ c.output = output) ↔
      ctx.Converts (Converter.depthFor t) t ∧ ctx.output (Converter.depthFor t) t = output := by
  constructor
  · rintro ⟨_, converted, rfl⟩
    obtain ⟨draft, done, rfl⟩ := convertFor_eq_ok.1 converted
    exact ⟨⟨draft, done⟩, (output_of_convertWithin done).symm⟩
  · rintro ⟨⟨draft, done⟩, rfl⟩
    exact ⟨_, convertFor_eq_ok.2 ⟨draft, done, rfl⟩, output_of_convertWithin done⟩

end Context

end FormLogic.Conversion
