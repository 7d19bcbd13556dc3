import FormLogic.Conversion.Converter
import FormLogic.Proofs.Pieces

/-!
Conversion with the built-in rules as a function from texts to texts. The converter either gives
this function's value or runs out of levels; it does neither more nor less than that with the calls
it replaces. What it found amiss on the way is left aside.
-/
namespace FormLogic.Conversion

open Text FormLogic.Field

theorem Except.bind_eq_ok {ε α β : Type} {x : Except ε α} {f : α → Except ε β} {b : β} :
    (x >>= f) = .ok b ↔ ∃ a, x = .ok a ∧ f a = .ok b := by
  cases x <;> simp [Bind.bind, Except.bind]

/-! How a conversion that succeeds went on. -/
section

variable {k : Converter} {owner : Option Text} {convert : Text → Except Failure Draft}

theorem convertArguments_cons_eq_ok {a : Call.Argument} {rest : List Call.Argument}
    {drafts : List Argument × List Finding} :
    convertArguments convert (a :: rest) = .ok drafts ↔
      ∃ first later, convert a.raw = .ok first ∧ convertArguments convert rest = .ok later ∧
        drafts = (⟨a.raw, a.span, first.1⟩ :: later.1, first.2 ++ later.2) := by
  rw [convertArguments, Except.bind_eq_ok]
  constructor
  · rintro ⟨first, done, whole⟩
    obtain ⟨later, others, whole⟩ := Except.bind_eq_ok.1 whole
    exact ⟨first, later, done, others, (Except.ok.inj whole).symm⟩
  · rintro ⟨first, later, done, others, rfl⟩
    exact ⟨first, done, Except.bind_eq_ok.2 ⟨later, others, rfl⟩⟩

/-- What the first of the pieces that begin at byte `start` gives way to. -/
def Converter.replacePiece (k : Converter) (owner : Option Text)
    (convert : Text → Except Failure Draft) (start : Nat) (piece : Call.Piece)
    (rest : List Call.Piece) : Except Failure Draft :=
  match piece with
  | .plain text => .ok (text, [])
  | .call call => k.replaceCall owner convert start call
  | .unbalanced .. => .ok (piece.render, [.unbalancedCall (Call.joined (piece :: rest))])

theorem replacePieces_cons (start : Nat) (piece : Call.Piece) (rest : List Call.Piece) :
    k.replacePieces owner convert start (piece :: rest) =
      k.replacePiece owner convert start piece rest >>= fun first =>
        k.replacePieces owner convert (start + byteLength piece.render) rest >>= fun later =>
          .ok (first.1 ++ later.1, first.2 ++ later.2) := by
  rw [Converter.replacePieces.eq_def]
  cases piece <;> rfl

theorem replacePieces_cons_eq_ok {start : Nat} {piece : Call.Piece} {rest : List Call.Piece}
    {draft : Draft} :
    k.replacePieces owner convert start (piece :: rest) = .ok draft ↔
      ∃ first later, k.replacePiece owner convert start piece rest = .ok first ∧
        k.replacePieces owner convert (start + byteLength piece.render) rest = .ok later ∧
        draft = (first.1 ++ later.1, first.2 ++ later.2) := by
  rw [replacePieces_cons, Except.bind_eq_ok]
  constructor
  · rintro ⟨first, done, whole⟩
    obtain ⟨later, others, whole⟩ := Except.bind_eq_ok.1 whole
    exact ⟨first, later, done, others, (Except.ok.inj whole).symm⟩
  · rintro ⟨first, later, done, others, rfl⟩
    exact ⟨first, done, Except.bind_eq_ok.2 ⟨later, others, rfl⟩⟩

theorem convertWithin_succ_eq_ok {depth : Nat} {t : Text} {draft : Draft} :
    k.convertWithin owner (depth + 1) t = .ok draft ↔
      ∃ logical predicates,
        k.replaceCalls owner (k.convertWithin owner depth) .logical t = .ok logical ∧
        k.replaceCalls owner (k.convertWithin owner depth) .predicate logical.1 = .ok predicates ∧
        draft = (k.finish owner predicates.1, logical.2 ++ predicates.2 ++
          (k.registry.unresolvedTokens owner predicates.1).map .unresolvedReference) := by
  rw [Converter.convertWithin, Except.bind_eq_ok]
  constructor
  · rintro ⟨logical, first, whole⟩
    obtain ⟨predicates, second, whole⟩ := Except.bind_eq_ok.1 whole
    exact ⟨logical, predicates, first, second, (Except.ok.inj whole).symm⟩
  · rintro ⟨logical, predicates, first, second, rfl⟩
    exact ⟨logical, first, Except.bind_eq_ok.2 ⟨predicates, second, rfl⟩⟩

theorem convertFor_eq_ok {t : Text} {c : Converted} :
    k.convertFor owner t = .ok c ↔
      ∃ draft, k.convertWithin owner (Converter.depthFor t) t = .ok draft ∧
        c = ⟨draft.1, ((draft.2 ++ (unknownFunctions k.rules (nesting draft.1 + 1) draft.1).map
          Finding.unknownFunction).map Finding.toDiagnostic).eraseDups⟩ := by
  rw [Converter.convertFor, Except.bind_eq_ok]
  constructor
  · rintro ⟨draft, done, whole⟩
    exact ⟨draft, done, (Except.ok.inj whole).symm⟩
  · rintro ⟨draft, done, rfl⟩
    exact ⟨draft, done, rfl⟩

end

namespace Context

/-- The converter with the built-in rules. -/
def converter (ctx : Context) : Converter := ⟨ctx.registry, .builtin, ctx.options⟩

/-- The text that a token stands for. -/
def meaning (ctx : Context) (token : Text) : Text := (ctx.registry.resolve token ctx.owner).text

/-- The call with its arguments converted. -/
def convertedCall (convert : Text → Text) (call : Call) : ConvertedCall :=
  ⟨call.run, call.arguments.map fun raw => ⟨raw, ⟨0, 0⟩, convert raw⟩, ⟨0, 0⟩⟩

/-- The text that replaces a call of a built-in function. -/
def replacement (ctx : Context) (convert : Text → Text) (call : Call) : Text :=
  if call.run = RuleSet.selectedName ∧ call.arguments.length = 2 then
    (compareSelected (convertedCall convert call) ctx).getD []
  else (convertedCall convert call).render

/-- Whether the calls of a function are replaced in a stage. -/
def accepts (stage : Stage) (name : Text) : Bool := RuleSet.builtin.runsIn name stage

/-- A text with the calls of a stage replaced. -/
def replaceIn (ctx : Context) (convert : Text → Text) (stage : Stage) (t : Text) : Text :=
  Call.rewrite (accepts stage) (ctx.replacement convert) none t

/-- The outcome of a conversion with a given number of levels. Below them texts stay as they are. -/
def output (ctx : Context) : Nat → Text → Text
  | 0, t => t
  | depth + 1, t =>
    let convert := ctx.output depth
    ctx.converter.finish ctx.owner
      (ctx.replaceIn convert .predicate (ctx.replaceIn convert .logical t))

/-- The levels suffice for a text. -/
def Converts (ctx : Context) (depth : Nat) (t : Text) : Prop :=
  ∃ draft, ctx.converter.convertWithin ctx.owner depth t = .ok draft

end Context

section

variable {ctx : Context} {convert : Text → Except Failure Draft} {outcome : Text → Text}

/-- The place of a call does not matter to what replaces it. -/
def Argument.bare (a : Argument) : Argument := ⟨a.raw, ⟨0, 0⟩, a.converted⟩

theorem render_bare (name : Text) (arguments : List Argument) (span : Span) :
    ConvertedCall.render ⟨name, arguments, span⟩ =
      ConvertedCall.render ⟨name, arguments.map Argument.bare, ⟨0, 0⟩⟩ := by
  rw [ConvertedCall.render, ConvertedCall.render, List.map_map]
  rfl

theorem compareSelected_bare (name : Text) (arguments : List Argument) (span : Span) :
    compareSelected ⟨name, arguments, span⟩ ctx =
      compareSelected ⟨name, arguments.map Argument.bare, ⟨0, 0⟩⟩ ctx := by
  match arguments with
  | [] => rfl
  | [_] => rfl
  | _ :: _ :: _ => rfl

/-- Arguments are converted into their outcomes if each of them is converted. -/
theorem convertArguments_of
    (correct : ∀ a draft, convert a = .ok draft → draft.1 = outcome a)
    {arguments : List Call.Argument} (ready : ∀ a ∈ arguments, ∃ draft, convert a.raw = .ok draft) :
    ∃ found, convertArguments convert arguments =
      .ok (arguments.map fun a => ⟨a.raw, a.span, outcome a.raw⟩, found) := by
  induction arguments with
  | nil => exact ⟨[], rfl⟩
  | cons a rest ih =>
    rw [List.forall_mem_cons] at ready
    obtain ⟨⟨first, done⟩, others⟩ := ready
    obtain ⟨later, others⟩ := ih others
    refine ⟨first.2 ++ later, convertArguments_cons_eq_ok.2 ⟨first, (_, later), done, others, ?_⟩⟩
    rw [correct a.raw first done]
    rfl

theorem of_convertArguments {arguments : List Call.Argument}
    {draft : List Argument × List Finding}
    (whole : convertArguments convert arguments = .ok draft) :
    ∀ a ∈ arguments, ∃ draft, convert a.raw = .ok draft := by
  induction arguments generalizing draft with
  | nil => exact fun _ member => by cases member
  | cons a rest ih =>
    obtain ⟨_, _, done, others, _⟩ := convertArguments_cons_eq_ok.1 whole
    exact List.forall_mem_cons.2 ⟨⟨_, done⟩, ih others⟩

theorem mem_of_placed {call : Call} {start : Nat} {a : Call.Argument}
    (member : a ∈ call.placedArguments start) : a.raw ∈ call.arguments := by
  rw [← Call.map_raw_placeArguments (call.bodyStart start) call.arguments]
  exact List.mem_map_of_mem member

theorem placed_of_mem {call : Call} {raw : Text} (member : raw ∈ call.arguments) (start : Nat) :
    ∃ a ∈ call.placedArguments start, a.raw = raw := by
  rw [← Call.map_raw_placeArguments (call.bodyStart start) call.arguments] at member
  exact List.mem_map.1 member

namespace Context

/-- The functions with a built-in rule. -/
theorem get?_builtin {name : Text} {rule : Rule} (found : RuleSet.builtin.get? name = some rule) :
    ((name = RuleSet.negationName ∨ name = RuleSet.choiceName) ∧ rule.stage = .logical ∧
        rule.replacement = keepShape) ∨
      name = RuleSet.selectedName ∧ rule = ⟨.predicate, 2, 2, compareSelected⟩ := by
  rw [RuleSet.get?, RuleSet.builtin, List.lookup_cons] at found
  split at found
  · next same =>
    cases found
    exact Or.inl ⟨Or.inl (eq_of_beq same), rfl, rfl⟩
  · rw [List.lookup_cons] at found
    split at found
    · next same =>
      cases found
      exact Or.inl ⟨Or.inr (eq_of_beq same), rfl, rfl⟩
    · rw [List.lookup_cons] at found
      split at found
      · next same =>
        cases found
        exact Or.inr ⟨eq_of_beq same, rfl⟩
      · cases found

/-- The rule by which a call is replaced in a stage. -/
theorem rule_of_accepts {stage : Stage} {name : Text} (accepted : accepts stage name = true) :
    ∃ rule, RuleSet.builtin.get? name = some rule ∧ rule.stage = stage := by
  rw [accepts, RuleSet.runsIn, Option.any_eq_true] at accepted
  obtain ⟨rule, found, same⟩ := accepted
  exact ⟨rule, found, eq_of_beq same⟩

/-- No white space is trimmed off the name of a built-in function. -/
theorem name_of_accepts {stage : Stage} {call : Call} (accepted : accepts stage call.run = true) :
    call.name = call.run := by
  obtain ⟨rule, found, _⟩ := rule_of_accepts accepted
  rw [Call.name]
  rcases get?_builtin found with ⟨named | named, _⟩ | ⟨named, _⟩ <;> rw [named] <;> decide

end Context

/-- The call with its arguments converted where they stand. -/
def placedCall (outcome : Text → Text) (call : Call) (start : Nat) : ConvertedCall :=
  ⟨call.name, (call.placedArguments start).map fun a => ⟨a.raw, a.span, outcome a.raw⟩,
    call.spanAt start⟩

theorem bare_placedCall (call : Call) (start : Nat) :
    (placedCall outcome call start).arguments.map Argument.bare =
      (Context.convertedCall outcome call).arguments := by
  rw [Context.convertedCall, placedCall, List.map_map,
    ← Call.map_raw_placeArguments (call.bodyStart start) call.arguments, List.map_map]
  rfl

theorem length_placedCall (call : Call) (start : Nat) :
    (placedCall outcome call start).arguments.length = call.arguments.length := by
  have same : ((placedCall outcome call start).arguments.map Argument.bare).length = _ :=
    congrArg List.length (bare_placedCall call start)
  rwa [List.length_map, Context.convertedCall, List.length_map] at same

theorem render_placedCall {call : Call} (name : call.name = call.run) (start : Nat) :
    (placedCall outcome call start).render = (Context.convertedCall outcome call).render := by
  rw [placedCall, render_bare, name]
  exact congrArg (fun arguments => ConvertedCall.render ⟨call.run, arguments, ⟨0, 0⟩⟩)
    (bare_placedCall call start)

theorem compareSelected_placedCall {call : Call} (name : call.name = call.run) (start : Nat) :
    compareSelected (placedCall outcome call start) ctx =
      compareSelected (Context.convertedCall outcome call) ctx := by
  rw [placedCall, compareSelected_bare, name]
  exact congrArg (fun arguments => compareSelected ⟨call.run, arguments, ⟨0, 0⟩⟩ ctx)
    (bare_placedCall call start)

theorem exists_pair {α : Type} {as : List α} (two : as.length = 2) : ∃ a b, as = [a, b] := by
  match as, two with
  | [a, b], _ => exact ⟨a, b, rfl⟩

/-- A comparison replaces a `selected` call with two arguments. -/
theorem compareSelected_two {call : Call} (two : call.arguments.length = 2) :
    ∃ text, compareSelected (Context.convertedCall outcome call) ctx = some text := by
  obtain ⟨field, value, pair⟩ := exists_pair two
  rw [Context.convertedCall, pair]
  exact ⟨_, rfl⟩

theorem applyRule_of {call : Call} {rule : Rule}
    (known : RuleSet.builtin.get? call.run = some rule) (name : call.name = call.run)
    (start : Nat) :
    ∃ found, ctx.converter.applyRule ctx.owner rule (placedCall outcome call start) =
      .ok (ctx.replacement outcome call, found) := by
  rw [Converter.applyRule, length_placedCall]
  rcases Context.get?_builtin known with ⟨named, _, keeps⟩ | ⟨named, rfl⟩
  · have kept : ctx.replacement outcome call = (Context.convertedCall outcome call).render := by
      rw [Context.replacement, if_neg]
      rintro ⟨same, _⟩
      rw [same] at named
      exact absurd named (by decide)
    rw [keeps, keepShape, render_placedCall name, kept]
    split
    · exact ⟨_, rfl⟩
    · exact ⟨_, rfl⟩
  · by_cases two : call.arguments.length = 2
    · obtain ⟨text, compared⟩ :
          ∃ text, compareSelected (Context.convertedCall outcome call) ctx = some text :=
        compareSelected_two two
      have replaced : ctx.replacement outcome call = text := by
        rw [Context.replacement, if_pos ⟨named, two⟩, compared]
        rfl
      have placed : compareSelected (placedCall outcome call start)
          (ctx.converter.context ctx.owner) = some text :=
        (compareSelected_placedCall name start).trans compared
      rw [two, if_pos (by decide), replaced]
      simp only [placed]
      exact ⟨_, rfl⟩
    · have kept : ctx.replacement outcome call = (Context.convertedCall outcome call).render := by
        rw [Context.replacement, if_neg fun both => two both.2]
      have refused : ¬Rule.takes ⟨.predicate, 2, 2, compareSelected⟩ call.arguments.length = true := by
        simp only [Rule.takes, Bool.and_eq_true, decide_eq_true_eq]
        omega
      rw [if_neg refused, render_placedCall name, kept]
      exact ⟨_, rfl⟩

/-- A call of a built-in function is replaced if its arguments are converted. -/
theorem replaceCall_of (correct : ∀ a draft, convert a = .ok draft → draft.1 = outcome a)
    {stage : Stage} {call : Call} (accepted : Context.accepts stage call.run = true)
    (ready : ∀ a ∈ call.arguments, ∃ draft, convert a = .ok draft) (start : Nat) :
    ∃ found, ctx.converter.replaceCall ctx.owner convert start call =
      .ok (ctx.replacement outcome call, found) := by
  obtain ⟨found, arguments⟩ := convertArguments_of correct
    fun a (member : a ∈ call.placedArguments start) => ready a.raw (mem_of_placed member)
  have name := Context.name_of_accepts accepted
  obtain ⟨rule, known, _⟩ := Context.rule_of_accepts accepted
  obtain ⟨more, applied⟩ : ∃ more, ctx.converter.applyRule ctx.owner rule
      (placedCall outcome call start) = .ok (ctx.replacement outcome call, more) :=
    applyRule_of known name start
  have ruled : ctx.converter.rules.get? call.name = some rule := by rw [name]; exact known
  rw [Converter.replaceCall, arguments]
  refine ⟨found ++ more, ?_⟩
  simp only [bind, Except.bind, ruled]
  rw [← placedCall, applied]
  rfl

/-- The calls among pieces are replaced if their arguments are converted. -/
theorem replacePieces_of (correct : ∀ a draft, convert a = .ok draft → draft.1 = outcome a)
    {stage : Stage} {ps : List Call.Piece}
    (accepted : ∀ call, .call call ∈ ps → Context.accepts stage call.run = true)
    (ready : ∀ call, .call call ∈ ps → ∀ a ∈ call.arguments, ∃ draft, convert a = .ok draft)
    (start : Nat) :
    ∃ found, ctx.converter.replacePieces ctx.owner convert start ps =
      .ok (ps.flatMap (Call.Piece.rewritten (ctx.replacement outcome)), found) := by
  induction ps generalizing start with
  | nil => exact ⟨[], rfl⟩
  | cons piece rest ih =>
    obtain ⟨later, others⟩ := ih (fun call member => accepted call (List.mem_cons_of_mem _ member))
      (fun call member => ready call (List.mem_cons_of_mem _ member))
      (start + byteLength piece.render)
    have first : ∃ found, ctx.converter.replacePiece ctx.owner convert start piece rest =
        .ok (piece.rewritten (ctx.replacement outcome), found) := by
      cases piece with
      | plain text => exact ⟨_, rfl⟩
      | call call =>
        exact replaceCall_of correct (accepted call List.mem_cons_self)
          (ready call List.mem_cons_self) start
      | unbalanced run gap => exact ⟨_, rfl⟩
    obtain ⟨found, done⟩ := first
    exact ⟨found ++ later, replacePieces_cons_eq_ok.2 ⟨_, _, done, others, rfl⟩⟩

theorem of_replacePieces {start : Nat} {ps : List Call.Piece} {draft : Draft}
    (whole : ctx.converter.replacePieces ctx.owner convert start ps = .ok draft) :
    ∀ call, .call call ∈ ps → ∀ a ∈ call.arguments, ∃ draft, convert a = .ok draft := by
  induction ps generalizing start draft with
  | nil => exact fun _ member => by cases member
  | cons piece rest ih =>
    obtain ⟨_, _, done, others, _⟩ := replacePieces_cons_eq_ok.1 whole
    intro call member a inside
    rcases List.mem_cons.1 member with rfl | member
    · rw [Converter.replacePiece, Converter.replaceCall, Except.bind_eq_ok] at done
      obtain ⟨_, arguments, _⟩ := done
      obtain ⟨placed, known, rfl⟩ := placed_of_mem inside start
      exact of_convertArguments arguments placed known
    · exact ih others call member a inside

end

namespace Context

variable {ctx : Context}

/-- The levels suffice for the arguments of all calls that a stage replaces. -/
def Ready (ctx : Context) (depth : Nat) (stage : Stage) (t : Text) : Prop :=
  ∀ call, .call call ∈ Call.pieces (accepts stage) none t → ∀ a ∈ call.arguments,
    ctx.Converts depth a

theorem ready_of_replaceCalls {depth : Nat} {stage : Stage} {t : Text} {draft : Draft}
    (replaced : ctx.converter.replaceCalls ctx.owner (ctx.converter.convertWithin ctx.owner depth)
      stage t = .ok draft) : ctx.Ready depth stage t :=
  of_replacePieces replaced

theorem replaceCalls_of_ready {depth : Nat}
    (correct : ∀ a draft, ctx.converter.convertWithin ctx.owner depth a = .ok draft →
      draft.1 = ctx.output depth a)
    {stage : Stage} {t : Text} (ready : ctx.Ready depth stage t) :
    ∃ found, ctx.converter.replaceCalls ctx.owner (ctx.converter.convertWithin ctx.owner depth)
      stage t = .ok (ctx.replaceIn (ctx.output depth) stage t, found) :=
  replacePieces_of correct (fun _ member => (Call.mem_pieces member).1) ready 0

theorem fst_replaceCalls {depth : Nat}
    (correct : ∀ a draft, ctx.converter.convertWithin ctx.owner depth a = .ok draft →
      draft.1 = ctx.output depth a)
    {stage : Stage} {t : Text} {draft : Draft}
    (replaced : ctx.converter.replaceCalls ctx.owner (ctx.converter.convertWithin ctx.owner depth)
      stage t = .ok draft) : draft.1 = ctx.replaceIn (ctx.output depth) stage t := by
  obtain ⟨found, same⟩ := replaceCalls_of_ready correct (ready_of_replaceCalls replaced)
  rw [same] at replaced
  exact (congrArg Prod.fst (Except.ok.inj replaced)).symm

/-- A conversion that succeeds gives the outcome. -/
theorem output_of_convertWithin {depth : Nat} {t : Text} {draft : Draft}
    (converted : ctx.converter.convertWithin ctx.owner depth t = .ok draft) :
    draft.1 = ctx.output depth t := by
  induction depth generalizing t draft with
  | zero => cases converted
  | succ depth ih =>
    obtain ⟨logical, predicates, first, second, rfl⟩ := convertWithin_succ_eq_ok.1 converted
    rw [output, ← fst_replaceCalls (fun a draft => ih) first,
      ← fst_replaceCalls (fun a draft => ih) second]

/-- Levels suffice for a text if one less suffices for the arguments of the calls in it. -/
theorem converts_succ_iff {depth : Nat} {t : Text} :
    ctx.Converts (depth + 1) t ↔
      ctx.Ready depth .logical t ∧
        ctx.Ready depth .predicate (ctx.replaceIn (ctx.output depth) .logical t) := by
  constructor
  · rintro ⟨draft, converted⟩
    obtain ⟨logical, _, first, second, _⟩ := convertWithin_succ_eq_ok.1 converted
    rw [fst_replaceCalls (fun a draft => output_of_convertWithin) first] at second
    exact ⟨ready_of_replaceCalls first, ready_of_replaceCalls second⟩
  · rintro ⟨logical, predicate⟩
    obtain ⟨found, first⟩ := replaceCalls_of_ready (fun a draft => output_of_convertWithin) logical
    obtain ⟨more, second⟩ :=
      replaceCalls_of_ready (fun a draft => output_of_convertWithin) predicate
    exact ⟨_, convertWithin_succ_eq_ok.2 ⟨_, _, first, second, rfl⟩⟩

theorem not_converts_zero (t : Text) : ¬ctx.Converts 0 t := by
  rintro ⟨_, impossible⟩
  cases impossible

end Context

end FormLogic.Conversion
