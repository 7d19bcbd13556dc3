import FormLogic.Conversion.Converter
import FormLogic.Proofs.Bytewise.Calls
import FormLogic.Proofs.Output

/-!
Conversion by offsets. It may fail as every conversion may, and beyond that it has no value where a
pass has none or a rule misses an argument. Calls are replaced at their places: the source between
them is copied, and a call that stays is part of it. No conversion with the built-in rules comes to
lack a value; what it gives is what the conversion character by character gives.
-/
namespace FormLogic.Bytewise

open Text Call FormLogic.Field Conversion

/-- A step of a conversion: `none` where it reads or cuts what it cannot. -/
abbrev Attempt (α : Type) := ExceptT Failure Option α

/-! ### Replacing calls -/

def convertArguments? (convert : Text → Attempt Draft) :
    List Call.Argument → Attempt (List Conversion.Argument × List Finding)
  | [] => return ([], [])
  | a :: rest => do
    let (converted, found) ← convert a.raw
    let (arguments, later) ← convertArguments? convert rest
    return (⟨a.raw, a.span, converted⟩ :: arguments, found ++ later)

/-- The replacement for a call by a rule. A rule that misses an argument has no value. -/
def applyRule? (k : Converter) (owner : Option Text) (rule : Rule) (call : ConvertedCall) :
    Option Draft :=
  if rule.takes call.arguments.length then
    (rule.replacement call (k.context owner)).map (·, [])
  else
    some (call.render, [.argumentCount call.name rule.least rule.most call.arguments.length])

/-- Writes what a found call gives way to. -/
def rewriteCall? (k : Converter) (owner : Option Text) (convert : Text → Attempt Draft) (t : Text)
    (o : Output) : Occurrence → Attempt (Output × List Finding)
  | .unbalanced _ span => do
    let text ← span.slice? t
    return (o, [.unbalancedCall text])
  | .call name arguments span => do
    let (arguments, found) ← convertArguments? convert arguments
    match k.rules.get? name with
    | none => return (o, found)
    | some rule =>
      let (text, more) ← applyRule? k owner rule ⟨name, arguments, span⟩
      let front ← o.upTo? t span.start
      return (⟨span.stop, front ++ text⟩, found ++ more)

def rewriteAll? (k : Converter) (owner : Option Text) (convert : Text → Attempt Draft) (t : Text) :
    Output → List Occurrence → Attempt Draft
  | o, [] => do
    let text ← o.finish? t
    return (text, [])
  | o, occurrence :: rest => do
    let (o, found) ← rewriteCall? k owner convert t o occurrence
    let (text, later) ← rewriteAll? k owner convert t o rest
    return (text, found ++ later)

/-- Replaces the calls of a text that belong to a stage. -/
def rewriteCalls? (k : Converter) (owner : Option Text) (convert : Text → Attempt Draft)
    (stage : Stage) (t : Text) : Attempt Draft := do
  let found ← scanCalls? (k.rules.runsIn · stage) t
  if found.isEmpty then return (t, [])
  else rewriteAll? k owner convert t ⟨0, []⟩ found

/-- Converts a text with at most `depth` levels of calls within calls. -/
def convertWithin? (k : Converter) (owner : Option Text) : Nat → Text → Attempt Draft
  | 0, _ => throw .nestingLimit
  | depth + 1, t => do
    let convert := convertWithin? k owner depth
    let (logical, found) ← rewriteCalls? k owner convert .logical t
    let (predicates, more) ← rewriteCalls? k owner convert .predicate logical
    let (resolved, tokens) ← replaceReferences? k.registry owner predicates
    let normalized ← normalize? resolved
    let output ←
      if k.options.quotePolicy = .double then liftM (requote? normalized) else pure normalized
    return (output, found ++ more ++ tokens.map .unresolvedReference)

/-- The names that a found call gives: its own if no rule is known for it, and those in its
arguments. -/
def unknownNames? (rules : RuleSet) (inner : Text → Option (List Text)) :
    Occurrence → Option (List Text)
  | .call name arguments _ => do
    let names ← arguments.mapM fun a => inner a.raw
    return (if rules.contains name then [] else [name]) ++ names.flatten
  | .unbalanced .. => return []

/-- The names of the called functions that no rule is known for, at most `depth` levels deep. -/
def unknownFunctions? (rules : RuleSet) : Nat → Text → Option (List Text)
  | 0, _ => some []
  | depth + 1, t => do
    let found ← scanCalls? (fun name => !sharedFunctions.contains name) t
    let names ← found.mapM (unknownNames? rules (unknownFunctions? rules depth))
    return names.flatten

/-- Converts an expression that a given field owns. -/
def convertFor? (k : Converter) (owner : Option Text) (t : Text) : Attempt Converted := do
  let (output, found) ← convertWithin? k owner (Converter.depthFor t) t
  let names ← unknownFunctions? k.rules (nesting output + 1) output
  let unknown := names.map .unknownFunction
  return ⟨output, ((found ++ unknown).map Finding.toDiagnostic).eraseDups⟩

/-! ### The built-in rules -/

/-- Turns `selected(field, 'value')` into `(field == "value")`, reading the value by its offsets. -/
def compareSelected? (call : ConvertedCall) (ctx : Context) : Option Text := do
  let field ← call.arguments[0]?
  let value ← call.arguments[1]?
  let text :=
    match ← parseLiteral? value.source with
    | some l =>
      let entry := (ctx.registry.resolve field.source ctx.owner).found?
      let content := (entry.bind (·.answerCode? l.content)).getD l.content
      match ctx.options.quotePolicy with
      | .preserve => Literal.render ⟨l.quote, content⟩
      | .selectedOnly | .double => Literal.quoted content
    | none => value.text
  return '(' :: field.text ++ [' ', '=', '=', ' '] ++ text ++ [')']

theorem compareSelected?_eq : compareSelected? = compareSelected := by
  funext call ctx
  rw [compareSelected?, compareSelected]
  obtain ⟨name, arguments, span⟩ := call
  match arguments with
  | [] => rfl
  | [_] => rfl
  | field :: value :: _ =>
    simp only [List.getElem?_cons_zero, List.getElem?_cons_succ, parseLiteral?_eq, selectedValue,
      Option.bind_eq_bind, Option.bind_some]
    rfl

/-- The built-in rules, reading texts by their offsets. -/
def builtin? : RuleSet :=
  ⟨[(RuleSet.negationName, ⟨.logical, 1, 1, keepShape⟩),
    (RuleSet.choiceName, ⟨.logical, 3, 3, keepShape⟩),
    (RuleSet.selectedName, ⟨.predicate, 2, 2, compareSelected?⟩)]⟩

theorem builtin?_eq : builtin? = .builtin := by
  rw [builtin?, compareSelected?_eq, RuleSet.builtin]

/-- Every rule has a value for as many arguments as it takes. -/
def Complete (rules : RuleSet) : Prop :=
  ∀ name rule, rules.get? name = some rule → ∀ (call : ConvertedCall) ctx,
    rule.takes call.arguments.length = true → ∃ text, rule.replacement call ctx = some text

/-- A comparison is made of two arguments, and there are two. -/
theorem complete_builtin : Complete .builtin := by
  intro name rule found call ctx takes
  rcases Context.get?_builtin found with ⟨-, -, same⟩ | ⟨-, rfl⟩
  · exact ⟨call.render, by rw [same]; rfl⟩
  · rw [Rule.takes, Bool.and_eq_true, decide_eq_true_iff, decide_eq_true_iff] at takes
    obtain ⟨field, value, two⟩ := exists_pair (Nat.le_antisymm takes.2 takes.1)
    exact ⟨_, by simp only [compareSelected, two]; rfl⟩

/-! ### The values of the steps -/

section Steps

variable {α β : Type}

/-- A step that has a value lets the next ones go on as they do without offsets. -/
theorem bind_of_eq {x? : Attempt α} {x : Except Failure α} {f? : α → Attempt β}
    {f : α → Except Failure β} (first : x? = some x) (later : ∀ a, f? a = some (f a)) :
    (x? >>= f?) = some (x >>= f) := by
  subst first
  cases x with
  | error failure => rfl
  | ok a => exact later a

theorem ok_bind {x? : Attempt α} {a : α} {f? : α → Attempt β} (value : x? = some (.ok a)) :
    (x? >>= f?) = f? a := by
  subst value
  rfl

theorem lift_bind {a : α} {f? : α → Attempt β} {o : Option α} (value : o = some a) :
    ((liftM o : Attempt α) >>= f?) = f? a := by
  subst value
  rfl

end Steps

variable {k : Converter} {owner : Option Text} {convert? : Text → Attempt Draft}
  {convert : Text → Except Failure Draft}

theorem convertArguments?_eq (same : ∀ a, convert? a = some (convert a))
    (arguments : List Call.Argument) :
    convertArguments? convert? arguments = some (convertArguments convert arguments) := by
  induction arguments with
  | nil => rfl
  | cons a rest ih =>
    rw [convertArguments?, convertArguments]
    refine bind_of_eq (same a.raw) fun draft => ?_
    exact bind_of_eq ih fun later => rfl

theorem applyRule?_eq (complete : Complete k.rules) {rule : Rule} {call : ConvertedCall}
    {name : Text} (found : k.rules.get? name = some rule) :
    ∃ draft, applyRule? k owner rule call = some draft ∧
      k.applyRule owner rule call = .ok draft := by
  rw [applyRule?, Converter.applyRule]
  split
  · next takes =>
    obtain ⟨text, value⟩ := complete name rule found call (k.context owner) takes
    exact ⟨(text, []), by rw [value]; rfl, by rw [value]⟩
  · exact ⟨_, rfl, rfl⟩

section Call

variable {t : Text} {o : Output} {name : Text} {arguments : List Call.Argument} {span : Span}
  {converted : List Conversion.Argument} {found : List Finding}

/-- A call that no rule is known for is copied later. -/
theorem rewriteCall?_unknown
    (inner : convertArguments? convert? arguments = some (.ok (converted, found)))
    (unknown : k.rules.get? name = none) :
    rewriteCall? k owner convert? t o (.call name arguments span) = some (.ok (o, found)) := by
  rw [rewriteCall?, ok_bind inner]
  simp only [unknown]
  rfl

/-- What a rule gives is written behind the source before the call. -/
theorem rewriteCall?_known {rule : Rule} {draft : Draft} {front : Text}
    (inner : convertArguments? convert? arguments = some (.ok (converted, found)))
    (known : k.rules.get? name = some rule)
    (applied : applyRule? k owner rule ⟨name, converted, span⟩ = some draft)
    (copied : o.upTo? t span.start = some front) :
    rewriteCall? k owner convert? t o (.call name arguments span) =
      some (.ok (⟨span.stop, front ++ draft.1⟩, found ++ draft.2)) := by
  rw [rewriteCall?, ok_bind inner]
  simp only [known]
  rw [lift_bind applied, lift_bind copied]
  rfl

end Call

section Runs

variable {t a b out : Text} {piece : Piece} {ps rest : List Piece}

/-- From every place between characters at which the pieces are left, their calls are replaced; the
text before the place is copied up to the end of `a`. -/
def Rewrites (k : Converter) (owner : Option Text) (convert? : Text → Attempt Draft)
    (convert : Text → Except Failure Draft) (t : Text) (ps : List Piece) : Prop :=
  ∀ a b, t = a ++ b ++ joined ps → ∀ out,
    rewriteAll? k owner convert? t ⟨byteLength a, out⟩
        (occurrencesFrom (byteLength t) (byteLength (a ++ b)) ps) =
      some ((k.replacePieces owner convert (byteLength (a ++ b)) ps).map fun draft =>
        (out ++ b ++ draft.1, draft.2))

theorem rewrites_nil : Rewrites k owner convert? convert t [] := by
  intro a b whole out
  have finished := Output.finish?_append (whole.trans (List.append_nil _)) out
  rw [occurrencesFrom, rewriteAll?, lift_bind finished, Converter.replacePieces, Except.map,
    List.append_nil]
  rfl

/-- A piece that stays is copied later, together with what the rest gives way to. -/
theorem rewrites_kept (whole : t = a ++ b ++ joined (piece :: rest))
    (later : Rewrites k owner convert? convert t rest) (out : Text) :
    rewriteAll? k owner convert? t ⟨byteLength a, out⟩
        (occurrencesFrom (byteLength t) (byteLength (a ++ b) + byteLength piece.render) rest) =
      some ((k.replacePieces owner convert (byteLength (a ++ b) + byteLength piece.render)
        rest).map fun draft => (out ++ b ++ (piece.render ++ draft.1), draft.2)) := by
  have rewritten := later a (b ++ piece.render) (by simp [whole, joined]) out
  rw [← List.append_assoc, byteLength_append (a ++ b)] at rewritten
  rw [rewritten]
  simp only [List.append_assoc]

theorem rewrites_unbalanced {run gap : Text} (later : Rewrites k owner convert? convert t rest) :
    Rewrites k owner convert? convert t (.unbalanced run gap :: rest) := by
  intro a b whole out
  have uncut := slice?_append (a ++ b) (joined (.unbalanced run gap :: rest)) []
  rw [List.append_nil, ← whole] at uncut
  have kept := rewrites_kept whole later out
  rw [occurrencesFrom, rewriteAll?, rewriteCall?, lift_bind uncut, pure_bind, replacePieces_cons]
  dsimp only
  rw [kept]
  cases k.replacePieces owner convert _ rest <;> rfl

theorem rewrites_unknown {c : Call} {converted : List Conversion.Argument} {found : List Finding}
    (whole : t = a ++ b ++ joined (.call c :: rest))
    (inner? : convertArguments? convert? (c.placedArguments (byteLength (a ++ b))) =
      some (.ok (converted, found)))
    (inner : convertArguments convert (c.placedArguments (byteLength (a ++ b))) =
      .ok (converted, found))
    (unknown : k.rules.get? c.name = none) (later : Rewrites k owner convert? convert t rest) :
    rewriteAll? k owner convert? t ⟨byteLength a, out⟩
        (occurrencesFrom (byteLength t) (byteLength (a ++ b)) (.call c :: rest)) =
      some ((k.replacePieces owner convert (byteLength (a ++ b)) (.call c :: rest)).map fun draft =>
        (out ++ b ++ draft.1, draft.2)) := by
  have stays : k.replaceCall owner convert (byteLength (a ++ b)) c = .ok (c.render, found) := by
    rw [Converter.replaceCall, inner, unknown]
    rfl
  have kept := rewrites_kept whole later out
  rw [occurrencesFrom, rewriteAll?, ok_bind (rewriteCall?_unknown inner? unknown),
    replacePieces_cons, Converter.replacePiece, stays]
  dsimp only
  rw [kept]
  cases k.replacePieces owner convert _ rest <;> rfl

theorem rewrites_known {c : Call} {converted : List Conversion.Argument} {found : List Finding}
    {rule : Rule} (complete : Complete k.rules) (whole : t = a ++ b ++ joined (.call c :: rest))
    (inner? : convertArguments? convert? (c.placedArguments (byteLength (a ++ b))) =
      some (.ok (converted, found)))
    (inner : convertArguments convert (c.placedArguments (byteLength (a ++ b))) =
      .ok (converted, found))
    (known : k.rules.get? c.name = some rule) (later : Rewrites k owner convert? convert t rest) :
    rewriteAll? k owner convert? t ⟨byteLength a, out⟩
        (occurrencesFrom (byteLength t) (byteLength (a ++ b)) (.call c :: rest)) =
      some ((k.replacePieces owner convert (byteLength (a ++ b)) (.call c :: rest)).map fun draft =>
        (out ++ b ++ draft.1, draft.2)) := by
  obtain ⟨draft, applied?, applied⟩ := @applyRule?_eq k owner complete rule
    ⟨c.name, converted, c.spanAt (byteLength (a ++ b))⟩ c.name known
  have replaced : k.replaceCall owner convert (byteLength (a ++ b)) c =
      .ok (draft.1, found ++ draft.2) := by
    simp only [Converter.replaceCall, inner, known, applied, bind, Except.bind]
    rfl
  have copied := Output.upTo?_append whole out
  have place : t = a ++ b ++ c.render ++ [] ++ joined rest := by simp [whole, joined, Piece.render]
  have rewritten := later _ _ place (out ++ b ++ draft.1)
  rw [List.append_nil, List.append_nil, byteLength_append (a ++ b)] at rewritten
  rw [occurrencesFrom, rewriteAll?, ok_bind (rewriteCall?_known inner? known applied? copied),
    replacePieces_cons, Converter.replacePiece, replaced]
  dsimp only [spanAt, Piece.render]
  rw [rewritten]
  cases k.replacePieces owner convert _ rest with
  | error failure => rfl
  | ok after =>
    exact congrArg (fun text => some (Except.ok (text, found ++ draft.2 ++ after.2)))
      (List.append_assoc (out ++ b) draft.1 after.1)

theorem rewrites_call {c : Call} (complete : Complete k.rules)
    (same : ∀ a, convert? a = some (convert a)) (later : Rewrites k owner convert? convert t rest) :
    Rewrites k owner convert? convert t (.call c :: rest) := by
  intro a b whole out
  have inner? := convertArguments?_eq same (c.placedArguments (byteLength (a ++ b)))
  cases inner : convertArguments convert (c.placedArguments (byteLength (a ++ b))) with
  | error failure =>
    rw [inner] at inner?
    rw [occurrencesFrom, rewriteAll?, rewriteCall?, inner?, replacePieces_cons,
      Converter.replacePiece, Converter.replaceCall, inner]
    rfl
  | ok drafts =>
    rw [inner] at inner?
    cases known : k.rules.get? c.name with
    | none => exact rewrites_unknown whole inner? inner known later
    | some rule => exact rewrites_known complete whole inner? inner known later

/-- From every place between characters on, the calls among the pieces of the rest are replaced. -/
theorem rewrites (complete : Complete k.rules) (same : ∀ a, convert? a = some (convert a)) (t : Text)
    (ps : List Piece) : Rewrites k owner convert? convert t ps := by
  induction ps with
  | nil => exact rewrites_nil
  | cons piece rest ih =>
    cases piece with
    | plain text =>
      intro a b whole out
      rw [occurrencesFrom, replacePieces_cons]
      refine (rewrites_kept whole ih out).trans (congrArg some ?_)
      cases k.replacePieces owner convert _ rest <;> rfl
    | unbalanced run gap => exact rewrites_unbalanced ih
    | call c => exact rewrites_call complete same ih

end Runs

theorem rewriteCalls?_eq (complete : Complete k.rules) (same : ∀ a, convert? a = some (convert a))
    (stage : Stage) (t : Text) :
    rewriteCalls? k owner convert? stage t = some (k.replaceCalls owner convert stage t) := by
  have rewritten : rewriteAll? k owner convert? t ⟨0, []⟩ (occurrences (k.rules.runsIn · stage) t) =
      some (k.replaceCalls owner convert stage t) := by
    have value := @rewrites k owner convert? convert complete same t
      (piecesOf (k.rules.runsIn · stage) t) [] [] (joined_pieces _ none t).symm []
    refine value.trans (congrArg some ?_)
    rw [Converter.replaceCalls]
    change (k.replacePieces owner convert 0 _).map _ = _
    cases k.replacePieces owner convert 0 (piecesOf (k.rules.runsIn · stage) t) <;> rfl
  rw [rewriteCalls?, lift_bind (scanCalls?_eq _ t)]
  split
  · next noCalls =>
    -- Where no call is found, all of the source is copied.
    have finished : (⟨0, []⟩ : Output).finish? t = some t := @Output.finish?_append t [] t rfl []
    rw [List.isEmpty_iff.1 noCalls, rewriteAll?, lift_bind finished] at rewritten
    exact rewritten
  · exact rewritten

theorem convertWithin?_eq (complete : Complete k.rules) (depth : Nat) (t : Text) :
    convertWithin? k owner depth t = some (k.convertWithin owner depth t) := by
  induction depth generalizing t with
  | zero => rfl
  | succ depth ih =>
    rw [convertWithin?, Converter.convertWithin]
    refine bind_of_eq (rewriteCalls?_eq complete ih .logical t) fun logical => ?_
    refine bind_of_eq (rewriteCalls?_eq complete ih .predicate logical.1) fun predicates => ?_
    dsimp only
    rw [lift_bind (replaceReferences?_eq k.registry owner predicates.1)]
    dsimp only
    rw [lift_bind (normalize?_eq _), Converter.finish]
    split
    · rw [lift_bind (requote?_eq _)]
      rfl
    · rfl

section Names

variable {rules : RuleSet} {inner : Text → List Text}

def unknownNames (rules : RuleSet) (inner : Text → List Text) : Occurrence → List Text
  | .call name arguments _ =>
    (if rules.contains name then [] else [name]) ++ arguments.flatMap fun a => inner a.raw
  | .unbalanced .. => []

theorem unknownNames?_eq {inner? : Text → Option (List Text)}
    (same : ∀ a, inner? a = some (inner a)) :
    unknownNames? rules inner? = fun o => pure (unknownNames rules inner o) := by
  funext o
  cases o with
  | unbalanced run span => rfl
  | call name arguments span =>
    have all : arguments.mapM (fun a => inner? a.raw) =
        some (arguments.map fun a => inner a.raw) := by
      simp only [same]
      exact List.mapM_pure
    simp only [unknownNames?, all, Option.bind_eq_bind, Option.bind_some, unknownNames,
      List.flatMap_def]

/-- The found calls give the names that the calls among the pieces give. -/
theorem flatMap_unknownNames (size start : Nat) (ps : List Piece) :
    (occurrencesFrom size start ps).flatMap (unknownNames rules inner) =
      ps.flatMap fun
        | .call c => (if rules.contains c.name then [] else [c.name]) ++ c.arguments.flatMap inner
        | _ => [] := by
  induction ps generalizing start with
  | nil => rfl
  | cons piece rest ih =>
    rw [occurrencesFrom_cons, List.flatMap_append, ih, List.flatMap_cons]
    cases piece with
    | plain text => rfl
    | unbalanced run gap => rfl
    | call c =>
      have raws := map_raw_placeArguments (c.bodyStart start) c.arguments
      have names : (c.placedArguments start).flatMap (fun a => inner a.raw) =
          c.arguments.flatMap inner := by
        conv => rhs; rw [← raws, List.flatMap_map]
        rfl
      rw [occurrencesFrom, occurrencesFrom, List.flatMap_singleton, unknownNames, names]

theorem unknownFunctions?_eq (rules : RuleSet) (depth : Nat) (t : Text) :
    unknownFunctions? rules depth t = some (unknownFunctions rules depth t) := by
  induction depth generalizing t with
  | zero => rfl
  | succ depth ih =>
    rw [unknownFunctions?, unknownFunctions, scanCalls?_eq, unknownNames?_eq ih,
      Option.bind_eq_bind, Option.bind_some, List.mapM_pure]
    exact congrArg some (flatMap_unknownNames (byteLength t) 0 _)

end Names

theorem convertFor?_eq (complete : Complete k.rules) (t : Text) :
    convertFor? k owner t = some (k.convertFor owner t) := by
  rw [convertFor?, Converter.convertFor]
  refine bind_of_eq (convertWithin?_eq complete _ t) fun draft => ?_
  dsimp only
  rw [lift_bind (unknownFunctions?_eq k.rules _ draft.1)]
  rfl

/-! ### Failures -/

section Failures

variable {α β : Type}

/-- If the computation fails, then because calls are nested too deep. -/
def FailsDeep (x : Except Failure α) : Prop :=
  ∀ failure, x = .error failure → failure = .nestingLimit

theorem failsDeep_ok (a : α) : FailsDeep (.ok a : Except Failure α) := fun _ same => by cases same

theorem FailsDeep.bind {x : Except Failure α} {f : α → Except Failure β} (first : FailsDeep x)
    (later : ∀ a, FailsDeep (f a)) : FailsDeep (x >>= f) := by
  cases x with
  | error failure =>
    rintro _ ⟨⟩
    exact first failure rfl
  | ok a => exact later a

theorem failsDeep_convertArguments (deep : ∀ a, FailsDeep (convert a))
    (arguments : List Call.Argument) : FailsDeep (convertArguments convert arguments) := by
  induction arguments with
  | nil => exact failsDeep_ok _
  | cons a rest ih => exact (deep a.raw).bind fun _ => ih.bind fun _ => failsDeep_ok _

theorem failsDeep_replaceCall (complete : Complete k.rules) (deep : ∀ a, FailsDeep (convert a))
    (start : Nat) (c : Call) : FailsDeep (k.replaceCall owner convert start c) := by
  rw [Converter.replaceCall]
  refine (failsDeep_convertArguments deep _).bind fun drafts => ?_
  cases known : k.rules.get? c.name with
  | none => exact failsDeep_ok _
  | some rule =>
    obtain ⟨draft, -, applied⟩ := @applyRule?_eq k owner complete rule
      ⟨c.name, drafts.1, c.spanAt start⟩ c.name known
    dsimp only
    rw [applied]
    exact failsDeep_ok _

theorem failsDeep_replacePieces (complete : Complete k.rules) (deep : ∀ a, FailsDeep (convert a))
    (start : Nat) (ps : List Piece) : FailsDeep (k.replacePieces owner convert start ps) := by
  induction ps generalizing start with
  | nil => exact failsDeep_ok _
  | cons piece rest ih =>
    rw [replacePieces_cons]
    refine FailsDeep.bind ?_ fun _ => (ih _).bind fun _ => failsDeep_ok _
    cases piece with
    | plain text => exact failsDeep_ok _
    | unbalanced run gap => exact failsDeep_ok _
    | call c => exact failsDeep_replaceCall complete deep start c

theorem failsDeep_convertWithin (complete : Complete k.rules) (depth : Nat) (t : Text) :
    FailsDeep (k.convertWithin owner depth t) := by
  induction depth generalizing t with
  | zero =>
    rintro _ ⟨⟩
    rfl
  | succ depth ih =>
    rw [Converter.convertWithin]
    exact (failsDeep_replacePieces complete ih 0 _).bind fun _ =>
      (failsDeep_replacePieces complete ih 0 _).bind fun _ => failsDeep_ok _

end Failures

/-- All that the passes read and cut by offsets lies in the text, between characters: the calls and
their arguments, the references, the operators and the literals are found, and each pass has the value
that it has character by character. So a conversion with the built-in rules has its value as well;
both arguments of every comparison are there, and it fails at most because calls are nested deeper
than it may go. -/
theorem passes_have_values (registry : Registry) (options : Options) (owner : Option Text)
    (t : Text) :
    (∀ accept, scanCalls? accept t = some (occurrences accept t) ∧
        ∀ o ∈ occurrences accept t, InPlace t o) ∧
      (∀ u c v, t = u ++ c :: v → ∃ stop, referenceEnd? t (byteLength u) = some stop ∧
        ∀ n ∈ stop, (splitAtByte? n t).isSome) ∧
      replaceReferences? registry owner t =
        some (registry.replaceReferences owner t, registry.unresolvedTokens owner t) ∧
      normalize? t = some (Operator.normalize t) ∧
      requote? t = some (Literal.requote t) ∧
      parseLiteral? t = some (Literal.parse? t) ∧
      (∀ depth, convertWithin? ⟨registry, builtin?, options⟩ owner depth t =
          some (Converter.convertWithin ⟨registry, .builtin, options⟩ owner depth t) ∧
        FailsDeep (Converter.convertWithin ⟨registry, .builtin, options⟩ owner depth t)) ∧
      convertFor? ⟨registry, builtin?, options⟩ owner t =
        some (Converter.convertFor ⟨registry, .builtin, options⟩ owner t) := by
  rw [builtin?_eq]
  have complete := complete_builtin
  refine ⟨fun accept => ⟨scanCalls?_eq accept t, inPlace_of_mem_occurrences⟩, ?_,
    replaceReferences?_eq registry owner t, normalize?_eq t, requote?_eq t, parseLiteral?_eq t,
    fun depth => ⟨convertWithin?_eq complete depth t, failsDeep_convertWithin complete depth t⟩,
    convertFor?_eq complete t⟩
  intro u c v whole
  exact referenceEnd?_inPlace whole

end FormLogic.Bytewise
