import FormLogic.Proofs.Levels
import Mathlib.Data.List.Basic

/-!
The recursion of a conversion. A conversion asks for the conversion of arguments: of the calls in the
text itself, and then of the calls in the text that is left when those have been replaced. Each of
these has fewer opening parentheses than the text that is converted, because no pass writes more of
them than it reads. So one level more than there are opening parentheses is all that a conversion
ever uses, and likewise all that the report of unknown functions uses.
-/
namespace FormLogic.Conversion

open Text Call FormLogic.Field

/-- The texts that the conversion of a text asks to be converted, with a number of levels left. -/
inductive Asks (k : Converter) (owner : Option Text) (depth : Nat) (t : Text) : Text → Prop where
  | logical {call : Call} {a : Text}
    (member : .call call ∈ piecesOf (k.rules.runsIn · .logical) t) (inside : a ∈ call.arguments) :
    Asks k owner depth t a
  | predicate {logical : Draft} {call : Call} {a : Text}
    (first : k.replaceCalls owner (k.convertWithin owner depth) .logical t = .ok logical)
    (member : .call call ∈ piecesOf (k.rules.runsIn · .predicate) logical.1)
    (inside : a ∈ call.arguments) : Asks k owner depth t a

section

variable {k : Converter} {owner : Option Text} {f g : Text → Except Failure Draft}

theorem convertArguments_congr {arguments : List Call.Argument}
    (same : ∀ a ∈ arguments, f a.raw = g a.raw) :
    convertArguments f arguments = convertArguments g arguments := by
  induction arguments with
  | nil => rfl
  | cons a rest ih =>
    rw [List.forall_mem_cons] at same
    rw [convertArguments, convertArguments, same.1, ih same.2]

theorem replacePieces_congr {start : Nat} {ps : List Piece}
    (same : ∀ call, .call call ∈ ps → ∀ a ∈ call.arguments, f a = g a) :
    k.replacePieces owner f start ps = k.replacePieces owner g start ps := by
  induction ps generalizing start with
  | nil => rfl
  | cons piece rest ih =>
    have later := @ih (start + byteLength piece.render)
      fun call member => same call (List.mem_cons_of_mem piece member)
    rw [Converter.replacePieces.eq_def, Converter.replacePieces.eq_def]
    dsimp only
    rw [later]
    cases piece with
    | plain text => rfl
    | call call =>
      have arguments : convertArguments f (call.placedArguments start) =
          convertArguments g (call.placedArguments start) :=
        convertArguments_congr fun a placed => same call List.mem_cons_self a.raw (mem_of_placed placed)
      dsimp only
      rw [Converter.replaceCall, Converter.replaceCall, arguments]
    | unbalanced run gap => rfl

/-- The outcome of a conversion depends on nothing but the outcomes that it asks for. -/
theorem convertWithin_congr {depth other : Nat} {t : Text}
    (same : ∀ a, Asks k owner depth t a → k.convertWithin owner depth a = k.convertWithin owner other a) :
    k.convertWithin owner (depth + 1) t = k.convertWithin owner (other + 1) t := by
  have first : k.replaceCalls owner (k.convertWithin owner depth) .logical t =
      k.replaceCalls owner (k.convertWithin owner other) .logical t :=
    replacePieces_congr fun call member a inside => same a (.logical member inside)
  rw [Converter.convertWithin, Converter.convertWithin]
  dsimp only
  rw [← first]
  cases done : k.replaceCalls owner (k.convertWithin owner depth) .logical t with
  | error failure => rfl
  | ok logical =>
    have second : k.replaceCalls owner (k.convertWithin owner depth) .predicate logical.1 =
        k.replaceCalls owner (k.convertWithin owner other) .predicate logical.1 :=
      replacePieces_congr fun call member a inside => same a (.predicate done member inside)
    simp only [bind, Except.bind, second]

end

section

variable {ctx : Context}

/-- Every text that a conversion asks for has fewer opening parentheses than its own text. -/
theorem nesting_lt_of_asks (flat : Flat ctx) {depth : Nat} {t a : Text}
    (asks : Asks ctx.converter ctx.owner depth t a) : nesting a < nesting t := by
  cases asks with
  | logical member inside => exact Context.nesting_argument member inside
  | @predicate logical call a first member inside =>
    have fewer : nesting a < nesting logical.1 := Context.nesting_argument member inside
    have kept : nesting logical.1 ≤ nesting t := by
      rw [Context.fst_replaceCalls (fun a draft => Context.output_of_convertWithin) first]
      exact flat.light.replaceIn (flat.light.output depth) .logical t
    omega

/-- Levels beyond the opening parentheses are not used. -/
theorem convertWithin_of_nesting (flat : Flat ctx) {depth other : Nat} {t : Text}
    (fits : nesting t < depth) (fits' : nesting t < other) :
    ctx.converter.convertWithin ctx.owner depth t = ctx.converter.convertWithin ctx.owner other t := by
  induction depth generalizing other t with
  | zero => omega
  | succ depth ih =>
    cases other with
    | zero => omega
    | succ other =>
      refine convertWithin_congr fun a asks => ?_
      have fewer := nesting_lt_of_asks flat asks
      exact ih (by omega) (by omega)

/-- The report of unknown functions does not use levels beyond the opening parentheses either. -/
theorem unknownFunctions_of_nesting (rules : RuleSet) {depth other : Nat} {t : Text}
    (fits : nesting t < depth) (fits' : nesting t < other) :
    unknownFunctions rules depth t = unknownFunctions rules other t := by
  induction depth generalizing other t with
  | zero => omega
  | succ depth ih =>
    cases other with
    | zero => omega
    | succ other =>
      rw [unknownFunctions, unknownFunctions]
      refine List.flatMap_congr fun piece member => ?_
      cases piece with
      | plain text => rfl
      | unbalanced run gap => rfl
      | call call =>
        refine congrArg _ (List.flatMap_congr fun a inside => ?_)
        have fewer : nesting a < nesting t := Context.nesting_argument member inside
        exact ih (by omega) (by omega)

/-- A field with an answer code. A field that is not declared owns the expression. -/
def strangerContext : Context :=
  ⟨((Registry.empty.registerDerived "/data/fruit".toList).2.registerChoice "/data/fruit".toList
      "red apple".toList "A1".toList).2, ⟨.double, none⟩, some "/data/other".toList⟩

end

end FormLogic.Conversion
