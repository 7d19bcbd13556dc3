import FormLogic.Proofs.Histories

/-!
The answer codes that choice values get. A call that adds values reserves the codes in use and goes on
reserving those that it makes; so at each value the pool holds just the codes of the field as it stands
then, and a call does value by value what calls with one value each would do. Hence it does not matter
how values are spread over calls. A new code differs from those before it as the pool hands it out, and
from those behind it as they are handed out when it is taken.
-/
namespace FormLogic

namespace Name

open Text

/-- A code that the survey engine accepts for an answer. -/
structure IsAnswerCode (code : Text) : Prop where
  alphanumeric : ∀ c ∈ code, c.isAlphanum = true
  visible : code ≠ []
  short : code.length ≤ answerLimit

theorem isAlphanum_of_mem_answer (value : Text) : ∀ c ∈ answer value, c.isAlphanum = true := by
  intro c member
  unfold answer at member
  dsimp only at member
  have whole := List.mem_of_mem_take member
  split at whole
  · rw [List.mem_singleton.1 whole]
    decide
  · exact (List.mem_filter.1 whole).2

theorem answer_ne_nil (value : Text) : answer value ≠ [] := by
  unfold answer
  dsimp only
  split
  · decide
  · next visible =>
    rw [Ne, List.take_eq_nil_iff, not_or]
    exact ⟨by decide, visible⟩

/-- With fewer codes in use than there are numerals of five digits, the pool makes an answer code. -/
theorem isAnswerCode_nameFor {pool : Pool} (limit : pool.limit = answerLimit)
    (few : pool.used.length < 9 * 10 ^ 4) (value : Text) :
    IsAnswerCode (pool.nameFor (answer value)) := by
  have clean := isAlphanum_of_mem_answer value
  refine ⟨fun c => Pool.isAlphanum_of_mem_nameFor clean, ?_, ?_⟩
  · exact Pool.nameFor_ne_nil (by rw [limit]; decide) (answer_ne_nil value) fun c first =>
      isAscii_of_isAlphanum (clean c (List.mem_of_head? first))
  · rw [← limit]
    exact Pool.length_nameFor_le few (by rw [limit]; decide) _

end Name

namespace Field

open Text Name

namespace Choices

/-- Adds one value with the code that the pool of the codes in use makes, unless it has a code. -/
def add (choices : Choices) (value : Text) : Choices :=
  if (choices.lookup value).isSome then choices
  else choices ++ [(value, choices.codePool.nameFor (answer value))]

variable {choices : Choices} {value : Text}

theorem limit_codePool (choices : Choices) : choices.codePool.limit = answerLimit :=
  Pool.limit_reserveAll _

theorem length_codePool_le (choices : Choices) :
    choices.codePool.used.length ≤ choices.length := by
  have all := @Pool.length_reserveAll_le (.empty answerLimit) (choices.map Prod.snd)
  rwa [List.length_map, Pool.empty, List.length_nil, Nat.zero_add] at all

theorem isTaken_codePool {code : Text} :
    choices.codePool.isTaken code = true ↔ ∃ choice ∈ choices, folded choice.2 = folded code := by
  rw [codePool, Pool.isTaken_reserveAll]
  simp [Pool.isTaken, Pool.empty]

theorem codePool_append (choices : Choices) (value code : Text) :
    Choices.codePool (choices ++ [(value, code)]) = choices.codePool.reserve code := by
  rw [codePool, List.map_append, Pool.reserveAll, List.foldl_append]
  rfl

theorem add_of_isSome (known : (choices.lookup value).isSome = true) : choices.add value = choices :=
  if_pos known

theorem add_of_not_isSome (new : ¬(choices.lookup value).isSome = true) :
    choices.add value = choices ++ [(value, choices.codePool.nameFor (answer value))] :=
  if_neg new

/-- Values that are added with the pool of the codes in use are added one after the other. -/
theorem extend_codePool (choices : Choices) (values : List Text) :
    choices.extend choices.codePool values = values.foldl add choices := by
  induction values generalizing choices with
  | nil => rfl
  | cons value rest ih =>
    rw [List.foldl_cons, extend]
    by_cases known : (choices.lookup value).isSome = true
    · rw [if_pos known, add_of_isSome known, ih]
    · rw [if_neg known, add_of_not_isSome known, ← ih, codePool_append]
      rfl

/-! What the values added so far leave for good. -/

theorem prefix_add (choices : Choices) (value : Text) : choices <+: choices.add value := by
  unfold add
  split
  · exact List.prefix_rfl
  · exact List.prefix_append _ _

theorem prefix_foldl_add (choices : Choices) (values : List Text) :
    choices <+: values.foldl add choices := by
  induction values generalizing choices with
  | nil => exact List.prefix_rfl
  | cons value rest ih => exact (prefix_add choices value).trans (ih _)

theorem lookup_append_of_eq_some {code : Text} (found : choices.lookup value = some code)
    (added : Choices) : List.lookup value (choices ++ added) = some code := by
  rw [List.lookup_append, found, Option.some_or]

/-- Each value that is added has a code from then on. -/
theorem isSome_lookup_foldl_add (choices : Choices) (values : List Text) :
    ∀ value ∈ values, ((values.foldl add choices).lookup value).isSome = true := by
  induction values generalizing choices with
  | nil => exact fun _ member => absurd member List.not_mem_nil
  | cons first rest ih =>
    refine List.forall_mem_cons.2 ⟨?_, ih (choices.add first)⟩
    obtain ⟨added, whole⟩ := prefix_foldl_add (choices.add first) rest
    have own : ((choices.add first).lookup first).isSome = true := by
      by_cases known : (choices.lookup first).isSome = true
      · rwa [add_of_isSome known]
      · rw [add_of_not_isSome known, List.lookup_append]
        simp
    obtain ⟨code, found⟩ := Option.isSome_iff_exists.1 own
    rw [List.foldl_cons, ← whole, lookup_append_of_eq_some found]
    rfl

/-- Values that have codes already add nothing. -/
theorem foldl_add_of_isSome {values : List Text}
    (known : ∀ value ∈ values, (choices.lookup value).isSome = true) :
    values.foldl add choices = choices := by
  induction values with
  | nil => rfl
  | cons value rest ih =>
    rw [List.forall_mem_cons] at known
    rw [List.foldl_cons, add_of_isSome known.1, ih known.2]

/-! The codes that are made. -/

/-- Each code is made by the pool of the codes before it. -/
theorem code_of_foldl_add {values : List Text} {pre post : Choices} {code : Text}
    (whole : values.foldl add choices = choices ++ (pre ++ (value, code) :: post)) :
    code = (Choices.codePool (choices ++ pre)).nameFor (answer value) := by
  induction values generalizing choices pre with
  | nil => simp at whole
  | cons first rest ih =>
    rw [List.foldl_cons] at whole
    by_cases known : (choices.lookup first).isSome = true
    · rw [add_of_isSome known] at whole
      exact ih whole
    · rw [add_of_not_isSome known] at whole
      obtain ⟨later, split⟩ := prefix_foldl_add
        (choices ++ [(first, choices.codePool.nameFor (answer first))]) rest
      have same := split.trans whole
      rw [List.append_assoc, List.append_cancel_left_eq, List.singleton_append] at same
      cases pre with
      | nil =>
        cases same
        rw [List.append_nil]
      | cons choice pre =>
        cases same
        rw [List.append_cons]
        exact ih (by rw [whole, List.cons_append, List.append_cons])

/-- A code that is made differs from the other codes, those before it and those made behind it. -/
theorem folded_ne_of_foldl_add {values : List Text} {pre post : Choices} {code : Text}
    (whole : values.foldl add choices = choices ++ (pre ++ (value, code) :: post)) :
    ∀ other ∈ choices ++ pre ++ post, folded other.2 ≠ folded code := by
  intro other member same
  rcases List.mem_append.1 member with before | behind
  · have taken : (Choices.codePool (choices ++ pre)).isTaken code = true :=
      isTaken_codePool.2 ⟨other, before, same⟩
    rw [code_of_foldl_add whole, Pool.isTaken_nameFor] at taken
    cases taken
  · -- The code is taken when the other one is made.
    obtain ⟨between, rest, rfl⟩ := List.append_of_mem behind
    have later : values.foldl add choices =
        choices ++ ((pre ++ (value, code) :: between) ++ (other.1, other.2) :: rest) := by
      rw [whole, List.append_assoc, List.cons_append]
    have taken : (Choices.codePool (choices ++ (pre ++ (value, code) :: between))).isTaken other.2 =
        true := isTaken_codePool.2 ⟨(value, code), by simp, same.symm⟩
    rw [code_of_foldl_add later, Pool.isTaken_nameFor] at taken
    cases taken

end Choices

namespace Registry

variable {r : Registry}

/-- The place of a field that is found by its path. -/
theorem Sound.split_of_get? (sound : Sound r) {path : Text} {e : Entry}
    (found : r.get? path = some e) :
    e.path = normalPath path ∧ ∃ before after, r.entries = before ++ e :: after ∧
      ∀ other ∈ before ++ after, other.path ≠ e.path := by
  obtain ⟨member, own⟩ := at?_eq_some found
  obtain ⟨before, after, split⟩ := List.append_of_mem member
  have distinct := sound.distinct
  rw [split, List.map_append, List.map_cons, List.nodup_middle, List.nodup_cons, ← List.map_append]
    at distinct
  exact ⟨own, before, after, split, fun other inside same =>
    distinct.1 (same ▸ List.mem_map_of_mem inside)⟩

/-- Answer codes are allocated stably and uniquely. Adding choice values to a field changes nothing but
that field's choices, behind which new ones are put. Adding the values again changes nothing, and adding
more values later gives what adding all of them at once gives. Each value has a code from then on, and
codes from before stay as they are. Each new code differs from all other codes of the field even if the
case of letters does not count, and is an answer code if it is made while the field has fewer codes than
there are numerals of five digits. -/
theorem addChoices_allocates (built : r.Built) {path : Text} {e : Entry} (found : r.get? path = some e)
    (xs ys : List Text) :
    ∃ before after added, r.entries = before ++ e :: after ∧
      let e' : Entry := { e with choices := e.choices ++ added }
      let r' : Registry := { r with entries := before ++ e' :: after }
      r.addChoices path xs = (.ok (), r') ∧ r'.get? path = some e' ∧
        r'.addChoices path xs = (.ok (), r') ∧
        r.addChoices path (xs ++ ys) = r'.addChoices path ys ∧
        (∀ value ∈ xs, (e'.answerCode? value).isSome = true) ∧
        (∀ value code, e.answerCode? value = some code → e'.answerCode? value = some code) ∧
        ∀ pre value code post, added = pre ++ (value, code) :: post →
          ((e.choices ++ pre).length < 90000 → IsAnswerCode code) ∧
            ∀ other ∈ e.choices ++ pre ++ post, folded other.2 ≠ folded code := by
  obtain ⟨own, before, after, split, apart⟩ := built.sound.split_of_get? found
  obtain ⟨added, whole⟩ := Choices.prefix_foldl_add e.choices xs
  have mapped := Choices.isSome_lookup_foldl_add e.choices xs
  rw [← whole] at mapped
  have adding {r : Registry} {c : Choices}
      (split : r.entries = before ++ { e with choices := c } :: after) (values : List Text) :
      r.addChoices path values =
        (.ok (), { r with entries :=
          before ++ { e with choices := values.foldl Choices.add c } :: after }) := by
    rw [← Choices.extend_codePool]
    exact modify_of_split split own apart _
  refine ⟨before, after, added, split, ?_, ?_, ?_, ?_, mapped, ?_, ?_⟩
  · rw [adding split, whole]
  · exact get?_of_split rfl own apart
  · rw [adding rfl, Choices.foldl_add_of_isSome mapped]
  · rw [adding split, adding rfl, List.foldl_append, whole]
  · exact fun value code known => Choices.lookup_append_of_eq_some known added
  · rintro pre value code post rfl
    refine ⟨fun few => ?_, Choices.folded_ne_of_foldl_add whole.symm⟩
    rw [Choices.code_of_foldl_add whole.symm]
    refine isAnswerCode_nameFor (Choices.limit_codePool _) ?_ value
    exact Nat.lt_of_le_of_lt (Choices.length_codePool_le _) few

/-- A field with two answer codes that differ in the case of letters only. -/
def clashingCodes : Registry :=
  ((((empty.registerDerived "/data/fruit".toList).2.registerChoice "/data/fruit".toList
    "x".toList "Optio".toList).2).registerChoice "/data/fruit".toList "y".toList "OPTIO".toList).2

theorem addChoices_allocates_beside_clash :
    let path := "/data/fruit".toList
    let xs := ["option_long".toList, "x".toList, "option_longer".toList, "option_long".toList]
    let ys := ["option_longer".toList, "?".toList]
    clashingCodes.addChoices path (xs ++ ys) =
        (clashingCodes.addChoices path xs).2.addChoices path ys ∧
      ((clashingCodes.addChoices path xs).2.get? path).map Entry.choices =
        some [("x".toList, "Optio".toList), ("y".toList, "OPTIO".toList),
          ("option_long".toList, "opti1".toList), ("option_longer".toList, "opti2".toList)] ∧
      IsAnswerCode "opti2".toList := by
  intro path xs ys
  have built : clashingCodes.Built :=
    ((built_empty.registerDerived _).registerChoice _ _ _).registerChoice _ _ _
  have found : clashingCodes.get? path = some ⟨path, "fruit".toList, "fruit".toList,
      [("x".toList, "Optio".toList), ("y".toList, "OPTIO".toList)]⟩ := by decide +kernel
  obtain ⟨before, after, added, _, step, got, _, law, _, _, codes⟩ :=
    addChoices_allocates built found xs ys
  have choices : ((clashingCodes.addChoices path xs).2.get? path).map Entry.choices =
      some [("x".toList, "Optio".toList), ("y".toList, "OPTIO".toList),
        ("option_long".toList, "opti1".toList), ("option_longer".toList, "opti2".toList)] := by
    decide +kernel
  refine ⟨by rw [law, step], choices, ?_⟩
  rw [step, got] at choices
  have new : added =
      [("option_long".toList, "opti1".toList)] ++ ("option_longer".toList, "opti2".toList) :: [] :=
    List.append_cancel_left (Option.some.inj choices)
  exact (codes _ _ _ _ new).1 (by decide)

end Registry

end Field

end FormLogic
