import FormLogic.Proofs.Allocation
import FormLogic.Proofs.Registration

/-!
Histories of a registry: operations carried out one after the other, those that fail included. What
an operation declares is added behind the entries there are, and nothing else about an entry but its
choices ever changes. An operation that fails leaves the entries and the names as they were. Only
the identifier of a declaration that fails stays reserved, and that is seen only where a later
field gets an identifier made from its name.
-/
namespace FormLogic.Field

open Text

/-- The entry as it was declared, without its choices. -/
def Entry.bare (e : Entry) : Entry := { e with choices := [] }

namespace Registry

inductive Operation where
  | register (path identifier : Text)
  | registerDerived (path : Text)
  | addChoices (path : Text) (values : List Text)
  | registerChoice (path value code : Text)
  deriving DecidableEq, Repr

/-- The identifier that an operation asks for. -/
def Operation.chosen : Operation → List Text
  | register _ identifier => [identifier]
  | _ => []

/-- What an operation answers: the entry it has declared, if it declares one. -/
abbrev Outcome := Except Error (Option Entry)

/-- The entry that an operation has declared. -/
def declared : Outcome → List Entry
  | .ok (some e) => [e]
  | _ => []

def perform (r : Registry) : Operation → Outcome × Registry
  | .register path identifier => (r.register path identifier).map (·.map some) id
  | .registerDerived path => (r.registerDerived path).map (·.map some) id
  | .addChoices path values => (r.addChoices path values).map (·.map fun _ => none) id
  | .registerChoice path value code => (r.registerChoice path value code).map (·.map fun _ => none) id

/-- Carries out operations one after the other, going on after a failure. -/
def performAll (r : Registry) : List Operation → List Outcome × Registry
  | [] => ([], r)
  | op :: rest =>
    let (outcome, r) := r.perform op
    let (outcomes, r) := r.performAll rest
    (outcome :: outcomes, r)

variable {r : Registry}

theorem performAll_cons (r : Registry) (op : Operation) (rest : List Operation) :
    r.performAll (op :: rest) =
      ((r.perform op).1 :: ((r.perform op).2.performAll rest).1,
        ((r.perform op).2.performAll rest).2) :=
  rfl

theorem Built.perform (built : Built r) (op : Operation) : Built (r.perform op).2 := by
  cases op with
  | register path identifier => exact built.register path identifier
  | registerDerived path => exact built.registerDerived path
  | addChoices path values => exact built.addChoices path values
  | registerChoice path value code => exact built.registerChoice path value code

theorem Built.performAll (built : Built r) (ops : List Operation) : Built (r.performAll ops).2 := by
  induction ops generalizing r with
  | nil => exact built
  | cons op rest ih => exact ih (built.perform op)

theorem built_empty : Built empty := .start []

/-! What an operation does. -/

theorem register_of_newKey_error {path identifier : Text} {e : Error}
    (refused : r.newKey path = .error e) :
    r.register path identifier =
      (.error e, { r with identifiers := r.identifiers.reserve identifier }) := by
  have same : newKey { r with identifiers := r.identifiers.reserve identifier } path = .error e :=
    refused
  simp only [register, same]

theorem register_of_newKey {path identifier key : Text} (fresh : r.newKey path = .ok key) :
    r.register path identifier =
      (.ok ⟨key, lastSegment key, identifier, []⟩,
        { r with identifiers := r.identifiers.reserve identifier }.insert
          ⟨key, lastSegment key, identifier, []⟩) := by
  have same : newKey { r with identifiers := r.identifiers.reserve identifier } path = .ok key :=
    fresh
  simp only [register, same]

theorem registerDerived_of_newKey_error {path : Text} {e : Error}
    (refused : r.newKey path = .error e) : r.registerDerived path = (.error e, r) := by
  simp only [registerDerived, refused]

theorem registerDerived_of_newKey {path key : Text} (fresh : r.newKey path = .ok key) :
    let identifier := r.identifiers.nameFor (Name.question (lastSegment key))
    r.registerDerived path =
      (.ok ⟨key, lastSegment key, identifier, []⟩,
        { r with identifiers := r.identifiers.reserve identifier }.insert
          ⟨key, lastSegment key, identifier, []⟩) := by
  simp only [registerDerived, fresh, Name.Pool.allocate]

/-- A field is found in its place if no other field has its path. -/
theorem get?_of_split {before after : List Entry} {e : Entry} {path : Text}
    (split : r.entries = before ++ e :: after) (own : e.path = normalPath path)
    (apart : ∀ other ∈ before ++ after, other.path ≠ e.path) : r.get? path = some e := by
  have others : before.find? (·.path == e.path) = none := by
    refine List.find?_eq_none.2 fun other member => ?_
    simpa using apart other (List.mem_append_left after member)
  rw [get?, at?, split, ← own, List.find?_append, others, Option.none_or]
  exact List.find?_cons_of_pos (beq_self_eq_true e.path)

/-- A change to a field changes that entry in its place and no other. -/
theorem modify_of_split {before after : List Entry} {e : Entry} {path : Text}
    (split : r.entries = before ++ e :: after) (own : e.path = normalPath path)
    (apart : ∀ other ∈ before ++ after, other.path ≠ e.path) (f : Entry → Entry) :
    r.modify path f = (.ok (), { r with entries := before ++ f e :: after }) := by
  have kept {es : List Entry} (apart : ∀ other ∈ es, other.path ≠ e.path) :
      (es.map fun other => if other.path = e.path then f other else other) = es :=
    (List.map_congr_left fun other member => if_neg (apart other member)).trans (List.map_id es)
  rw [modify, get?_of_split split own apart]
  rw [List.forall_mem_append] at apart
  dsimp only
  rw [update, split, List.map_append, List.map_cons, if_pos rfl, kept apart.1, kept apart.2]

theorem entries_modify {path : Text} {f : Entry → Entry} (bare : ∀ e, (f e).bare = e.bare) :
    (r.modify path f).2.entries.map Entry.bare = r.entries.map Entry.bare := by
  unfold modify
  split
  · rfl
  · rw [update, List.map_map]
    refine List.map_congr_left fun e _ => ?_
    rw [Function.comp_apply]
    split
    · exact bare e
    · rfl

theorem names_modify (path : Text) (f : Entry → Entry) : (r.modify path f).2.names = r.names := by
  unfold modify
  split <;> rfl

theorem identifiers_modify (path : Text) (f : Entry → Entry) :
    (r.modify path f).2.identifiers = r.identifiers := by
  unfold modify
  split <;> rfl

theorem paths_modify (path : Text) {f : Entry → Entry} (bare : ∀ e, (f e).bare = e.bare) :
    (r.modify path f).2.entries.map Entry.path = r.entries.map Entry.path := by
  have same := congrArg (List.map Entry.path) (@entries_modify r path f bare)
  rwa [List.map_map, List.map_map] at same

/-- No field is declared under an empty path. -/
theorem Built.path_ne_nil (built : r.Built) : [] ∉ r.entries.map Entry.path := by
  have inserted {r : Registry} {path key name identifier : Text} (fresh : r.newKey path = .ok key)
      (before : [] ∉ r.entries.map Entry.path) :
      [] ∉ (r.insert ⟨key, name, identifier, []⟩).entries.map Entry.path := by
    have visible := ne_nil_of_newKey fresh
    rw [insert, List.map_append, List.mem_append, not_or]
    exact ⟨before, by simpa using visible.symm⟩
  induction built with
  | start reserved => exact List.not_mem_nil
  | @register r _ path identifier ih =>
    cases key : r.newKey path with
    | error e =>
      rw [register_of_newKey_error key]
      exact ih
    | ok key' =>
      rw [register_of_newKey key]
      exact @inserted { r with identifiers := _ } path _ _ _ key ih
  | @registerDerived r _ path ih =>
    cases key : r.newKey path with
    | error e =>
      rw [registerDerived_of_newKey_error key]
      exact ih
    | ok key' =>
      rw [registerDerived_of_newKey key]
      exact @inserted { r with identifiers := _ } path _ _ _ key ih
  | addChoices _ path values ih =>
    rw [Registry.addChoices, paths_modify]
    · exact ih
    · exact fun _ => rfl
  | registerChoice _ path value code ih =>
    rw [Registry.registerChoice, paths_modify]
    · exact ih
    · exact fun _ => rfl

/-- An operation that fails changes nothing but the identifiers that are reserved. -/
theorem perform_of_error {op : Operation} {e : Error} (failed : (r.perform op).1 = .error e) :
    (r.perform op).2 = { r with identifiers := r.identifiers.reserveAll op.chosen } := by
  have unknown {path : Text} {f : Entry → Entry}
      (failed : (r.modify path f).1.map (fun _ => (none : Option Entry)) = .error e) :
      (r.modify path f).2 = r := by
    unfold modify at failed ⊢
    split
    · rfl
    · next found =>
      rw [found] at failed
      cases failed
  cases op with
  | register path identifier =>
    cases key : r.newKey path with
    | error e =>
      rw [perform, register_of_newKey_error key]
      rfl
    | ok key' =>
      rw [perform, register_of_newKey key] at failed
      cases failed
  | registerDerived path =>
    cases key : r.newKey path with
    | error e =>
      rw [perform, registerDerived_of_newKey_error key]
      rfl
    | ok key' =>
      rw [perform, registerDerived_of_newKey key] at failed
      cases failed
  | addChoices path values => exact unknown failed
  | registerChoice path value code => exact unknown failed

/-- An operation adds the entry that it declares. -/
theorem entries_perform (r : Registry) (op : Operation) :
    (r.perform op).2.entries.map Entry.bare =
      r.entries.map Entry.bare ++ declared (r.perform op).1 := by
  have choices {path : Text} {f : Entry → Entry} (bare : ∀ e, (f e).bare = e.bare) :
      (r.modify path f).2.entries.map Entry.bare =
        r.entries.map Entry.bare ++
          declared ((r.modify path f).1.map fun _ => (none : Option Entry)) := by
    rw [entries_modify bare]
    cases (r.modify path f).1 <;> simp [Except.map, declared]
  cases op with
  | register path identifier =>
    cases key : r.newKey path with
    | error e => simp [perform, register_of_newKey_error key, Except.map, declared]
    | ok key' => simp [perform, register_of_newKey key, Except.map, declared, insert, Entry.bare]
  | registerDerived path =>
    cases key : r.newKey path with
    | error e => simp [perform, registerDerived_of_newKey_error key, Except.map, declared]
    | ok key' => simp [perform, registerDerived_of_newKey key, Except.map, declared, insert, Entry.bare]
  | addChoices path values => exact choices fun _ => rfl
  | registerChoice path value code => exact choices fun _ => rfl

/-- The entries of a registry are those that its history has declared, in the order of their
declaration. -/
theorem entries_performAll (r : Registry) (ops : List Operation) :
    (r.performAll ops).2.entries.map Entry.bare =
      r.entries.map Entry.bare ++ (r.performAll ops).1.flatMap declared := by
  induction ops generalizing r with
  | nil => exact (List.append_nil _).symm
  | cons op rest ih =>
    rw [performAll_cons, List.flatMap_cons, ih, entries_perform, List.append_assoc]

/-! What a failure leaves behind. -/

/-- An operation that makes no identifier neither looks at those that are taken nor forgets one. -/
theorem perform_withIdentifiers {op : Operation} (given : ∀ path, op ≠ .registerDerived path)
    (pool : Name.Pool) :
    ({ r with identifiers := pool }.perform op).1 = (r.perform op).1 ∧
      ({ r with identifiers := pool }.perform op).2 =
        { (r.perform op).2 with identifiers := pool.reserveAll op.chosen } := by
  have choices (path : Text) (f : Entry → Entry) :
      ({ r with identifiers := pool }.modify path f).1 = (r.modify path f).1 ∧
        ({ r with identifiers := pool }.modify path f).2 =
          { (r.modify path f).2 with identifiers := pool } := by
    have same : get? { r with identifiers := pool } path = r.get? path := rfl
    unfold modify
    rw [same]
    split <;> exact ⟨rfl, rfl⟩
  cases op with
  | register path identifier =>
    have same : newKey { r with identifiers := pool } path = r.newKey path := rfl
    cases key : r.newKey path with
    | error e =>
      simp only [perform, register_of_newKey_error key, register_of_newKey_error (same.trans key)]
      exact ⟨rfl, rfl⟩
    | ok key' =>
      simp only [perform, register_of_newKey key, register_of_newKey (same.trans key)]
      exact ⟨rfl, rfl⟩
  | registerDerived path => exact absurd rfl (given path)
  | addChoices path values =>
    obtain ⟨answer, state⟩ := choices path fun e =>
      { e with choices := e.choices.extend e.choices.codePool values }
    exact ⟨congrArg (Except.map fun _ => none) answer, state⟩
  | registerChoice path value code =>
    obtain ⟨answer, state⟩ := choices path fun e => { e with choices := e.choices.set value code }
    exact ⟨congrArg (Except.map fun _ => none) answer, state⟩

theorem outcomes_withIdentifiers {ops : List Operation}
    (given : ∀ path, .registerDerived path ∉ ops) (pool : Name.Pool) :
    ({ r with identifiers := pool }.performAll ops).1 = (r.performAll ops).1 := by
  induction ops generalizing r pool with
  | nil => rfl
  | cons op rest ih =>
    obtain ⟨answer, state⟩ := perform_withIdentifiers (r := r)
      (fun path same => given path (same ▸ List.mem_cons_self)) pool
    rw [performAll_cons, performAll_cons, answer, state,
      ih fun path member => given path (List.mem_cons_of_mem op member)]

/-- An operation that fails leaves no trace, unless it is a declaration whose identifier was free:
that identifier stays reserved. Later operations go on as if the failure had not been, and where an
identifier stays reserved those do that come before the next identifier that is made. -/
theorem performAll_of_error {op : Operation} {e : Error} (failed : (r.perform op).1 = .error e) :
    (r.perform op).2 = { r with identifiers := r.identifiers.reserveAll op.chosen } ∧
      ((∀ identifier ∈ op.chosen, r.identifiers.isTaken identifier = true) →
        (r.perform op).2 = r) ∧
      ∀ later : List Operation,
        (∀ identifier ∈ op.chosen, r.identifiers.isTaken identifier = true) ∨
            (∀ path, .registerDerived path ∉ later) →
          (r.performAll (op :: later)).1 = .error e :: (r.performAll later).1 := by
  have state := perform_of_error failed
  have unchanged (taken : ∀ identifier ∈ op.chosen, r.identifiers.isTaken identifier = true) :
      (r.perform op).2 = r := by
    rw [state]
    cases op with
    | register path identifier =>
      have same : r.identifiers.reserveAll (Operation.register path identifier).chosen =
          r.identifiers := Name.Pool.reserve_of_isTaken (taken identifier List.mem_cons_self)
      rw [same]
    | registerDerived path => rfl
    | addChoices path values => rfl
    | registerChoice path value code => rfl
  refine ⟨state, unchanged, fun later harmless => ?_⟩
  rw [performAll_cons, failed]
  rcases harmless with taken | given
  · rw [unchanged taken]
  · rw [state, outcomes_withIdentifiers given]

/-- Two fields whose identifiers are made from their names. -/
def twoFields : Registry :=
  (empty.performAll [.registerDerived "/data/a".toList, .registerDerived "/data/b".toList]).2

theorem performAll_of_error_duplicate :
    (twoFields.perform (.register "/data/b/".toList "A".toList)).1 =
        .error (.duplicate "/data/b/".toList "/data/b".toList) ∧
      twoFields.identifiers.isTaken "A".toList = true ∧
      (twoFields.performAll [.register "/data/b/".toList "A".toList, .registerDerived "/a".toList]).1 =
        .error (.duplicate "/data/b/".toList "/data/b".toList) ::
          (twoFields.performAll [.registerDerived "/a".toList]).1 := by
  have failed : (twoFields.perform (.register "/data/b/".toList "A".toList)).1 =
      .error (.duplicate "/data/b/".toList "/data/b".toList) := by decide +kernel
  have taken : twoFields.identifiers.isTaken "A".toList = true := by decide +kernel
  refine ⟨failed, taken, (performAll_of_error failed).2.2 _ (Or.inl fun identifier member => ?_)⟩
  rwa [List.mem_singleton.1 member]

/-- The identifier of a declaration that fails is kept from a later field. -/
theorem register_reserves_despite_error :
    (twoFields.perform (.register "/data/b".toList "zip".toList)).1 =
        .error (.duplicate "/data/b".toList "/data/b".toList) ∧
      (twoFields.performAll [.registerDerived "/data/zip".toList]).1 =
        [.ok (some ⟨"/data/zip".toList, "zip".toList, "zip".toList, []⟩)] ∧
      (twoFields.performAll
          [.register "/data/b".toList "zip".toList, .registerDerived "/data/zip".toList]).1 =
        [.error (.duplicate "/data/b".toList "/data/b".toList),
          .ok (some ⟨"/data/zip".toList, "zip".toList, "zip1".toList, []⟩)] := by
  refine ⟨?_, ?_, ?_⟩ <;> decide +kernel

end Registry

end FormLogic.Field
