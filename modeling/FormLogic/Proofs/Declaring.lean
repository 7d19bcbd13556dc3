import FormLogic.Proofs.Identifiers
import FormLogic.Proofs.NormalForms
import FormLogic.Report.Problem

/-!
Lists of declarations. A declaration is refused when its path is blank or has the normal form of an
earlier declaration's path, and for no other reason: the fields declared so far stand under the
normal forms of the earlier paths, whether or not a declaration between them was refused. All
refusals are reported, and a list without any gives one entry for each declaration.
-/
namespace FormLogic.Field

open Text

namespace Choices

/-- The values that are added are those that have no code yet, each once. -/
theorem keys_extend (choices : Choices) (pool : Name.Pool) (values : List Text) :
    (choices.extend pool values).map Prod.fst = choices.map Prod.fst ++
      (values.filter fun value => !(choices.map Prod.fst).contains value).eraseDups := by
  induction values generalizing choices pool with
  | nil => simp [extend]
  | cons value rest ih =>
    have known : (choices.lookup value).isSome = (choices.map Prod.fst).contains value := by
      rw [Bool.eq_iff_iff, List.lookup_isSome_iff, List.contains_iff_mem, List.mem_map]
      exact exists_congr fun choice => and_congr_right fun _ => by rw [beq_iff_eq, eq_comm]
    rw [extend, known, List.filter_cons]
    cases (choices.map Prod.fst).contains value with
    | true => simp [ih]
    | false =>
      have others : (rest.filter fun other =>
          !(choices.map Prod.fst ++ [value]).contains other) =
          (rest.filter fun other => !(choices.map Prod.fst).contains other).filter
            fun other => !other == value := by
        rw [List.filter_filter]
        refine List.filter_congr fun other _ => ?_
        rw [Bool.eq_iff_iff]
        simp [not_or, and_comm]
      simp only [Bool.not_false, Bool.false_eq_true, if_true, if_false, ih, List.map_append,
        List.map_cons, List.map_nil, List.append_assoc, List.eraseDups_cons, others]
      rfl

end Choices

/-- What an entry has from its declaration: path, name and identifier, and a code for each choice
value in the order in which the values occur first. -/
structure Declaration.Makes (d : Declaration) (e : Entry) : Prop where
  gives : d.Gives e
  choices : e.choices.map Prod.fst = d.choices.eraseDups

/-- The entry that a declaration gives while the identifiers of the pool are taken, with a code for
each choice value. -/
def Declaration.filled (d : Declaration) (pool : Name.Pool) : Entry :=
  { d.entry pool with choices := Choices.extend [] (Choices.codePool []) d.choices }

theorem Declaration.makes_filled (d : Declaration) (pool : Name.Pool) : d.Makes (d.filled pool) := by
  refine ⟨⟨rfl, rfl, fun identifier chosen => ?_⟩, ?_⟩
  · simp [filled, entry, chosen]
  · rw [filled, Choices.keys_extend]
    simp

/-- What is wrong with a declaration that stands behind others. -/
def Declaration.offence? (earlier : List Declaration) (d : Declaration) : Option Registry.Error :=
  if trim d.path = [] then some (.emptyPath d.path)
  else if ∃ e ∈ earlier, normalPath e.path = normalPath d.path then
    some (.duplicate d.path (normalPath d.path))
  else none

namespace Registry

/-- What is wrong with declarations that stand behind others, in the order of the declarations. -/
def offences (earlier : List Declaration) : List Declaration → List Error
  | [] => []
  | d :: rest => (d.offence? earlier).toList ++ offences (earlier ++ [d]) rest

variable {r : Registry} {earlier ds : List Declaration} {d : Declaration}

/-- Nothing is wrong with declarations under distinct paths none of which is blank. -/
theorem offences_eq_nil_iff :
    offences earlier ds = [] ↔ (∀ d ∈ ds, trim d.path ≠ []) ∧
      (ds.map fun d => normalPath d.path).Nodup ∧
      ∀ d ∈ ds, ∀ e ∈ earlier, normalPath e.path ≠ normalPath d.path := by
  induction ds generalizing earlier with
  | nil => simp [offences]
  | cons d rest ih =>
    have own : d.offence? earlier = none ↔
        trim d.path ≠ [] ∧ ∀ e ∈ earlier, normalPath e.path ≠ normalPath d.path := by
      unfold Declaration.offence?
      split
      · next blank => simp [blank]
      · next visible => simpa using fun _ => visible
    rw [offences, List.append_eq_nil_iff, Option.toList_eq_nil_iff, own, ih, List.map_cons,
      List.nodup_cons]
    simp only [List.forall_mem_cons, List.forall_mem_append, List.mem_map, not_exists, not_and]
    constructor
    · rintro ⟨⟨visible, fresh⟩, others, distinct, later⟩
      exact ⟨⟨visible, others⟩, ⟨fun e member same => (later e member).2.1 same.symm, distinct⟩, fresh,
        fun e member => (later e member).1⟩
    · rintro ⟨⟨visible, others⟩, ⟨apart, distinct⟩, fresh, later⟩
      exact ⟨⟨visible, fresh⟩, others, distinct, fun e member =>
        ⟨later e member, fun same => apart e member same.symm, by simp⟩⟩

theorem code_of_mem_offences {e : Error} (member : e ∈ offences earlier ds) :
    (Problem.ofRegistryError e).code = .emptyPath ∨
      (Problem.ofRegistryError e).code = .duplicatePath := by
  induction ds generalizing earlier with
  | nil => cases member
  | cons d rest ih =>
    rcases List.mem_append.1 member with own | later
    · rw [Option.mem_toList, Declaration.offence?] at own
      split at own
      · cases own
        exact Or.inl rfl
      · split at own
        · cases own
          exact Or.inr rfl
        · cases own
    · exact ih later

/-- The fields stand under the paths of the declarations. -/
def Covers (r : Registry) (ds : List Declaration) : Prop :=
  ∀ key, key ≠ [] → ((r.at? key).isSome = true ↔ ∃ d ∈ ds, normalPath d.path = key)

/-- Whether a declaration is refused depends on the declarations before it only. -/
theorem Covers.newKey (covers : Covers r earlier) (d : Declaration) :
    r.newKey d.path = match d.offence? earlier with
      | some e => .error e
      | none => .ok (normalPath d.path) := by
  unfold Registry.newKey Declaration.offence?
  dsimp only
  by_cases blank : trim d.path = []
  · simp [blank, normalPath_eq_nil_iff]
  · have visible : normalPath d.path ≠ [] := fun nothing => blank ((normalPath_eq_nil_iff _).1 nothing)
    rw [if_neg visible, if_neg blank]
    by_cases taken : ∃ e ∈ earlier, normalPath e.path = normalPath d.path
    · rw [if_pos ((covers _ visible).2 taken), if_pos taken]
    · rw [if_neg fun known => taken ((covers _ visible).1 known), if_neg taken]

/-- A change to the field that was added last. -/
theorem modify_insert {e : Entry} {path : Text} (own : e.path = normalPath path)
    (fresh : ∀ other ∈ r.entries, other.path ≠ e.path) (f : Entry → Entry) :
    ((r.insert e).modify path f).1 = .ok () ∧
      ((r.insert e).modify path f).2.entries = r.entries ++ [f e] := by
  have last : (r.insert e).entries = r.entries ++ e :: [] := rfl
  rw [modify_of_split last own (by simpa using fresh)]
  exact ⟨rfl, rfl⟩

/-- A declaration that is not refused adds its entry. -/
theorem declare_of_newKey {key : Text} (fresh : r.newKey d.path = .ok key) :
    (r.declare d).1 = .ok () ∧
      (r.declare d).2.entries = r.entries ++ [d.filled r.identifiers] := by
  obtain ⟨rfl, absent⟩ := newKey_eq_ok fresh
  unfold declare
  cases chosen : d.identifier with
  | none =>
    simp only [registerDerived_of_newKey fresh, Declaration.filled, Declaration.entry, chosen]
    exact modify_insert (r := { r with identifiers := _ }) rfl absent _
  | some identifier =>
    simp only [register_of_newKey fresh, Declaration.filled, Declaration.entry, chosen]
    exact modify_insert (r := { r with identifiers := _ }) rfl absent _

/-- A declaration that is refused adds nothing. -/
theorem declare_of_newKey_error {e : Error} (refused : r.newKey d.path = .error e) :
    (r.declare d).1 = .error e ∧ (r.declare d).2.entries = r.entries := by
  unfold declare
  cases chosen : d.identifier with
  | none =>
    simp [registerDerived_of_newKey_error refused]
  | some identifier =>
    simp [register_of_newKey_error refused]

/-- Every declaration keeps the fields under the paths of the declarations, those that are refused
included. -/
theorem Covers.declare (covers : Covers r earlier) (d : Declaration) :
    Covers (r.declare d).2 (earlier ++ [d]) := by
  have known (r : Registry) (key : Text) :
      (r.at? key).isSome = true ↔ key ∈ r.entries.map Entry.path := by
    rw [at?, List.find?_isSome, List.mem_map]
    simp
  have key := covers.newKey d
  intro path visible
  have before := covers path visible
  rw [known] at before ⊢
  have behind : (∃ e ∈ earlier ++ [d], normalPath e.path = path) ↔
      (∃ e ∈ earlier, normalPath e.path = path) ∨ normalPath d.path = path := by
    simp [or_and_right, exists_or]
  rw [behind, ← before]
  cases offence : d.offence? earlier with
  | none =>
    rw [offence] at key
    rw [(declare_of_newKey key).2, List.map_append, List.mem_append, List.map_singleton,
      List.mem_singleton, eq_comm (a := path)]
    rfl
  | some e =>
    rw [offence] at key
    rw [(declare_of_newKey_error key).2]
    refine ⟨Or.inl, fun either => either.elim id fun same => before.2 ?_⟩
    unfold Declaration.offence? at offence
    split at offence
    · next blank => exact absurd (same.symm.trans ((normalPath_eq_nil_iff _).2 blank)) visible
    · split at offence
      · next taken =>
        obtain ⟨other, member, alike⟩ := taken
        exact ⟨other, member, alike.trans same⟩
      · cases offence

theorem covers_chosen (names : List Text) :
    Covers { empty with identifiers := empty.identifiers.reserveAll names } [] := by
  intro key _
  simp [at?, empty]

theorem declareAll_cons (r : Registry) (d : Declaration) (rest : List Declaration) :
    r.declareAll (d :: rest) =
      match (r.declare d).1 with
      | .error e => (e :: ((r.declare d).2.declareAll rest).1, ((r.declare d).2.declareAll rest).2)
      | .ok _ => (r.declare d).2.declareAll rest :=
  rfl

/-- Going on after a refusal reports exactly what is wrong with each declaration, and adds the entries
of the declarations where nothing is. -/
theorem declareAll_offences (covers : Covers r earlier) :
    (r.declareAll ds).1 = offences earlier ds ∧
      (offences earlier ds = [] → ∃ es, (r.declareAll ds).2.entries = r.entries ++ es ∧
        List.Forall₂ Declaration.Makes ds es) := by
  induction ds generalizing r earlier with
  | nil => exact ⟨rfl, fun _ => ⟨[], by simp [declareAll], .nil⟩⟩
  | cons d rest ih =>
    obtain ⟨errors, entries⟩ := ih (covers.declare d)
    have key := covers.newKey d
    rw [declareAll_cons, offences]
    cases offence : d.offence? earlier with
    | some e =>
      rw [offence] at key
      rw [(declare_of_newKey_error key).1]
      exact ⟨congrArg (e :: ·) errors, fun noErrors => by cases noErrors⟩
    | none =>
      rw [offence] at key
      obtain ⟨accepted, added⟩ := declare_of_newKey key
      rw [accepted]
      refine ⟨errors, fun nothing => ?_⟩
      obtain ⟨es, whole, made⟩ := entries nothing
      refine ⟨d.filled r.identifiers :: es, ?_, .cons (d.makes_filled _) made⟩
      dsimp only
      rw [whole, added, List.append_assoc]
      rfl

/-- A list of declarations gives a registry, with what each declaration makes, or all that is wrong
with it. -/
theorem ofDeclarations_cases (ds : List Declaration) :
    (offences [] ds = [] ∧
        ∃ r, ofDeclarations ds = .ok r ∧ List.Forall₂ Declaration.Makes ds r.entries) ∨
      offences [] ds ≠ [] ∧ ofDeclarations ds = .error (offences [] ds) := by
  obtain ⟨errors, entries⟩ :=
    @declareAll_offences _ [] ds (covers_chosen (ds.filterMap Declaration.identifier))
  rw [← errors] at entries ⊢
  unfold ofDeclarations
  dsimp only at entries ⊢
  generalize declareAll _ ds = outcome at entries ⊢
  rcases outcome with ⟨_ | ⟨e, rest⟩, r⟩
  · obtain ⟨es, whole, made⟩ := entries rfl
    have same : r.entries = es := whole
    exact Or.inl ⟨rfl, r, rfl, same ▸ made⟩
  · exact Or.inr ⟨List.cons_ne_nil e rest, rfl⟩

/-- A blank path is not a duplicate of an earlier one. -/
example : offences [] (["/a".toList, " ".toList, "/a//".toList, "".toList].map fun path =>
    ⟨path, none, []⟩) =
      [.emptyPath " ".toList, .duplicate "/a//".toList "/a".toList, .emptyPath "".toList] := by
  decide +kernel

end Registry

end FormLogic.Field
