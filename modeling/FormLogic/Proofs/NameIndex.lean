import FormLogic.Proofs.Histories
import FormLogic.Proofs.Resolving

/-!
The names of a registry's fields. What is noted for a name is a function of the paths of the fields
that have the name: nothing for none, the path for one, and that the name is ambiguous for several.
Every operation keeps it so. Hence a field is found by its name exactly if no other field has that
name, whatever was declared or refused before.
-/
namespace FormLogic.Field.Registry

open Text

/-- What is noted for a name of the fields under the given paths. -/
def useOf : List Text → Option NameUse
  | [] => none
  | [path] => some (.unique path)
  | _ :: _ :: _ => some .ambiguous

/-- The paths of the fields with a name. -/
def namesakes (es : List Entry) (name : Text) : List Text :=
  (es.filter (·.name = name)).map Entry.path

/-- What is noted for each name is right. -/
def Indexed (r : Registry) : Prop := ∀ name, r.names.lookup name = useOf (namesakes r.entries name)

theorem namesakes_bare (es : List Entry) (name : Text) :
    namesakes (es.map Entry.bare) name = namesakes es name := by
  induction es with
  | nil => rfl
  | cons e rest ih =>
    unfold namesakes at ih ⊢
    rw [List.map_cons, List.filter_cons, List.filter_cons]
    by_cases named : e.name = name
    · have bare : e.bare.name = name := named
      simp only [named, bare, decide_true, ↓reduceIte, List.map_cons, ih]
      rfl
    · have bare : e.bare.name ≠ name := named
      simp only [named, bare, decide_false, Bool.false_eq_true, ↓reduceIte, ih]

theorem namesakes_concat (es : List Entry) (e : Entry) (name : Text) :
    namesakes (es ++ [e]) name =
      namesakes es name ++ if e.name = name then [e.path] else [] := by
  unfold namesakes
  rw [List.filter_append, List.map_append, List.filter_singleton]
  by_cases named : e.name = name <;> simp [named]

/-- One more field makes a name that was noted ambiguous. -/
theorem useOf_concat (paths : List Text) (path : Text) :
    useOf (paths ++ [path]) =
      some (if (useOf paths).isSome = true then .ambiguous else .unique path) := by
  match paths with
  | [] => rfl
  | [_] => rfl
  | _ :: _ :: _ => rfl

theorem useOf_eq_ambiguous {paths : List Text} :
    useOf paths = some .ambiguous ↔ 2 ≤ paths.length := by
  match paths with
  | [] => simp [useOf]
  | [_] => simp [useOf]
  | _ :: _ :: _ => simp [useOf]

variable {r : Registry}

namespace Indexed

theorem insert (indexed : Indexed r) (e : Entry) : Indexed (r.insert e) := by
  intro name
  rw [Registry.insert, lookup_addName, namesakes_concat]
  by_cases named : e.name = name
  · rw [if_pos named.symm, if_pos named, useOf_concat, indexed e.name, named]
  · rw [if_neg (Ne.symm named), if_neg named, List.append_nil]
    exact indexed name

theorem of_bare {other : Registry} (indexed : Indexed r) (names : other.names = r.names)
    (same : other.entries.map Entry.bare = r.entries.map Entry.bare) : Indexed other := by
  intro name
  rw [names, indexed name, ← namesakes_bare r.entries, ← same, namesakes_bare]

theorem modify (indexed : Indexed r) (path : Text) {f : Entry → Entry}
    (bare : ∀ e, (f e).bare = e.bare) : Indexed (r.modify path f).2 :=
  indexed.of_bare (names_modify path f) (entries_modify bare)

theorem register (indexed : Indexed r) (path identifier : Text) :
    Indexed (r.register path identifier).2 := by
  cases key : r.newKey path with
  | error e =>
    rw [register_of_newKey_error key]
    exact indexed
  | ok key' =>
    rw [register_of_newKey key]
    exact insert (r := { r with identifiers := _ }) indexed _

theorem registerDerived (indexed : Indexed r) (path : Text) :
    Indexed (r.registerDerived path).2 := by
  cases key : r.newKey path with
  | error e =>
    rw [registerDerived_of_newKey_error key]
    exact indexed
  | ok key' =>
    rw [registerDerived_of_newKey key]
    exact insert (r := { r with identifiers := _ }) indexed _

theorem isAmbiguous_iff (indexed : Indexed r) (name : Text) :
    r.isAmbiguous name = true ↔ 2 ≤ r.entries.countP (·.name = name) := by
  rw [isAmbiguous, beq_iff_eq, indexed name, useOf_eq_ambiguous, namesakes, List.length_map,
    List.countP_eq_length_filter]

/-- A field is found by its name if it is the only one with that name. -/
theorem byName?_of_only (indexed : Indexed r) (sound : Sound r) {e : Entry} (member : e ∈ r.entries)
    (only : ∀ d ∈ r.entries, d.name = e.name → d = e) : r.byName? e.name = some e := by
  have alone : r.entries.filter (·.name = e.name) = [e] := by
    have nodup : (r.entries.filter (·.name = e.name)).Nodup := sound.distinct.of_map.filter _
    refine List.perm_singleton.1 ((List.perm_ext_iff_of_nodup nodup (List.nodup_singleton e)).2 ?_)
    intro d
    rw [List.mem_filter, decide_eq_true_iff, List.mem_singleton]
    constructor
    · exact fun found => only d found.1 found.2
    · rintro rfl
      exact ⟨member, rfl⟩
  have noted : r.names.lookup e.name = some (.unique e.path) := by
    rw [indexed e.name, namesakes, alone]
    rfl
  simp only [byName?, noted, sound.at?_path member]

theorem byName?_eq_some_iff (indexed : Indexed r) (sound : Sound r) {name : Text} {e : Entry} :
    r.byName? name = some e ↔
      e ∈ r.entries ∧ e.name = name ∧ ∀ d ∈ r.entries, d.name = name → d = e := by
  constructor
  · intro found
    obtain ⟨named, only⟩ := sound.byName?_eq_some found
    exact ⟨mem_of_byName? found, named, only⟩
  · rintro ⟨member, rfl, only⟩
    exact indexed.byName?_of_only sound member only

end Indexed

theorem Built.indexed (built : Built r) : Indexed r := by
  induction built with
  | start reserved => exact fun _ => rfl
  | register _ path identifier ih => exact ih.register path identifier
  | registerDerived _ path ih => exact ih.registerDerived path
  | addChoices _ path values ih => exact ih.modify path fun _ => rfl
  | registerChoice _ path value code ih => exact ih.modify path fun _ => rfl

/-- However a registry came about from the empty one: a name finds the only field that has it and is
ambiguous if several have it; the fields stand under distinct paths in the order in which they were
declared; and what is declared later leaves their paths, names and identifiers as they are. -/
theorem performAll_empty_names (ops : List Operation) :
    let r := (empty.performAll ops).2
    (∀ name e, r.byName? name = some e ↔
        e ∈ r.entries ∧ e.name = name ∧ ∀ d ∈ r.entries, d.name = name → d = e) ∧
      (∀ name, r.isAmbiguous name = true ↔ 2 ≤ r.entries.countP (·.name = name)) ∧
      r.entries.map Entry.bare = (empty.performAll ops).1.flatMap declared ∧
      (r.entries.map Entry.path).Nodup ∧
      ∀ later, r.entries.map Entry.bare <+: (r.performAll later).2.entries.map Entry.bare := by
  have built := built_empty.performAll ops
  have indexed := built.indexed
  have sound := built.sound
  refine ⟨fun name e => indexed.byName?_eq_some_iff sound, indexed.isAmbiguous_iff,
    entries_performAll empty ops, sound.distinct, fun later => ?_⟩
  rw [entries_performAll _ later]
  exact List.prefix_append _ _

end FormLogic.Field.Registry
