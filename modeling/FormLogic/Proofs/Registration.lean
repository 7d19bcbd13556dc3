import FormLogic.Field.Resolution
import Mathlib.Data.List.Nodup

/-!
Registries as the operations build them. Whatever is declared and added in whatever order, no two
fields share a path, every path is in normal form and every field is named for its path; and a name
that counts as unique belongs to one field only. So a field is found by its path, and a field that
is found by a name has that name.
-/
namespace FormLogic.Field

open Text

namespace Registry

/-- The registries that the operations build, starting with some identifiers reserved. -/
inductive Built : Registry → Prop where
  | start (reserved : List Text) :
    Built { empty with identifiers := empty.identifiers.reserveAll reserved }
  | register {r : Registry} (built : Built r) (path identifier : Text) :
    Built (r.register path identifier).2
  | registerDerived {r : Registry} (built : Built r) (path : Text) :
    Built (r.registerDerived path).2
  | addChoices {r : Registry} (built : Built r) (path : Text) (values : List Text) :
    Built (r.addChoices path values).2
  | registerChoice {r : Registry} (built : Built r) (path value code : Text) :
    Built (r.registerChoice path value code).2

theorem Built.declare {r : Registry} (built : Built r) (d : Declaration) :
    Built (r.declare d).2 := by
  unfold Registry.declare
  cases d.identifier with
  | some identifier =>
    dsimp only
    split
    · exact built.register d.path identifier
    · exact (built.register d.path identifier).addChoices d.path d.choices
  | none =>
    dsimp only
    split
    · exact built.registerDerived d.path
    · exact (built.registerDerived d.path).addChoices d.path d.choices

theorem Built.declareAll {r : Registry} (built : Built r) (ds : List Declaration) :
    Built (r.declareAll ds).2 := by
  induction ds generalizing r with
  | nil => exact built
  | cons d rest ih =>
    have later := ih (built.declare d)
    rw [Registry.declareAll]
    dsimp only
    split <;> exact later

/-- A registry made of declarations is one that the operations build. -/
theorem built_ofDeclarations {ds : List Declaration} {r : Registry}
    (made : ofDeclarations ds = .ok r) : Built r := by
  unfold ofDeclarations at made
  have all := (Built.start (ds.filterMap Declaration.identifier)).declareAll ds
  dsimp only at made
  split at made
  · next whole =>
    rw [whole] at all
    exact Except.ok.inj made ▸ all
  · cases made

structure Sound (r : Registry) : Prop where
  distinct : (r.entries.map Entry.path).Nodup
  normal : ∀ e ∈ r.entries, ∃ path, e.path = normalPath path
  named : ∀ e ∈ r.entries, e.name = lastSegment e.path
  listed : ∀ e ∈ r.entries, (r.names.lookup e.name).isSome = true
  unique : ∀ name path, r.names.lookup name = some (.unique path) →
    lastSegment path = name ∧ ∀ e ∈ r.entries, e.name = name → e.path = path

theorem lookup_mark (names : List (Text × NameUse)) (name n : Text) :
    (names.map fun use => if use.1 = name then (name, NameUse.ambiguous) else use).lookup n =
      if n = name then (names.lookup n).map fun _ => .ambiguous else names.lookup n := by
  induction names with
  | nil => simp
  | cons use rest ih =>
    obtain ⟨key, place⟩ := use
    rw [List.map_cons]
    dsimp only
    by_cases marked : key = name
    · subst marked
      rw [if_pos rfl, List.lookup_cons, List.lookup_cons, ih]
      by_cases same : n = key
      · simp [same]
      · simp [same, beq_eq_false_iff_ne.2 same]
    · rw [if_neg marked, List.lookup_cons, List.lookup_cons, ih]
      by_cases same : n = key
      · simp [same, marked]
      · simp [beq_eq_false_iff_ne.2 same]

/-- A name that is added counts as unique if it is new, and as ambiguous if it is not; no other name
is touched. -/
theorem lookup_addName (names : List (Text × NameUse)) (name path n : Text) :
    (addName names name path).lookup n =
      if n = name then
        some (if (names.lookup name).isSome then .ambiguous else .unique path)
      else names.lookup n := by
  unfold addName
  by_cases known : (names.lookup name).isSome = true
  · rw [if_pos known, lookup_mark]
    obtain ⟨use, found⟩ := Option.isSome_iff_exists.1 known
    by_cases same : n = name
    · simp [same, found]
    · simp [same]
  · rw [if_neg known, List.lookup_append]
    rw [Bool.not_eq_true, Option.isSome_eq_false_iff, Option.isNone_iff_eq_none] at known
    by_cases same : n = name
    · simp [same, known]
    · simp [same, List.lookup_cons, beq_eq_false_iff_ne.2 same]

theorem at?_eq_some {r : Registry} {key : Text} {e : Entry} (found : r.at? key = some e) :
    e ∈ r.entries ∧ e.path = key :=
  ⟨List.mem_of_find?_eq_some found, by simpa using List.find?_some found⟩

theorem newKey_eq_ok {r : Registry} {path key : Text} (fresh : r.newKey path = .ok key) :
    key = normalPath path ∧ ∀ e ∈ r.entries, e.path ≠ key := by
  unfold newKey at fresh
  dsimp only at fresh
  split at fresh
  · cases fresh
  · split at fresh
    · cases fresh
    · next absent =>
      cases fresh
      refine ⟨rfl, fun e member same => absent ?_⟩
      exact List.find?_isSome.2 ⟨e, member, by simpa using same⟩

theorem ne_nil_of_newKey {r : Registry} {path key : Text} (fresh : r.newKey path = .ok key) :
    key ≠ [] := by
  unfold newKey at fresh
  dsimp only at fresh
  split at fresh
  · cases fresh
  · next visible =>
    split at fresh
    · cases fresh
    · cases fresh
      exact visible

namespace Sound

variable {r : Registry}

theorem start (pool : Name.Pool) : Sound { empty with identifiers := pool } := by
  constructor <;> simp [empty]

theorem identifiers (sound : Sound r) (pool : Name.Pool) :
    Sound { r with identifiers := pool } :=
  ⟨sound.distinct, sound.normal, sound.named, sound.listed, sound.unique⟩

/-- A field under a new path leaves the registry sound. -/
theorem insert (sound : Sound r) {e : Entry} {path : Text} (normal : e.path = normalPath path)
    (named : e.name = lastSegment e.path) (fresh : ∀ other ∈ r.entries, other.path ≠ e.path) :
    Sound (r.insert e) := by
  have members {d : Entry} (member : d ∈ (r.insert e).entries) : d ∈ r.entries ∨ d = e := by
    simpa [Registry.insert] using member
  refine ⟨?_, ?_, ?_, ?_, ?_⟩
  · rw [Registry.insert, List.map_append, List.nodup_append]
    refine ⟨sound.distinct, List.nodup_singleton _, fun a old b new same => ?_⟩
    obtain ⟨d, member, rfl⟩ := List.mem_map.1 old
    rw [List.map_singleton, List.mem_singleton] at new
    exact fresh d member (same.trans new)
  · intro d member
    rcases members member with old | rfl
    · exact sound.normal d old
    · exact ⟨path, normal⟩
  · intro d member
    rcases members member with old | rfl
    · exact sound.named d old
    · exact named
  · intro d member
    rw [Registry.insert, lookup_addName]
    split
    · rfl
    · next other =>
      rcases members member with old | rfl
      · exact sound.listed d old
      · exact absurd rfl other
  · intro name place found
    rw [Registry.insert, lookup_addName] at found
    split at found
    · next same =>
      split at found
      · cases found
      · next unused =>
        cases found
        refine ⟨(same.trans named).symm, fun d member called => ?_⟩
        rcases members member with old | rfl
        · exact absurd (called.trans same ▸ sound.listed d old) unused
        · rfl
    · next other =>
      obtain ⟨last, only⟩ := sound.unique name place found
      refine ⟨last, fun d member called => ?_⟩
      rcases members member with old | rfl
      · exact only d old called
      · exact absurd called.symm other

/-- A change to a field that keeps its path and name leaves the registry sound. -/
theorem update (sound : Sound r) (key : Text) {f : Entry → Entry} (path : ∀ e, (f e).path = e.path)
    (name : ∀ e, (f e).name = e.name) : Sound (r.update key f) := by
  have members {d : Entry} (member : d ∈ (r.update key f).entries) :
      ∃ e ∈ r.entries, d.path = e.path ∧ d.name = e.name := by
    obtain ⟨e, old, rfl⟩ := List.mem_map.1 member
    refine ⟨e, old, ?_⟩
    split
    · exact ⟨path e, name e⟩
    · exact ⟨rfl, rfl⟩
  refine ⟨?_, ?_, ?_, ?_, ?_⟩
  · have same : (r.update key f).entries.map Entry.path = r.entries.map Entry.path := by
      rw [Registry.update, List.map_map]
      refine List.map_congr_left fun e _ => ?_
      rw [Function.comp_apply]
      split
      · exact path e
      · rfl
    rw [same]
    exact sound.distinct
  · intro d member
    obtain ⟨e, old, samePath, _⟩ := members member
    rw [samePath]
    exact sound.normal e old
  · intro d member
    obtain ⟨e, old, samePath, sameName⟩ := members member
    rw [samePath, sameName]
    exact sound.named e old
  · intro d member
    obtain ⟨e, old, _, sameName⟩ := members member
    rw [sameName]
    exact sound.listed e old
  · intro n place found
    obtain ⟨last, only⟩ := sound.unique n place found
    refine ⟨last, fun d member called => ?_⟩
    obtain ⟨e, old, samePath, sameName⟩ := members member
    rw [samePath]
    exact only e old (sameName ▸ called)

theorem modify (sound : Sound r) (key : Text) {f : Entry → Entry} (path : ∀ e, (f e).path = e.path)
    (name : ∀ e, (f e).name = e.name) : Sound (r.modify key f).2 := by
  unfold Registry.modify
  split
  · exact sound
  · exact sound.update _ path name

theorem register (sound : Sound r) (path identifier : Text) :
    Sound (r.register path identifier).2 := by
  unfold Registry.register
  dsimp only
  split
  · exact sound.identifiers _
  · next key fresh =>
    obtain ⟨normal, absent⟩ := newKey_eq_ok fresh
    exact (sound.identifiers _).insert normal rfl absent

theorem registerDerived (sound : Sound r) (path : Text) : Sound (r.registerDerived path).2 := by
  unfold Registry.registerDerived
  split
  · exact sound
  · next key fresh =>
    obtain ⟨normal, absent⟩ := newKey_eq_ok fresh
    exact (sound.identifiers _).insert normal rfl absent

end Sound

/-- Whatever the operations build is sound. -/
theorem Built.sound {r : Registry} (built : Built r) : Sound r := by
  induction built with
  | start reserved => exact .start _
  | register _ path identifier ih => exact ih.register path identifier
  | registerDerived _ path ih => exact ih.registerDerived path
  | addChoices _ path values ih => exact ih.modify path (fun _ => rfl) fun _ => rfl
  | registerChoice _ path value code ih => exact ih.modify path (fun _ => rfl) fun _ => rfl

namespace Sound

variable {r : Registry}

/-- A field is found by its path. -/
theorem at?_path (sound : Sound r) {e : Entry} (member : e ∈ r.entries) :
    r.at? e.path = some e := by
  have present : (r.at? e.path).isSome = true :=
    List.find?_isSome.2 ⟨e, member, by simp⟩
  obtain ⟨d, found⟩ := Option.isSome_iff_exists.1 present
  obtain ⟨other, same⟩ := at?_eq_some found
  rw [found, List.inj_on_of_nodup_map sound.distinct other member same]

/-- A field that is found by a name has that name, and it is the only one. -/
theorem byName?_eq_some (sound : Sound r) {name : Text} {e : Entry}
    (found : r.byName? name = some e) :
    e.name = name ∧ ∀ d ∈ r.entries, d.name = name → d = e := by
  unfold byName? at found
  split at found
  · next path use =>
    obtain ⟨member, place⟩ := at?_eq_some found
    obtain ⟨last, only⟩ := sound.unique name path use
    refine ⟨by rw [sound.named e member, place, last], fun d other called => ?_⟩
    have same := sound.at?_path other
    rw [only d other called] at same
    exact Option.some.inj (same.symm.trans found)
  · cases found

end Sound

end Registry

end FormLogic.Field
