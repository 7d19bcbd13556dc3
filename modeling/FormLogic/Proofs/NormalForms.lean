import FormLogic.Proofs.Histories
import FormLogic.Proofs.Pointing

/-!
Normal forms of declared paths. White space is taken off a path before its empty segments are, so a
normal form may end in white space that stood before the last slash, and such a one is not its own normal
form. All others are. A field is found by each path whose normal form is the field's path; so it is found
by its own path, and cannot be declared under it again, unless that path ends in white space.
-/
namespace FormLogic.Field

open Text

/-- A path is a bare name, an absolute path or a relative path with more than one segment. -/
theorem normalPath_cases (path : Text) :
    (normalPath path = trim path ∧ '/' ∉ trim path) ∨
      (normalPath path = absolutePath (segments (trim path)) ∧ (trim path).head? = some '/') ∨
        normalPath path = joinSegments (segments (trim path)) ∧ (trim path).head? ≠ some '/' ∧
          '/' ∈ trim path := by
  unfold normalPath
  dsimp only
  split
  · next slash =>
    have member : '/' ∈ trim path := by simpa using slash
    split
    · next absolute => exact Or.inr (Or.inl ⟨rfl, absolute⟩)
    · next relative => exact Or.inr (Or.inr ⟨rfl, relative, member⟩)
  · next undivided => exact Or.inl ⟨rfl, by simpa using undivided⟩

/-- A text that does not begin with a slash begins with its first segment. -/
theorem segments_of_head {c : Char} (other : c ≠ '/') (rest : Text) :
    ∃ first others, segments (c :: rest) = (c :: first) :: others := by
  obtain ⟨first, others, parts⟩ := List.exists_cons_of_ne_nil (List.splitOn_ne_nil '/' rest)
  refine ⟨first, others.filter (· ≠ []), ?_⟩
  rw [segments, List.splitOn_cons_eq_if_modifyHead, if_neg (by simpa using other), parts,
    List.modifyHead_cons, List.filter_cons_of_pos (by simp)]

/-- A normal form begins as the path does. -/
theorem head?_normalPath_eq (path : Text) : (normalPath path).head? = (trim path).head? := by
  rcases normalPath_cases path with ⟨same, _⟩ | ⟨same, absolute⟩ | ⟨same, relative, slash⟩
  · rw [same]
  · rw [same, absolute]
    rfl
  · obtain ⟨c, rest, whole⟩ := List.exists_cons_of_ne_nil (List.ne_nil_of_mem slash)
    rw [whole] at relative
    obtain ⟨first, others, parts⟩ := @segments_of_head c (fun same => relative (by rw [same]; rfl)) rest
    rw [same, whole, parts, head?_joinSegments_cons (List.cons_ne_nil c first)]
    rfl

/-- The normal form of a path is empty only where the path is blank. -/
theorem normalPath_eq_nil_iff (path : Text) : normalPath path = [] ↔ trim path = [] := by
  rw [← List.head?_eq_none_iff, head?_normalPath_eq, List.head?_eq_none_iff]

theorem joinSegments_filter_sublist (p : Text → Bool) (ss : List Text) :
    (joinSegments (ss.filter p)).Sublist (joinSegments ss) := by
  match ss with
  | [] => exact List.Sublist.refl _
  | [s] =>
    rw [List.filter_singleton]
    cases p s with
    | true => exact List.Sublist.refl _
    | false => exact List.nil_sublist _
  | s :: t :: rest =>
    have later := joinSegments_filter_sublist p (t :: rest)
    rw [joinSegments_cons, List.filter_cons]
    split
    · cases kept : (t :: rest).filter p with
      | nil => simp [joinSegments]
      | cons u us =>
        rw [joinSegments_cons, ← kept]
        exact (later.cons_cons '/').append_left s
    · exact (later.cons '/').trans (List.sublist_append_right s _)

/-- Nothing is added in a normal form. -/
theorem normalPath_sublist (path : Text) : (normalPath path).Sublist (trim path) := by
  have joined (t : Text) : (joinSegments (segments t)).Sublist t := by
    have inside := joinSegments_filter_sublist (· ≠ []) (t.splitOn '/')
    have whole : joinSegments (t.splitOn '/') = t := List.intercalate_splitOn '/'
    rwa [whole] at inside
  rcases normalPath_cases path with ⟨same, _⟩ | ⟨same, absolute⟩ | ⟨same, _⟩
  · rw [same]
  · obtain ⟨rest, whole⟩ := List.head?_eq_some_iff.1 absolute
    rw [same, whole, absolutePath, segments_slash]
    exact (joined rest).cons_cons '/'
  · rw [same]
    exact joined _

/-- A normal form is its own normal form exactly if it does not end in white space. -/
theorem normalPath_normalPath_iff (path : Text) :
    normalPath (normalPath path) = normalPath path ↔
      ∀ c ∈ (normalPath path).getLast?, isBlank c = false := by
  constructor
  · intro fixed
    have inside := normalPath_sublist (normalPath path)
    rw [fixed] at inside
    have same := inside.antisymm (trim_sublist _)
    rw [same]
    exact (trimmed_trim _).last
  · intro visible
    have trimmed : trim (normalPath path) = normalPath path := by
      refine trim_of_trimmed ⟨?_, visible⟩
      rw [head?_normalPath_eq]
      exact (trimmed_trim path).head
    have separate : ∀ s ∈ segments (trim path), s ≠ [] ∧ '/' ∉ s := fun s => of_mem_segments
    rw [normalPath, trimmed]
    rcases normalPath_cases path with ⟨same, undivided⟩ | ⟨same, _⟩ | ⟨same, _⟩
    · rw [same, if_neg (by simpa using undivided)]
    · have first : (absolutePath (segments (trim path))).head? = some '/' := rfl
      rw [same, if_pos (by simp [absolutePath]), if_pos first, segments_absolutePath separate]
    · rw [same, if_neg (head?_joinSegments separate), segments_joinSegments separate, ite_self]

namespace Registry

variable {r : Registry}

/-- A field is found by the paths that have its path for their normal form. -/
theorem Sound.get?_eq_some_iff (sound : Sound r) {e : Entry} (member : e ∈ r.entries) (path : Text) :
    r.get? path = some e ↔ normalPath path = e.path := by
  constructor
  · exact fun found => (at?_eq_some found).2.symm
  · intro same
    rw [get?, same, sound.at?_path member]

/-- A path that has a field for its normal form cannot be declared again. -/
theorem Built.newKey_path (built : r.Built) {e : Entry} (member : e ∈ r.entries) {path : Text}
    (same : normalPath path = e.path) : r.newKey path = .error (.duplicate path e.path) := by
  have visible : e.path ≠ [] := fun nothing =>
    built.path_ne_nil (nothing ▸ List.mem_map_of_mem member)
  have taken : (r.at? e.path).isSome = true := by rw [built.sound.at?_path member]; rfl
  rw [newKey, same, if_neg visible, if_pos taken]

/-- The normal form of a path is its own normal form exactly if it does not end in white space. So
whatever operations build a registry, each of its fields is found by the field's own path exactly if that
path does not end in white space; and then the field is found by the path as a key, too, and a
declaration of the path is refused as a duplicate. -/
theorem found_by_own_path (path : Text) :
    (normalPath (normalPath path) = normalPath path ↔
        ∀ c ∈ (normalPath path).getLast?, isBlank c = false) ∧
      ∀ r : Registry, r.Built → ∀ e ∈ r.entries,
        (r.get? e.path = some e ↔ ∀ c ∈ e.path.getLast?, isBlank c = false) ∧
          ((∀ c ∈ e.path.getLast?, isBlank c = false) →
            r.lookup? e.path = some e ∧
              (∀ identifier, (r.register e.path identifier).1 = .error (.duplicate e.path e.path)) ∧
              (r.registerDerived e.path).1 = .error (.duplicate e.path e.path)) := by
  refine ⟨normalPath_normalPath_iff path, fun r built e member => ?_⟩
  obtain ⟨path, normal⟩ := built.sound.normal e member
  have fixed : normalPath e.path = e.path ↔ ∀ c ∈ e.path.getLast?, isBlank c = false := by
    rw [normal]
    exact normalPath_normalPath_iff path
  have found := built.sound.get?_eq_some_iff member e.path
  refine ⟨found.trans fixed, fun visible => ?_⟩
  have same := fixed.2 visible
  have refused := built.newKey_path member same
  refine ⟨?_, fun identifier => ?_, ?_⟩
  · rw [lookup?, found.2 same]
    rfl
  · rw [register_of_newKey_error refused]
  · rw [registerDerived_of_newKey_error refused]

/-- A field whose path was declared with white space around it and within it. -/
def spacedField : Registry := (empty.registerDerived " /data// a b/ ".toList).2

theorem found_by_own_path_spaced :
    normalPath " /data// a b/ ".toList = "/data/ a b".toList ∧
      normalPath "/data/ a b".toList = "/data/ a b".toList ∧
      ∃ e ∈ spacedField.entries, e.path = "/data/ a b".toList ∧
        spacedField.get? e.path = some e ∧ spacedField.lookup? e.path = some e ∧
        (spacedField.register e.path "B".toList).1 = .error (.duplicate e.path e.path) := by
  have normal : normalPath " /data// a b/ ".toList = "/data/ a b".toList := by decide +kernel
  have visible : ∀ c ∈ ("/data/ a b".toList).getLast?, isBlank c = false := by
    rintro c ⟨⟩
    decide
  obtain ⟨form, fields⟩ := found_by_own_path " /data// a b/ ".toList
  have fixed := form.2 (by rwa [normal])
  rw [normal] at fixed
  obtain ⟨get, rest⟩ := fields spacedField (built_empty.registerDerived _)
    ⟨"/data/ a b".toList, " a b".toList, "ab".toList, []⟩ (by decide +kernel)
  obtain ⟨lookup, register, _⟩ := rest visible
  exact ⟨normal, fixed, _, by decide +kernel, rfl, get.2 visible, lookup, register _⟩

/-- A slash behind white space at the end of a declared path leaves the field under a path that does not
find it, and under which a second field is declared. -/
theorem own_path_ending_in_space :
    normalPath "/data/a /".toList = "/data/a ".toList ∧
      normalPath "/data/a ".toList = "/data/a".toList ∧
      (let r := (empty.registerDerived "/data/a /".toList).2
      r.entries.map Entry.path = ["/data/a ".toList] ∧
        r.get? "/data/a ".toList = none ∧ r.lookup? "/data/a ".toList = none ∧
        (r.registerDerived "/data/a ".toList).1 =
          .ok ⟨"/data/a".toList, "a".toList, "a1".toList, []⟩) := by
  decide +kernel

end Registry

end FormLogic.Field
