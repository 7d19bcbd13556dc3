import FormLogic.Proofs.Registration
import FormLogic.Proofs.Resolving

/-!
Where a path leads. A field with an absolute path is what every path to it stands for, however it is
spelled and whatever field owns the expression, because the context node itself is found by the
path that relative paths start from. That path is the owner's own one for an owner that is declared;
an owner that is not declared is taken for the one field that has its last name, if there is one.
-/
namespace FormLogic.Field

open Text

section Segments

theorem notMem_of_mem_splitOn {t segment : Text} {c : Char} (member : segment ∈ t.splitOn c) :
    c ∉ segment := by
  induction t generalizing segment with
  | nil =>
    rw [List.splitOn_nil, List.mem_singleton] at member
    rw [member]
    exact List.not_mem_nil
  | cons d rest ih =>
    rw [List.splitOn_cons_eq_if_modifyHead] at member
    split at member
    · rcases List.mem_cons.1 member with rfl | member
      · exact List.not_mem_nil
      · exact ih member
    · next other =>
      cases parts : rest.splitOn c with
      | nil => exact absurd parts (List.splitOn_ne_nil c rest)
      | cons first others =>
        rw [parts, List.modifyHead_cons] at member
        rcases List.mem_cons.1 member with rfl | member
        · intro inside
          rcases List.mem_cons.1 inside with same | inside
          · exact other (by simp [same])
          · exact ih (by rw [parts]; exact List.mem_cons_self) inside
        · exact ih (by rw [parts]; exact List.mem_cons_of_mem first member)

theorem of_mem_segments {t segment : Text} (member : segment ∈ segments t) :
    segment ≠ [] ∧ '/' ∉ segment := by
  obtain ⟨member, visible⟩ := List.mem_filter.1 member
  exact ⟨by simpa using visible, notMem_of_mem_splitOn member⟩

theorem segments_slash (t : Text) : segments ('/' :: t) = segments t := by
  rw [segments, List.splitOn_cons_eq_if_modifyHead, if_pos (by simp),
    List.filter_cons_of_neg (by simp)]
  rfl

theorem segments_joinSegments {ss : List Text} (separate : ∀ s ∈ ss, s ≠ [] ∧ '/' ∉ s) :
    segments (joinSegments ss) = ss := by
  cases ss with
  | nil => rfl
  | cons s rest =>
    rw [segments, joinSegments,
      List.splitOn_intercalate '/' (fun l member => (separate l member).2) (List.cons_ne_nil s rest)]
    exact List.filter_eq_self.2 fun l member => by simpa using (separate l member).1

theorem segments_absolutePath {ss : List Text} (separate : ∀ s ∈ ss, s ≠ [] ∧ '/' ∉ s) :
    segments (absolutePath ss) = ss := by
  rw [absolutePath, segments_slash, segments_joinSegments separate]

theorem joinSegments_cons (s t : Text) (rest : List Text) :
    joinSegments (s :: t :: rest) = s ++ '/' :: joinSegments (t :: rest) := by
  simp [joinSegments, List.intercalate]

theorem head?_joinSegments_cons {s : Text} (nonempty : s ≠ []) (rest : List Text) :
    (joinSegments (s :: rest)).head? = s.head? := by
  cases rest with
  | nil => simp [joinSegments]
  | cons t rest => rw [joinSegments_cons, List.head?_append, List.head?_eq_some_head nonempty]; rfl

theorem head?_joinSegments {ss : List Text} (separate : ∀ s ∈ ss, s ≠ [] ∧ '/' ∉ s) :
    (joinSegments ss).head? ≠ some '/' := by
  match ss with
  | [] => simp [joinSegments]
  | s :: rest =>
    obtain ⟨nonempty, fresh⟩ := separate s List.mem_cons_self
    rw [head?_joinSegments_cons nonempty]
    exact fun first => fresh (List.mem_of_head? first)

/-- A path whose last segment does not end in white space does not either. -/
theorem last_joinSegments {ss : List Text}
    (visible : ∀ s ∈ ss.getLast?, ∀ c ∈ s.getLast?, isBlank c = false) :
    ∀ c ∈ (joinSegments ss).getLast?, isBlank c = false := by
  match ss with
  | [] => simp [joinSegments]
  | [s] => simpa [joinSegments] using visible s
  | s :: t :: rest =>
    intro c last
    rw [joinSegments_cons, Option.mem_def, List.getLast?_append, List.getLast?_cons] at last
    rw [Option.some_or, Option.some.injEq] at last
    have inner := @last_joinSegments (t :: rest) fun u member =>
      visible u (by rw [List.getLast?_cons_cons]; exact member)
    cases tail : (joinSegments (t :: rest)).getLast? with
    | none => rw [tail] at last; rw [← last]; decide
    | some d => rw [tail] at last; exact inner c (last ▸ tail)

theorem trimmed_absolutePath {ss : List Text} (trimmed : ∀ s ∈ ss.getLast?, trim s = s) :
    Trimmed (absolutePath ss) := by
  have visible := last_joinSegments fun s member c last =>
    (trimmed_trim s).last c (by rw [trimmed s member]; exact last)
  constructor
  · rintro c ⟨⟩
    decide
  · intro c last
    rw [absolutePath, Option.mem_def, List.getLast?_cons, Option.some.injEq] at last
    cases tail : (joinSegments ss).getLast? with
    | none => rw [tail] at last; rw [← last]; decide
    | some d => rw [tail] at last; exact visible c (last ▸ tail)

/-- A path is its own normal form if its segments are separate and the last one is trimmed. -/
theorem normalPath_absolutePath {ss : List Text} (separate : ∀ s ∈ ss, s ≠ [] ∧ '/' ∉ s)
    (trimmed : ∀ s ∈ ss.getLast?, trim s = s) : normalPath (absolutePath ss) = absolutePath ss := by
  have slash : (absolutePath ss).contains '/' = true := by simp [absolutePath]
  have head : (absolutePath ss).head? = some '/' := rfl
  rw [normalPath, trim_of_trimmed (trimmed_absolutePath trimmed), if_pos slash, if_pos head,
    segments_absolutePath separate]

end Segments

/-- An absolute path is in normal form if its segments are all there is to it. -/
def Rooted (path : Text) : Prop := path = absolutePath (segments path)

theorem rooted_absolutePath {ss : List Text} (separate : ∀ s ∈ ss, s ≠ [] ∧ '/' ∉ s) :
    Rooted (absolutePath ss) := by
  rw [Rooted, segments_absolutePath separate]

/-- Normal forms of declared paths that are absolute. -/
theorem rooted_normalPath {path : Text} (absolute : (normalPath path).head? = some '/') :
    Rooted (normalPath path) := by
  unfold normalPath at absolute ⊢
  dsimp only at absolute ⊢
  split
  · next slash =>
    rw [if_pos slash] at absolute
    split
    · exact rooted_absolutePath fun s => of_mem_segments
    · next relative =>
      rw [if_neg relative] at absolute
      exact absurd absolute (head?_joinSegments fun s => of_mem_segments)
  · next noSlash =>
    rw [if_neg noSlash] at absolute
    exact absurd (by simpa using List.mem_of_head? absolute) noSlash

theorem head?_normalPath {path : Text} (absolute : (trim path).head? = some '/') :
    (normalPath path).head? = some '/' := by
  have slash : (trim path).contains '/' = true := by simpa using List.mem_of_head? absolute
  rw [normalPath, if_pos slash, if_pos absolute]
  rfl

/-- An absolute path with names for segments: none is a dot segment or has white space around it. -/
structure Direct (path : Text) : Prop where
  absolute : path.head? = some '/'
  names : ∀ s ∈ segments path, s ≠ ['.'] ∧ s ≠ ['.', '.'] ∧ trim s = s

namespace Direct

variable {path : Text}

theorem last (direct : Direct path) : ∀ s ∈ (segments path).getLast?, trim s = s :=
  fun s last => (direct.names s (List.mem_of_getLast? last)).2.2

theorem trim_eq (direct : Direct path) (rooted : Rooted path) : trim path = path := by
  have trimmed := trimmed_absolutePath direct.last
  rw [← rooted] at trimmed
  exact trim_of_trimmed trimmed

theorem normalPath_eq (direct : Direct path) (rooted : Rooted path) : normalPath path = path := by
  have whole := normalPath_absolutePath (fun s => of_mem_segments) direct.last
  rwa [← rooted] at whole

theorem parse_eq (direct : Direct path) (rooted : Rooted path) :
    Path.parse path = ⟨true, (segments path).map .child⟩ := by
  obtain ⟨rest, rfl⟩ : ∃ rest, path = '/' :: rest := ⟨_, rooted⟩
  have trimmed : (rest.splitOn '/').map trim = rest.splitOn '/' := by
    conv => rhs; rw [← List.map_id (rest.splitOn '/')]
    refine List.map_congr_left fun s member => ?_
    by_cases blank : s = []
    · rw [blank]
      rfl
    · refine (direct.names s ?_).2.2
      rw [segments_slash]
      exact List.mem_filter.2 ⟨member, by simpa using blank⟩
  have steps : Path.stepsOf rest = (segments ('/' :: rest)).map .child := by
    rw [Path.stepsOf, trimmed, segments_slash]
    refine List.map_congr_left fun s member => ?_
    obtain ⟨single, double, _⟩ := direct.names s (by rw [segments_slash]; exact member)
    rw [Step.ofSegment, if_neg single, if_neg double]
  rw [Path.parse, direct.trim_eq rooted, ← steps]
  rfl

end Direct

namespace Path

theorem foldlM_current {steps : List Step} (current : ∀ s ∈ steps, s = .current)
    (node : List Text) : steps.foldlM Step.apply node = some node := by
  induction steps with
  | nil => rfl
  | cons s rest ih =>
    rw [List.foldlM_cons, current s List.mem_cons_self]
    exact ih fun t member => current t (List.mem_cons_of_mem s member)

theorem foldlM_child (names node : List Text) :
    (names.map Step.child).foldlM Step.apply node = some (node ++ names) := by
  induction names generalizing node with
  | nil => rw [List.append_nil]; rfl
  | cons name rest ih =>
    rw [List.map_cons, List.foldlM_cons, Step.apply]
    exact (ih (node ++ [name])).trans (by rw [List.append_assoc]; rfl)

/-- A path that points at the context node leads there, where it leads anywhere. -/
theorem evaluate_of_isSelf {p : Path} (self : p.isSelf = true) {context path : Text}
    (leads : p.evaluate (some context) = some path) : path = absolutePath (segments context) := by
  simp only [isSelf, Bool.and_eq_true, Bool.not_eq_true', List.all_eq_true, beq_iff_eq] at self
  obtain ⟨⟨relative, _⟩, current⟩ := self
  unfold evaluate origin? at leads
  rw [relative] at leads
  obtain ⟨origin, start, leads⟩ := Option.bind_eq_some_iff.1 leads
  rw [foldlM_current current] at leads
  rw [if_neg (by decide)] at start
  split at start
  · next rest same =>
    cases same
    cases start
    cases leads
    rw [segments_slash]
  · cases start

/-- An absolute path leads to what it says, wherever it is evaluated. -/
theorem evaluate_direct {path : Text} (direct : Direct path) (rooted : Rooted path)
    (context : Option Text) : (parse path).evaluate context = some path := by
  have steps := foldlM_child (segments path) []
  rw [List.nil_append] at steps
  rw [direct.parse_eq rooted, evaluate, show origin? ⟨true, _⟩ context = some [] from rfl,
    Option.bind_eq_bind, Option.bind_some, steps]
  exact congrArg some rooted.symm

end Path

namespace Registry

variable {r : Registry}

theorem resolve_of_path {token : Text} (isPath : braceName? (trim token) = none)
    (owner : Option Text) :
    r.resolve token owner =
      if (Path.parse (trim token)).isSelf then r.resolveSelf (trim token) owner
      else r.resolvePath (trim token) (Path.parse (trim token)) owner := by
  rw [resolve, isPath]

theorem parse_trim (token : Text) : Path.parse (trim token) = Path.parse token := by
  rw [Path.parse, Path.parse, trim_trim]

theorem Sound.rooted (sound : Sound r) {e : Entry} (member : e ∈ r.entries)
    (absolute : e.path.head? = some '/') : Rooted e.path := by
  obtain ⟨path, normal⟩ := sound.normal e member
  rw [normal] at absolute ⊢
  exact rooted_normalPath absolute

theorem resolvePath_of_get? {token path : Text} {p : Path} {owner : Option Text} {e : Entry}
    (leads : p.evaluate (owner.bind r.ownerPath?) = some path) (found : r.get? path = some e) :
    r.resolvePath token p owner = .resolved e := by
  rw [resolvePath, leads, Option.bind_some, found]

/-- An owner's path is an absolute path in normal form. -/
theorem rooted_ownerPath? (sound : Sound r) {owner context : Text}
    (owned : r.ownerPath? owner = some context) : Rooted context := by
  have written (same : (if (trim owner).head? = some '/' then some (normalPath owner) else none) =
      some context) : Rooted context := by
    split at same
    · next absolute =>
      rw [← Option.some.inj same]
      exact rooted_normalPath (head?_normalPath absolute)
    · cases same
  unfold ownerPath? at owned
  dsimp only at owned
  split at owned
  · next e found =>
    split at owned
    · next absolute =>
      rw [← Option.some.inj owned]
      exact sound.rooted (mem_of_lookup? found) absolute
    · exact written owned
  · exact written owned

/-- The field that an owner's path is the path of is the field that the owner is found as. -/
theorem lookup?_of_ownerPath? (sound : Sound r) {owner : Text} {e : Entry} (member : e ∈ r.entries)
    (owned : r.ownerPath? owner = some e.path) : r.lookup? owner = some e := by
  have written (same : (if (trim owner).head? = some '/' then some (normalPath owner) else none) =
      some e.path) : r.lookup? owner = some e := by
    split at same
    · rw [lookup?, get?, Option.some.inj same, sound.at?_path member]
      rfl
    · cases same
  unfold ownerPath? at owned
  dsimp only at owned
  split at owned
  · next d found =>
    split at owned
    · have place := sound.at?_path (mem_of_lookup? found)
      rw [Option.some.inj owned, sound.at?_path member] at place
      rw [found, place]
    · exact written owned
  · exact written owned

theorem Sound.get?_path (sound : Sound r) {e : Entry} (member : e ∈ r.entries)
    (direct : Direct e.path) : r.get? e.path = some e := by
  rw [get?, direct.normalPath_eq (sound.rooted member direct.absolute), sound.at?_path member]

/-- A field with an absolute path is what its path stands for in the expressions of any owner. -/
theorem resolve_direct (sound : Sound r) {e : Entry} (member : e ∈ r.entries)
    (direct : Direct e.path) (owner : Option Text) : r.resolve e.path owner = .resolved e := by
  have rooted := sound.rooted member direct.absolute
  have trimmed := direct.trim_eq rooted
  rw [resolve_of_path (by
      rw [trimmed]
      exact braceName?_eq_none (by rw [direct.absolute]; decide)), trimmed,
    direct.parse_eq rooted]
  refine (if_neg (by simp [Path.isSelf])).trans ?_
  rw [← direct.parse_eq rooted]
  exact resolvePath_of_get? (Path.evaluate_direct direct rooted _) (sound.get?_path member direct)

/-- A field with an absolute path is what each path that leads to it stands for, as its own path does
in the expressions of any owner. -/
theorem resolve_of_evaluate (built : r.Built) {e : Entry} (member : e ∈ r.entries)
    (direct : Direct e.path) {owner context token : Text}
    (owned : r.ownerPath? owner = some context) (isPath : braceName? (trim token) = none)
    (leads : (Path.parse token).evaluate (some context) = some e.path) :
    r.resolve token (some owner) = .resolved e ∧
      ∀ other, r.resolve e.path other = .resolved e := by
  have sound := built.sound
  refine ⟨?_, resolve_direct sound member direct⟩
  rw [resolve_of_path isPath, parse_trim]
  split
  · next self =>
    -- The context node is the field itself, so the owner is found as that field.
    have same : context = e.path :=
      (rooted_ownerPath? sound owned).trans (Path.evaluate_of_isSelf self leads).symm
    rw [same] at owned
    rw [resolveSelf, lookup?_of_ownerPath? sound member owned]
    rfl
  · exact resolvePath_of_get? (by rw [Option.bind_some, owned]; exact leads)
      (sound.get?_path member direct)

/-- Two groups with a question `q1` each; the first one has a field `x` too. -/
def twoGroups : Registry :=
  (declareAll empty
    (["/data/g1/x".toList, "/data/g1/q1".toList, "/data/g2/q1".toList].map
      fun path => ⟨path, none, []⟩)).2

theorem built_twoGroups : Built twoGroups := (Built.start []).declareAll _

/-- A question whose bare name is ambiguous, reached from the other group. -/
theorem resolve_of_evaluate_ambiguous :
    twoGroups.isAmbiguous "q1".toList = true ∧
      ∃ e ∈ twoGroups.entries, e.path = "/data/g2/q1".toList ∧
        twoGroups.resolve "current()/../../g2/q1".toList (some "x".toList) = .resolved e ∧
        ∀ other, twoGroups.resolve e.path other = .resolved e := by
  refine ⟨by decide +kernel, ⟨"/data/g2/q1".toList, "q1".toList, "q11".toList, []⟩,
    by decide +kernel, rfl, ?_⟩
  have owned : twoGroups.ownerPath? "x".toList = some "/data/g1/x".toList := by decide +kernel
  exact resolve_of_evaluate built_twoGroups (by decide +kernel)
    ⟨by decide +kernel, by decide +kernel⟩ owned (by decide +kernel) (by decide +kernel)

/-- Relative paths start from an absolute owner's own path unless the owner is found as another
field, by its last name. -/
theorem ownerPath?_eq_iff {owner : Text} (absolute : (trim owner).head? = some '/') :
    r.ownerPath? owner = some (normalPath owner) ↔
      ∀ e, r.lookup? owner = some e → e.path.head? = some '/' → e.path = normalPath owner := by
  rw [ownerPath?, if_pos absolute]
  cases found : r.lookup? owner with
  | none => simp
  | some e =>
    dsimp only
    split
    · next rooted =>
      constructor
      · intro same d one _
        rw [← Option.some.inj one]
        exact Option.some.inj same
      · exact fun own => congrArg some (own e rfl rooted)
    · next relative =>
      refine ⟨fun _ d one rooted => ?_, fun _ => rfl⟩
      rw [← Option.some.inj one] at rooted
      exact absurd rooted relative

/-- A relative path is evaluated from the path of an absolute owner, declared or not, that is not
found as another field. -/
theorem resolve_relative {owner token path : Text} {e : Entry}
    (absolute : (trim owner).head? = some '/')
    (own : ∀ d, r.lookup? owner = some d → d.path.head? = some '/' → d.path = normalPath owner)
    (isPath : braceName? (trim token) = none) (steps : (Path.parse token).isSelf = false)
    (leads : (Path.parse token).evaluate (some (normalPath owner)) = some path)
    (found : r.get? path = some e) : r.resolve token (some owner) = .resolved e := by
  rw [resolve_of_path isPath, parse_trim, if_neg (by rw [steps]; exact Bool.false_ne_true)]
  refine resolvePath_of_get? ?_ found
  rw [Option.bind_some, (ownerPath?_eq_iff absolute).2 own]
  exact leads

theorem resolve_relative_undeclared :
    twoGroups.get? "/data/g2/y".toList = none ∧
      ∃ e, e.path = "/data/g2/q1".toList ∧
        twoGroups.resolve "../q1".toList (some "/data/g2/y".toList) = .resolved e := by
  refine ⟨by decide +kernel, ⟨"/data/g2/q1".toList, "q1".toList, "q11".toList, []⟩, rfl, ?_⟩
  have unknown : twoGroups.lookup? "/data/g2/y".toList = none := by decide +kernel
  have leads : (Path.parse "../q1".toList).evaluate (some (normalPath "/data/g2/y".toList)) =
      some "/data/g2/q1".toList := by decide +kernel
  exact resolve_relative (by decide +kernel) (fun d found => by rw [unknown] at found; cases found)
    (by decide +kernel) (by decide +kernel) leads (by decide +kernel)

/-- An owner in the second group that is not declared is taken for the field `x` of the first one,
and its relative paths pick the first group's fields. -/
theorem resolve_relative_namesake :
    twoGroups.get? "/data/g2/x".toList = none ∧
      (Path.parse "../q1".toList).evaluate (some (normalPath "/data/g2/x".toList)) =
        some "/data/g2/q1".toList ∧
      (twoGroups.get? "/data/g2/q1".toList).map Entry.path = some "/data/g2/q1".toList ∧
      (twoGroups.resolve "../q1".toList (some "/data/g2/x".toList)).found?.map Entry.path =
        some "/data/g1/q1".toList := by
  decide +kernel

end Registry

end FormLogic.Field
