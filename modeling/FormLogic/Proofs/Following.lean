import FormLogic.Proofs.Pointing

/-!
Paths as they are written. A path is read in one of three ways, by what its text begins with, and its
steps are read between slashes one by one; so a path that is written from the steps of another one has
these steps again, and a path behind a slash adds its steps to those before it. To follow both at once
is to follow the second from where the first one leads, because the segments of a place are read back
from its absolute path.
-/
namespace FormLogic.Field

open Text

/-- A text without slashes that stands before a slash begins before that slash. -/
theorem prefix_of_append_slash {u s t : Text} (undivided : '/' ∉ u) (begins : u <+: s ++ '/' :: t) :
    u <+: s := by
  rcases List.prefix_or_prefix_of_prefix begins (List.prefix_append s _) with inside | ⟨more, rfl⟩
  · exact inside
  · rw [List.prefix_append_right_inj] at begins
    cases more with
    | nil => simp
    | cons c more =>
      obtain ⟨rfl, _⟩ := List.cons_prefix_cons.1 begins
      exact absurd (by simp) undivided

theorem prefix_of_joinSegments {u s : Text} {rest : List Text} (undivided : '/' ∉ u)
    (begins : u <+: joinSegments (s :: rest)) : u <+: s := by
  cases rest with
  | nil => simpa [joinSegments] using begins
  | cons t rest =>
    rw [joinSegments_cons] at begins
    exact prefix_of_append_slash undivided begins

namespace Step

/-- The step stands for one segment of a path, and is read back from it. -/
structure Written (s : Step) : Prop where
  nonempty : s.render ≠ []
  undivided : '/' ∉ s.render
  trimmed : trim s.render = s.render
  read : ofSegment s.render = s

theorem render_ofSegment (segment : Text) : (ofSegment segment).render = segment := by
  unfold ofSegment
  split
  · next dot => exact dot.symm
  · split
    · next dots => exact dots.symm
    · rfl

theorem written_ofSegment {segment : Text} (nonempty : segment ≠ []) (undivided : '/' ∉ segment)
    (trimmed : trim segment = segment) : (ofSegment segment).Written := by
  have same := render_ofSegment segment
  exact ⟨by rwa [same], by rwa [same], by rwa [same], by rw [same]⟩

theorem written_current : Written .current :=
  @written_ofSegment ['.'] (by decide) (by decide) (by decide)

end Step

namespace Path

/-! ### The steps of a text -/

theorem written_of_stepsOf {t : Text} {s : Step} (member : s ∈ stepsOf t) : s.Written := by
  obtain ⟨segment, inside, rfl⟩ := List.mem_map.1 member
  obtain ⟨inside, nonempty⟩ := List.mem_filter.1 inside
  obtain ⟨part, found, rfl⟩ := List.mem_map.1 inside
  exact Step.written_ofSegment (by simpa using nonempty)
    (fun slash => notMem_of_mem_splitOn found (mem_of_mem_trim slash)) (trim_trim part)

theorem stepsOf_append_slash (s t : Text) : stepsOf (s ++ '/' :: t) = stepsOf s ++ stepsOf t := by
  simp only [stepsOf, List.splitOn_append_cons_self, List.map_append, List.filter_append]

theorem stepsOf_undivided {t : Text} (undivided : '/' ∉ t) :
    stepsOf t = if trim t = [] then [] else [Step.ofSegment (trim t)] := by
  rw [stepsOf, List.splitOn_eq_singleton undivided, List.map_singleton, List.filter_singleton]
  by_cases blank : trim t = [] <;> simp [blank]

/-- White space behind a path belongs to its last segment and does not count. -/
theorem stepsOf_append_blank (t : Text) {trail : Text} (blank : Blank trail) :
    stepsOf (t ++ trail) = stepsOf t := by
  have fresh : '/' ∉ trail := fun slash => absurd (blank '/' slash) (by decide)
  by_cases slash : '/' ∈ t
  · obtain ⟨s, rest, whole, _⟩ := List.eq_append_cons_of_mem slash
    have shorter : rest.length < t.length := by rw [whole]; simp; omega
    rw [whole, List.append_assoc, List.cons_append, stepsOf_append_slash, stepsOf_append_slash,
      stepsOf_append_blank rest blank]
  · have same := trim_padded blank_nil blank t
    rw [List.nil_append] at same
    rw [stepsOf_undivided slash, stepsOf_undivided (by simp [slash, fresh]), same]
termination_by t.length

theorem stepsOf_trimEnd (t : Text) : stepsOf (trimEnd t) = stepsOf t := by
  obtain ⟨trail, whole, blank⟩ := trimEnd_split t
  conv => rhs; rw [whole]
  exact (stepsOf_append_blank (trimEnd t) blank).symm

/-- Steps are read back from the segments that they stand for. -/
theorem stepsOf_joinSegments {steps : List Step} (written : ∀ s ∈ steps, s.Written) :
    stepsOf (joinSegments (steps.map Step.render)) = steps := by
  cases steps with
  | nil => rfl
  | cons s rest =>
    have undivided : ∀ l ∈ (s :: rest).map Step.render, '/' ∉ l := by
      intro l member
      obtain ⟨step, inside, rfl⟩ := List.mem_map.1 member
      exact (written step inside).undivided
    have trimmed : ((s :: rest).map Step.render).map trim = (s :: rest).map Step.render := by
      rw [List.map_map]
      exact List.map_congr_left fun step inside => (written step inside).trimmed
    have visible : ((s :: rest).map Step.render).filter (· ≠ []) = (s :: rest).map Step.render := by
      refine List.filter_eq_self.2 fun l member => ?_
      obtain ⟨step, inside, rfl⟩ := List.mem_map.1 member
      simpa using (written step inside).nonempty
    rw [stepsOf, joinSegments, List.splitOn_intercalate '/' undivided (by simp), trimmed, visible,
      List.map_map]
    exact (List.map_congr_left fun step inside => (written step inside).read).trans (List.map_id _)

/-- A text that begins visibly begins with its first step. -/
theorem exists_first {t : Text} (nonempty : t ≠ []) (visible : ∀ c ∈ t.head?, isBlank c = false)
    (relative : t.head? ≠ some '/') :
    ∃ first rest, stepsOf t = first :: rest ∧ first.render <+: t := by
  have starts {s : Text} (nonempty : s ≠ []) (visible : ∀ c ∈ s.head?, isBlank c = false)
      (undivided : '/' ∉ s) : stepsOf s = [Step.ofSegment (trimEnd s)] := by
    have same : trim s = trimEnd s := congrArg trimEnd (trimStart_of_head visible)
    have shown : trim s ≠ [] := by
      rw [Ne, trim_eq_nil_iff]
      intro blank
      obtain ⟨c, rest, rfl⟩ := List.exists_cons_of_ne_nil nonempty
      exact absurd ((visible c rfl).symm.trans (blank c List.mem_cons_self)) (by decide)
    rw [stepsOf_undivided undivided, if_neg shown, same]
  have begins (s : Text) : (Step.ofSegment (trimEnd s)).render <+: s := by
    obtain ⟨trail, whole, _⟩ := trimEnd_split s
    rw [Step.render_ofSegment]
    exact ⟨trail, whole.symm⟩
  by_cases slash : '/' ∈ t
  · obtain ⟨s, rest, rfl, fresh⟩ := List.eq_append_cons_of_mem slash
    have filled : s ≠ [] := by
      rintro rfl
      exact relative rfl
    have head : (s ++ '/' :: rest).head? = s.head? := by
      rw [List.head?_append, List.head?_eq_some_head filled]
      rfl
    rw [head] at visible
    exact ⟨_, stepsOf rest, by rw [stepsOf_append_slash, starts filled visible fresh]; rfl,
      (begins s).trans (List.prefix_append s _)⟩
  · exact ⟨_, [], starts nonempty visible slash, begins t⟩

/-! ### The ways of reading a path -/

/-- How a text that does not begin with white space is read as a path. -/
inductive Reads : Text → Path → Prop where
  | current (rest : Text) : Reads (currentCall ++ rest) ⟨false, .current :: stepsOf rest⟩
  | absolute (rest : Text) : Reads ('/' :: rest) ⟨true, stepsOf rest⟩
  | relative {t : Text} (visible : ∀ c ∈ t.head?, isBlank c = false) (relative : t.head? ≠ some '/')
    (other : ¬currentCall <+: t) : Reads t ⟨false, stepsOf t⟩

theorem parse_of_reads {t : Text} {p : Path} (reads : Reads t p) : parse t = p := by
  cases reads with
  | current rest =>
    have trimmed : Trimmed currentCall := by
      constructor <;> rintro c ⟨⟩ <;> decide
    have same : trim (currentCall ++ rest) = currentCall ++ trimEnd rest :=
      trim_append_of_trimmed trimmed (List.cons_ne_nil 'c' _) rest
    rw [parse, same, behind?_eq_some_iff.2 rfl]
    dsimp only
    rw [stepsOf_trimEnd]
  | absolute rest =>
    have same : trim ('/' :: rest) = '/' :: trimEnd rest :=
      trim_append_of_trimmed (s := ['/']) (by constructor <;> rintro c ⟨⟩ <;> decide) (by decide) rest
    have other : behind? currentCall ('/' :: trimEnd rest) = none := rfl
    rw [parse, same, other]
    exact congrArg (Path.mk true) (stepsOf_trimEnd rest)
  | relative visible relative other =>
    obtain ⟨trail, whole, _⟩ := trimEnd_split t
    have begins : trimEnd t <+: t := ⟨trail, whole.symm⟩
    have noCall : behind? currentCall (trimEnd t) = none := by
      cases found : behind? currentCall (trimEnd t) with
      | none => rfl
      | some rest =>
        have called : currentCall <+: trimEnd t := ⟨rest, (behind?_eq_some_iff.1 found).symm⟩
        exact absurd (called.trans begins) other
    have same : trim t = trimEnd t := congrArg trimEnd (trimStart_of_head visible)
    rw [parse, same, noCall]
    dsimp only
    split
    · next rest same =>
      rw [same] at begins
      obtain ⟨more, rfl⟩ := begins
      exact absurd rfl relative
    · rw [stepsOf_trimEnd]

theorem parse_blank_append {lead : Text} (blank : Blank lead) (t : Text) :
    parse (lead ++ t) = parse t := by
  have same := trim_padded blank blank_nil t
  rw [List.append_nil] at same
  rw [parse, same, parse]

/-- Each text is read in one of these ways, once white space before it is taken off. -/
theorem reads_trimStart (t : Text) : Reads (trimStart t) (parse t) := by
  obtain ⟨lead, whole, blank⟩ := trimStart_split t
  have same : parse t = parse (trimStart t) := by
    conv => lhs; rw [whole]
    exact parse_blank_append blank _
  have visible := head?_trimStart t
  rw [same]
  generalize trimStart t = u at visible
  by_cases called : currentCall <+: u
  · obtain ⟨rest, rfl⟩ := called
    rw [parse_of_reads (.current rest)]
    exact .current rest
  · by_cases slash : u.head? = some '/'
    · obtain ⟨rest, rfl⟩ := List.head?_eq_some_iff.1 slash
      rw [parse_of_reads (.absolute rest)]
      exact .absolute rest
    · have reads : Reads u ⟨false, stepsOf u⟩ := .relative visible slash called
      rwa [parse_of_reads reads]

/-! ### Writing a path -/

/-- The path is read back from its written form. -/
structure Written (p : Path) : Prop where
  steps : ∀ s ∈ p.steps, s.Written
  relative : p.absolute = false → ¬currentCall <+: p.render

theorem written_parse (t : Text) : (parse t).Written := by
  have reads := reads_trimStart t
  generalize parse t = p at reads
  generalize trimStart t = u at reads
  cases reads with
  | current rest =>
    refine ⟨fun s member => ?_, fun _ begins => ?_⟩
    · rcases List.mem_cons.1 member with rfl | member
      · exact Step.written_current
      · exact written_of_stepsOf member
    · exact absurd (prefix_of_joinSegments (by decide) begins) (by decide)
  | absolute rest => exact ⟨fun s => written_of_stepsOf, fun impossible => by cases impossible⟩
  | relative visible relative other =>
    refine ⟨fun s => written_of_stepsOf, fun _ begins => ?_⟩
    rcases Decidable.em (u = []) with empty | nonempty
    · rw [empty] at begins
      exact absurd begins (by decide)
    · obtain ⟨first, rest, same, inside⟩ := exists_first nonempty visible relative
      rw [render, same] at begins
      exact other ((prefix_of_joinSegments (by decide) begins).trans inside)

theorem parse_render {p : Path} (written : p.Written) : parse p.render = p := by
  obtain ⟨absolute, steps⟩ := p
  have read := stepsOf_joinSegments written.steps
  cases absolute with
  | true =>
    have same : parse ('/' :: joinSegments (steps.map Step.render)) =
        ⟨true, stepsOf (joinSegments (steps.map Step.render))⟩ := parse_of_reads (.absolute _)
    rw [read] at same
    exact same
  | false =>
    have head : ∀ c ∈ (joinSegments (steps.map Step.render)).head?, isBlank c = false ∧ c ≠ '/' := by
      cases steps with
      | nil => simp [joinSegments]
      | cons s rest =>
        obtain ⟨nonempty, undivided, trimmed, _⟩ := written.steps s List.mem_cons_self
        rw [List.map_cons, head?_joinSegments_cons nonempty]
        refine fun c first => ⟨(trimmed ▸ trimmed_trim s.render).head c first, ?_⟩
        rintro rfl
        exact undivided (List.mem_of_head? first)
    have same : parse (joinSegments (steps.map Step.render)) =
        ⟨false, stepsOf (joinSegments (steps.map Step.render))⟩ :=
      parse_of_reads (.relative (fun c first => (head c first).1) (fun slash => (head '/' slash).2 rfl)
        (written.relative rfl))
    rw [read] at same
    exact same

/-! ### Following one path after another -/

theorem Reads.append_slash {t : Text} {p : Path} (reads : Reads t p) (nonempty : t ≠ []) (q : Text) :
    Reads (t ++ '/' :: q) ⟨p.absolute, p.steps ++ stepsOf q⟩ := by
  cases reads with
  | current rest =>
    have longer := Reads.current (rest ++ '/' :: q)
    rwa [stepsOf_append_slash, ← List.append_assoc] at longer
  | absolute rest =>
    have longer := Reads.absolute (rest ++ '/' :: q)
    rwa [stepsOf_append_slash] at longer
  | relative visible relative other =>
    have head : (t ++ '/' :: q).head? = t.head? := by
      rw [List.head?_append, List.head?_eq_some_head nonempty]
      rfl
    have longer : Reads (t ++ '/' :: q) ⟨false, stepsOf (t ++ '/' :: q)⟩ :=
      .relative (by rwa [head]) (by rwa [head]) fun begins =>
        other (prefix_of_append_slash (by decide) begins)
    rwa [stepsOf_append_slash] at longer

/-- A path behind a slash adds its steps to those of the path before it. -/
theorem parse_append_slash {p : Text} (visible : ¬Blank p) (q : Text) :
    parse (p ++ '/' :: q) = ⟨(parse p).absolute, (parse p).steps ++ stepsOf q⟩ := by
  obtain ⟨lead, whole, blank⟩ := trimStart_split p
  have nonempty : trimStart p ≠ [] := by
    intro nothing
    rw [nothing, List.append_nil] at whole
    exact visible (whole ▸ blank)
  have longer := parse_of_reads ((reads_trimStart p).append_slash nonempty q)
  rw [← parse_blank_append blank, ← List.append_assoc, ← whole] at longer
  exact longer

/-- The named steps of a path are segments without white space around them. -/
theorem separate_of_parse {t name : Text} (member : Step.child name ∈ (parse t).steps) :
    (name ≠ [] ∧ '/' ∉ name) ∧ trim name = name :=
  have written := (written_parse t).steps _ member
  ⟨⟨written.nonempty, written.undivided⟩, written.trimmed⟩

theorem separate_origin? {p : Path} {context : Option Text} {node : List Text}
    (start : p.origin? context = some node) : ∀ s ∈ node, s ≠ [] ∧ '/' ∉ s := by
  unfold origin? at start
  split at start
  · cases start
    simp
  · split at start
    · cases start
      exact fun s => of_mem_segments
    · cases start

/-- The segments of a place stay separate from step to step. -/
theorem separate_foldlM {steps : List Step} {node after : List Text}
    (names : ∀ name, Step.child name ∈ steps → name ≠ [] ∧ '/' ∉ name)
    (start : ∀ s ∈ node, s ≠ [] ∧ '/' ∉ s) (found : steps.foldlM Step.apply node = some after) :
    ∀ s ∈ after, s ≠ [] ∧ '/' ∉ s := by
  induction steps generalizing node with
  | nil =>
    cases found
    exact start
  | cons step rest ih =>
    rw [List.foldlM_cons] at found
    obtain ⟨next, first, found⟩ := Option.bind_eq_some_iff.1 found
    refine ih (fun name member => names name (List.mem_cons_of_mem step member)) ?_ found
    cases step with
    | current =>
      cases first
      exact start
    | parent =>
      rw [Step.apply] at first
      split at first
      · cases first
      · cases first
        exact fun s member => start s ((List.dropLast_sublist node).subset member)
    | child name =>
      cases first
      intro s member
      rcases List.mem_append.1 member with member | member
      · exact start s member
      · rw [List.mem_singleton.1 member]
        exact names name List.mem_cons_self

/-- A place is found again from its absolute path. -/
theorem origin?_absolutePath {node : List Text} (separate : ∀ s ∈ node, s ≠ [] ∧ '/' ∉ s)
    (steps : List Step) : origin? ⟨false, steps⟩ (some (absolutePath node)) = some node := by
  have place : absolutePath node = '/' :: joinSegments node := rfl
  rw [place, origin?, if_neg Bool.false_ne_true]
  exact congrArg some (segments_joinSegments separate)

theorem evaluate_append (p : Path) (context : Option Text)
    (names : ∀ name, Step.child name ∈ p.steps → name ≠ [] ∧ '/' ∉ name) (steps : List Step) :
    evaluate ⟨p.absolute, p.steps ++ steps⟩ context =
      (p.evaluate context).bind fun place => evaluate ⟨false, steps⟩ (some place) := by
  have start : origin? ⟨p.absolute, p.steps ++ steps⟩ context = p.origin? context := rfl
  rw [evaluate, evaluate, start]
  cases origin : p.origin? context with
  | none => rfl
  | some node =>
    simp only [Option.bind_eq_bind, Option.bind_some, List.foldlM_append]
    cases found : p.steps.foldlM Step.apply node with
    | none => rfl
    | some place =>
      have separate := separate_foldlM names (separate_origin? origin) found
      simp only [Option.bind_some, evaluate, origin?_absolutePath separate, Option.bind_eq_bind,
        Option.pure_def]

/-- Every path is read back from its written form; and where a path is followed by a relative one behind
a slash, both lead where the second leads from the place that the first leads to, and nowhere if the
first leads nowhere. -/
theorem parse_render_evaluate :
    (∀ t, parse (parse t).render = parse t) ∧
      ∀ p q context, ¬Blank p → (∀ c ∈ q.head?, isBlank c = false) → q.head? ≠ some '/' →
        ¬currentCall <+: q →
          (parse (p ++ '/' :: q)).evaluate context =
            ((parse p).evaluate context).bind fun place => (parse q).evaluate (some place) := by
  refine ⟨fun t => parse_render (written_parse t), fun p q context shown visible relative other => ?_⟩
  rw [parse_append_slash shown, parse_of_reads (.relative visible relative other)]
  exact evaluate_append (parse p) context (fun name member => (separate_of_parse member).1) (stepsOf q)

/-- A path and a context with white space in odd places. -/
theorem parse_render_evaluate_spaced :
    (parse " current() /g 1/..".toList).evaluate (some "/data//x /y".toList) =
        some "/data/x /y".toList ∧
      (parse " current() /g 1/../../b ".toList).evaluate (some "/data//x /y".toList) =
        (parse "../b ".toList).evaluate (some "/data/x /y".toList) := by
  have leads : (parse " current() /g 1/..".toList).evaluate (some "/data//x /y".toList) =
      some "/data/x /y".toList := by decide +kernel
  have shown : ¬Blank " current() /g 1/..".toList := by
    rw [← trim_eq_nil_iff]
    decide
  have visible : ∀ c ∈ ("../b ".toList).head?, isBlank c = false := by
    rintro c ⟨⟩
    decide
  have followed := parse_render_evaluate.2 " current() /g 1/..".toList "../b ".toList
    (some "/data//x /y".toList) shown visible (by decide) (by decide)
  rw [leads] at followed
  exact ⟨leads, followed⟩

end Path

end FormLogic.Field
