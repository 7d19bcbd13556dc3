import FormLogic.Text.Character

/-!
Trimming takes white space off both ends of a text and nothing else. A text is trimmed when neither
its first nor its last character is white space.
-/
namespace FormLogic.Text

/-- Every character of the text is white space. -/
def Blank (t : Text) : Prop := ∀ c ∈ t, isBlank c = true

theorem not_isBlank_of_isAlphanum {c : Char} (holds : c.isAlphanum = true) : isBlank c = false := by
  have alphanum : (((c.val ≥ 'A'.val ∧ c.val ≤ 'Z'.val : Bool) || c.val ≥ 'a'.val && c.val ≤ 'z'.val) ||
      c.val ≥ '0'.val && c.val ≤ '9'.val) = true := holds
  cases blank : isBlank c with
  | false => rfl
  | true =>
    simp only [isBlank, Bool.or_eq_true, Bool.and_eq_true, decide_eq_true_eq, beq_iff_eq, ge_iff_le,
      UInt32.le_iff_toNat_le, ← UInt32.toNat_inj] at blank alphanum
    simp at alphanum blank
    omega

/-- Only beyond ASCII is there white space that may stand in a name. -/
theorem not_isBlank_of_isNameChar {c : Char} (name : isNameChar c = true)
    (ascii : isAscii c = true) : isBlank c = false := by
  simp only [isNameChar, ascii, Bool.or_eq_true, beq_iff_eq, Bool.not_true, Bool.false_eq_true,
    or_false] at name
  rcases name with ((alphanum | rfl) | rfl) | rfl
  · exact not_isBlank_of_isAlphanum alphanum
  · decide
  · decide
  · decide

theorem not_isNameStart_of_isBlank {c : Char} (blank : isBlank c = true) :
    isNameStart c = false := by
  cases start : isNameStart c with
  | false => rfl
  | true =>
    simp only [isNameStart, Bool.or_eq_true, beq_iff_eq] at start
    rcases start with alpha | rfl
    · rw [not_isBlank_of_isAlphanum (by simp [Char.isAlphanum, alpha])] at blank
      cases blank
    · cases blank

/-- Neither end of the text is white space. -/
structure Trimmed (t : Text) : Prop where
  head : ∀ c ∈ t.head?, isBlank c = false
  last : ∀ c ∈ t.getLast?, isBlank c = false

theorem trimmed_of_isAlphanum {t : Text} (all : ∀ c ∈ t, c.isAlphanum = true) : Trimmed t :=
  ⟨fun c same => not_isBlank_of_isAlphanum (all c (List.mem_of_head? same)),
    fun c same => not_isBlank_of_isAlphanum (all c (List.mem_of_getLast? same))⟩

theorem trimStart_split (t : Text) : ∃ lead, t = lead ++ trimStart t ∧ Blank lead := by
  refine ⟨t.takeWhile isBlank, List.takeWhile_append_dropWhile.symm, ?_⟩
  intro c member
  induction t with
  | nil => simp at member
  | cons d rest ih =>
    rw [List.takeWhile_cons] at member
    split at member
    · next blank =>
      rcases List.mem_cons.1 member with rfl | member
      · exact blank
      · exact ih member
    · simp at member

theorem trimEnd_split (t : Text) : ∃ trail, t = trimEnd t ++ trail ∧ Blank trail := by
  obtain ⟨lead, whole, blank⟩ := trimStart_split t.reverse
  refine ⟨lead.reverse, ?_, fun c member => blank c (List.mem_reverse.1 member)⟩
  have reversed := congrArg List.reverse whole
  rwa [List.reverse_reverse, List.reverse_append] at reversed

/-- Trimming takes off white space only. -/
theorem trim_split (t : Text) :
    ∃ lead trail, t = lead ++ (trim t ++ trail) ∧ Blank lead ∧ Blank trail := by
  obtain ⟨lead, front, leadBlank⟩ := trimStart_split t
  obtain ⟨trail, back, trailBlank⟩ := trimEnd_split (trimStart t)
  refine ⟨lead, trail, ?_, leadBlank, trailBlank⟩
  rw [trim, ← back]
  exact front

theorem mem_of_mem_trim {c : Char} {t : Text} (member : c ∈ trim t) : c ∈ t := by
  obtain ⟨lead, trail, whole, _, _⟩ := trim_split t
  rw [whole]
  simp [member]

theorem trimStart_blank_append {lead : Text} (blank : Blank lead) (t : Text) :
    trimStart (lead ++ t) = trimStart t := by
  induction lead with
  | nil => rfl
  | cons c rest ih =>
    rw [trimStart, List.cons_append, List.dropWhile_cons, if_pos (blank c (by simp))]
    exact ih fun d member => blank d (List.mem_cons_of_mem c member)

theorem trimStart_of_head {t : Text} (head : ∀ c ∈ t.head?, isBlank c = false) :
    trimStart t = t := by
  cases t with
  | nil => rfl
  | cons c rest =>
    have visible := head c rfl
    rw [trimStart, List.dropWhile_cons, if_neg (by simp [visible])]

theorem trimEnd_eq (t : Text) : trimEnd t = (trimStart t.reverse).reverse := rfl

/-- A trimmed text with white space around it is what trimming gives back. -/
theorem trim_blank_append {s lead trail : Text} (trimmed : Trimmed s) (leadBlank : Blank lead)
    (trailBlank : Blank trail) : trim (lead ++ (s ++ trail)) = s := by
  have backward : Blank trail.reverse := fun c member => trailBlank c (List.mem_reverse.1 member)
  cases s with
  | nil =>
    have front : trimStart (lead ++ ([] ++ trail)) = [] := by
      rw [trimStart_blank_append leadBlank, List.nil_append, ← List.append_nil trail,
        trimStart_blank_append trailBlank]
      rfl
    rw [trim, front]
    rfl
  | cons c rest =>
    have front : trimStart (lead ++ (c :: rest ++ trail)) = c :: rest ++ trail := by
      rw [trimStart_blank_append leadBlank]
      exact trimStart_of_head fun d same => by
        rw [Option.mem_def, List.cons_append, List.head?_cons, Option.some.injEq] at same
        exact trimmed.head d (by simp [same])
    rw [trim, front, trimEnd_eq, List.reverse_append, trimStart_blank_append backward,
      trimStart_of_head, List.reverse_reverse]
    intro d same
    rw [List.head?_reverse] at same
    exact trimmed.last d same

theorem blank_nil : Blank [] := by simp [Blank]

theorem Blank.append {s t : Text} (left : Blank s) (right : Blank t) : Blank (s ++ t) := by
  intro c member
  rcases List.mem_append.1 member with member | member
  · exact left c member
  · exact right c member

theorem trim_of_trimmed {t : Text} (trimmed : Trimmed t) : trim t = t := by
  have whole := trim_blank_append trimmed blank_nil blank_nil
  rwa [List.append_nil, List.nil_append] at whole

theorem head?_trimStart (t : Text) : ∀ c ∈ (trimStart t).head?, isBlank c = false := by
  intro c same
  induction t with
  | nil => simp [trimStart] at same
  | cons d rest ih =>
    rw [trimStart, List.dropWhile_cons] at same
    split at same
    · exact ih same
    · next visible =>
      rw [Option.mem_def, List.head?_cons, Option.some.injEq] at same
      rw [← same]
      simpa using visible

theorem last_trimEnd (t : Text) : ∀ c ∈ (trimEnd t).getLast?, isBlank c = false := by
  intro c same
  rw [trimEnd_eq, Option.mem_def, List.getLast?_reverse] at same
  exact head?_trimStart t.reverse c same

theorem trimEnd_eq_self_iff {t : Text} :
    trimEnd t = t ↔ ∀ c ∈ t.getLast?, isBlank c = false := by
  constructor
  · intro same
    rw [← same]
    exact last_trimEnd t
  · intro visible
    have head : ∀ c ∈ t.reverse.head?, isBlank c = false := by rwa [List.head?_reverse]
    rw [trimEnd_eq, trimStart_of_head head, List.reverse_reverse]

/-- White space can only be taken off behind a text with visible ends. -/
theorem trim_append_of_trimmed {s : Text} (trimmed : Trimmed s) (nonempty : s ≠ []) (t : Text) :
    trim (s ++ t) = s ++ trimEnd t := by
  obtain ⟨trail, whole, blank⟩ := trimEnd_split t
  have front : Trimmed (s ++ trimEnd t) := by
    constructor
    · intro c same
      rw [Option.mem_def, List.head?_append, List.head?_eq_some_head nonempty] at same
      exact trimmed.head c (by rw [List.head?_eq_some_head nonempty]; exact same)
    · intro c same
      rw [Option.mem_def, List.getLast?_append] at same
      rcases Option.or_eq_some_iff.1 same with last | ⟨_, last⟩
      · exact last_trimEnd t c last
      · exact trimmed.last c last
  have stripped := trim_blank_append front blank_nil blank
  rwa [List.nil_append, List.append_assoc, ← whole] at stripped

/-- What trimming gives is trimmed. -/
theorem trimmed_trim (t : Text) : Trimmed (trim t) := by
  constructor
  · intro c same
    obtain ⟨trail, back, _⟩ := trimEnd_split (trimStart t)
    apply head?_trimStart t c
    rw [trim] at same
    rw [Option.mem_def] at same ⊢
    rw [back, List.head?_append, same]
    rfl
  · exact last_trimEnd (trimStart t)

theorem trim_trim (t : Text) : trim (trim t) = trim t := trim_of_trimmed (trimmed_trim t)

/-- White space around a text makes no difference to what trimming gives. -/
theorem trim_padded {lead trail : Text} (leadBlank : Blank lead) (trailBlank : Blank trail) (t : Text) :
    trim (lead ++ (t ++ trail)) = trim t := by
  obtain ⟨front, back, whole, frontBlank, backBlank⟩ := trim_split t
  have spread : lead ++ (t ++ trail) = (lead ++ front) ++ (trim t ++ (back ++ trail)) := by
    conv => lhs; rw [whole]
    simp only [List.append_assoc]
  rw [spread]
  exact trim_blank_append (trimmed_trim t) (leadBlank.append frontBlank) (backBlank.append trailBlank)

/-- Only white space trims to nothing. -/
theorem trim_eq_nil_iff (t : Text) : trim t = [] ↔ Blank t := by
  constructor
  · intro nothing
    obtain ⟨lead, trail, whole, leadBlank, trailBlank⟩ := trim_split t
    rw [nothing, List.nil_append] at whole
    intro c member
    rw [whole] at member
    rcases List.mem_append.1 member with member | member
    · exact leadBlank c member
    · exact trailBlank c member
  · intro blank
    have whole := trim_blank_append (s := []) ⟨by simp, by simp⟩ blank blank_nil
    simpa using whole

end FormLogic.Text
