import FormLogic.Field.Reference
import FormLogic.Proofs.Braces

/-!
The text that a reference stands for. A token is `${name}`, a path or a `current()` path. Where the
owner of the expression is known, the text is a field's identifier or part of the token: a path, or
`current()` and a path, and never empty. So it holds no quote, no white space and no brace, and it
closes the one parenthesis that it may open.
-/
namespace FormLogic.Field

open Text Call Reference

namespace Registry

/-- Identifiers are words: not empty, and made of word characters. -/
def Worded (r : Registry) : Prop :=
  ∀ e ∈ r.entries, e.identifier ≠ [] ∧ ∀ c ∈ e.identifier, isWordChar c = true

/-- There is no owner, or it is a field of the registry. -/
def KnowsOwner (r : Registry) (owner : Option Text) : Prop :=
  ∀ name ∈ owner, (r.lookup? name).isSome = true

instance (r : Registry) : Decidable r.Worded :=
  inferInstanceAs (Decidable (∀ e ∈ r.entries, _ ∧ ∀ c ∈ e.identifier, _))

instance (r : Registry) (owner : Option Text) : Decidable (r.KnowsOwner owner) :=
  inferInstanceAs (Decidable (∀ name ∈ owner, _))

variable {r : Registry}

theorem mem_of_at? {key : Text} {e : Entry} (found : r.at? key = some e) : e ∈ r.entries :=
  List.mem_of_find?_eq_some found

theorem mem_of_byName? {name : Text} {e : Entry} (found : r.byName? name = some e) :
    e ∈ r.entries := by
  unfold byName? at found
  split at found
  · exact mem_of_at? found
  · cases found

theorem mem_of_lookup? {key : Text} {e : Entry} (found : r.lookup? key = some e) :
    e ∈ r.entries := by
  unfold lookup? at found
  rcases Option.or_eq_some_iff.1 found with found | ⟨_, found⟩
  · exact mem_of_at? found
  · exact mem_of_byName? found

end Registry

namespace Reference

/-- The forms of reference tokens. -/
inductive Shape : Text → Prop where
  | braced {name : Text} (valid : (bracedName? name).isSome = true) :
    Shape (['$', '{'] ++ name ++ ['}'])
  | path {path : Text} (starts : path.head? = some '.' ∨ path.head? = some '/')
    (all : ∀ c ∈ path, isPathChar c = true) : Shape path
  | current {path : Text} (all : ∀ c ∈ path, isPathChar c = true) : Shape (currentCall ++ path)

/-- A text that a reference may stand for. -/
def Referent (text : Text) : Prop :=
  text ≠ [] ∧ ∃ path, (∀ c ∈ path, isPathChar c = true) ∧ (text = path ∨ text = currentCall ++ path)

theorem Referent.of_path {text : Text} (nonempty : text ≠ [])
    (all : ∀ c ∈ text, isPathChar c = true) : Referent text :=
  ⟨nonempty, text, all, Or.inl rfl⟩

theorem isPathChar_of_isWordChar {c : Char} (word : isWordChar c = true) : isPathChar c = true := by
  simp only [isWordChar, Bool.or_eq_true] at word
  simp only [isPathChar, isNameChar, Bool.or_eq_true]
  rcases word with (word | word) | word <;> simp [word]

theorem referent_identifier {r : Registry} (worded : r.Worded) {e : Entry}
    (member : e ∈ r.entries) : Referent e.identifier :=
  .of_path (worded e member).1 fun c inside =>
    isPathChar_of_isWordChar ((worded e member).2 c inside)

theorem referent_ofLookup {r : Registry} (worded : r.Worded) {found : Option Entry} {name : Text}
    (entry : ∀ e, found = some e → e ∈ r.entries) (named : Referent name) :
    Referent (Resolution.ofLookup found name).text := by
  cases found with
  | none => exact named
  | some e => exact referent_identifier worded (entry e rfl)

end Reference

theorem sublist_of_mem_splitOn {t segment : Text} {c : Char} (member : segment ∈ t.splitOn c) :
    segment.Sublist t := by
  induction t generalizing segment with
  | nil =>
    rw [List.splitOn_nil, List.mem_singleton] at member
    exact member ▸ List.nil_sublist []
  | cons d rest ih =>
    rw [List.splitOn_cons_eq_if_modifyHead] at member
    split at member
    · rcases List.mem_cons.1 member with rfl | member
      · exact List.nil_sublist _
      · exact (ih member).cons d
    · cases parts : rest.splitOn c with
      | nil => exact absurd parts (List.splitOn_ne_nil c rest)
      | cons first others =>
        rw [parts, List.modifyHead_cons] at member
        rcases List.mem_cons.1 member with rfl | member
        · exact (ih (by rw [parts]; exact List.mem_cons_self)).cons_cons d
        · exact (ih (by rw [parts]; exact List.mem_cons_of_mem first member)).cons d

theorem trim_sublist (t : Text) : (trim t).Sublist t := by
  obtain ⟨lead, trail, whole, _, _⟩ := trim_split t
  have inner : (trim t).Sublist (lead ++ (trim t ++ trail)) :=
    (List.sublist_append_left (trim t) trail).trans (List.sublist_append_right lead _)
  rwa [← whole] at inner

theorem lastSegment_sublist {path : Text} : (lastSegment path).Sublist path := by
  rw [lastSegment]
  cases last : (segments path).getLast? with
  | none => exact List.Sublist.refl path
  | some segment =>
    exact sublist_of_mem_splitOn (List.mem_filter.1 (List.mem_of_getLast? last)).1

namespace Path

/-- A named step is a part of the written path between slashes, trimmed. -/
theorem part_of_stepsOf {t name : Text} (member : Step.child name ∈ stepsOf t) :
    name ≠ [] ∧ ∃ part ∈ t.splitOn '/', trim part = name := by
  rw [stepsOf, List.mem_map] at member
  obtain ⟨segment, member, same⟩ := member
  rw [List.mem_filter, List.mem_map] at member
  obtain ⟨inside, nonempty⟩ := member
  have named : segment = name := by
    unfold Step.ofSegment at same
    split at same
    · cases same
    · split at same
      · cases same
      · exact Step.child.inj same
  subst named
  exact ⟨by simpa using nonempty, inside⟩

/-- A step to a named node has a name that stands in the written path. -/
theorem child_of_stepsOf {t name : Text} (member : Step.child name ∈ stepsOf t) :
    name ≠ [] ∧ name.Sublist t := by
  obtain ⟨nonempty, part, found, trimmed⟩ := part_of_stepsOf member
  refine ⟨nonempty, ?_⟩
  rw [← trimmed]
  exact (trim_sublist part).trans (sublist_of_mem_splitOn found)

/-- The part of a path's text that its named steps stand in. -/
theorem child_of_parse {t name : Text} (trimmed : trim t = t)
    (member : Step.child name ∈ (parse t).steps) :
    name ≠ [] ∧ (name.Sublist t ∧ ∀ path, t = currentCall ++ path → name.Sublist path) := by
  unfold parse at member
  rw [trimmed] at member
  dsimp only at member
  cases found : behind? currentCall t with
  | some rest =>
    rw [found] at member
    have whole := behind?_eq_some_iff.1 found
    rcases List.mem_cons.1 member with impossible | member
    · cases impossible
    · obtain ⟨nonempty, inside⟩ := child_of_stepsOf member
      refine ⟨nonempty, ?_, ?_⟩
      · rw [whole]
        exact inside.trans (List.sublist_append_right _ rest)
      · intro path same
        rw [whole] at same
        rwa [← List.append_cancel_left same]
  | none =>
    rw [found] at member
    have other : ∀ path, t = currentCall ++ path → name.Sublist path := by
      intro path same
      rw [behind?_eq_some_iff.2 same] at found
      cases found
    dsimp only at member
    split at member
    · next rest =>
      obtain ⟨nonempty, inside⟩ := child_of_stepsOf member
      exact ⟨nonempty, inside.cons '/', other⟩
    · obtain ⟨nonempty, inside⟩ := child_of_stepsOf member
      exact ⟨nonempty, inside, other⟩

theorem child_of_name? {p : Path} {name : Text} (named : p.name? = some name) :
    Step.child name ∈ p.steps := by
  unfold name? at named
  split at named
  · next found =>
    cases named
    exact List.mem_of_getLast? found
  · cases named

end Path

/-- The name in a `${name}` token. -/
theorem braceName?_braced (name : Text) :
    braceName? (['$', '{'] ++ name ++ ['}']) = bracedName? name := by
  simp [braceName?]

theorem trim_braced (name : Text) :
    trim (['$', '{'] ++ name ++ ['}']) = ['$', '{'] ++ name ++ ['}'] := by
  apply trim_of_trimmed
  constructor
  · rintro c ⟨⟩
    decide
  · intro c last
    rw [List.getLast?_concat, Option.mem_some] at last
    rw [← last]
    decide

theorem bracedName?_eq_some {inner name : Text} (found : bracedName? inner = some name) :
    name = trim inner ∧ name ≠ [] ∧ ∀ c ∈ name, isBracedNameChar c = true := by
  unfold bracedName? at found
  dsimp only at found
  split at found
  · next both =>
    rw [← Option.some.inj found]
    exact ⟨rfl, both.1, List.all_eq_true.1 both.2⟩
  · cases found

theorem isPathChar_of_isBracedNameChar {c : Char} (holds : isBracedNameChar c = true) :
    isPathChar c = true := by
  simp only [isBracedNameChar, Bool.or_eq_true] at holds
  simp only [isPathChar, Bool.or_eq_true]
  exact Or.inl holds

theorem braceName?_eq_none {t : Text} (head : t.head? ≠ some '$') : braceName? t = none := by
  unfold braceName?
  split
  · exact absurd rfl head
  · rfl

namespace Reference

/-- A token that is a path, once white space behind it is taken off. -/
theorem trimmed_path {token : Text} (shape : Shape token) (unbraced : token.head? ≠ some '$') :
    Referent (trim token) ∧ (trim token).head? ≠ some '$' := by
  cases shape with
  | braced valid => exact absurd rfl unbraced
  | @path path starts all =>
    obtain ⟨c, rest, rfl⟩ : ∃ c rest, token = c :: rest := by
      cases token with
      | nil => simp at starts
      | cons c rest => exact ⟨c, rest, rfl⟩
    have visible : isBlank c = false := by
      simp only [List.head?_cons, Option.some.injEq] at starts
      rcases starts with rfl | rfl <;> decide
    have same := trim_append_of_trimmed (s := [c]) ⟨by simp [visible], by simp [visible]⟩ (by simp)
      rest
    rw [List.cons_append, List.nil_append] at same
    refine ⟨.of_path ?_ fun d member => all d (mem_of_mem_trim member), ?_⟩
    · rw [same]
      exact List.cons_ne_nil c _
    · rw [same]
      exact unbraced
  | @current path all =>
    have trimmed : Trimmed currentCall := by
      constructor <;> rintro c ⟨⟩ <;> decide
    have same : trim (currentCall ++ path) = currentCall ++ trimEnd path :=
      trim_append_of_trimmed trimmed (by decide) path
    obtain ⟨trail, whole, _⟩ := trimEnd_split path
    refine ⟨⟨?_, trimEnd path, fun c member => all c ?_, Or.inr same⟩, ?_⟩
    · rw [same]
      exact List.cons_ne_nil 'c' _
    · rw [whole]
      exact List.mem_append_left trail member
    · rw [same]
      exact fun impossible => absurd (Option.some.inj impossible) (by decide)

/-- The parts of a path by which it names a field are referents. -/
theorem referent_child {t name : Text} (trimmed : trim t = t) (referent : Referent t)
    (member : Step.child name ∈ (Path.parse t).steps) : Referent name := by
  obtain ⟨nonempty, inside, behind⟩ := Path.child_of_parse trimmed member
  obtain ⟨_, path, all, same | same⟩ := referent
  · exact .of_path nonempty fun c member => all c (same ▸ inside.subset member)
  · exact .of_path nonempty fun c member => all c ((behind path same).subset member)

end Reference

namespace Registry

variable {r : Registry} {owner : Option Text}

/-- What a token stands for where the owner is known. -/
theorem referent_resolve (worded : r.Worded) (known : r.KnowsOwner owner) {token : Text}
    (shape : Shape token) : Referent (r.resolve token owner).text := by
  by_cases braced : token.head? = some '$'
  · obtain ⟨name, valid, rfl⟩ : ∃ name, (bracedName? name).isSome = true ∧
        token = ['$', '{'] ++ name ++ ['}'] := by
      cases shape with
      | braced valid => exact ⟨_, valid, rfl⟩
      | path starts all => simp [braced] at starts
      | current all => cases braced
    obtain ⟨n, found⟩ := Option.isSome_iff_exists.1 valid
    obtain ⟨_, nonempty, all⟩ := bracedName?_eq_some found
    rw [resolve, trim_braced, braceName?_braced, found]
    exact referent_ofLookup worded (fun e => mem_of_lookup?)
      (.of_path nonempty fun c member => isPathChar_of_isBracedNameChar (all c member))
  · obtain ⟨referent, head⟩ := trimmed_path shape braced
    rw [resolve, braceName?_eq_none head]
    dsimp only
    split
    · -- The path points at the context node, which is the owner.
      unfold resolveSelf
      split
      · next name =>
        obtain ⟨e, found⟩ := Option.isSome_iff_exists.1 (known name rfl)
        rw [found]
        exact referent_identifier worded (mem_of_lookup? found)
      · exact referent
    · unfold resolvePath
      split
      · next e found =>
        obtain ⟨path, _, found⟩ := Option.bind_eq_some_iff.1 found
        exact referent_identifier worded (mem_of_at? found)
      · split
        · next name named =>
          exact referent_ofLookup worded (fun e => mem_of_byName?)
            (referent_child (trim_trim token) referent (Path.child_of_name? named))
        · exact referent

theorem ofLookup_cases {found : Option Entry} {name token : Text}
    (entry : ∀ e, found = some e → e ∈ r.entries) (inside : name.Sublist token) :
    (∃ e ∈ r.entries, (Resolution.ofLookup found name).text = e.identifier) ∨
      (Resolution.ofLookup found name).text.Sublist token := by
  cases found with
  | none => exact Or.inr inside
  | some e => exact Or.inl ⟨e, entry e rfl, rfl⟩

/-- What a token stands for is a field's identifier, a part of the token, or a part of an owner that
is no field. -/
theorem resolve_parts (r : Registry) (owner : Option Text) (token : Text) :
    (∃ e ∈ r.entries, (r.resolve token owner).text = e.identifier) ∨
      (r.resolve token owner).text.Sublist token ∨
        ∃ name ∈ owner, r.lookup? name = none ∧ (r.resolve token owner).text.Sublist name := by
  have named {found : Option Entry} {name : Text} (entry : ∀ e, found = some e → e ∈ r.entries)
      (inside : name.Sublist token) :
      (∃ e ∈ r.entries, (Resolution.ofLookup found name).text = e.identifier) ∨
        (Resolution.ofLookup found name).text.Sublist token ∨
          ∃ field ∈ owner, r.lookup? field = none ∧
            (Resolution.ofLookup found name).text.Sublist field :=
    (ofLookup_cases entry inside).imp_right Or.inl
  rw [resolve]
  dsimp only
  split
  · next name braced =>
    have inside : name.Sublist (trim token) := by
      unfold braceName? at braced
      split at braced
      · next rest opened =>
        split at braced
        · rw [opened, (bracedName?_eq_some braced).1]
          exact (((trim_sublist _).trans (List.dropLast_sublist rest)).cons '{').cons '$'
        · cases braced
      · cases braced
    exact named (fun e => mem_of_lookup?) (inside.trans (trim_sublist token))
  · split
    · unfold resolveSelf
      split
      · next name =>
        cases found : r.lookup? name with
        | some e => exact Or.inl ⟨e, mem_of_lookup? found, rfl⟩
        | none =>
          exact Or.inr (Or.inr ⟨name, rfl, found, lastSegment_sublist.trans (trim_sublist name)⟩)
      · exact Or.inr (Or.inl (trim_sublist token))
    · unfold resolvePath
      split
      · next e found =>
        obtain ⟨path, _, found⟩ := Option.bind_eq_some_iff.1 found
        exact Or.inl ⟨e, mem_of_at? found, rfl⟩
      · split
        · next name child =>
          have inside := (Path.child_of_parse (trim_trim token) (Path.child_of_name? child)).2.1
          exact named (fun e => mem_of_byName?) (inside.trans (trim_sublist token))
        · exact Or.inr (Or.inl (trim_sublist token))

theorem mem_of_found? {token : Text} {e : Entry}
    (found : (r.resolve token owner).found? = some e) : e ∈ r.entries := by
  have ofLookup {found : Option Entry} {name : Text}
      (same : (Resolution.ofLookup found name).found? = some e) : found = some e := by
    cases found with
    | none => cases same
    | some other => exact same
  rw [resolve] at found
  dsimp only at found
  split at found
  · exact mem_of_lookup? (ofLookup found)
  · split at found
    · unfold resolveSelf at found
      split at found
      · exact mem_of_lookup? (ofLookup found)
      · cases found
    · unfold resolvePath at found
      split at found
      · next e' inside =>
        obtain ⟨path, _, inside⟩ := Option.bind_eq_some_iff.1 inside
        cases found
        exact mem_of_at? inside
      · split at found
        · exact mem_of_byName? (ofLookup found)
        · cases found

end Registry

end FormLogic.Field
