import FormLogic.Conversion.Finding
import FormLogic.Proofs.References

/-!
What an expression looks like once its references are replaced. It is made of the parts of the source in
their order: all that is no reference is copied, and each reference gives way to the text it stands for,
with a space beside it where that text would run together with a word. The space before a text is found
in the output, the one behind it in the source; both are what the output calls for, since no reference
that stands right behind another one begins like a word.
-/
namespace FormLogic.Field.Reference

open Text

/-- A part of an expression with its references replaced. -/
inductive Part where
  | copied (text : Text)
  /-- A reference, and what is written to the left and to the right of the text it stands for. -/
  | replaced (token left right : Text)
  deriving DecidableEq, Repr

namespace Part

/-- The fragment of the source that the part comes from. -/
def fragment : Part → Fragment
  | copied text => .plain text
  | replaced token _ _ => .reference token

/-- The part as it stands in the source. -/
def source (p : Part) : Text := p.fragment.source

/-- The part as it is written. -/
def written (meaning : Text → Text) : Part → Text
  | copied text => text
  | replaced token left right => left ++ meaning token ++ right

end Part

/-- In the output between `front` and `back` stands a text with a space on either side of it where it
would run together with a word. -/
structure SetOff (front left text right back : Text) : Prop where
  left_space : left = [] ∨ left = [' ']
  right_space : right = [] ∨ right = [' ']
  before : text.head?.any isWordChar = true → (front ++ left).getLast?.any isWordChar = false
  behind : text.getLast?.any isWordChar = true → (right ++ back).head?.any isWordChar = false
  left_needed : left ≠ [] → front.getLast?.any isWordChar = true ∧ text.head?.any isWordChar = true
  right_needed : right ≠ [] → text.getLast?.any isWordChar = true ∧ back.head?.any isWordChar = true

theorem separator_ne_nil {left right : Option Char} (space : separator left right ≠ []) :
    left.any isWordChar = true ∧ right.any isWordChar = true := by
  unfold separator at space
  split at space
  · next both => exact Bool.and_eq_true_iff.1 both
  · exact absurd rfl space

theorem setOff_separator (front text back : Text) :
    SetOff front (separator front.getLast? text.head?) text (separator text.getLast? back.head?)
      back := by
  refine ⟨separator_eq _ _, separator_eq _ _, fun starts => ?_, fun ends => ?_, separator_ne_nil,
    separator_ne_nil⟩
  · cases word : front.getLast?.any isWordChar with
    | true =>
      rw [separator_word word starts, List.getLast?_concat]
      rfl
    | false => rw [separator, word, Bool.false_and, if_neg (by decide), List.append_nil, word]
  · cases word : back.head?.any isWordChar with
    | true =>
      rw [separator_word ends word]
      rfl
    | false => rw [separator_plain word, List.nil_append, word]

/-- Two texts that a space keeps apart where they need it need no other one. -/
theorem separator_separated (last : Option Char) {text : Text} (nonempty : text ≠ []) (rest : Text) :
    separator last (separator last text.head? ++ (text ++ rest)).head? = [] := by
  rcases separator_eq last text.head? with noSpace | space
  · rw [noSpace, List.nil_append, head?_append_left nonempty, noSpace]
  · rw [space]
    exact separator_plain rfl

section

variable {meaning : Text → Text} {written after : Option Char}

/-- The parts that fragments are written as between the characters `written` and `after`. -/
def parts (meaning : Text → Text) (written after : Option Char) : List Fragment → List Part
  | [] => []
  | .plain text :: rest => .copied text :: parts meaning (text.getLast?.or written) after rest
  | .reference token :: rest =>
    let left := separator written (meaning token).head?
    let right := separator (meaning token).getLast? ((firstChar rest).or after)
    .replaced token left right ::
      parts meaning ((left ++ meaning token ++ right).getLast?.or written) after rest

theorem map_fragment_parts (fs : List Fragment) :
    (parts meaning written after fs).map Part.fragment = fs := by
  induction fs generalizing written with
  | nil => rfl
  | cons s rest ih =>
    cases s with
    | plain text => exact congrArg (Fragment.plain text :: ·) ih
    | reference token => exact congrArg (Fragment.reference token :: ·) ih

theorem flatMap_written_parts (fs : List Fragment) :
    (parts meaning written after fs).flatMap (Part.written meaning) =
      splice meaning written after fs := by
  induction fs generalizing written with
  | nil => rfl
  | cons s rest ih =>
    cases s with
    | plain text => exact congrArg (text ++ ·) ih
    | reference token => exact congrArg (spaced meaning written _ token ++ ·) ih

/-- The space to the left of a text depends on the output before it, the one to its right on the source
behind it. -/
theorem spaces_of_parts {fs : List Fragment} {front back : List Part} {token left right : Text}
    (cut : parts meaning written after fs = front ++ .replaced token left right :: back) :
    left = separator ((front.flatMap (Part.written meaning)).getLast?.or written)
        (meaning token).head? ∧
      right = separator (meaning token).getLast? ((firstChar (back.map Part.fragment)).or after) := by
  induction fs generalizing written front with
  | nil => simp [parts] at cut
  | cons s rest ih =>
    cases s with
    | plain text =>
      cases front with
      | nil => cases cut
      | cons p front =>
        obtain ⟨rfl, later⟩ := List.cons.inj cut
        rw [List.flatMap_cons, List.getLast?_append, Option.or_assoc]
        exact ih later
    | reference first =>
      cases front with
      | nil =>
        obtain ⟨same, rfl⟩ := List.cons.inj cut
        cases same
        rw [map_fragment_parts]
        exact ⟨rfl, rfl⟩
      | cons p front =>
        obtain ⟨rfl, later⟩ := List.cons.inj cut
        rw [List.flatMap_cons, List.getLast?_append, Option.or_assoc]
        exact ih later

end

namespace Fragment

variable {before : Option Char}

/-- A token that stands right behind another one does not begin like a word. -/
theorem Step.head_of_startsToken {t rest token : Text} (step : Step before t (.reference token) rest)
    (behind : startsToken before = false) : token.head?.any isWordChar = false := by
  cases step with
  | braced fresh valid => rfl
  | current starts all slash stop => rw [behind] at starts; cases starts
  | path starts isPath all stop => rw [behind] at starts; cases starts

theorem Step.source_ne_nil {t rest : Text} {s : Fragment} (step : Step before t s rest) :
    s.source ≠ [] := by
  obtain ⟨c, more, _, same⟩ := next_of_step step
  have nonempty := source_next_ne_nil before c more
  rwa [same] at nonempty

/-- A fragment that others follow leaves no literal open. -/
theorem Step.terminated {t rest : Text} {s : Fragment} (step : Step before t s rest)
    (left : rest ≠ []) : Terminated s.source := by
  cases s with
  | reference token => exact step.shape.terminated
  | plain text =>
    cases step with
    | literal proper => exact Literal.terminated_render proper
    | unclosed quote fresh => exact absurd rfl left
    | char plain noToken => exact (terminated_cons plain []).2 rfl

end Fragment

/-- How the first fragment of a text was read. -/
theorem step_of_fragments {before : Option Char} {t : Text} {s : Fragment} {fs : List Fragment}
    (read : fragments before t = s :: fs) :
    Fragment.Step before t s (fs.flatMap Fragment.source) := by
  cases t with
  | nil =>
    rw [fragments, Scanner.items_nil] at read
    cases read
  | cons c rest =>
    have step := Fragment.step_next before c rest
    rw [fragments_step step] at read
    obtain ⟨rfl, rfl⟩ := List.cons.inj read
    have whole := Fragment.scanner.flatMap_source_items
      (Fragment.next before c rest).1.source.getLast? (Fragment.next before c rest).2
    change (fragments _ _).flatMap Fragment.source = _ at whole
    rwa [whole]

theorem step_between {before : Option Char} {t : Text} {fs gs : List Fragment} {s : Fragment}
    (cut : fragments before t = fs ++ s :: gs) :
    Fragment.Step ((fs.flatMap Fragment.source).getLast?.or before)
      (s.source ++ gs.flatMap Fragment.source) s (gs.flatMap Fragment.source) :=
  step_of_fragments (Scanner.items_behind Fragment.scanner cut).symm

/-- Fragments are found outside literals. -/
theorem terminated_before {before : Option Char} {t : Text} {fs gs : List Fragment} {s : Fragment}
    (cut : fragments before t = fs ++ s :: gs) : Terminated (fs.flatMap Fragment.source) := by
  induction fs generalizing before t with
  | nil => rfl
  | cons first rest ih =>
    rw [List.cons_append] at cut
    have step := step_of_fragments cut
    have later := @Scanner.items_behind _ Fragment.scanner before t [first] _ cut
    have nonempty := (@step_between before t (first :: rest) gs s cut).source_ne_nil
    rw [List.flatMap_cons]
    refine terminated_append (step.terminated fun empty => nonempty ?_) (ih later.symm)
    rw [List.flatMap_append, List.flatMap_cons] at empty
    exact (List.append_eq_nil_iff.1 (List.append_eq_nil_iff.1 empty).2).1

section

variable {meaning : Text → Text} {t : Text}

theorem mem_tokens {fs gs : List Fragment} {token : Text}
    (read : fragments none t = fs ++ .reference token :: gs) : token ∈ tokens t := by
  rw [tokens, read]
  simp

theorem getLast?_flatMap_concat {α : Type} (f : α → Text) (us : List α) {u : α} (nonempty : f u ≠ []) :
    ((us ++ [u]).flatMap f).getLast? = (f u).getLast? := by
  rw [List.flatMap_append, List.flatMap_singleton, List.getLast?_append,
    List.getLast?_eq_some_getLast nonempty, Option.some_or]

theorem firstChar_cons {s : Fragment} (nonempty : s.source ≠ []) (rest : List Fragment) :
    firstChar (s :: rest) = s.source.head? := by
  rw [firstChar, List.head?_eq_some_head nonempty, Option.some_or]

/-- Between two references that stand side by side, the space that may be needed is written for the
second one. -/
theorem spaces_of_glued {front back : List Part} {token left right later l r : Text}
    (cut : parts meaning none none (fragments none t) =
      front ++ .replaced token left right :: .replaced later l r :: back)
    (nonempty : meaning token ≠ []) :
    later.head?.any isWordChar = false ∧ right = [] ∧
      l = separator (meaning token).getLast? (meaning later).head? := by
  have inner : parts meaning none none (fragments none t) =
      (front ++ [.replaced token left right]) ++ .replaced later l r :: back := by
    rw [cut, List.append_assoc]
    rfl
  have read := congrArg (List.map Part.fragment) inner
  rw [map_fragment_parts, List.map_append, List.map_append] at read
  have step := step_between read
  have shape := (step_between (read.trans (List.append_assoc _ _ _))).shape
  have glued : startsToken ((front.map Part.fragment ++ [Fragment.reference token]).flatMap
      Fragment.source).getLast? = false := by
    rw [getLast?_flatMap_concat Fragment.source _ (u := .reference token) shape.ne_nil]
    exact shape.startsToken
  rw [Option.or_none] at step
  have plain : later.head?.any isWordChar = false := step.head_of_startsToken glued
  have noSpace : right = [] := by
    rw [(spaces_of_parts cut).2, Option.or_none, List.map_cons, firstChar_cons step.source_ne_nil]
    exact separator_plain plain
  refine ⟨plain, noSpace, ?_⟩
  have visible : (Part.replaced token left right).written meaning ≠ [] := by
    simp [Part.written, nonempty]
  rw [(spaces_of_parts inner).1, Option.or_none, getLast?_flatMap_concat _ _ visible, Part.written,
    noSpace, List.append_nil, List.getLast?_append, List.getLast?_eq_some_getLast nonempty,
    Option.some_or]

/-- Behind a text it makes no difference to the space that is needed whether the source or the output is
looked at. -/
theorem separator_behind {front back : List Part} {token left right : Text}
    (cut : parts meaning none none (fragments none t) = front ++ .replaced token left right :: back)
    (nonempty : ∀ token ∈ tokens t, meaning token ≠ []) :
    separator (meaning token).getLast? (firstChar (back.map Part.fragment)) =
      separator (meaning token).getLast? (back.flatMap (Part.written meaning)).head? := by
  have read := congrArg (List.map Part.fragment) cut
  rw [map_fragment_parts, List.map_append, List.map_cons] at read
  cases back with
  | nil => rfl
  | cons p back =>
    have place : fragments none t = (front.map Part.fragment ++ [Fragment.reference token]) ++
        p.fragment :: back.map Part.fragment := by
      rw [read, List.append_assoc]
      rfl
    have visible := (step_between place).source_ne_nil
    rw [List.map_cons, firstChar_cons visible, List.flatMap_cons]
    cases p with
    | copied text =>
      rw [Part.written, @head?_append_left text visible]
      rfl
    | replaced later l r =>
      obtain ⟨plain, -, space⟩ := spaces_of_glued cut (nonempty token (mem_tokens read))
      rw [Part.written, space, List.append_assoc, List.append_assoc,
        separator_separated _ (nonempty later (mem_tokens place))]
      exact separator_plain plain

end

end FormLogic.Field.Reference

namespace FormLogic.Field.Registry

open Text Reference Conversion

variable (r : Registry) (owner : Option Text)

/-- The warning about a reference that no field is found for. -/
def warning? : Part → Option Diagnostic
  | .copied _ => none
  | .replaced token _ _ =>
    match r.resolve token owner with
    | .resolved _ => none
    | .unresolved _ =>
      some (.ofCode .warning .unresolvedReference
        ("Unresolved field reference '".toList ++ token ++ ['\'']))

theorem map_unresolvedTokens {t : Text} {ps : List Part}
    (read : ps.map Part.fragment = fragments none t) :
    (r.unresolvedTokens owner t).map (fun token => (Finding.unresolvedReference token).toDiagnostic) =
      ps.filterMap (r.warning? owner) := by
  rw [unresolvedTokens, tokens, ← read]
  clear read
  induction ps with
  | nil => rfl
  | cons p rest ih =>
    cases p with
    | copied text => exact ih
    | replaced token left right =>
      rw [List.map_cons, Part.fragment, List.filterMap_cons, List.filter_cons, List.filterMap_cons,
        warning?]
      cases r.resolve token owner with
      | resolved e => exact ih
      | unresolved text => exact congrArg (_ :: ·) ih

/-- Where no reference stands for the empty text, an expression with its references replaced is made of
the parts of the source, read from left to right: all but references is copied, and each reference
outside literals gives way to its text, which is set off from the words beside it. There is one warning
for each reference that no field is found for, in their order. -/
theorem replaceReferences_parts (t : Text)
    (nonempty : ∀ token ∈ tokens t, (r.resolve token owner).text ≠ []) :
    ∃ ps : List Part,
      ps.flatMap Part.source = t ∧
      r.replaceReferences owner t =
        ps.flatMap (Part.written fun token => (r.resolve token owner).text) ∧
      (∀ front p back, ps = front ++ p :: back →
        Terminated (front.flatMap Part.source) ∧
        Fragment.Step (front.flatMap Part.source).getLast? (p.source ++ back.flatMap Part.source)
          p.fragment (back.flatMap Part.source)) ∧
      (∀ front token left right back, ps = front ++ .replaced token left right :: back →
        SetOff (front.flatMap (Part.written fun token => (r.resolve token owner).text)) left
          (r.resolve token owner).text right
          (back.flatMap (Part.written fun token => (r.resolve token owner).text))) ∧
      (r.unresolvedTokens owner t).map
          (fun token => (Finding.unresolvedReference token).toDiagnostic) =
        ps.filterMap (r.warning? owner) := by
  have source (ps : List Part) :
      ps.flatMap Part.source = (ps.map Part.fragment).flatMap Fragment.source :=
    (List.flatMap_map Part.fragment Fragment.source ps).symm
  have read := @map_fragment_parts (fun token => (r.resolve token owner).text) none none
    (fragments none t)
  refine ⟨_, ?_, (flatMap_written_parts _).symm, ?_, ?_, r.map_unresolvedTokens owner read⟩
  · rw [source, read]
    exact Fragment.scanner.flatMap_source_items none t
  · intro front p back cut
    rw [cut, List.map_append, List.map_cons] at read
    have step := step_between read.symm
    rw [Option.or_none] at step
    rw [source, source]
    exact ⟨terminated_before read.symm, step⟩
  · intro front token left right back cut
    obtain ⟨before, behind⟩ := spaces_of_parts cut
    rw [Option.or_none] at before behind
    rw [before, behind, separator_behind cut nonempty]
    exact setOff_separator _ _ _

/-- The registry of one field, `/data/age`. -/
def oneField : Registry := (Registry.empty.register "/data/age".toList "age".toList).2

/-- References beside words, beside each other and within a literal. -/
theorem replaceReferences_parts_glued :
    (∀ token ∈ tokens "$\x7bage\x7dand$\x7bnope\x7d$\x7bage\x7d='$\x7bage\x7d'".toList,
      (oneField.resolve token none).text ≠ []) ∧
    ∃ ps : List Part,
      ps.flatMap (Part.written fun token => (oneField.resolve token none).text) =
        "age and nope age='$\x7bage\x7d'".toList ∧
      ps.filterMap (oneField.warning? none) =
        [.ofCode .warning ⟨1⟩ "Unresolved field reference '$\x7bnope\x7d'".toList] := by
  have nonempty : ∀ token ∈ tokens "$\x7bage\x7dand$\x7bnope\x7d$\x7bage\x7d='$\x7bage\x7d'".toList,
      (oneField.resolve token none).text ≠ [] := by decide +kernel
  obtain ⟨ps, _, written, _, _, warnings⟩ := oneField.replaceReferences_parts none _ nonempty
  exact ⟨nonempty, ps, written.symm.trans (by decide +kernel), warnings.symm.trans (by decide +kernel)⟩

end FormLogic.Field.Registry
