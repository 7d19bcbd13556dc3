import FormLogic.Proofs.Identifiers
import FormLogic.Proofs.NameIndex
import FormLogic.Proofs.Output
import FormLogic.Proofs.Pointing
import FormLogic.Proofs.Spelling

/-!
References that stand alone. A text without a parenthesis holds no call, so its conversion is the
replacement of its references and the spelling of its operators. A field whose name no other field
has is found by `${name}`, and what is written for it is the identifier, letter by letter; only an
identifier that is itself a boolean word is taken for an operator and spaced.
-/
namespace FormLogic

open Text

namespace Call

variable {accept : Text → Bool} {before : Option Char} {t : Text}

theorem plain_of_noGroup (noGroup : '(' ∉ t) {p : Piece} (member : p ∈ pieces accept before t) :
    ∃ text, p = .plain text := by
  have inside : ∀ c ∈ p.render, c ∈ t := fun c found => by
    rw [← joined_pieces accept before t]
    exact List.mem_flatMap.2 ⟨p, member, found⟩
  cases p with
  | plain text => exact ⟨text, rfl⟩
  | call c => exact absurd (inside '(' (by simp [Piece.render, Call.render])) noGroup
  | unbalanced run gap => exact absurd (inside '(' (by simp [Piece.render])) noGroup

end Call

namespace Conversion

open FormLogic.Field FormLogic.Field.Reference

variable {k : Converter} {owner : Option Text} {t : Text}

theorem replacePieces_plain {convert : Text → Except Failure Draft} {ps : List Call.Piece}
    (plain : ∀ p ∈ ps, ∃ text, p = .plain text) (start : Nat) :
    k.replacePieces owner convert start ps = .ok (Call.joined ps, []) := by
  induction ps generalizing start with
  | nil => rfl
  | cons p rest ih =>
    rw [List.forall_mem_cons] at plain
    obtain ⟨⟨text, rfl⟩, others⟩ := plain
    exact replacePieces_cons_eq_ok.2 ⟨(text, []), _, rfl, ih others _, rfl⟩

theorem replaceCalls_of_noGroup {convert : Text → Except Failure Draft} (noGroup : '(' ∉ t)
    (stage : Stage) : k.replaceCalls owner convert stage t = .ok (t, []) := by
  have plain := @Call.plain_of_noGroup (k.rules.runsIn · stage) none t noGroup
  rw [Converter.replaceCalls, Call.piecesOf, replacePieces_plain fun p => plain, Call.joined_pieces]

theorem unknownFunctions_of_noGroup {rules : RuleSet} (noGroup : '(' ∉ t) (depth : Nat) :
    unknownFunctions rules depth t = [] := by
  cases depth with
  | zero => rfl
  | succ depth =>
    rw [unknownFunctions, List.flatMap_eq_nil_iff]
    intro p member
    obtain ⟨text, rfl⟩ := Call.plain_of_noGroup noGroup member
    rfl

/-- The conversion of a text without a parenthesis, into one without. -/
theorem convertFor_of_noGroup (noGroup : '(' ∉ t) (noneWritten : '(' ∉ k.finish owner t) :
    k.convertFor owner t =
      .ok ⟨k.finish owner t, (((k.registry.unresolvedTokens owner t).map
        Finding.unresolvedReference).map Finding.toDiagnostic).eraseDups⟩ := by
  obtain ⟨depth, levels⟩ := Nat.exists_eq_add_of_lt (Converter.depthFor_pos t)
  have within : k.convertWithin owner (Converter.depthFor t) t =
      .ok (k.finish owner t,
        (k.registry.unresolvedTokens owner t).map Finding.unresolvedReference) := by
    rw [levels, Nat.zero_add]
    exact convertWithin_succ_eq_ok.2 ⟨(t, []), (t, []), replaceCalls_of_noGroup noGroup .logical,
      replaceCalls_of_noGroup noGroup .predicate, rfl⟩
  refine convertFor_eq_ok.2 ⟨_, within, ?_⟩
  rw [unknownFunctions_of_noGroup noneWritten, List.map_nil, List.append_nil]

end Conversion

namespace Field.Reference

variable {name : Text}

theorem fragments_braced (fresh : '}' ∉ name) (valid : (bracedName? name).isSome = true) :
    fragments none (['$', '{'] ++ name ++ ['}']) = [.reference (['$', '{'] ++ name ++ ['}'])] := by
  have step := @Fragment.Step.braced none name [] fresh valid
  rw [List.append_nil] at step
  rw [fragments_step step, fragments, Scanner.items_nil]

/-- Nothing is written beside the text for a reference that stands alone. -/
theorem replaced_braced (meaning : Text → Text) (fresh : '}' ∉ name)
    (valid : (bracedName? name).isSome = true) :
    replaced meaning none none none (['$', '{'] ++ name ++ ['}']) =
      meaning (['$', '{'] ++ name ++ ['}']) := by
  rw [replaced, fragments_braced fresh valid, splice_reference, splice, List.append_nil, spaced,
    @separator_plain _ ((firstChar []).or none) rfl, List.append_nil]
  rfl

theorem tokens_braced (fresh : '}' ∉ name) (valid : (bracedName? name).isSome = true) :
    tokens (['$', '{'] ++ name ++ ['}']) = [['$', '{'] ++ name ++ ['}']] := by
  rw [tokens, fragments_braced fresh valid]
  rfl

end Field.Reference

namespace Field.Registry

variable {r : Registry}

theorem lastSegment_of_noSlash {name : Text} (nonempty : name ≠ []) (noSlash : '/' ∉ name) :
    lastSegment name = name := by
  have whole := @segments_joinSegments [name] (by simp [nonempty, noSlash])
  rw [joinSegments, List.intercalate_singleton] at whole
  rw [lastSegment, whole]
  rfl

theorem normalPath_of_noSlash {name : Text} (noSlash : '/' ∉ name) : normalPath name = trim name := by
  have absent : '/' ∉ trim name := fun member => noSlash (mem_of_mem_trim member)
  rw [normalPath, if_neg (by simpa using absent)]

/-- A field whose name no other field has is found by its name, also where some field is declared
under a bare name. -/
theorem lookup?_name (indexed : Indexed r) (sound : Sound r) {e : Entry} (member : e ∈ r.entries)
    (nonempty : e.name ≠ []) (noSlash : '/' ∉ e.name) (trimmed : trim e.name = e.name)
    (only : ∀ d ∈ r.entries, d.name = e.name → d = e) : r.lookup? e.name = some e := by
  have byName := indexed.byName?_of_only sound member only
  rw [lookup?, get?, normalPath_of_noSlash noSlash, trimmed, lastSegment_of_noSlash nonempty noSlash,
    byName]
  cases found : r.at? e.name with
  | none => rfl
  | some d =>
    obtain ⟨known, path⟩ := at?_eq_some found
    have named : d.name = e.name := by
      rw [sound.named d known, path, lastSegment_of_noSlash nonempty noSlash]
    rw [only d known named]
    rfl

theorem resolve_braced {name : Text} (bare : bracedName? name = some name) {e : Entry}
    (found : r.lookup? name = some e) (owner : Option Text) :
    r.resolve (['$', '{'] ++ name ++ ['}']) owner = .resolved e := by
  rw [resolve, trim_braced, braceName?_braced, bare]
  dsimp only
  rw [found]
  rfl

theorem lastSegment_ne_nil {path : Text} (nonempty : path ≠ []) : lastSegment path ≠ [] := by
  rw [lastSegment]
  cases last : (segments path).getLast? with
  | none => exact nonempty
  | some segment => exact (of_mem_segments (List.mem_of_getLast? last)).1

end Field.Registry

namespace Operator

/-- A boolean word that stands alone is an operator. -/
theorem normalize_word (word : BooleanWord) :
    normalize word.render = [' ', ' '] ++ word.render ++ [' ', ' '] := by
  cases word <;> decide +kernel

/-- A run of letters and digits that is no boolean word stays as it is. -/
theorem normalize_alphanum {name : Text} (all : ∀ c ∈ name, c.isAlphanum = true)
    (noWord : ∀ word : BooleanWord, name ≠ word.render) : normalize name = name := by
  have word := Grammar.booleanWord?_alphanum (t := []) all noWord none rfl
  have whole := Grammar.tokens_alphanum none all word
  rw [tokens_nil, List.append_nil] at whole
  rw [normalize, whole, Grammar.render_other, render, List.append_nil]

/-- The form of a run of letters and digits in the target grammar. -/
theorem normalize_of_alphanum {name : Text} (all : ∀ c ∈ name, c.isAlphanum = true) :
    normalize name =
      if name = BooleanWord.conjunction.render ∨ name = BooleanWord.disjunction.render then
        [' ', ' '] ++ name ++ [' ', ' ']
      else name := by
  split
  · next word =>
    rcases word with rfl | rfl <;> exact normalize_word _
  · next other =>
    rw [not_or] at other
    exact normalize_alphanum all fun word => word.casesOn other.1 other.2

end Operator

namespace Conversion

open FormLogic.Field FormLogic.Field.Reference Operator

/-- A `${name}` token whose field is found is converted into the field's identifier, which is spelled
as any other text is. -/
theorem convertFor_reference {k : Converter} {owner : Option Text} {name : Text} {e : Entry}
    (policy : k.options.quotePolicy ≠ .double) (bare : bracedName? name = some name)
    (resolved : k.registry.resolve (['$', '{'] ++ name ++ ['}']) owner = .resolved e)
    (all : ∀ c ∈ e.identifier, c.isAlphanum = true) :
    k.convertFor owner (['$', '{'] ++ name ++ ['}']) = .ok ⟨normalize e.identifier, []⟩ := by
  have named := (bracedName?_eq_some bare).2.2
  have absent {c : Char} (other : isBracedNameChar c = false) : c ∉ name :=
    fun member => by rw [named c member] at other; cases other
  have fresh : '}' ∉ name := absent (by decide)
  have valid : (bracedName? name).isSome = true := by rw [bare]; rfl
  have written : k.finish owner (['$', '{'] ++ name ++ ['}']) = normalize e.identifier := by
    rw [Converter.finish, if_neg policy, Registry.replaceReferences, replaced_braced _ fresh valid,
      resolved]
    rfl
  have unresolved : k.registry.unresolvedTokens owner (['$', '{'] ++ name ++ ['}']) = [] := by
    rw [Registry.unresolvedTokens, tokens_braced fresh valid, List.filter_singleton, resolved]
    rfl
  have noGroup : '(' ∉ ['$', '{'] ++ name ++ ['}'] := by
    have noName : '(' ∉ name := absent (by decide)
    simp [noName]
  have noneWritten : '(' ∉ k.finish owner (['$', '{'] ++ name ++ ['}']) := by
    have noIdentifier : '(' ∉ e.identifier := fun member => absurd (all '(' member) (by decide)
    rw [written, normalize_of_alphanum all]
    split <;> simp [noIdentifier]
  rw [convertFor_of_noGroup noGroup noneWritten, written, unresolved]
  rfl

theorem isAlphanum_of_ofPaths {paths : List Text} {r : Registry}
    (made : Registry.ofPaths paths = .ok r) {e : Entry} (member : e ∈ r.entries) :
    ∀ c ∈ e.identifier, c.isAlphanum = true := by
  obtain ⟨d, pair⟩ := Registry.exists_declaration made member
  obtain ⟨path, _, rfl⟩ := List.mem_map.1 (List.of_mem_zip pair).1
  obtain ⟨pool, _, _, identifier⟩ := Registry.made_of_mem_entries made pair rfl
  rw [identifier]
  exact fun c => Name.isAlphanum_of_mem_nameFor_question

/-- In a registry made of paths, `${name}` is converted into the identifier of the field with that
name if no other field has the name, and nothing is reported; an identifier that is a boolean word
is spaced as an operator. -/
theorem convert_braced {paths : List Text} {r : Registry} (made : Registry.ofPaths paths = .ok r)
    {e : Entry} (member : e ∈ r.entries) (named : ∀ c ∈ e.name, isBracedNameChar c = true)
    (visible : ∀ c ∈ e.name, isBlank c = false)
    (only : ∀ d ∈ r.entries, d.name = e.name → d = e) :
    (Converter.withDefaults r).convert (['$', '{'] ++ e.name ++ ['}']) =
      .ok ⟨if e.identifier = BooleanWord.conjunction.render ∨
            e.identifier = BooleanWord.disjunction.render then
          [' ', ' '] ++ e.identifier ++ [' ', ' ']
        else e.identifier, []⟩ := by
  have built := Registry.built_ofDeclarations made
  have nonempty : e.name ≠ [] := by
    rw [built.sound.named e member]
    exact Registry.lastSegment_ne_nil (Registry.path_ne_nil made member)
  have noSlash : '/' ∉ e.name := fun slash => absurd (named '/' slash) (by decide)
  have trimmed : trim e.name = e.name := trim_of_trimmed
    ⟨fun c first => visible c (List.mem_of_head? first),
      fun c last => visible c (List.mem_of_getLast? last)⟩
  have bare : bracedName? e.name = some e.name := by
    rw [bracedName?, trimmed]
    exact if_pos ⟨nonempty, List.all_eq_true.2 named⟩
  have found :=
    Registry.lookup?_name built.indexed built.sound member nonempty noSlash trimmed only
  have alphanumeric := isAlphanum_of_ofPaths made member
  rw [← normalize_of_alphanum alphanumeric]
  exact convertFor_reference (k := .withDefaults r) QuotePolicy.noConfusion bare
    (Registry.resolve_braced bare found none) alphanumeric

/-- Two fields whose names are cut down to one identifier. -/
def hyphenated : List Text := ["/data/first-name".toList, "/data/first.name".toList]

theorem convert_braced_hyphenated :
    ∃ r e, Registry.ofPaths hyphenated = .ok r ∧ e ∈ r.entries ∧ e.name = "first.name".toList ∧
      e.identifier = "firstname1".toList ∧ (∀ c ∈ e.name, isBracedNameChar c = true) ∧
      (∀ c ∈ e.name, isBlank c = false) ∧ (∀ d ∈ r.entries, d.name = e.name → d = e) ∧
      (Converter.withDefaults r).convert (['$', '{'] ++ e.name ++ ['}']) =
        .ok ⟨e.identifier, []⟩ := by
  have outcome : (Registry.ofPaths hyphenated).toOption.map Registry.entries =
      some [⟨"/data/first-name".toList, "first-name".toList, "firstname".toList, []⟩,
        ⟨"/data/first.name".toList, "first.name".toList, "firstname1".toList, []⟩] := by
    decide +kernel
  obtain ⟨r, made, entries⟩ := Registry.exists_of_entries outcome
  have member : ⟨"/data/first.name".toList, "first.name".toList, "firstname1".toList, []⟩ ∈
      r.entries := by
    rw [entries]
    exact List.mem_cons_of_mem _ List.mem_cons_self
  have named : ∀ c ∈ "first.name".toList, isBracedNameChar c = true := by decide +kernel
  have visible : ∀ c ∈ "first.name".toList, isBlank c = false := by decide +kernel
  have only : ∀ d ∈ r.entries, d.name = "first.name".toList →
      d = ⟨"/data/first.name".toList, "first.name".toList, "firstname1".toList, []⟩ := by
    rw [entries]
    decide +kernel
  have converted := convert_braced made member named visible only
  rw [if_neg (by decide +kernel)] at converted
  exact ⟨r, _, made, member, rfl, rfl, named, visible, only, converted⟩

/-- The identifier of a field that is named like an operator is spaced like one. -/
theorem boolean_identifier_spaced :
    (Registry.ofPaths ["/data/and".toList]).toOption.map (fun r =>
      (r.entries, ((Converter.withDefaults r).convert "$\x7band\x7d".toList).toOption)) =
        some ([⟨"/data/and".toList, "and".toList, "and".toList, []⟩],
          some ⟨"  and  ".toList, []⟩) := by
  decide +kernel

end Conversion

end FormLogic
