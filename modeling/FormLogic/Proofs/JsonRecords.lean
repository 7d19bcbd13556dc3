import FormLogic.Form.Written
import FormLogic.Proofs.JsonReading
import Mathlib.Data.List.Nodup

/-!
Form descriptions, fields, diagnostics and options survive being written. A record is read by its
keys, so a field that was left out comes back as what stands for it when it is missing; what is
written of each type is such that this gives the value that was written.
-/
namespace FormLogic.Json

open Text

/-! ### Records -/

section Records

variable {fields : List Field} {values : List (Option Json)}

/-- What a written record is read as, field by field. -/
def readBack (fields : List Field) (values : List (Option Json)) : Option (List Json) :=
  (fields.zip values).mapM fun (f, value) => value.or f.inObject?

/-- The keys of a written record with their values. -/
def written (fields : List Field) (values : List (Option Json)) : List (Text × Json) :=
  (fields.zip values).flatMap fun (f, value) => (value.map (f.key, ·)).toList

theorem readKeys?_keyed (given : List (Text × Json)) : readKeys? (keyed given) = some given :=
  mapM_map_of_read fun field _ => by
    obtain ⟨key, value⟩ := field
    exact congrArg (Option.map (·, value)) (contents?_units key)

theorem key_of_mem_written {key : Text} {value : Json} (member : (key, value) ∈ written fields values) :
    key ∈ fields.map Field.key := by
  obtain ⟨⟨f, v⟩, pair, found⟩ := List.mem_flatMap.1 member
  rw [Option.mem_toList, Option.map_eq_some_iff] at found
  obtain ⟨_, _, same⟩ := found
  cases same
  exact List.mem_map_of_mem (List.of_mem_zip pair).1

theorem filter_written_of_absent {key : Text} (absent : key ∉ fields.map Field.key) :
    (written fields values).filter (·.1 == key) = [] := by
  refine List.filter_eq_nil_iff.2 fun ⟨other, value⟩ member => ?_
  rw [beq_iff_eq]
  rintro rfl
  exact absent (key_of_mem_written member)

/-- Where no two fields have one key, each is found under its own. -/
theorem filter_written (distinct : (fields.map Field.key).Nodup) {f : Field} {value : Option Json}
    (member : (f, value) ∈ fields.zip values) :
    (written fields values).filter (·.1 == f.key) = (value.map (f.key, ·)).toList := by
  induction fields generalizing values with
  | nil => cases member
  | cons first fields ih =>
    cases values with
    | nil => cases member
    | cons head values =>
      obtain ⟨fresh, others⟩ := List.nodup_cons.1 distinct
      have whole : written (first :: fields) (head :: values) =
          (head.map (first.key, ·)).toList ++ written fields values := rfl
      rw [whole, List.filter_append]
      rcases List.mem_cons.1 member with same | member
      · cases same
        rw [filter_written_of_absent fresh]
        cases value <;> simp
      · have other : first.key ≠ f.key := fun same =>
          fresh (same ▸ List.mem_map_of_mem (List.of_mem_zip member).1)
        rw [ih others member]
        cases head <;> simp [other]

/-- A record that was written is read field by field. -/
theorem record?_ofRecord (distinct : (fields.map Field.key).Nodup)
    (complete : fields.length ≤ values.length) :
    record? fields (ofRecord fields values) = readBack fields values := by
  have each : ∀ pair ∈ fields.zip values,
      fieldValue? (written fields values) pair.1 = pair.2.or pair.1.inObject? := by
    rintro ⟨f, value⟩ member
    rw [fieldValue?, filter_written distinct member]
    cases value <;> rfl
  have read : record? fields (ofRecord fields values) =
      fields.mapM (fieldValue? (written fields values)) := by
    change (readKeys? (keyed (written fields values))).bind _ = _
    rw [readKeys?_keyed, Option.bind_some]
  have parts : fields = (fields.zip values).map Prod.fst := (List.map_fst_zip complete).symm
  calc record? fields (ofRecord fields values)
      = ((fields.zip values).map Prod.fst).mapM (fieldValue? (written fields values)) := by
        rw [read, ← parts]
    _ = (fields.zip values).mapM (fieldValue? (written fields values) ∘ Prod.fst) :=
        List.mapM_map
    _ = readBack fields values := mapM_congr each

/-- A field of a record is left out or has a value made of texts and natural numbers. -/
def Writable (value : Option Json) : Prop := ∀ j ∈ value, Textual j

theorem writable_some {j : Json} (textual : Textual j) : Writable (some j) := fun k member => by
  cases member
  exact textual

theorem writable_map {α : Type} {write : α → Json} (x : Option α)
    (textual : ∀ y, Textual (write y)) : Writable (x.map write) := fun j member => by
  obtain ⟨y, -, rfl⟩ := Option.map_eq_some_iff.1 member
  exact textual y

theorem textual_ofRecord (all : values.Forall Writable) : Textual (ofRecord fields values) := by
  refine .fields fun ⟨key, j⟩ member => ?_
  obtain ⟨⟨f, value⟩, pair, found⟩ := List.mem_flatMap.1 member
  rw [Option.mem_toList, Option.map_eq_some_iff] at found
  obtain ⟨j, given, same⟩ := found
  cases same
  exact List.forall_iff_forall_mem.1 all value (List.of_mem_zip pair).2 j given

end Records

/-! ### Parts of records -/

theorem text?_ofText (t : Text) : text? (ofText t) = some t := contents?_units t

theorem natBelow?_ofNat {limit n : Nat} (below : n < limit) :
    natBelow? limit (ofNat n) = some n := if_pos below

section Parts

variable {α : Type} {read : Json → Option α} {write : α → Json}

theorem listOf?_array {xs : List α} (back : ∀ x ∈ xs, read (write x) = some x) :
    listOf? read (.array (xs.map write)) = some xs := mapM_map_of_read back

/-- A value that is not written as null is told apart from a missing one. -/
theorem nullable?_getD {x : Option α} (back : ∀ y ∈ x, read (write y) = some y)
    (visible : ∀ y, write y ≠ null) : nullable? read ((x.map write).getD .null) = some x := by
  cases x with
  | none => rfl
  | some y =>
    have present : nullable? read (write y) = (read (write y)).map some := by
      unfold nullable?
      split
      · next eq => exact absurd eq (visible y)
      · rfl
    rw [Option.map_some, Option.getD_some, present, back y rfl, Option.map_some]

theorem textual_array {xs : List α} (textual : ∀ x, Textual (write x)) :
    Textual (.array (xs.map write)) := .array fun j member => by
  obtain ⟨x, -, rfl⟩ := List.mem_map.1 member
  exact textual x

theorem textual_getD {x : Option α} (textual : ∀ y, Textual (write y)) :
    Textual ((x.map write).getD .null) := by
  cases x with
  | none => exact .null
  | some y => exact textual y

/-- The members of an enumeration are known by their names. -/
theorem variant?_ofText {all : List α} {name : α → Text} {x : α} (member : x ∈ all)
    (distinct : ∀ y ∈ all, name y = name x → y = x) :
    variant? all name (ofText (name x)) = some x := by
  have written : variantName? (ofText (name x)) = some (name x) := contents?_units (name x)
  have found : (all.find? (name · == name x)).isSome := List.find?_isSome.2 ⟨x, member, by simp⟩
  obtain ⟨y, found⟩ := Option.isSome_iff_exists.1 found
  have same := distinct y (List.mem_of_find?_eq_some found) (by simpa using List.find?_some found)
  rw [variant?, written, ← same]
  simpa [same] using found

end Parts

end FormLogic.Json

namespace FormLogic

open Text Json

/-! ### Fields -/

namespace Field

theorem Choices.set_of_fresh {choices : Choices} {value code : Text}
    (fresh : value ∉ choices.map Prod.fst) : choices.set value code = choices ++ [(value, code)] := by
  have unknown : (choices.lookup value).isSome = false := by
    rw [Bool.eq_false_iff, Ne, List.lookup_isSome_iff]
    rintro ⟨choice, member, same⟩
    exact fresh (List.mem_map.2 ⟨choice, member, (beq_iff_eq.1 same).symm⟩)
  rw [Choices.set, unknown]
  rfl

/-- Distinct values are added one behind the other. -/
theorem Choices.foldl_set {choices added : Choices}
    (distinct : ((choices ++ added).map Prod.fst).Nodup) :
    added.foldl (fun choices (value, code) => choices.set value code) choices =
      choices ++ added := by
  induction added generalizing choices with
  | nil => simp
  | cons choice added ih =>
    obtain ⟨value, code⟩ := choice
    have fresh : value ∉ choices.map Prod.fst := fun member => by
      rw [List.map_append, List.nodup_append] at distinct
      exact distinct.2.2 value member value (by simp) rfl
    have later := @ih (choices ++ [(value, code)]) (by simpa using distinct)
    rw [List.foldl_cons]
    dsimp only
    rw [Choices.set_of_fresh fresh, later, List.append_assoc]
    rfl

theorem Choices.textual_toJson (choices : Choices) : Textual choices.toJson := by
  refine .fields fun field member => ?_
  obtain ⟨choice, _, rfl⟩ := List.mem_map.1 member
  exact .text choice.2

theorem Choices.ofJson?_toJson {choices : Choices} (distinct : (choices.map Prod.fst).Nodup) :
    Choices.ofJson? choices.toJson = some choices := by
  have keys := readKeys?_keyed (choices.map fun choice => (choice.1, ofText choice.2))
  have codes : (choices.map fun choice => (choice.1, ofText choice.2)).mapM
      (fun pair => (text? pair.2).map (pair.1, ·)) = some choices :=
    mapM_map_of_read fun choice _ => congrArg (Option.map (choice.1, ·)) (text?_ofText choice.2)
  have added := @Choices.foldl_set [] choices distinct
  simp only [Choices.toJson, ofFields, ofJson?]
  simp only [keyed] at keys
  simp only [keys, codes, Option.bind_eq_bind, Option.bind_some, added]
  rfl

theorem Entry.textual_toJson (e : Entry) : Textual e.toJson := by
  refine textual_ofRecord ⟨writable_some (.text _), writable_some (.text _),
    writable_some (.text _), ?_⟩
  split
  · exact fun _ none => nomatch none
  · exact writable_some e.choices.textual_toJson

/-- An entry whose choice values are distinct is read as it was written. -/
theorem Entry.ofJson?_toJson {e : Entry} (distinct : (e.choices.map Prod.fst).Nodup) :
    Entry.ofJson? e.toJson = some e := by
  have read : record? recordFields e.toJson =
      some [ofText e.path, ofText e.name, ofText e.identifier, e.choices.toJson] := by
    refine (record?_ofRecord (by decide) (Nat.le_refl _)).trans ?_
    obtain ⟨path, name, identifier, choices⟩ := e
    cases choices <;> rfl
  simp only [ofJson?, read, text?_ofText, Choices.ofJson?_toJson distinct, Option.bind_eq_bind,
    Option.bind_some]
  rfl

theorem Declaration.textual_toJson (d : Declaration) : Textual d.toJson := by
  refine textual_ofRecord ⟨writable_some (.text _), writable_some (textual_getD .text),
    writable_some (textual_array .text)⟩

/-- A declaration is read as it was written. -/
theorem Declaration.ofJson?_toJson (d : Declaration) : Declaration.ofJson? d.toJson = some d := by
  have read : record? recordFields d.toJson = some [ofText d.path,
      (d.identifier.map ofText).getD .null, .array (d.choices.map ofText)] :=
    record?_ofRecord (by decide) (Nat.le_refl _)
  have identifier : nullable? text? ((d.identifier.map ofText).getD .null) = some d.identifier :=
    nullable?_getD (fun t _ => text?_ofText t) fun _ same => nomatch same
  have choices : listOf? text? (.array (d.choices.map ofText)) = some d.choices :=
    listOf?_array fun t _ => text?_ofText t
  simp only [ofJson?, read, text?_ofText, identifier, choices, Option.bind_eq_bind,
    Option.bind_some]
  rfl

end Field

/-! ### Diagnostics -/

/-- Codes and offsets that the written form has room for. -/
structure Diagnostic.InRange (d : Diagnostic) : Prop where
  code : d.code.number < 0x10000
  span : ∀ s ∈ d.span, s.start < offsetLimit ∧ s.stop < offsetLimit

theorem Span.textual_toJson (s : Span) : Textual s.toJson :=
  textual_ofRecord ⟨writable_some (.nat _), writable_some (.nat _)⟩

theorem Span.ofJson?_toJson {s : Span} (start : s.start < offsetLimit)
    (stop : s.stop < offsetLimit) : Span.ofJson? s.toJson = some s := by
  have read : record? recordFields s.toJson = some [.ofNat s.start, .ofNat s.stop] :=
    record?_ofRecord (by decide) (Nat.le_refl _)
  simp only [ofJson?, read, natBelow?_ofNat start, natBelow?_ofNat stop, Option.bind_eq_bind,
    Option.bind_some]
  rfl

theorem Severity.ofJson?_name (s : Severity) : Severity.ofJson? (ofText s.name) = some s := by
  refine variant?_ofText ?_ fun other _ => ?_
  · cases s <;> decide
  · cases s <;> cases other <;> decide

theorem Diagnostic.textual_toJson (d : Diagnostic) : Textual d.toJson :=
  textual_ofRecord ⟨writable_some (.text _), writable_some (.nat _), writable_some (.text _),
    writable_map _ Span.textual_toJson, writable_map _ .text⟩

/-- A diagnostic is read as it was written, whether or not it has a place and a help text. -/
theorem Diagnostic.ofJson?_toJson {d : Diagnostic} (inRange : d.InRange) :
    Diagnostic.ofJson? d.toJson = some d := by
  have read : record? recordFields d.toJson = some [ofText d.severity.name,
      .ofNat d.code.number, ofText d.message, (d.span.map Span.toJson).getD .null,
      (d.help.map ofText).getD .null] := by
    refine (record?_ofRecord (by decide) (Nat.le_refl _)).trans ?_
    cases d.span <;> cases d.help <;> rfl
  have code : Code.ofJson? (.ofNat d.code.number) = some d.code := by
    rw [Code.ofJson?, natBelow?_ofNat inRange.code]
    rfl
  have span : nullable? Span.ofJson? ((d.span.map Span.toJson).getD .null) = some d.span :=
    nullable?_getD (fun s member => Span.ofJson?_toJson (inRange.span s member).1
      (inRange.span s member).2) fun _ same => nomatch same
  have help : nullable? text? ((d.help.map ofText).getD .null) = some d.help :=
    nullable?_getD (fun t _ => text?_ofText t) fun _ same => nomatch same
  simp only [ofJson?, read, Severity.ofJson?_name, code, text?_ofText, span, help,
    Option.bind_eq_bind, Option.bind_some]
  rfl

/-! ### Options -/

theorem QuotePolicy.ofJson?_name (p : QuotePolicy) :
    QuotePolicy.ofJson? (ofText p.name) = some p := by
  refine variant?_ofText ?_ fun other _ => ?_
  · cases p <;> decide
  · cases p <;> cases other <;> decide

theorem Options.textual_toJson (o : Options) : Textual o.toJson :=
  textual_ofRecord ⟨writable_some (.text _), writable_some (textual_getD .text)⟩

theorem Options.ofJson?_toJson (o : Options) : Options.ofJson? o.toJson = some o := by
  have read : record? recordFields o.toJson =
      some [ofText o.quotePolicy.name, (o.currentField.map ofText).getD .null] :=
    record?_ofRecord (by decide) (Nat.le_refl _)
  have owner : nullable? text? ((o.currentField.map ofText).getD .null) = some o.currentField :=
    nullable?_getD (fun t _ => text?_ofText t) fun _ same => nomatch same
  simp only [ofJson?, read, QuotePolicy.ofJson?_name, owner, Option.bind_eq_bind, Option.bind_some]
  rfl

/-! ### Form descriptions -/

namespace Form

theorem Column.ofJson?_name (c : Column) : Column.ofJson? (ofText c.name) = some c := by
  refine variant?_ofText ?_ fun other _ => ?_
  · cases c <;> decide
  · cases c <;> cases other <;> decide

theorem Expression.textual_toJson (e : Expression) : Textual e.toJson :=
  textual_ofRecord ⟨writable_some (.text _), writable_some (.text _), writable_some (.text _)⟩

theorem Expression.ofJson?_toJson (e : Expression) : Expression.ofJson? e.toJson = some e := by
  have read : record? recordFields e.toJson =
      some [ofText e.field, ofText e.column.name, ofText e.source] :=
    record?_ofRecord (by decide) (Nat.le_refl _)
  simp only [ofJson?, read, text?_ofText, Column.ofJson?_name, Option.bind_eq_bind,
    Option.bind_some]
  rfl

theorem textual_toJson (form : Form) : Textual form.toJson :=
  textual_ofRecord ⟨writable_some (textual_array Field.Declaration.textual_toJson),
    writable_some (textual_array Expression.textual_toJson)⟩

theorem ofJson?_toJson (form : Form) : ofJson? form.toJson = some form := by
  have read : record? recordFields form.toJson =
      some [.array (form.fields.map Field.Declaration.toJson),
        .array (form.expressions.map Expression.toJson)] :=
    record?_ofRecord (by decide) (Nat.le_refl _)
  have fields : listOf? Field.Declaration.ofJson?
      (.array (form.fields.map Field.Declaration.toJson)) = some form.fields :=
    listOf?_array fun d _ => d.ofJson?_toJson
  have expressions : listOf? Expression.ofJson?
      (.array (form.expressions.map Expression.toJson)) = some form.expressions :=
    listOf?_array fun e _ => e.ofJson?_toJson
  simp only [ofJson?, read, fields, expressions, Option.bind_eq_bind, Option.bind_some]
  rfl

end Form

/-- A form description is read from its compact text as it was written, and so are an entry with
distinct choice values, a diagnostic with or without a place and a help text, and options. -/
theorem reads_what_is_written :
    (∀ form : Form, Form.parse form.toJson.render = .ok form) ∧
    (∀ e : Field.Entry, (e.choices.map Prod.fst).Nodup →
      (Json.parse? e.toJson.render).bind Field.Entry.ofJson? = some e) ∧
    (∀ d : Diagnostic, d.InRange →
      (Json.parse? d.toJson.render).bind Diagnostic.ofJson? = some d) ∧
    ∀ o : Options, Options.parse o.toJson.render = .ok o := by
  refine ⟨fun form => ?_, fun e distinct => ?_, fun d inRange => ?_, fun o => ?_⟩
  · rw [Form.parse, form.textual_toJson.parse?_render, Option.bind_some, form.ofJson?_toJson]
  · rw [e.textual_toJson.parse?_render, Option.bind_some, Field.Entry.ofJson?_toJson distinct]
  · rw [d.textual_toJson.parse?_render, Option.bind_some, Diagnostic.ofJson?_toJson inRange]
  · rw [Options.parse, o.textual_toJson.parse?_render, Option.bind_some, o.ofJson?_toJson]

/-- An entry with a choice that holds a quotation mark, and a diagnostic with a place. -/
theorem reads_quoted_choice_and_place :
    (Json.parse? (Field.Entry.toJson ⟨"/size".toList, "size".toList, "size".toList,
        [("5\" wide".toList, "A1".toList), ("weiß".toList, "A2".toList)]⟩).render).bind
        Field.Entry.ofJson? = some ⟨"/size".toList, "size".toList, "size".toList,
          [("5\" wide".toList, "A1".toList), ("weiß".toList, "A2".toList)]⟩ ∧
      (Json.parse? (Diagnostic.toJson
        ⟨.warning, .unresolvedReference, "a\nb".toList, some ⟨2, 5⟩, none⟩).render).bind
        Diagnostic.ofJson? =
          some ⟨.warning, .unresolvedReference, "a\nb".toList, some ⟨2, 5⟩, none⟩ :=
  ⟨reads_what_is_written.2.1 _ (by decide),
    reads_what_is_written.2.2.1 _ ⟨by decide, by simp [offsetLimit]⟩⟩

end FormLogic
