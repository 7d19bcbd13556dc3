import FormLogic.Form.Table
import FormLogic.Proofs.Jobs
import FormLogic.Proofs.Levels
import FormLogic.Proofs.Pointing

/-!
Output that is read line by line. A table has a header and a line for each row, and each line has
three cells, because nothing within a cell would end a cell or a line. Plain text has no such guard.
It has a line for each expression and one more for each line break in a conversion; a conversion
takes its line breaks from the expression, from identifiers, from answer codes and from an owner
that is no field.
-/
namespace FormLogic

open Text

section Lines

theorem length_splitOn (stop : Char) (t : Text) : (t.splitOn stop).length = t.count stop + 1 := by
  induction t with
  | nil => rfl
  | cons c rest ih =>
    rw [List.splitOn_cons_eq_if_modifyHead, List.count_cons]
    split
    · rw [List.length_cons, ih]
    · rw [List.length_modifyHead, ih, Nat.add_zero]

/-- The lines of texts that are put one below the other are the lines of each of them. -/
theorem splitOn_joinLines {ts : List Text} (nonempty : ts ≠ []) :
    (joinLines ts).splitOn '\n' = ts.flatMap (·.splitOn '\n') := by
  induction ts with
  | nil => exact absurd rfl nonempty
  | cons t rest ih =>
    cases rest with
    | nil => rw [joinLines, List.intercalate_singleton, List.flatMap_singleton]
    | cons next later =>
      have front : joinLines (t :: next :: later) = t ++ '\n' :: joinLines (next :: later) := by
        rw [joinLines, List.intercalate_cons_cons, List.append_assoc]
        rfl
      rw [front, List.splitOn_append_cons_self, ih (List.cons_ne_nil next later)]
      rfl

/-- The number of line breaks in texts. -/
def lineBreaks (ts : List Text) : Nat := ts.flatten.count '\n'

theorem lineBreaks_cons (t : Text) (ts : List Text) :
    lineBreaks (t :: ts) = t.count '\n' + lineBreaks ts := by
  rw [lineBreaks, List.flatten_cons, List.count_append, lineBreaks]

theorem lineBreaks_eq_zero {ts : List Text} : lineBreaks ts = 0 ↔ ∀ t ∈ ts, '\n' ∉ t := by
  rw [lineBreaks, List.count_eq_zero, List.mem_flatten]
  simp

theorem length_flatMap_splitOn (ts : List Text) :
    (ts.flatMap (·.splitOn '\n')).length = ts.length + lineBreaks ts := by
  induction ts with
  | nil => rfl
  | cons t rest ih =>
    rw [List.flatMap_cons, List.length_append, ih, length_splitOn, List.length_cons,
      lineBreaks_cons]
    omega

theorem flatMap_splitOn_of_unbroken {ts : List Text} (unbroken : ∀ t ∈ ts, '\n' ∉ t) :
    ts.flatMap (·.splitOn '\n') = ts := by
  induction ts with
  | nil => rfl
  | cons t rest ih =>
    rw [List.forall_mem_cons] at unbroken
    rw [List.flatMap_cons, List.splitOn_eq_singleton unbroken.1, ih unbroken.2]
    rfl

end Lines

namespace Form

section Cells

theorem not_endsCell_of_mem_cell {t : Text} {c : Char} (member : c ∈ cell t) :
    endsCell c = false := by
  obtain ⟨d, _, rfl⟩ := List.mem_map.1 member
  split
  · rfl
  · next visible => exact Bool.eq_false_iff.2 visible

theorem not_endsCell_of_mem_name {column : Column} : ∀ c ∈ column.name, endsCell c = false := by
  cases column <;> decide

/-- The cells of a row. -/
def Row.cells (row : Row) : List Text := [cell row.field, row.column.name, cell row.output]

theorem Row.not_endsCell {row : Row} {t : Text} (member : t ∈ row.cells) :
    ∀ c ∈ t, endsCell c = false := by
  rw [cells, List.mem_cons, List.mem_cons, List.mem_singleton] at member
  rcases member with rfl | rfl | rfl
  · exact fun c => not_endsCell_of_mem_cell
  · exact not_endsCell_of_mem_name
  · exact fun c => not_endsCell_of_mem_cell

theorem Row.notMem_cells {row : Row} {stop : Char} (ends : endsCell stop = true) :
    ∀ t ∈ row.cells, stop ∉ t := fun t member inside => by
  rw [Row.not_endsCell member stop inside] at ends
  cases ends

theorem Row.tableLine_eq (row : Row) : row.tableLine = ['\t'].intercalate row.cells := by
  simp [tableLine, cells, List.intercalate]

theorem Row.splitOn_tableLine (row : Row) : row.tableLine.splitOn '\t' = row.cells := by
  rw [tableLine_eq, List.splitOn_intercalate '\t' (notMem_cells rfl) (List.cons_ne_nil _ _)]

theorem Row.newline_notMem_tableLine (row : Row) : '\n' ∉ row.tableLine := by
  intro inside
  have parts : '\n' ∈ row.cells.flatten := by
    simpa [tableLine, cells] using inside
  obtain ⟨t, member, inside⟩ := List.mem_flatten.1 parts
  exact notMem_cells rfl t member inside

/-- Read back at line breaks and tabs, a table is its header and the rows, each of three cells,
whatever the fields and the conversions hold. -/
theorem renderRows_table_cells (rows : List Row) :
    let lines := (renderRows .table rows).splitOn '\n'
    lines = tableHeader :: rows.map Row.tableLine ∧
      lines.map (·.splitOn '\t') =
        ["field".toList, "kind".toList, "expression".toList] ::
          rows.map (fun row => [cell row.field, row.column.name, cell row.output]) ∧
      ∀ line ∈ lines, (line.splitOn '\t').length = 3 ∧ ∀ t ∈ line.splitOn '\t', '\r' ∉ t := by
  have header :
      tableHeader.splitOn '\t' = ["field".toList, "kind".toList, "expression".toList] := by
    decide
  have unbroken : ∀ t ∈ tableHeader :: rows.map Row.tableLine, '\n' ∉ t := by
    rw [List.forall_mem_cons, List.forall_mem_map]
    exact ⟨by decide, fun row _ => row.newline_notMem_tableLine⟩
  have lines : (renderRows .table rows).splitOn '\n' = tableHeader :: rows.map Row.tableLine := by
    rw [renderRows, splitOn_joinLines (List.cons_ne_nil _ _),
      flatMap_splitOn_of_unbroken unbroken]
  dsimp only
  rw [lines]
  refine ⟨rfl, ?_, ?_⟩
  · rw [List.map_cons, header, List.map_map]
    exact congrArg _ (List.map_congr_left fun row _ => row.splitOn_tableLine)
  · rw [List.forall_mem_cons, List.forall_mem_map]
    refine ⟨by rw [header]; decide, fun row _ => ?_⟩
    rw [row.splitOn_tableLine]
    exact ⟨rfl, Row.notMem_cells rfl⟩

end Cells

section Conversions

open Conversion

/-- The line is the conversion of the expression. -/
def Holds (k : Converter) (e : Expression) (line : Text) : Prop :=
  ∃ c, k.convertFor (some e.field) e.source = .ok c ∧ c.output = line

/-- Nothing that is written into a conversion besides its expression breaks a line. -/
structure Unbroken (form : Form) (registry : Field.Registry) : Prop where
  identifiers : ∀ e ∈ registry.entries, '\n' ∉ e.identifier
  codes : ∀ e ∈ registry.entries, ∀ choice ∈ e.choices, '\n' ∉ choice.2
  owners : ∀ e ∈ form.expressions, registry.lookup? e.field = none → '\n' ∉ e.field

variable {form : Form} {registry : Field.Registry} {options : Options} {rows : List Row}

theorem forall₂_holds {k : Converter} {es : List Expression}
    (converted : convertAll k es = .ok rows) :
    List.Forall₂ (Holds k) es (rows.map Row.output) := by
  rw [List.forall₂_map_right_iff]
  refine (forall₂_of_convertAll converted).imp fun e row made => ?_
  obtain ⟨c, done, rfl⟩ := convertExpression_eq_ok.1 made
  exact ⟨c, done, rfl⟩

/-- A conversion has no more line breaks than its expression. -/
theorem count_output_le (unbroken : Unbroken form registry) {e : Expression}
    (member : e ∈ form.expressions) {line : Text}
    (holds : Holds ⟨registry, .builtin, options⟩ e line) :
    line.count '\n' ≤ e.source.count '\n' := by
  have light : Light ⟨registry, options, some e.field⟩ (· == '\n') :=
    light_of_absent (by decide) unbroken.identifiers unbroken.codes fun name owner unknown => by
      cases owner
      exact unbroken.owners e member unknown
  obtain ⟨_, output⟩ := (@Context.convertFor_iff ⟨registry, options, some e.field⟩ _ _).1 holds
  rw [← output]
  exact light.output _ e.source

theorem lineBreaks_le (unbroken : Unbroken form registry) {es : List Expression}
    (part : es ⊆ form.expressions) {lines : List Text}
    (holds : List.Forall₂ (Holds ⟨registry, .builtin, options⟩) es lines) :
    lineBreaks lines ≤ lineBreaks (es.map Expression.source) := by
  induction holds with
  | nil => exact Nat.le_refl 0
  | cons first _ ih =>
    rw [List.cons_subset] at part
    rw [List.map_cons, lineBreaks_cons, lineBreaks_cons]
    exact Nat.add_le_add (count_output_le unbroken part.1 first) (ih part.2)

/-- Every expression is converted where nothing but the expressions opens a parenthesis. -/
theorem exists_convertAll {es : List Expression}
    (flat : ∀ e ∈ es, Flat ⟨registry, options, some e.field⟩) :
    ∃ rows, convertAll ⟨registry, .builtin, options⟩ es = .ok rows := by
  induction es with
  | nil => exact ⟨[], rfl⟩
  | cons e rest ih =>
    rw [List.forall_mem_cons] at flat
    obtain ⟨later, others⟩ := ih flat.2
    obtain ⟨draft, done⟩ :=
      Context.converts_of_nesting flat.1.light (Converter.nesting_lt_depthFor e.source)
    obtain ⟨row, first⟩ : ∃ row, convertExpression ⟨registry, .builtin, options⟩ e = .ok row :=
      ⟨_, convertExpression_eq_ok.2 ⟨_, convertFor_eq_ok.2 ⟨draft, done, rfl⟩, rfl⟩⟩
    refine ⟨row :: later, ?_⟩
    unfold convertAll at others ⊢
    rw [List.mapM_cons, Except.bind_eq_ok]
    exact ⟨row, first, Except.bind_eq_ok.2 ⟨later, others, rfl⟩⟩

/-- Read back at line breaks, plain text has a line for each expression and one more for each line
break in a conversion. So it has one line for each expression, that of its conversion, exactly if no
conversion breaks a line. Conversions have no more line breaks than the expressions have, where the
registry has none and neither has an owner that is no field. Every form is converted where nothing
opens a parenthesis but the expressions. -/
theorem renderRows_text_lines (nonempty : form.expressions ≠ []) :
    (∀ rows, form.convert registry options = .ok rows →
        let lines := (renderRows .text rows).splitOn '\n'
        lines.length = form.expressions.length + lineBreaks (rows.map Row.output) ∧
          (List.Forall₂ (Holds ⟨registry, .builtin, options⟩) form.expressions lines ↔
            lineBreaks (rows.map Row.output) = 0) ∧
          (Unbroken form registry →
            lineBreaks (rows.map Row.output) ≤
              lineBreaks (form.expressions.map Expression.source))) ∧
      ((∀ e ∈ form.expressions, Flat ⟨registry, options, some e.field⟩) →
        ∃ rows, form.convert registry options = .ok rows) := by
  refine ⟨fun rows converted => ?_, exists_convertAll⟩
  have holds := forall₂_holds converted
  have count : form.expressions.length = (rows.map Row.output).length := holds.length_eq
  have outputs : rows.map Row.output ≠ [] := fun nothing => by
    rw [nothing] at count
    exact nonempty (List.length_eq_zero_iff.1 count)
  have lines : (renderRows .text rows).splitOn '\n' =
      (rows.map Row.output).flatMap (·.splitOn '\n') := splitOn_joinLines outputs
  have length : ((renderRows .text rows).splitOn '\n').length =
      form.expressions.length + lineBreaks (rows.map Row.output) := by
    rw [lines, length_flatMap_splitOn, count]
  refine ⟨length, ⟨fun each => ?_, fun zero => ?_⟩, fun unbroken => ?_⟩
  · have same := each.length_eq
    omega
  · rwa [lines, flatMap_splitOn_of_unbroken (lineBreaks_eq_zero.1 zero)]
  · exact lineBreaks_le unbroken (List.Subset.refl _) holds

/-- A form whose sources and names keep to one line. A value has an answer code, and an owner is no
field. -/
def plainForm : Form :=
  ⟨[], [⟨"/data/age".toList, .relevance, "selected(../fruit, 'red apple')".toList⟩,
    ⟨"/data/other".toList, .constraint, "not(. = 1 or\t${age} > 2)".toList⟩]⟩

def plainRegistry : Field.Registry :=
  let age := (Field.Registry.empty.registerDerived "/data/age".toList).2
  let both := (age.registerDerived "/data/fruit".toList).2
  (both.addChoices "/data/fruit".toList ["red apple".toList]).2

theorem renderRows_text_lines_plain :
    plainForm.expressions ≠ [] ∧ Unbroken plainForm plainRegistry ∧
      ∃ rows, plainForm.convert plainRegistry .default = .ok rows ∧
        List.Forall₂ (Holds ⟨plainRegistry, .builtin, .default⟩) plainForm.expressions
          ((renderRows .text rows).splitOn '\n') := by
  have unbroken : Unbroken plainForm plainRegistry :=
    ⟨by decide +kernel, by decide +kernel, by decide +kernel⟩
  have flat : ∀ e ∈ plainForm.expressions, Flat ⟨plainRegistry, .default, some e.field⟩ := by
    have identifiers : ∀ e ∈ plainRegistry.entries, '(' ∉ e.identifier := by decide +kernel
    have codes : ∀ e ∈ plainRegistry.entries, ∀ choice ∈ e.choices, '(' ∉ choice.2 := by
      decide +kernel
    have owners : ∀ e ∈ plainForm.expressions, '(' ∉ e.field := by decide +kernel
    refine fun e member => ⟨identifiers, codes, fun name owner _ => ?_⟩
    cases owner
    exact owners e member
  have nonempty : plainForm.expressions ≠ [] := List.cons_ne_nil _ _
  obtain ⟨read, converts⟩ := @renderRows_text_lines plainForm plainRegistry .default nonempty
  obtain ⟨rows, converted⟩ := converts flat
  obtain ⟨_, each, fewer⟩ := read rows converted
  have sources : lineBreaks (plainForm.expressions.map Expression.source) = 0 := by decide +kernel
  have none_broken := fewer unbroken
  rw [sources] at none_broken
  exact ⟨nonempty, unbroken, rows, converted, each.2 (Nat.le_zero.1 none_broken)⟩

/-- A form with an expression that is written in two lines. -/
def brokenForm : Form :=
  ⟨[], [⟨"/data/a".toList, .relevance, "a\n= b".toList⟩,
    ⟨"/data/b".toList, .constraint, "c".toList⟩]⟩

/-- The line break stays in the conversion, so that two expressions take up three lines. -/
theorem text_lines_broken_by_source :
    (brokenForm.convert .empty .default).toOption.map
        (fun rows => (renderRows .text rows).splitOn '\n') =
      some ["a".toList, "== b".toList, "c".toList] := by
  decide +kernel

end Conversions

end Form

end FormLogic
