import FormLogic.Proofs.Braces

/-!
Closed texts: literals end, parentheses balance and each `${` opens a token. Closed texts may be put
together; what trimming leaves of one, the arguments of a call in one and the group put around one
are closed again.
-/
namespace FormLogic

open Text Call Field.Reference

/-- Literals end within the text, its parentheses outside literals balance without ever going
negative, and each `${` outside literals opens a `${name}` token. -/
structure Closed (t : Text) : Prop where
  groups : closes .outside t = true
  braces : WellBraced t

instance (t : Text) : Decidable (Closed t) :=
  decidable_of_iff (closes .outside t = true ∧ WellBraced t)
    ⟨fun both => ⟨both.1, both.2⟩, fun closed => ⟨closed.groups, closed.braces⟩⟩

theorem isBlank_plain {c : Char} (blank : isBlank c = true) :
    c ≠ '(' ∧ c ≠ ')' ∧ isQuote c = false :=
  ⟨ne_of_class blank (by decide), ne_of_class blank (by decide),
    not_isQuote blank (by decide) (by decide)⟩

namespace Closed

variable {s t : Text}

theorem terminated (closed : Closed t) : Terminated t := terminated_of_closes closed.groups

theorem nil : Closed [] := ⟨rfl, bracesHold_nil none⟩

theorem append (left : Closed s) (right : Closed t)
    (seam : s.getLast? = some '$' → t.head? ≠ some '{') : Closed (s ++ t) :=
  ⟨(closes_outside_append left.groups 0 t).trans right.groups,
    left.braces.append left.terminated right.braces seam⟩

theorem of_plain (plain : ∀ c ∈ t, c ≠ '(' ∧ c ≠ ')' ∧ c ≠ '$' ∧ isQuote c = false) : Closed t := by
  constructor
  · have same := closes_append_of_plain
      (fun c member => ⟨(plain c member).1, (plain c member).2.1, (plain c member).2.2.2⟩) 0 []
    rw [List.append_nil] at same
    exact same
  · have braces : WellBraced (t ++ []) :=
      bracesHold_append_plain (fun c member => (plain c member).2.2) (bracesHold_nil none)
    rwa [List.append_nil] at braces

theorem literal {l : Literal} (proper : l.Proper) : Closed l.render := by
  have groups := closes_render_append proper 0 []
  have braces : WellBraced (l.render ++ []) := bracesHold_literal proper (bracesHold_nil none)
  rw [List.append_nil] at groups braces
  exact ⟨groups, braces⟩

/-- A group around a closed text is closed. -/
theorem group (closed : Closed t) : Closed ('(' :: t ++ [')']) := by
  constructor
  · rw [List.cons_append]
    change closes ⟨0, none⟩ _ = true
    rw [closes_opening, closes_outside_append closed.groups, closes_closing]
    rfl
  · have inner : WellBraced (t ++ [')']) :=
      closed.braces.append closed.terminated
        (@bracesHold_append_plain _ [')'] [] (by decide) (bracesHold_nil none)) (fun _ => by decide)
    exact bracesHold_plain (by decide) (fun impossible => absurd impossible (by decide)) inner

theorem comparison (left : Closed s) (right : Closed t) :
    Closed (s ++ ([' ', '=', '=', ' '] ++ t)) :=
  have equals : Closed [' ', '=', '=', ' '] := .of_plain (by decide)
  left.append (equals.append right fun impossible => absurd impossible (by decide))
    fun _ impossible => absurd (Option.some.inj impossible) (by decide)

/-- What trimming leaves of a closed text is closed. -/
theorem trim (closed : Closed t) : Closed (Text.trim t) := by
  obtain ⟨lead, trail, whole, leadBlank, trailBlank⟩ := trim_split t
  obtain ⟨groups, braces⟩ := closed
  rw [whole] at groups braces
  constructor
  · have front := closes_append_of_plain (fun c member => isBlank_plain (leadBlank c member)) 0
      (Text.trim t ++ trail)
    have back := closes_append_right (p := .outside) (fun _ member => by cases member)
      (fun c member => isBlank_plain (trailBlank c member)) (Text.trim t)
    exact back.symm.trans (front.symm.trans groups)
  · have front : Terminated lead :=
      terminated_of_noQuote fun c member => (isBlank_plain (leadBlank c member)).2.2
    refine (braces.of_append front).of_append_left fun member => ?_
    exact absurd (trailBlank '}' member) (by decide)

end Closed

/-- The beginning of a call holds no quote. -/
theorem noQuote_opening {run gap : Text} (names : ∀ d ∈ run, isNameChar d = true)
    (spaces : ∀ d ∈ gap, isSpace d = true) : ∀ d ∈ run ++ gap ++ ['('], isQuote d = false := by
  intro d member
  simp only [List.mem_append, List.mem_singleton] at member
  rcases member with (member | member) | rfl
  · exact not_isQuote (names d member) (by decide) (by decide)
  · exact not_isQuote (spaces d member) (by decide) (by decide)
  · decide

theorem notMem_opening {run gap : Text} {stop : Char} (names : ∀ d ∈ run, isNameChar d = true)
    (spaces : ∀ d ∈ gap, isSpace d = true) (noName : isNameChar stop = false)
    (noSpace : isSpace stop = false) (other : stop ≠ '(') : stop ∉ run ++ gap ++ ['('] := by
  simp only [List.mem_append, List.mem_singleton, not_or]
  exact ⟨⟨fun member => ne_of_class (names _ member) noName rfl,
    fun member => ne_of_class (spaces _ member) noSpace rfl⟩, other⟩

/-- The text between the parentheses of a call is closed where the call stands in a well-braced
text. -/
theorem closed_body {c : Call} {rest : Text} (names : ∀ d ∈ c.run, isNameChar d = true)
    (spaces : ∀ d ∈ c.gap, isSpace d = true) (body : closes .outside c.body = true)
    (wellBraced : WellBraced (c.render ++ rest)) : Closed c.body := by
  have whole : c.render ++ rest = (c.run ++ c.gap ++ ['(']) ++ (c.body ++ ')' :: rest) := by
    simp [Call.render]
  have front := terminated_of_noQuote (noQuote_opening names spaces)
  rw [whole] at wellBraced
  exact ⟨body, (wellBraced.of_append front).of_append_cons (by decide) (by decide)⟩

/-- The arguments of a call with a closed body are closed. -/
theorem Closed.argument {c : Call} (closed : Closed c.body) {a : Text} (member : a ∈ c.arguments) :
    Closed a := by
  obtain ⟨groups, before, after, whole, terminated, _, stop⟩ :=
    argument_place closed.groups (mem_splitArguments member)
  refine ⟨groups, ?_⟩
  have braces := closed.braces
  rw [whole] at braces
  have right := braces.of_append terminated
  rcases stop with rfl | ⟨later, rfl⟩
  · rwa [List.append_nil] at right
  · exact right.of_append_cons (by decide) (by decide)

/-- Closed texts with commas between them are closed. -/
theorem Closed.intercalate {ts : List Text} (closed : ∀ t ∈ ts, Closed t) :
    Closed ([',', ' '].intercalate ts) := by
  match ts with
  | [] => exact .nil
  | [t] =>
    rw [List.intercalate_singleton]
    exact closed t List.mem_cons_self
  | t :: u :: rest =>
    have later : Closed ([',', ' '].intercalate (u :: rest)) :=
      intercalate fun v member => closed v (List.mem_cons_of_mem t member)
    have gap : Closed [',', ' '] := .of_plain (by decide)
    rw [List.intercalate_cons_cons, List.append_assoc]
    refine (closed t List.mem_cons_self).append (gap.append later ?_) ?_
    · exact fun impossible => absurd impossible (by decide)
    · exact fun _ brace => absurd (Option.some.inj brace) (by decide)

end FormLogic
