import FormLogic.Call.Occurrence
import FormLogic.Proofs.Pieces

/-!
Calls that stand in a text. A call stands where its name is a whole token outside literals and its
group closes what it opens. The calls that a text is cut into stand in it, and so do those that
stand in their arguments; and where no `${` reaches over a call, as in a well-braced text, there are
no others. For what stands in the text begins where no literal is open, so it begins where a piece
does or in the group of a call that is cut out, and there it does not reach over the comma or the
parenthesis that ends an argument.
-/
namespace FormLogic

open Text

namespace Text

theorem quoteAfter_some_of_quote {q : Char} {t : Text} (quote : isQuote q = true) (fresh : q ∉ t) :
    quoteAfter none (q :: t) = some q := by
  rw [quoteAfter, if_pos quote, quoteAfter_some_of_notMem fresh]

/-- A literal is open behind each part of a text that begins with its quote and lacks the other. -/
theorem not_terminated_of_fresh {q : Char} {t : Text} (quote : isQuote q = true) (fresh : q ∉ t) :
    ¬Terminated (q :: t) := by
  rw [Terminated, quoteAfter_some_of_quote quote fresh]
  exact Option.some_ne_none q

theorem not_terminated_of_cut {q : Char} {t u y : Text} (quote : isQuote q = true) (fresh : q ∉ t)
    (nonempty : u ≠ []) (cut : q :: t = u ++ y) : ¬Terminated u := by
  obtain ⟨d, u, rfl⟩ := List.exists_cons_of_ne_nil nonempty
  obtain ⟨rfl, rfl⟩ := List.cons.inj cut
  exact not_terminated_of_fresh quote fun member => fresh (List.mem_append_left y member)

/-- Where the text before a character begins, if none of its first part is that character. -/
theorem append_of_notMem {s t w x : Text} {stop : Char} (fresh : stop ∉ s)
    (same : s ++ t = w ++ stop :: x) : ∃ b, w = s ++ b ∧ t = b ++ stop :: x := by
  rcases List.append_eq_append_iff.1 same with ⟨b, whole, rest⟩ | ⟨b, whole, rest⟩
  · exact ⟨b, whole, rest⟩
  · cases b with
    | nil => exact ⟨[], by simpa using whole.symm, by simpa using rest.symm⟩
    | cons d more =>
      rw [(List.cons.inj rest).1, whole] at fresh
      exact absurd (by simp) fresh

theorem concat_eq_append {s b x : Text} {d : Char} (same : s ++ [d] = b ++ x) (left : x ≠ []) :
    ∃ y, s = b ++ y ∧ x = y ++ [d] := by
  rcases List.eq_nil_or_concat x with rfl | ⟨y, e, rfl⟩
  · exact absurd rfl left
  · rw [List.concat_eq_append, ← List.append_assoc] at same
    obtain ⟨whole, last⟩ := List.append_inj' same rfl
    exact ⟨y, whole, by rw [List.concat_eq_append, (List.cons.inj last).1]⟩

end Text

namespace Call

open FormLogic.Field FormLogic.Field.Reference

section Groups

variable {c : Call}

theorem closes_of_append {p : Place} {s t : Text} (closed : closes p (s ++ t) = true) :
    ∃ depth, closes ⟨depth, quoteAfter p.quote s⟩ t = true := by
  induction s generalizing p with
  | nil => exact ⟨p.depth, closed⟩
  | cons c rest ih =>
    rw [List.cons_append] at closed
    obtain ⟨depth, left⟩ := ih ((closes_cons p c _).1 closed).2
    exact ⟨depth, by rwa [← Place.quote_next]⟩

/-- What may begin a group's text leaves the groups around it open. -/
theorem not_closes_within {p : Place} {s t : Text} (closed : closes p (s ++ t) = true)
    (outer : Nat) : closes (p.within (outer + 1)) s = false := by
  induction s generalizing p with
  | nil =>
    rw [Bool.eq_false_iff, Ne, closes_nil]
    intro same
    have depth := congrArg Place.depth same
    simp only [Place.within, Place.outside] at depth
    omega
  | cons c rest ih =>
    rw [List.cons_append] at closed
    obtain ⟨goesOn, closed⟩ := (closes_cons p c _).1 closed
    rw [Bool.eq_false_iff, Ne, closes_cons, Place.next_within goesOn, ih closed]
    exact fun both => Bool.false_ne_true both.2

/-- A call does not reach over the end of an argument. -/
theorem call_within (names : ∀ d ∈ c.run, isNameChar d = true)
    (spaces : ∀ d ∈ c.gap, isSpace d = true) (closed : closes .outside c.body = true) {depth : Nat}
    {w v rest : Text} {stop : Char} (balanced : closes ⟨depth, none⟩ w = true)
    (isStop : stop = ')' ∨ stop = ',') (same : c.render ++ v = w ++ stop :: rest) :
    ∃ v', w = c.render ++ v' := by
  rcases List.append_eq_append_iff.1 same with ⟨v', whole, _⟩ | ⟨b, whole, behind⟩
  · exact ⟨v', whole⟩
  · cases b with
    | nil => exact ⟨[], by rw [whole, List.append_nil, List.append_nil]⟩
    | cons d more =>
      -- The call would be cut in its group, where the stop is not directly inside the argument.
      obtain ⟨rfl, -⟩ := List.cons.inj behind
      have fresh : stop ∉ c.run ++ c.gap ++ ['('] := by
        rcases isStop with rfl | rfl
        · exact notMem_opening names spaces (by decide) (by decide) (by decide)
        · exact notMem_opening names spaces (by decide) (by decide) (by decide)
      have parts : (c.run ++ c.gap ++ ['(']) ++ (c.body ++ [')']) = w ++ stop :: more := by
        rw [← whole]
        simp [Call.render]
      obtain ⟨b, rfl, inside⟩ := append_of_notMem fresh parts
      obtain ⟨y, body, _⟩ := concat_eq_append inside (List.cons_ne_nil stop more)
      rw [List.append_assoc, List.singleton_append,
        Piece.closes_opening_append names spaces] at balanced
      rw [body] at closed
      have unclosed : closes ⟨depth + 1, none⟩ b = false := not_closes_within closed depth
      rw [balanced] at unclosed
      cases unclosed

end Groups

/-- The call may stand behind `u`, itself behind the character `before`: no literal is open there,
the name is a whole token and the group closes what it opens. -/
structure Behind (before : Option Char) (u : Text) (c : Call) : Prop where
  terminated : Terminated u
  named : Piece.Named (u.getLast?.or before) c.run
  spaces : ∀ d ∈ c.gap, isSpace d = true
  closed : closes .outside c.body = true

/-- The call stands in the text. -/
def Stands (c : Call) (t : Text) : Prop := ∃ u v, t = u ++ (c.render ++ v) ∧ Behind none u c

/-- The call stands in the argument, at byte `start` of the text that the argument has its place in. -/
def StandsAt (c : Call) (start : Nat) (a : Argument) : Prop :=
  ∃ u v, a.raw = u ++ (c.render ++ v) ∧ Behind none u c ∧ a.span.start + byteLength u = start

theorem StandsAt.stands {c : Call} {start : Nat} {a : Argument} (standsAt : c.StandsAt start a) :
    c.Stands a.raw := by
  obtain ⟨u, v, whole, behind, _⟩ := standsAt
  exact ⟨u, v, whole, behind⟩

namespace Behind

variable {before : Option Char} {u w : Text} {c : Call}

theorem append_iff (terminated : Terminated u) :
    Behind before (u ++ w) c ↔ Behind (u.getLast?.or before) w c := by
  have last : (u ++ w).getLast?.or before = w.getLast?.or (u.getLast?.or before) := by
    rw [List.getLast?_append, Option.or_assoc]
  constructor
  · rintro ⟨whole, named, spaces, closed⟩
    rw [Terminated, quoteAfter_append_of_terminated terminated] at whole
    exact ⟨whole, last ▸ named, spaces, closed⟩
  · rintro ⟨right, named, spaces, closed⟩
    exact ⟨terminated_append terminated right, last ▸ named, spaces, closed⟩

theorem of_starts (behind : Behind before u c) {other : Option Char}
    (starts : startsToken other = true) : Behind other u c := by
  refine ⟨behind.terminated, ⟨behind.named.head, behind.named.all, ?_⟩, behind.spaces, behind.closed⟩
  have named := behind.named.starts
  cases last : u.getLast? with
  | none => exact starts
  | some d =>
    rw [last] at named
    exact named

/-- A call's text begins with the first letter of its name. -/
theorem head (behind : Behind before u c) (v : Text) :
    (c.render ++ v).head?.any isNameStart = true := by
  have whole : c.render ++ v = c.run ++ (c.gap ++ '(' :: (c.body ++ ')' :: v)) := by simp [render]
  rw [whole]
  exact behind.named.head_append _

theorem ne_nil (behind : Behind before u c) (v : Text) : c.render ++ v ≠ [] := by
  intro nothing
  have head := behind.head v
  rw [nothing] at head
  cases head

theorem stands (behind : Behind before u c) (v : Text) : Stands c (u ++ (c.render ++ v)) :=
  ⟨u, v, rfl, behind.of_starts rfl⟩

end Behind

namespace Piece

variable {accept : Text → Bool} {before : Option Char} {t rest : Text} {p : Piece}

theorem Step.render_ne_nil (step : Step accept before t p rest) : p.render ≠ [] := by
  obtain ⟨c, more, _, read⟩ := next_of_step step
  have visible := render_next_ne_nil accept before c more
  rwa [read] at visible

theorem Step.getLast?_or (step : Step accept before t p rest) (other : Option Char) :
    p.render.getLast?.or other = p.render.getLast? := by
  rw [List.getLast?_eq_some_getLast step.render_ne_nil, Option.some_or]

end Piece

section Places

variable {accept : Text → Bool} {before : Option Char} {t : Text} {c : Call}

/-- A call that is cut out of a text stands there. -/
theorem behind_of_mem_pieces (wellBraced : WellBraced t)
    (member : .call c ∈ pieces accept before t) :
    ∃ u v, t = u ++ (c.render ++ v) ∧ Behind before u c := by
  induction before, t, wellBraced using @Piece.stepInduction accept with
  | nil before _ =>
    rw [pieces_nil] at member
    cases member
  | step before t p rest wellBraced left step ih =>
    rw [pieces_step step] at member
    rcases List.mem_cons.1 member with rfl | member
    · cases step with
      | call named spaces accepted closed => exact ⟨[], _, rfl, rfl, named, spaces, closed⟩
    · obtain ⟨u, v, whole, behind⟩ := ih member
      have terminated : Terminated p.render :=
        step.terminated.resolve_right fun nothing =>
          behind.ne_nil v (List.append_eq_nil_iff.1 (whole.symm.trans nothing)).2
      refine ⟨p.render ++ u, v, ?_, (Behind.append_iff terminated).2 ?_⟩
      · rw [← step.render_append, whole, List.append_assoc]
      · rwa [step.getLast?_or]

/-- An argument stands behind the parenthesis that opens its group, or behind a comma. -/
theorem argument_behind (behind : Behind before t c) {a : Text} (member : a ∈ c.arguments) :
    ∃ u v, c.render = u ++ (a ++ v) ∧ Terminated u ∧
      ∀ other, startsToken (u.getLast?.or other) = true := by
  obtain ⟨_, lead, after, whole, terminated, last, _⟩ :=
    argument_place behind.closed (mem_splitArguments member)
  refine ⟨c.run ++ c.gap ++ ['('] ++ lead, after ++ [')'], ?_, ?_, ?_⟩
  · rw [Call.render, whole]
    simp
  · exact terminated_append
      (terminated_of_noQuote (noQuote_opening behind.named.all behind.spaces)) terminated
  · intro other
    rw [List.getLast?_append, List.getLast?_concat]
    cases final : lead.getLast? with
    | none => rfl
    | some d => rw [last d final]; rfl

/-- What stands in an argument stands in the text. -/
theorem Stands.of_argument {k : Call} {v a : Text} (behind : Behind none t k)
    (member : a ∈ k.arguments) (stands : Stands c a) : Stands c (t ++ (k.render ++ v)) := by
  obtain ⟨lead, after, whole, terminated, starts⟩ := argument_behind behind member
  obtain ⟨u, w, rfl, inner⟩ := stands
  have whole' : t ++ (k.render ++ v) = (t ++ (lead ++ u)) ++ (c.render ++ (w ++ (after ++ v))) := by
    rw [whole]
    simp
  have within : Behind (t.getLast?.or none) (lead ++ u) c :=
    (Behind.append_iff terminated).2 (inner.of_starts (starts _))
  exact ⟨_, _, whole', (Behind.append_iff behind.terminated).2 within⟩

/-- What stands in a group's text stands in one of its arguments, at its place. -/
theorem standsAt_of_splitArguments {u v : Text} (behind : Behind before u c)
    (balanced : closes .outside (u ++ (c.render ++ v)) = true) (start : Nat) :
    ∃ a ∈ placeArguments start (splitArguments .outside (u ++ (c.render ++ v))),
      c.StandsAt (start + byteLength u) a := by
  generalize whole : u ++ (c.render ++ v) = s at balanced
  induction s, balanced using argumentInduction generalizing before u start with
  | last s closed single =>
    rw [single, placeArguments]
    exact ⟨_, List.mem_cons_self, u, v, whole.symm, behind.of_starts rfl, rfl⟩
  | more first rest closed left front single ih =>
    rw [splitArguments_append front single, placeArguments]
    rcases List.append_eq_append_iff.1 whole with ⟨x, same, later⟩ | ⟨x, same, later⟩
    · -- The argument ends behind the place where the call begins, so it ends behind the call.
      rw [same] at front
      obtain ⟨depth, inner⟩ := closes_of_append front
      change closes ⟨depth, quoteAfter none u⟩ x = true at inner
      rw [show quoteAfter none u = none from behind.terminated] at inner
      obtain ⟨v', rfl⟩ :=
        call_within behind.named.all behind.spaces behind.closed inner (Or.inr rfl) later
      exact ⟨_, List.mem_cons_self, u, v', same, behind.of_starts rfl, rfl⟩
    · cases x with
      | nil =>
        have head := behind.head v
        rw [List.nil_append] at later
        rw [← later] at head
        cases head
      | cons d more =>
        obtain ⟨rfl, tail⟩ := List.cons.inj later
        have parts : u = (first ++ [',']) ++ more := by rw [same]; simp
        have terminated : Terminated (first ++ [',']) :=
          terminated_append (terminated_of_closes front) rfl
        rw [parts] at behind
        obtain ⟨a, member, standsAt⟩ :=
          ih ((Behind.append_iff terminated).1 behind) (start + byteLength first + 1) tail.symm
        have comma : byteLength [','] = 1 := rfl
        refine ⟨a, List.mem_cons_of_mem _ member, ?_⟩
        rwa [parts, byteLength_append, byteLength_append, comma, ← Nat.add_assoc, ← Nat.add_assoc]

/-- A call that stands in the group of another one stands in an argument of that. -/
theorem standsAt_of_body {k : Call} {u v : Text} (behind : Behind before u c)
    (body : k.body = u ++ (c.render ++ v)) (closed : closes .outside k.body = true) (start : Nat) :
    ∃ a ∈ k.placedArguments start, c.StandsAt (k.bodyStart start + byteLength u) a := by
  have visible : ¬k.body.all isBlank = true := by
    intro blank
    have opening : isBlank '(' = true :=
      List.all_eq_true.1 blank '(' (by rw [body]; simp [Call.render])
    cases opening
  rw [body] at closed
  rw [placedArguments, arguments, if_neg visible, body]
  exact standsAt_of_splitArguments behind closed _

theorem joined_append (ps qs : List Piece) : joined (ps ++ qs) = joined ps ++ joined qs :=
  List.flatMap_append

theorem joined_cons (p : Piece) (ps : List Piece) : joined (p :: ps) = p.render ++ joined ps :=
  List.flatMap_cons

theorem text_of_pieces {ps qs : List Piece} (cut : pieces accept before t = ps ++ qs) :
    t = joined ps ++ joined qs := by
  rw [← joined_append, ← cut, joined_pieces]

/-- The pieces behind a place are those of the text that is left there. -/
theorem pieces_behind {ps qs : List Piece} (cut : pieces accept before t = ps ++ qs) :
    qs = pieces accept ((joined ps).getLast?.or before) (joined qs) :=
  (Piece.scanner accept).items_behind cut

/-- A `${` that nothing hides stands in a text as a whole, and so does the brace that closes it. -/
theorem brace_in {u x inner : Text} (unhidden : Unhidden u x) (nonempty : u ≠ [])
    (head : x.head?.any isNameStart = true) (opened : u ++ x = '$' :: '{' :: inner) :
    ∃ more, u = '$' :: '{' :: more ∧ inner = more ++ x ∧
      ((∃ name after, more = name ++ '}' :: after ∧ '}' ∉ name ∧ Terminated name) ∨
        '}' ∉ inner) := by
  match u with
  | [] => exact absurd rfl nonempty
  | [c] =>
    have brace : x = '{' :: inner := (List.cons.inj opened).2
    rw [brace] at head
    cases head
  | c :: d :: more =>
    simp only [List.cons_append, List.cons.injEq] at opened
    obtain ⟨rfl, rfl, rfl⟩ := opened
    exact ⟨more, rfl, rfl, unhidden.opened⟩

/-- Where the beginning of a call is cut, and not in its name, before a name, the cut lies behind the
parenthesis. -/
theorem opening_cut {run gap more u x : Text} (names : ∀ d ∈ run, isNameChar d = true)
    (spaces : ∀ d ∈ gap, isSpace d = true) (notName : ¬∀ d ∈ u, isNameChar d = true)
    (head : x.head?.any isNameStart = true) (cut : run ++ gap ++ '(' :: more = u ++ x) :
    ∃ b, u = run ++ gap ++ ['('] ++ b ∧ more = b ++ x := by
  have notOpening (rest : Text) : x ≠ '(' :: rest := by
    rintro rfl
    cases head
  rcases List.append_eq_append_iff.1 cut with ⟨w, whole, later⟩ | ⟨w, whole, later⟩
  · cases w with
    | nil => exact absurd later.symm (notOpening more)
    | cons d b =>
      obtain ⟨rfl, rest⟩ := List.cons.inj later
      exact ⟨b, by rw [whole]; simp, rest⟩
  · cases w with
    | nil => exact absurd later (notOpening more)
    | cons d b =>
      have start : isNameStart d = true := by
        rw [later] at head
        exact head
      rcases List.append_eq_append_iff.1 whole with ⟨w, _, inGap⟩ | ⟨w, inRun, _⟩
      · have space := spaces d (by rw [inGap]; simp)
        have name := Piece.isNameChar_of_isNameStart start
        rw [not_isNameChar_of_isSpace space] at name
        cases name
      · exact absurd (fun e member => names e (by rw [inRun]; exact List.mem_append_left w member))
          notName

/-- Where a piece is cut before a name, outside literals and names, the cut lies between the braces of
a token or in the group of a call. -/
theorem cut_in_piece {p : Piece} {rest u x : Text} (step : Piece.Step accept before t p rest)
    (terminated : Terminated u) (notName : ¬∀ d ∈ u, isNameChar d = true)
    (head : x.head?.any isNameStart = true) (cut : p.render = u ++ x) :
    (∃ name y, (bracedName? name).isSome = true ∧ ['$', '{'] ++ name = u ++ y ∧ x = y ++ ['}']) ∨
      ∃ k b y, p = .call k ∧ u = k.run ++ k.gap ++ ['('] ++ b ∧ k.body = b ++ y ∧
        x = y ++ [')'] := by
  have nonempty : u ≠ [] := by
    rintro rfl
    exact notName fun d member => by cases member
  have left : x ≠ [] := by
    rintro rfl
    cases head
  cases step with
  | @literal l rest proper =>
    have whole : (l.quote :: l.content) ++ [l.quote] = u ++ x := cut
    obtain ⟨y, inside, _⟩ := concat_eq_append whole left
    exact absurd terminated
      (not_terminated_of_cut proper.quote_isQuote proper.quote_notMem nonempty inside)
  | unclosed quote fresh => exact absurd terminated (not_terminated_of_cut quote fresh nonempty cut)
  | @token name rest fresh valid =>
    obtain ⟨y, inside, behind⟩ := concat_eq_append (s := ['$', '{'] ++ name) cut left
    exact Or.inl ⟨name, y, valid, inside, behind⟩
  | @word run rest named stop other =>
    have whole : run = u ++ x := cut
    rw [whole] at named
    exact absurd (fun d member => named.all d (List.mem_append_left x member)) notName
  | @call k rest named spaces accepted closed =>
    have whole : k.run ++ k.gap ++ '(' :: (k.body ++ [')']) = u ++ x := by
      rw [← cut]
      simp [Piece.render, Call.render]
    obtain ⟨b, front, inside⟩ := opening_cut named.all spaces notName head whole
    obtain ⟨y, body, behind⟩ := concat_eq_append inside left
    exact Or.inr ⟨k, b, y, rfl, front, body, behind⟩
  | unbalanced named spaces accepted endless =>
    obtain ⟨b, _, nothing⟩ := opening_cut named.all spaces notName head cut
    exact absurd (List.append_eq_nil_iff.1 nothing.symm).2 left
  | char plain noBrace within =>
    have length := congrArg List.length cut
    have first := List.length_pos_iff.2 nonempty
    have second := List.length_pos_iff.2 left
    simp only [Piece.render, List.length_append, List.length_singleton] at length
    omega

/-- What stands between braces is passed over before a name that the braces do not hide. -/
theorem braces_end {u x inner rest : Text} (unhidden : Unhidden u x) (nonempty : u ≠ [])
    (head : x.head?.any isNameStart = true) (fresh : '}' ∉ inner)
    (opened : u ++ x = '$' :: '{' :: (inner ++ '}' :: rest)) :
    ∃ w, u = ['$', '{'] ++ inner ++ ['}'] ++ w ∧ rest = w ++ x ∧
      Terminated (['$', '{'] ++ inner ++ ['}']) := by
  obtain ⟨more, rfl, same, ⟨name, after, rfl, own, closed⟩ | absent⟩ :=
    brace_in unhidden nonempty head opened
  · rw [List.append_assoc, List.cons_append] at same
    have first := cutAt?_append_cons fresh rest
    rw [same, cutAt?_append_cons own] at first
    obtain ⟨rfl, rfl⟩ := Prod.mk.inj (Option.some.inj first)
    have opening : Terminated ['$', '{'] := by decide
    exact ⟨after, by simp, rfl, terminated_append (terminated_append opening closed) (by decide)⟩
  · exact absurd (by simp) absent

section Cuts

variable {p : Piece} {rest u x : Text}

theorem step_ends_or_call (step : Piece.Step accept before (u ++ x) p rest)
    (unhidden : Unhidden u x) (terminated : Terminated u) (nonempty : u ≠ [])
    (notName : ¬∀ d ∈ u, isNameChar d = true) (head : x.head?.any isNameStart = true) :
    (∃ w, u = p.render ++ w ∧ rest = w ++ x ∧ Terminated p.render) ∨
      ∃ k b y, p = .call k ∧ u = k.run ++ k.gap ++ ['('] ++ b ∧ k.body = b ++ y ∧
        x = y ++ ')' :: rest := by
  have visible : x ≠ [] := by
    rintro rfl
    cases head
  have ends (w : Text) (left : rest = w ++ x) : Terminated p.render :=
    step.terminated.resolve_right fun nothing =>
      visible (List.append_eq_nil_iff.1 (left.symm.trans nothing)).2
  rcases List.append_eq_append_iff.1 step.render_append with ⟨w, front, left⟩ | ⟨z, cut, same⟩
  · exact Or.inl ⟨w, front, left, ends w left⟩
  rcases Decidable.em (z = []) with whole | shorter
  · rw [whole, List.append_nil] at cut
    rw [whole, List.nil_append] at same
    exact Or.inl ⟨[], by rw [cut, List.append_nil], same.symm, ends [] same.symm⟩
  have start := head
  rw [same, head?_append_left shorter] at start
  rcases cut_in_piece step terminated notName start cut with
    ⟨name, y, valid, within, rfl⟩ | ⟨k, b, y, rfl, rfl, body, rfl⟩
  · -- The brace that closes the token would stand before the name.
    have opened : u ++ x = '$' :: '{' :: (name ++ '}' :: rest) := by
      rw [same, ← List.append_assoc, ← List.append_assoc, ← within]
      simp
    obtain ⟨w, front, _⟩ := braces_end unhidden nonempty head (fresh_of_valid valid) opened
    have afterBrace := congrArg List.length front
    have beforeBrace := congrArg List.length within
    simp only [List.length_append, List.length_cons, List.length_nil] at afterBrace beforeBrace
    omega
  · exact Or.inr ⟨k, b, y, rfl, rfl, body, by rw [same]; simp⟩

/-- A piece that begins before a name, where no literal is open and nothing hides the name, ends before
it, or it is a call and the name stands in its group. -/
theorem piece_ends_or_call (reading : Piece.Reading accept before (u ++ x) p rest)
    (unhidden : Unhidden u x) (terminated : Terminated u) (nonempty : u ≠ [])
    (notName : ¬∀ d ∈ u, isNameChar d = true) (head : x.head?.any isNameStart = true) :
    (∃ w, u = p.render ++ w ∧ rest = w ++ x ∧ Terminated p.render) ∨
      ∃ k b y, p = .call k ∧ u = k.run ++ k.gap ++ ['('] ++ b ∧ k.body = b ++ y ∧
        x = y ++ ')' :: rest := by
  generalize whole : u ++ x = text at reading
  cases reading with
  | step step =>
    rw [← whole] at step
    exact step_ends_or_call step unhidden terminated nonempty notName head
  | braced fresh => exact Or.inl (braces_end unhidden nonempty head fresh (by rw [whole]; simp))
  | opened fresh =>
    obtain ⟨more, rfl, rfl, _⟩ := brace_in unhidden nonempty head whole
    exact Or.inl ⟨more, rfl, rfl, (by decide : Terminated ['$', '{'])⟩

end Cuts

/-- Where no literal is open and nothing hides it, the place before a name lies between pieces or in the
group of a call that is cut out. -/
theorem pieces_comes_or_within {u run tail : Text} (unhidden : Unhidden u (run ++ tail))
    (terminated : Terminated u) (named : Piece.Named (u.getLast?.or before) run) :
    (∃ ps qs, pieces accept before (u ++ (run ++ tail)) = ps ++ qs ∧ joined ps = u) ∨
      ∃ ps k qs b y, pieces accept before (u ++ (run ++ tail)) = ps ++ .call k :: qs ∧
        u = joined ps ++ (k.run ++ k.gap ++ ['('] ++ b) ∧ Terminated b ∧ k.body = b ++ y ∧
        run ++ tail = y ++ ')' :: joined qs := by
  generalize whole : u ++ (run ++ tail) = t
  induction before, t using Scanner.items.induct (Piece.scanner accept) generalizing u with
  | case1 before =>
    have head := named.head_append tail
    rw [(List.append_eq_nil_iff.1 whole).2] at head
    cases head
  | @case2 before c rest item ih =>
    rcases Decidable.em (u = []) with empty | nonempty
    · exact Or.inl ⟨[], _, rfl, by rw [empty]; rfl⟩
    · have reading := @Piece.reading_next accept before c rest
      have first : pieces accept before (c :: rest) = item.1 ::
          pieces accept item.1.render.getLast? item.2 := Scanner.items_cons _ _ _ _
      rw [← whole] at reading
      rw [first]
      rcases piece_ends_or_call reading unhidden terminated nonempty (named.notName nonempty)
        (named.head_append tail) with ⟨w, rfl, left, closed⟩ | ⟨k, b, y, call, rfl, body, same⟩
      · have visible := Piece.render_next_ne_nil accept before c rest
        rw [Terminated, quoteAfter_append_of_terminated closed] at terminated
        rw [List.getLast?_append, Option.or_assoc, List.getLast?_eq_some_getLast visible,
          Option.some_or, ← List.getLast?_eq_some_getLast visible] at named
        rcases ih (unhidden.of_append closed) terminated named left.symm with
          ⟨ps, qs, cut, rfl⟩ | ⟨ps, k, qs, b, y, cut, rfl, outside, body, same⟩
        · exact Or.inl ⟨_ :: ps, qs, congrArg _ cut, joined_cons _ _⟩
        · refine Or.inr ⟨_ :: ps, k, qs, b, y, congrArg _ cut, ?_, outside, body, same⟩
          rw [joined_cons, List.append_assoc (Piece.render _)]
          rfl
      · have member : .call k ∈ pieces accept before (c :: rest) := by
          rw [first, ← call]
          exact List.mem_cons_self
        obtain ⟨_, _, names, spaces⟩ := mem_pieces member
        have front := terminated_of_noQuote (noQuote_opening names spaces)
        rw [Terminated, quoteAfter_append_of_terminated front] at terminated
        refine Or.inr ⟨[], k, _, b, y, congrArg (· :: _) call, rfl, terminated, body, ?_⟩
        rw [same, joined_pieces]
        rfl

/-- A call with an accepted name that nothing hides is cut out, or it stands in the group of a call that
is. -/
theorem mem_pieces_or_within {u v : Text} (unhidden : Unhidden u (c.render ++ v))
    (behind : Behind before u c) (accepted : accept c.run = true) :
    (∃ ps qs, pieces accept before (u ++ (c.render ++ v)) = ps ++ .call c :: qs ∧ joined ps = u) ∨
      ∃ ps k qs b y, pieces accept before (u ++ (c.render ++ v)) = ps ++ .call k :: qs ∧
        u = joined ps ++ (k.run ++ k.gap ++ ['('] ++ b) ∧ Behind none b c ∧
        k.body = b ++ (c.render ++ y) := by
  have whole : c.render ++ v = c.run ++ (c.gap ++ '(' :: (c.body ++ ')' :: v)) := by
    simp [Call.render]
  rw [whole] at unhidden
  have found := @pieces_comes_or_within accept before u c.run _ unhidden behind.terminated
    behind.named
  rw [← whole] at found
  rcases found with ⟨ps, qs, cut, rfl⟩ | ⟨ps, k, qs, b, y, cut, rfl, outside, body, same⟩
  · have left := List.append_cancel_left ((text_of_pieces cut).symm)
    have later := pieces_behind cut
    rw [left, pieces_step (.call behind.named behind.spaces accepted behind.closed)] at later
    exact Or.inl ⟨ps, _, by rw [cut, later], rfl⟩
  · obtain ⟨_, closed, _, _⟩ := mem_pieces (cut ▸ List.mem_append_right ps List.mem_cons_self)
    rw [body] at closed
    obtain ⟨depth, inner⟩ := closes_of_append closed
    rw [show quoteAfter Place.outside.quote b = none from outside] at inner
    obtain ⟨v', rfl⟩ :=
      call_within behind.named.all behind.spaces behind.closed inner (Or.inl rfl) same
    refine Or.inr ⟨ps, k, qs, b, v', cut, rfl, ⟨outside, ⟨behind.named.head, behind.named.all, ?_⟩,
      behind.spaces, behind.closed⟩, body⟩
    have starts := behind.named.starts
    rw [← List.append_assoc, List.getLast?_append, Option.or_assoc] at starts
    cases last : b.getLast? with
    | none => rfl
    | some d =>
      rw [last] at starts
      exact starts

/-- A call with an accepted name that stands in a well-braced text is cut out of it, or it stands in
an argument of a call that is. -/
theorem mem_pieces_or_argument (wellBraced : WellBraced t) {u v : Text}
    (whole : t = u ++ (c.render ++ v)) (behind : Behind before u c)
    (accepted : accept c.run = true) :
    .call c ∈ pieces accept before t ∨
      ∃ k, .call k ∈ pieces accept before t ∧ ∃ a ∈ k.arguments, Stands c a := by
  rw [whole] at wellBraced ⊢
  have front : WellBraced u := by
    have opening : u ++ (c.render ++ v) =
        (u ++ (c.run ++ c.gap)) ++ '(' :: (c.body ++ ')' :: v) := by simp [Call.render]
    rw [opening] at wellBraced
    refine (wellBraced.of_append_cons (by decide) (by decide)).of_append_left fun brace => ?_
    exact notMem_opening behind.named.all behind.spaces (by decide) (by decide) (by decide)
      (List.mem_append_left ['('] brace)
  rcases mem_pieces_or_within (front.unhidden _) behind accepted with
    ⟨ps, qs, cut, _⟩ | ⟨ps, k, qs, b, y, cut, _, inner, body⟩
  · rw [cut]
    exact Or.inl (List.mem_append_right ps List.mem_cons_self)
  · have member : .call k ∈ pieces accept before (u ++ (c.render ++ v)) := by
      rw [cut]
      exact List.mem_append_right ps List.mem_cons_self
    obtain ⟨a, placed, standsAt⟩ := standsAt_of_body inner body (mem_pieces member).2.1 0
    refine Or.inr ⟨k, member, a.raw, ?_, standsAt.stands⟩
    rw [← map_raw_placeArguments (k.bodyStart 0) k.arguments]
    exact List.mem_map_of_mem placed

end Places

end Call

end FormLogic
