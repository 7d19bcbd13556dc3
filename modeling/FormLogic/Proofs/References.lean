import FormLogic.Proofs.Resolving
import FormLogic.Proofs.Seam

/-!
How a text is cut at its references. Each way in which a fragment is read is one case of `Step`. In a
text that closes what it opens the fragments are found without a look behind its seam; what stands
behind the seam matters only to the space that may be needed there.
-/
namespace FormLogic.Field.Reference

open Text Call

theorem startsPath_eq (c : Char) (rest : Text) :
    startsPath (c :: rest) =
      (c == '.' && !rest.head?.any Char.isDigit || c == '/' && rest.head?.any isNameStart) := by
  by_cases point : c = '.'
  · rw [point]
    simp [startsPath]
  · by_cases slash : c = '/'
    · rw [slash]
      simp [startsPath]
    · simp [startsPath, point, slash]

namespace Fragment

/-- How the first fragment of a text is read. -/
inductive Step (before : Option Char) : Text → Fragment → Text → Prop where
  | literal {l : Literal} {rest : Text} (proper : l.Proper) :
    Step before (l.render ++ rest) (.plain l.render) rest
  | unclosed {q : Char} {rest : Text} (quote : isQuote q = true) (fresh : q ∉ rest) :
    Step before (q :: rest) (.plain (q :: rest)) []
  | braced {name rest : Text} (fresh : '}' ∉ name) (valid : (bracedName? name).isSome = true) :
    Step before (['$', '{'] ++ name ++ ['}'] ++ rest) (.reference (['$', '{'] ++ name ++ ['}']))
      rest
  | current {path rest : Text} (starts : startsToken before = true)
    (all : ∀ c ∈ path, isPathChar c = true) (slash : path.head?.all (· == '/') = true)
    (stop : if path = [] then rest.head? ≠ some '/' else rest.head?.any isPathChar = false) :
    Step before (currentCall ++ path ++ rest) (.reference (currentCall ++ path)) rest
  | path {token rest : Text} (starts : startsToken before = true)
    (isPath : startsPath (token ++ rest) = true) (all : ∀ c ∈ token, isPathChar c = true)
    (stop : rest.head?.any isPathChar = false) :
    Step before (token ++ rest) (.reference token) rest
  | char {c : Char} {rest : Text} (plain : isQuote c = false)
    (noToken : token? before (c :: rest) = none) :
    Step before (c :: rest) (.plain [c]) rest

variable {before : Option Char}

theorem startsPath_cons {t : Text} (isPath : startsPath t = true) :
    ∃ c rest, t = c :: rest ∧ (c = '.' ∨ c = '/') := by
  unfold startsPath at isPath
  split at isPath
  · next after => exact ⟨'.', after, rfl, Or.inl rfl⟩
  · next after => exact ⟨'/', after, rfl, Or.inr rfl⟩
  · cases isPath

/-- A token is found where it stands. -/
theorem token?_braced {name rest : Text} (fresh : '}' ∉ name)
    (valid : (bracedName? name).isSome = true) :
    token? before ('$' :: '{' :: (name ++ '}' :: rest)) =
      some (['$', '{'] ++ name ++ ['}'], rest) :=
  cutBraced?_eq_some_iff.2 ⟨name, rfl, fresh, valid, rfl⟩

theorem token?_current {after : Text} (starts : startsToken before = true) :
    token? before (currentCall ++ after) = some (cutCurrent after) := by
  have found : behind? currentCall (currentCall ++ after) = some after :=
    behind?_eq_some_iff.2 rfl
  rw [token?, starts, found]
  · rfl
  · intro inner same
    cases same

theorem token?_path {c : Char} {rest : Text} (starts : startsToken before = true)
    (first : c = '.' ∨ c = '/') (isPath : startsPath (c :: rest) = true) :
    token? before (c :: rest) = some (cutPath (c :: rest)) := by
  have other : behind? currentCall (c :: rest) = none := by
    rcases first with rfl | rfl <;> rfl
  rw [token?, starts, other, isPath]
  · rfl
  · intro inner same
    rcases first with rfl | rfl <;> cases same

theorem cutCurrent_append {path rest : Text} (all : ∀ c ∈ path, isPathChar c = true)
    (slash : path.head?.all (· == '/') = true)
    (stop : if path = [] then rest.head? ≠ some '/' else rest.head?.any isPathChar = false) :
    cutCurrent (path ++ rest) = (currentCall ++ path, rest) := by
  cases path with
  | nil =>
    rw [if_pos rfl] at stop
    rw [List.nil_append, cutCurrent, if_neg stop, List.append_nil]
  | cons c more =>
    rw [if_neg (List.cons_ne_nil c more)] at stop
    have same : c = '/' := by simpa using slash
    rw [cutCurrent, if_pos (by rw [same]; rfl), cutPath, takeWhile_run all stop,
      dropWhile_run all stop]

theorem next_of_token? {c : Char} {rest token after : Text} (plain : isQuote c = false)
    (found : token? before (c :: rest) = some (token, after)) :
    next before c rest = (.reference token, after) := by
  rw [next, plain, found]
  rfl

/-- The scanner reads a fragment in the way the step says. -/
theorem next_of_step {t rest : Text} {s : Fragment} (step : Step before t s rest) :
    ∃ c more, t = c :: more ∧ next before c more = (s, rest) := by
  cases step with
  | @literal l rest proper =>
    refine ⟨l.quote, l.content ++ l.quote :: rest, Literal.cons_quote_append l rest, ?_⟩
    rw [next, if_pos proper.quote_isQuote, Literal.cutAt?_quote proper]
    rfl
  | @unclosed q rest quote fresh =>
    refine ⟨q, rest, rfl, ?_⟩
    rw [next, if_pos quote, cutAt?_eq_none_iff.2 fresh]
  | @braced name rest fresh valid =>
    refine ⟨'$', '{' :: (name ++ '}' :: rest), by simp, ?_⟩
    exact next_of_token? (by decide) (token?_braced fresh valid)
  | @current path rest starts all slash stop =>
    refine ⟨'c', ['u', 'r', 'r', 'e', 'n', 't', '(', ')'] ++ path ++ rest, rfl, ?_⟩
    have found := @token?_current before (path ++ rest) starts
    rw [cutCurrent_append all slash stop, ← List.append_assoc] at found
    exact next_of_token? (by decide) found
  | @path token rest starts isPath all stop =>
    obtain ⟨c, more, whole, first⟩ := startsPath_cons isPath
    have cut : cutPath (token ++ rest) = (token, rest) := by
      rw [cutPath, takeWhile_run all stop, dropWhile_run all stop]
    refine ⟨c, more, whole, ?_⟩
    rw [whole] at isPath cut
    have plain : isQuote c = false := by
      rcases first with rfl | rfl <;> decide
    exact next_of_token? plain (by rw [token?_path starts first isPath, cut])
  | @char c rest plain noToken => exact ⟨c, rest, rfl, by rw [next, plain, noToken]; rfl⟩

/-- A token is of one of three forms. -/
theorem step_token {c : Char} {rest token after : Text}
    (found : token? before (c :: rest) = some (token, after)) :
    Step before (c :: rest) (.reference token) after := by
  by_cases brace : c = '$' ∧ rest.head? = some '{'
  · obtain ⟨inner, rfl⟩ : ∃ inner, rest = '{' :: inner := by
      cases rest with
      | nil => cases brace.2
      | cons d inner =>
        rw [List.head?_cons, Option.some.injEq] at brace
        exact ⟨inner, by rw [brace.2]⟩
    rw [brace.1] at found ⊢
    obtain ⟨name, rfl, fresh, valid, rfl⟩ := cutBraced?_eq_some_iff.1 found
    have step : Step before _ _ after := .braced fresh valid
    simpa using step
  · unfold token? at found
    split at found
    · next inner same =>
      obtain ⟨rfl, rfl⟩ := List.cons.inj same
      exact absurd ⟨rfl, rfl⟩ brace
    · split at found
      · next starts =>
        split at found
        · next behind current =>
          have whole := behind?_eq_some_iff.1 current
          have parts : behind.takeWhile isPathChar ++ behind.dropWhile isPathChar = behind :=
            List.takeWhile_append_dropWhile
          rw [whole]
          unfold cutCurrent at found
          split at found
          · next slash =>
            cases found
            have first : (behind.takeWhile isPathChar).head? = some '/' := by
              rw [List.head?_takeWhile, slash]
              rfl
            have step : Step before (currentCall ++ behind.takeWhile isPathChar ++
                behind.dropWhile isPathChar)
                (.reference (currentCall ++ behind.takeWhile isPathChar))
                (behind.dropWhile isPathChar) := by
              refine .current starts (fun d member => of_mem_takeWhile member) ?_ ?_
              · rw [first]
                rfl
              · rw [if_neg fun empty => by rw [empty] at first; cases first]
                exact head?_dropWhile
            rwa [List.append_assoc, parts] at step
          · next other =>
            cases found
            have step : Step before (currentCall ++ [] ++ after) _ after :=
              .current starts (by simp) rfl (by rw [if_pos rfl]; exact other)
            rwa [List.append_nil] at step
        · split at found
          · next isPath =>
            cases found
            have parts : (c :: rest).takeWhile isPathChar ++ (c :: rest).dropWhile isPathChar =
              c :: rest := List.takeWhile_append_dropWhile
            have step : Step before ((c :: rest).takeWhile isPathChar ++
                (c :: rest).dropWhile isPathChar) _ ((c :: rest).dropWhile isPathChar) :=
              .path starts (by rw [parts]; exact isPath) (fun d member => of_mem_takeWhile member)
                head?_dropWhile
            rwa [parts] at step
          · cases found
      · cases found

/-- Each fragment is read in one of the ways of `Step`. -/
theorem step_next (before : Option Char) (c : Char) (rest : Text) :
    Step before (c :: rest) (next before c rest).1 (next before c rest).2 := by
  unfold next
  split
  · next quote =>
    split
    · next content after cut =>
      obtain ⟨whole, fresh⟩ := cutAt?_eq_some_iff.1 cut
      have step : Step before (Literal.render ⟨c, content⟩ ++ after) _ after :=
        .literal ⟨quote, fresh⟩
      rwa [Literal.cons_quote_append, ← whole] at step
    · next uncut => exact .unclosed quote (cutAt?_eq_none_iff.1 uncut)
  · next plain =>
    rw [Bool.not_eq_true] at plain
    split
    · next token after found => exact step_token found
    · next noToken => exact .char plain noToken

/-- Induction along the fragments of a text. -/
theorem stepInduction {motive : Option Char → Text → Prop} (nil : ∀ before, motive before [])
    (step : ∀ before t s rest, Step before t s rest → motive s.source.getLast? rest →
      motive before t) (before : Option Char) (t : Text) : motive before t := by
  induction before, t using Scanner.items.induct Fragment.scanner with
  | case1 before => exact nil before
  | case2 before c rest item ih => exact step before _ _ _ (step_next before c rest) ih

end Fragment

theorem isPathChar_plain {c : Char} (path : isPathChar c = true) :
    c ≠ '(' ∧ c ≠ ')' ∧ isQuote c = false :=
  ⟨ne_of_class path (by decide), ne_of_class path (by decide),
    not_isQuote path (by decide) (by decide)⟩

theorem closes_path_append {path : Text} (all : ∀ c ∈ path, isPathChar c = true) (depth : Nat)
    (rest : Text) : closes ⟨depth, none⟩ (path ++ rest) = closes ⟨depth, none⟩ rest :=
  closes_append_of_plain (fun c member => isPathChar_plain (all c member)) depth rest

theorem closes_current_append (depth : Nat) (rest : Text) :
    closes ⟨depth, none⟩ (currentCall ++ rest) = closes ⟨depth, none⟩ rest := by
  have whole : currentCall ++ rest = ['c', 'u', 'r', 'r', 'e', 'n', 't'] ++ '(' :: ')' :: rest := rfl
  rw [whole, closes_append_of_plain (by decide), closes_opening, closes_closing]

theorem Shape.closes_append {token : Text} (shape : Shape token) (depth : Nat) (rest : Text) :
    closes ⟨depth, none⟩ (token ++ rest) = closes ⟨depth, none⟩ rest := by
  cases shape with
  | braced valid => exact closes_braced_append valid depth rest
  | path starts all => exact closes_path_append all depth rest
  | current all => rw [List.append_assoc, closes_current_append, closes_path_append all]

theorem Referent.closes_append {text : Text} (referent : Referent text) (depth : Nat)
    (rest : Text) : closes ⟨depth, none⟩ (text ++ rest) = closes ⟨depth, none⟩ rest := by
  obtain ⟨_, path, all, rfl | rfl⟩ := referent
  · exact closes_path_append all depth rest
  · rw [List.append_assoc, closes_current_append, closes_path_append all]

theorem Shape.terminated {token : Text} (shape : Shape token) : Terminated token := by
  have closed := shape.closes_append 0 []
  rw [List.append_nil] at closed
  exact terminated_of_closes closed

namespace Fragment

variable {before : Option Char}

theorem Step.shape {t rest token : Text} (step : Step before t (.reference token) rest) :
    Shape token := by
  cases step with
  | braced fresh valid => exact .braced valid
  | current starts all slash stop => exact .current all
  | path starts isPath all stop =>
    obtain ⟨c, more, whole, first⟩ := startsPath_cons isPath
    refine .path ?_ all
    cases token with
    | nil =>
      rw [List.nil_append] at whole
      rw [whole] at stop
      have path : isPathChar c = true := by
        rcases first with rfl | rfl <;> decide
      exact absurd (stop.symm.trans path) (by decide)
    | cons d later =>
      rw [List.cons_append, List.cons.injEq] at whole
      rw [whole.1]
      exact first.imp (congrArg some) (congrArg some)

/-- The fragment and the text behind it are the text. -/
theorem Step.source_append {t rest : Text} {s : Fragment} (step : Step before t s rest) :
    s.source ++ rest = t := by
  obtain ⟨c, more, rfl, same⟩ := next_of_step step
  have whole := source_next before c more
  rwa [same] at whole

/-- What is left of a text that closes what it opens does so too, from some depth on. -/
theorem Step.closes {t rest : Text} {s : Fragment} (step : Step before t s rest) {depth : Nat}
    (closed : closes ⟨depth, none⟩ t = true) : ∃ depth, Call.closes ⟨depth, none⟩ rest = true := by
  cases s with
  | reference token =>
    rw [← step.source_append] at closed
    exact ⟨depth, (step.shape.closes_append depth rest).symm.trans closed⟩
  | plain text =>
    cases step with
    | literal proper => exact ⟨depth, by rwa [closes_render_append proper] at closed⟩
    | unclosed quote fresh => exact ⟨0, rfl⟩
    | @char c rest plain noToken => exact closes_of_cons plain closed

theorem Step.wellBraced {t rest : Text} {s : Fragment} (step : Step before t s rest)
    (wellBraced : WellBraced t) : WellBraced rest := by
  cases s with
  | reference token =>
    rw [← step.source_append] at wellBraced
    exact wellBraced.of_append step.shape.terminated
  | plain text =>
    cases step with
    | literal proper => exact wellBraced.of_append (Literal.terminated_render proper)
    | unclosed quote fresh => exact bracesHold_nil none
    | @char c rest plain noToken =>
      exact @WellBraced.of_append [c] rest wellBraced ((terminated_cons plain []).2 rfl)

/-- The ways to cut the text `current()` in two. -/
theorem currentCall_cut {u more : Text} (whole : currentCall = u ++ more) (nonempty : u ≠ [])
    (left : more ≠ []) :
    (u.getLast?.any isPathChar = true ∧ more.head?.any isPathChar = true) ∨
      (u = ['c', 'u', 'r', 'r', 'e', 'n', 't'] ∧ more = ['(', ')']) ∨
      u = ['c', 'u', 'r', 'r', 'e', 'n', 't', '('] := by
  have front : u = currentCall.take u.length := by rw [whole, List.take_left]
  have back : more = currentCall.drop u.length := by rw [whole, List.drop_left]
  have long := List.length_pos_iff.2 nonempty
  have short : u.length + more.length = 9 := by
    rw [← List.length_append, ← whole]
    rfl
  have positive := List.length_pos_iff.2 left
  have table : ∀ n < 9, 0 < n →
      (((currentCall.take n).getLast?.any isPathChar = true ∧
          (currentCall.drop n).head?.any isPathChar = true) ∨
        (currentCall.take n = ['c', 'u', 'r', 'r', 'e', 'n', 't'] ∧
          currentCall.drop n = ['(', ')']) ∨
        currentCall.take n = ['c', 'u', 'r', 'r', 'e', 'n', 't', '(']) := by decide
  rw [front, back]
  simpa [← front] using table u.length (by omega) long

/-- Whether a text begins with a path is seen before its seam. -/
theorem startsPath_seam {c : Char} {rest tail : Text} (seam : Seam (c :: rest) tail) :
    startsPath (c :: (rest ++ tail)) = startsPath (c :: rest) := by
  by_cases point : c = '.'
  · subst point
    cases rest with
    | cons d more => rfl
    | nil =>
      have sub (d : Char) (digit : d.isDigit = true) : isPathChar d = true := by
        simp [isPathChar, isNameChar, Char.isAlphanum, digit]
      have stop := any_head?_mono sub (seam.path (by decide))
      change (!tail.head?.any Char.isDigit) = true
      rw [stop]
      rfl
  · by_cases slash : c = '/'
    · subst slash
      cases rest with
      | cons d more => rfl
      | nil =>
        have sub (d : Char) (start : isNameStart d = true) : isPathChar d = true :=
          isPathChar_of_isNameChar d (Piece.isNameChar_of_isNameStart start)
        exact any_head?_mono sub (seam.path (by decide))
    · simp [startsPath, point, slash]

/-- No token arises at the seam of a text. -/
theorem token?_append_of_none {c : Char} {rest tail : Text} {depth : Nat}
    (closed : Call.closes ⟨depth, none⟩ (c :: rest) = true) (wellBraced : WellBraced (c :: rest))
    (seam : Seam (c :: rest) tail) (noToken : token? before (c :: rest) = none) :
    token? before (c :: (rest ++ tail)) = none := by
  cases found : token? before (c :: (rest ++ tail)) with
  | none => rfl
  | some parts =>
    obtain ⟨token, after⟩ := parts
    have step := step_token found
    generalize whole : c :: (rest ++ tail) = t at step
    cases step with
    | @braced name after fresh valid =>
      obtain ⟨rfl, same⟩ := List.cons.inj whole
      cases rest with
      | nil =>
        rw [List.nil_append] at same
        exact absurd (by rw [same]; rfl) (seam.brace rfl)
      | cons d inner =>
        obtain ⟨rfl, _⟩ := List.cons.inj same
        obtain ⟨inside, behind, rfl, own, known⟩ := wellBraced.opened
        rw [token?_braced own known] at noToken
        cases noToken
    | @current path after starts all slash stop =>
      have whole : (c :: rest) ++ tail = currentCall ++ (path ++ after) := by
        rw [List.cons_append, whole, List.append_assoc]
      rcases List.append_eq_append_iff.1 whole with ⟨more, left, right⟩ | ⟨more, left, right⟩
      · rcases List.eq_nil_or_concat more with rfl | ⟨_, _, concat⟩
        · rw [← List.append_nil (c :: rest), ← left, ← List.append_nil currentCall,
            token?_current starts] at noToken
          cases noToken
        · have nonempty : more ≠ [] := by simp [concat]
          rcases currentCall_cut left (List.cons_ne_nil c rest) nonempty with
            ⟨last, first⟩ | ⟨same, group⟩ | same
          · have stop := seam.path last
            cases more with
            | nil => exact absurd rfl nonempty
            | cons d later =>
              rw [right] at stop
              exact absurd (stop.symm.trans first) (by decide)
          · rw [same, right, group] at seam
            have impossible := seam.group (by decide)
            cases impossible
          · rw [same] at closed
            have stuck := closes_append_of_plain (s := ['c', 'u', 'r', 'r', 'e', 'n', 't'])
              (by decide) depth ['(']
            rw [closes_opening] at stuck
            have impossible := (closes_nil _).1 (stuck.symm.trans closed)
            cases impossible
      · rw [left, token?_current starts] at noToken
        cases noToken
    | @path token after starts isPath all stop =>
      rw [← whole] at isPath
      have inside := (startsPath_seam seam).symm.trans isPath
      obtain ⟨_, _, same, first⟩ := startsPath_cons inside
      obtain ⟨rfl, _⟩ := List.cons.inj same
      rw [token?_path starts first inside] at noToken
      cases noToken

/-- A fragment of a text that closes what it opens is read alike where a seam follows the text. -/
theorem Step.append {t rest tail : Text} {s : Fragment} (step : Step before t s rest) {depth : Nat}
    (closed : Call.closes ⟨depth, none⟩ t = true) (wellBraced : WellBraced t) (seam : Seam t tail) :
    Step before (t ++ tail) s (rest ++ tail) := by
  cases step with
  | literal proper =>
    rw [List.append_assoc]
    exact .literal proper
  | unclosed quote fresh =>
    have stuck := terminated_of_closes closed
    rw [Terminated, quoteAfter, quote, if_pos rfl, quoteAfter_some_of_notMem fresh] at stuck
    cases stuck
  | braced fresh valid =>
    rw [List.append_assoc]
    exact .braced fresh valid
  | @current path rest starts all slash stop =>
    rw [List.append_assoc]
    refine .current starts all slash ?_
    cases rest with
    | cons c more => exact stop
    | nil =>
      rw [List.append_nil] at seam
      split
      · next atEnd =>
        rw [atEnd, List.append_nil] at seam
        exact seam.current List.suffix_rfl
      · next nonempty =>
        exact seam.of_append.path (any_getLast? nonempty all)
  | @path token rest starts isPath all stop =>
    rw [List.append_assoc]
    obtain ⟨c, more, whole, first⟩ := startsPath_cons isPath
    refine .path starts ?_ all ?_
    · rw [← List.append_assoc, whole, List.cons_append, startsPath_seam (by rwa [← whole]),
        ← whole]
      exact isPath
    · cases rest with
      | cons d later => exact stop
      | nil =>
        rw [List.append_nil] at seam whole
        exact seam.path (any_getLast? (by rw [whole]; exact List.cons_ne_nil c more) all)
  | @char c rest plain noToken =>
    exact .char plain (token?_append_of_none closed wellBraced seam noToken)

end Fragment

section

variable {meaning : Text → Text} {before written after : Option Char}

/-- The text that is written for a token, with the spaces that keep it apart. -/
def spaced (meaning : Text → Text) (written after : Option Char) (token : Text) : Text :=
  separator written (meaning token).head? ++ meaning token ++
    separator (meaning token).getLast? after

theorem splice_reference (token : Text) (rest : List Fragment) :
    splice meaning written after (.reference token :: rest) =
      spaced meaning written ((firstChar rest).or after) token ++
        splice meaning ((spaced meaning written ((firstChar rest).or after) token).getLast?.or written)
          after rest :=
  rfl

theorem firstChar_fragments (before : Option Char) (t : Text) :
    firstChar (fragments before t) = t.head? := by
  cases t with
  | nil => rw [fragments, Scanner.items_nil]; rfl
  | cons c rest =>
    have whole := Fragment.source_next before c rest
    have nonempty := Fragment.source_next_ne_nil before c rest
    rw [fragments, Scanner.items_cons]
    simp only [firstChar, Fragment.scanner]
    rw [← whole, List.head?_append, List.head?_eq_some_head nonempty]
    rfl

theorem fragments_step {t rest : Text} {s : Fragment} (step : Fragment.Step before t s rest) :
    fragments before t = s :: fragments s.source.getLast? rest := by
  obtain ⟨c, more, rfl, same⟩ := Fragment.next_of_step step
  rw [fragments, Scanner.items_cons]
  simp only [Fragment.scanner, same]
  rfl

theorem replaced_nil : replaced meaning before written after [] = [] := by
  rw [replaced, fragments, Scanner.items_nil]
  rfl

theorem replaced_plain {t rest text : Text} (step : Fragment.Step before t (.plain text) rest) :
    replaced meaning before written after t =
      text ++ replaced meaning text.getLast? text.getLast? after rest := by
  have nonempty : text ≠ [] := by
    obtain ⟨c, more, _, same⟩ := Fragment.next_of_step step
    have nonempty := Fragment.source_next_ne_nil before c more
    rwa [same] at nonempty
  have last : text.getLast?.or written = text.getLast? := by
    rw [List.getLast?_eq_some_getLast nonempty, Option.some_or]
  rw [replaced, fragments_step step, splice, last]
  rfl

theorem replaced_reference {t rest token : Text}
    (step : Fragment.Step before t (.reference token) rest) :
    replaced meaning before written after t =
      spaced meaning written (rest.head?.or after) token ++
        replaced meaning token.getLast?
          ((spaced meaning written (rest.head?.or after) token).getLast?.or written) after rest := by
  rw [replaced, fragments_step step, splice_reference, firstChar_fragments]
  rfl

/-- Fragments of a text that closes what it opens are found without a look behind its seam. -/
theorem fragments_append {t tail : Text} {depth : Nat} (closed : closes ⟨depth, none⟩ t = true)
    (wellBraced : WellBraced t) (seam : Seam t tail) (before : Option Char) :
    fragments before (t ++ tail) =
      fragments before t ++ fragments (t.getLast?.or before) tail := by
  refine @Scanner.items_append _ Fragment.scanner
    (fun _ t => (∃ depth, closes ⟨depth, none⟩ t = true) ∧ WellBraced t ∧ Seam t tail) tail ?_
    before t ⟨⟨depth, closed⟩, wellBraced, seam⟩
  rintro before c rest ⟨⟨depth, closed⟩, wellBraced, seam⟩
  have step := Fragment.step_next before c rest
  obtain ⟨d, more, whole, same⟩ := Fragment.next_of_step (step.append closed wellBraced seam)
  obtain ⟨rfl, rfl⟩ := List.cons.inj whole
  refine ⟨same, step.closes closed, step.wellBraced wellBraced, ?_⟩
  rw [← step.source_append] at seam
  exact seam.of_append

theorem firstChar_append (fs gs : List Fragment) :
    firstChar (fs ++ gs) = (firstChar fs).or (firstChar gs) := by
  induction fs with
  | nil => rw [List.nil_append, firstChar, Option.none_or]
  | cons s rest ih => rw [List.cons_append, firstChar, ih, firstChar, Option.or_assoc]

theorem splice_append (fs gs : List Fragment) :
    splice meaning written after (fs ++ gs) =
      splice meaning written ((firstChar gs).or after) fs ++
        splice meaning ((splice meaning written ((firstChar gs).or after) fs).getLast?.or written)
          after gs := by
  induction fs generalizing written with
  | nil => rw [List.nil_append, splice, List.nil_append, List.getLast?_nil, Option.none_or]
  | cons s rest ih =>
    cases s with
    | plain text =>
      rw [List.cons_append, splice, splice, ih, List.append_assoc, List.getLast?_append,
        Option.or_assoc]
    | reference token =>
      rw [List.cons_append, splice_reference, splice_reference, firstChar_append, Option.or_assoc]
      generalize spaced meaning written _ token = text
      rw [ih, List.append_assoc, List.getLast?_append, Option.or_assoc]

/-- References are replaced in two parts of a text alike, but for the space that may be needed
between the parts. -/
theorem replaced_append {t tail : Text} {depth : Nat} (closed : closes ⟨depth, none⟩ t = true)
    (wellBraced : WellBraced t) (seam : Seam t tail) :
    replaced meaning before written after (t ++ tail) =
      replaced meaning before written (tail.head?.or after) t ++
        replaced meaning (t.getLast?.or before)
          ((replaced meaning before written (tail.head?.or after) t).getLast?.or written)
          after tail := by
  rw [replaced, fragments_append closed wellBraced seam, splice_append, firstChar_fragments]
  rfl

/-- No token starts at a character that no token begins with. -/
theorem token?_eq_none {c : Char} (other : c ∉ ['$', 'c', '.', '/']) (rest : Text) :
    token? before (c :: rest) = none := by
  simp only [List.mem_cons, List.not_mem_nil, or_false, not_or] at other
  obtain ⟨noDollar, noCurrent, noPoint, noSlash⟩ := other
  cases found : token? before (c :: rest) with
  | none => rfl
  | some parts =>
    obtain ⟨token, after⟩ := parts
    have step := Fragment.step_token found
    generalize whole : c :: rest = t at step
    cases step with
    | braced fresh valid => exact absurd (List.cons.inj whole).1 noDollar
    | current starts all slash stop => exact absurd (List.cons.inj whole).1 noCurrent
    | path starts isPath all stop =>
      obtain ⟨d, more, same, first⟩ := Fragment.startsPath_cons isPath
      rw [same] at whole
      rw [← (List.cons.inj whole).1] at first
      exact absurd first (not_or.2 ⟨noPoint, noSlash⟩)

/-- Text in which no reference can begin stays as it is. -/
theorem replaced_append_of_plain {u t : Text}
    (plain : ∀ c ∈ u, isQuote c = false ∧ c ∉ ['$', 'c', '.', '/']) :
    replaced meaning before written after (u ++ t) =
      u ++ replaced meaning (u.getLast?.or before) (u.getLast?.or written) after t := by
  induction u generalizing before written with
  | nil => rfl
  | cons c rest ih =>
    obtain ⟨noQuote, other⟩ := plain c List.mem_cons_self
    rw [getLast?_cons_or, getLast?_cons_or, List.cons_append,
      replaced_plain (.char noQuote (token?_eq_none other _)),
      ih fun d member => plain d (List.mem_cons_of_mem c member)]
    rfl

/-- How a text ends once its references are replaced. What stands behind it matters only where it
ends in a reference. -/
theorem replaced_end (meaning : Text → Text) (before written : Option Char) {t : Text}
    (nonempty : t ≠ []) :
    (∃ u text, text ≠ [] ∧ text <:+ t ∧
        ∀ after, replaced meaning before written after t = u ++ text) ∨
      ∃ u token, Shape token ∧ token <:+ t ∧
        ∀ after, replaced meaning before written after t =
          u ++ meaning token ++ separator (meaning token).getLast? after := by
  have whole := Fragment.scanner.flatMap_source_items before t
  rcases List.eq_nil_or_concat (Fragment.scanner.items before t) with empty | ⟨fs, s, same⟩
  · rw [empty] at whole
    exact absurd whole.symm nonempty
  · rw [List.concat_eq_append] at same
    have member : s ∈ Fragment.scanner.items before t := by rw [same]; simp
    rw [same, List.flatMap_append, List.flatMap_singleton] at whole
    have suffix : s.source <:+ t := ⟨_, whole⟩
    obtain ⟨b, c, rest, item⟩ := Fragment.scanner.mem_items member
    have step := Fragment.step_next b c rest
    have visible := Fragment.source_next_ne_nil b c rest
    change s = (Fragment.next b c rest).1 at item
    rw [← item] at step visible
    obtain ⟨d, more, first⟩ := List.exists_cons_of_ne_nil visible
    cases s with
    | plain text =>
      refine Or.inl ⟨splice meaning written (some d) fs, text, visible, suffix, fun after => ?_⟩
      change text = d :: more at first
      rw [replaced, fragments, same, splice_append, splice, splice, first]
      simp [firstChar, Fragment.source]
    | reference token =>
      refine Or.inr ⟨splice meaning written (some d) fs ++
        separator ((splice meaning written (some d) fs).getLast?.or written)
          (meaning token).head?, token, step.shape, suffix, fun after => ?_⟩
      change token = d :: more at first
      have head : firstChar [.reference token] = some d := by simp [firstChar, Fragment.source, first]
      rw [replaced, fragments, same, splice_append, head, splice_reference, splice, spaced]
      simp [firstChar]

/-- Behind and before characters that are no word characters, no space is needed. -/
theorem separator_congr {left right left' right' : Option Char}
    (sameLeft : left.any isWordChar = left'.any isWordChar)
    (sameRight : right.any isWordChar = right'.any isWordChar) :
    separator left right = separator left' right' := by
  rw [separator, separator, sameLeft, sameRight]

theorem any_or_congr {p : Char → Bool} {x y z : Option Char} (same : y.any p = z.any p) :
    (x.or y).any p = (x.or z).any p := by
  cases x with
  | none => rw [Option.none_or, Option.none_or, same]
  | some c => rw [Option.some_or, Option.some_or]

/-- Of the characters around a text it only matters whether they are word characters. -/
theorem splice_congr {written' after' : Option Char} (fs : List Fragment)
    (sameWritten : written.any isWordChar = written'.any isWordChar)
    (sameAfter : after.any isWordChar = after'.any isWordChar) :
    splice meaning written after fs = splice meaning written' after' fs := by
  induction fs generalizing written written' with
  | nil => rfl
  | cons s rest ih =>
    cases s with
    | plain text => rw [splice, splice, ih (any_or_congr sameWritten)]
    | reference token =>
      have same : spaced meaning written ((firstChar rest).or after) token =
          spaced meaning written' ((firstChar rest).or after') token := by
        rw [spaced, spaced, separator_congr sameWritten rfl,
          separator_congr rfl (any_or_congr sameAfter)]
      rw [splice_reference, splice_reference, same, ih (any_or_congr sameWritten)]

theorem fragments_congr {before' : Option Char} (same : startsToken before = startsToken before')
    (t : Text) : fragments before t = fragments before' t := by
  apply Scanner.items_congr_before
  intro c rest _
  have token : token? before (c :: rest) = token? before' (c :: rest) := by
    unfold token?
    rw [same]
  simp only [Fragment.scanner, Fragment.next, token]

theorem replaced_congr {before' written' after' : Option Char}
    (sameBefore : startsToken before = startsToken before')
    (sameWritten : written.any isWordChar = written'.any isWordChar)
    (sameAfter : after.any isWordChar = after'.any isWordChar) (t : Text) :
    replaced meaning before written after t = replaced meaning before' written' after' t := by
  rw [replaced, replaced, fragments_congr sameBefore, splice_congr _ sameWritten sameAfter]

theorem separator_eq (left right : Option Char) :
    separator left right = [] ∨ separator left right = [' '] := by
  unfold separator
  split
  · exact Or.inr rfl
  · exact Or.inl rfl

theorem separator_word {left right : Option Char} (before : left.any isWordChar = true)
    (behind : right.any isWordChar = true) : separator left right = [' '] := by
  rw [separator, before, behind]
  rfl

theorem separator_plain {left right : Option Char} (behind : right.any isWordChar = false) :
    separator left right = [] := by
  rw [separator, behind, Bool.and_false]
  rfl

theorem separator_spaces (left right : Option Char) :
    ∀ c ∈ separator left right, isSpace c = true := by
  rcases separator_eq left right with same | same <;> rw [same] <;> decide

/-- No `${` stands before a text that is no token. -/
theorem noBrace_of_token? {c : Char} {rest : Text} (wellBraced : WellBraced (c :: rest))
    (noToken : token? before (c :: rest) = none) (dollar : c = '$') : rest.head? ≠ some '{' := by
  intro brace
  cases rest with
  | nil => cases brace
  | cons d inner =>
    rw [List.head?_cons, Option.some.injEq] at brace
    rw [dollar, brace] at wellBraced noToken
    obtain ⟨name, after, rfl, fresh, valid⟩ := wellBraced.opened
    rw [Fragment.token?_braced fresh valid] at noToken
    cases noToken

/-- What holds between a well-braced text and the text with its references replaced, if it holds
fragment by fragment. -/
theorem replaced_induction {R : Text → Text → Prop}
    (referent : ∀ token, Shape token → Referent (meaning token)) (nil : R [] [])
    (literal : ∀ (l : Literal) s w, l.Proper → R s w → R (l.render ++ s) (l.render ++ w))
    (unclosed : ∀ q rest, isQuote q = true → q ∉ rest → R (q :: rest) (q :: rest))
    (char : ∀ c s w, isQuote c = false → (c = '$' → s.head? ≠ some '{') → R s w →
      R (c :: s) (c :: w))
    (reference : ∀ token text left right s w, Shape token → Referent text →
      (left = [] ∨ left = [' ']) → (right = [] ∨ right = [' ']) → R s w →
      R (token ++ s) (left ++ text ++ right ++ w))
    (before written after : Option Char) (t : Text) (wellBraced : WellBraced t) :
    R t (replaced meaning before written after t) := by
  induction before, t using Fragment.stepInduction generalizing written with
  | nil before =>
    rw [replaced_nil]
    exact nil
  | step before t s rest step ih =>
    have inner (written : Option Char) := ih written (step.wellBraced wellBraced)
    cases s with
    | reference token =>
      have whole : token ++ rest = t := step.source_append
      rw [replaced_reference step, ← whole]
      exact reference token _ _ _ rest _ step.shape (referent token step.shape)
        (separator_eq _ _) (separator_eq _ _) (inner _)
    | plain text =>
      rw [replaced_plain step]
      cases step with
      | literal proper => exact literal _ _ _ proper (inner _)
      | unclosed quote fresh =>
        rw [replaced_nil, List.append_nil]
        exact unclosed _ _ quote fresh
      | char plain noToken =>
        exact char _ _ _ plain (noBrace_of_token? wellBraced noToken) (inner _)

end

theorem Referent.mem {text : Text} (referent : Referent text) {c : Char} (member : c ∈ text) :
    isPathChar c = true ∨ c = '(' ∨ c = ')' := by
  obtain ⟨_, path, all, rfl | rfl⟩ := referent
  · exact Or.inl (all c member)
  · rcases List.mem_append.1 member with member | member
    · have table : ∀ d ∈ currentCall, isPathChar d = true ∨ d = '(' ∨ d = ')' := by decide
      exact table c member
    · exact Or.inl (all c member)

theorem Referent.visible {text : Text} (referent : Referent text) : ∀ c ∈ text, isSpace c = false := by
  intro c member
  cases space : isSpace c with
  | false => rfl
  | true =>
    rcases referent.mem member with path | rfl | rfl
    · rw [of_isSpace (p := isPathChar) (b := false) space (by decide)] at path
      cases path
    · cases space
    · cases space

/-- What is written for a token is free of quotes and dollar signs, and does not begin with a
brace. -/
theorem Referent.written {text left right : Text} (referent : Referent text)
    (leftSpace : left = [] ∨ left = [' ']) (rightSpace : right = [] ∨ right = [' ']) :
    (∀ c ∈ left ++ text ++ right, c ≠ '$' ∧ isQuote c = false) ∧
      ∀ t : Text, (left ++ text ++ right ++ t).head? ≠ some '{' := by
  have spaces : ∀ c ∈ [' '], c ≠ '$' ∧ isQuote c = false := by decide
  have inner : ∀ c ∈ text, c ≠ '{' ∧ c ≠ '$' ∧ isQuote c = false := by
    intro c member
    rcases referent.mem member with path | rfl | rfl
    · exact ⟨ne_of_class path (by decide), ne_of_class path (by decide),
        not_isQuote path (by decide) (by decide)⟩
    · decide
    · decide
  constructor
  · intro c member
    rw [List.mem_append, List.mem_append] at member
    rcases member with (member | member) | member
    · rcases leftSpace with rfl | rfl
      · cases member
      · exact spaces c member
    · exact (inner c member).2
    · rcases rightSpace with rfl | rfl
      · cases member
      · exact spaces c member
  · intro t
    rcases leftSpace with rfl | rfl
    · cases text with
      | nil => exact absurd rfl referent.1
      | cons c rest => exact fun same => (inner c (by simp)).1 (Option.some.inj same)
    · exact fun same => absurd (Option.some.inj same) (by decide)

theorem Shape.ne_nil {token : Text} (shape : Shape token) : token ≠ [] := by
  cases shape with
  | braced valid => exact List.cons_ne_nil _ _
  | path starts all => rintro rfl; simp at starts
  | current all => exact List.cons_ne_nil 'c' _

/-- Behind a token, only a braced one begins. -/
theorem Shape.startsToken {token : Text} (shape : Shape token) :
    startsToken token.getLast? = false := by
  have path {c : Char} (path : isPathChar c = true) : extendsToken c = true := by
    simp only [isPathChar, Bool.or_eq_true] at path
    rcases path with (name | point) | slash
    · simp [extendsToken, name]
    · simp [extendsToken, point]
    · simp [extendsToken, slash]
  have run {t : Text} (nonempty : t ≠ []) (all : ∀ c ∈ t, isPathChar c = true) :
      t.getLast?.any extendsToken = true := any_getLast? nonempty fun c member => path (all c member)
  rw [Text.startsToken, Bool.not_eq_false']
  cases shape with
  | braced valid =>
    rw [List.getLast?_concat]
    rfl
  | path starts all => exact run (Shape.path starts all).ne_nil all
  | @current more all =>
    cases more with
    | nil => rfl
    | cons c more =>
      rw [getLast?_append_cons]
      exact run (List.cons_ne_nil c more) all

/-- A token that ends in a parenthesis is `current()`. -/
theorem Shape.eq_current {token : Text} (shape : Shape token) (last : token.getLast? = some ')') :
    token = currentCall := by
  have path {path : Text} (all : ∀ c ∈ path, isPathChar c = true) : path.getLast? ≠ some ')' :=
    fun same => absurd (all ')' (List.mem_of_getLast? same)) (by decide)
  cases shape with
  | braced valid =>
    rw [List.getLast?_concat] at last
    exact absurd (Option.some.inj last) (by decide)
  | path starts all => exact absurd last (path all)
  | @current rest all =>
    cases rest with
    | nil => rw [List.append_nil]
    | cons c more =>
      rw [getLast?_append_cons] at last
      exact absurd last (path all)

theorem Shape.noQuote {token : Text} (shape : Shape token) : ∀ c ∈ token, isQuote c = false := by
  cases shape with
  | braced valid => exact fun c member => (braced_plain valid c member).2.2
  | path starts all => exact fun c member => (isPathChar_plain (all c member)).2.2
  | current all =>
    intro c member
    rcases List.mem_append.1 member with member | member
    · have table : ∀ d ∈ currentCall, isQuote d = false := by decide
      exact table c member
    · exact (isPathChar_plain (all c member)).2.2

section

variable {meaning : Text → Text} {before written after : Option Char} {t : Text}

/-- Replacing references opens and closes no groups. -/
theorem closes_replaced (referent : ∀ token, Shape token → Referent (meaning token))
    (wellBraced : WellBraced t) (depth : Nat) :
    closes ⟨depth, none⟩ (replaced meaning before written after t) = closes ⟨depth, none⟩ t := by
  have spaces {gap : Text} (space : gap = [] ∨ gap = [' ']) :
      ∀ c ∈ gap, c ≠ '(' ∧ c ≠ ')' ∧ isQuote c = false := by
    rcases space with rfl | rfl <;> decide
  refine (replaced_induction (R := fun s w => ∀ depth, closes ⟨depth, none⟩ s =
    closes ⟨depth, none⟩ w) referent (fun _ => rfl) ?_ (fun _ _ _ _ _ => rfl) ?_ ?_
    before written after t wellBraced depth).symm
  · intro l s w proper same depth
    rw [closes_render_append proper, closes_render_append proper, same]
  · intro c s w plain _ same depth
    exact closes_cons_congr plain same depth
  · intro token text left right s w shape referent leftSpace rightSpace same depth
    rw [shape.closes_append, List.append_assoc, List.append_assoc,
      closes_append_of_plain (spaces leftSpace), referent.closes_append,
      closes_append_of_plain (spaces rightSpace), same]

/-- Replacing references touches no literal. -/
theorem quotation_replaced {α : Type} {f : Literal → α}
    (referent : ∀ token, Shape token → Referent (meaning token)) (wellBraced : WellBraced t) :
    Literal.quotation f (replaced meaning before written after t) = Literal.quotation f t := by
  refine (replaced_induction (R := fun s w => Literal.quotation f s = Literal.quotation f w)
    referent rfl ?_ (fun _ _ _ _ => rfl) ?_ ?_ before written after t wellBraced).symm
  · intro l s w proper same
    rw [Literal.quotation_render_append proper, Literal.quotation_render_append proper, same]
  · intro c s w plain _ same
    rw [Literal.quotation_cons plain, Literal.quotation_cons plain, same]
  · intro token text left right s w shape referent leftSpace rightSpace same
    have plain := (referent.written leftSpace rightSpace).1
    rw [Literal.quotation_append_of_noQuote shape.noQuote,
      Literal.quotation_append_of_noQuote fun c member => (plain c member).2, same]

/-- No `${` is left, and none arises. -/
theorem unbraced_replaced (referent : ∀ token, Shape token → Referent (meaning token))
    (wellBraced : WellBraced t) : Unbraced (replaced meaning before written after t) := by
  refine (replaced_induction (R := fun s w => Unbraced w ∧
    (w.head? = some '{' → s.head? = some '{')) referent ⟨bracesHold_nil none, id⟩ ?_ ?_ ?_ ?_
    before written after t wellBraced).1
  · rintro l s w proper ⟨unbraced, _⟩
    exact ⟨bracesHold_literal proper unbraced, fun same => same⟩
  · exact fun q rest quote fresh => ⟨bracesHold_unclosed quote fresh, id⟩
  · rintro c s w plain noBrace ⟨unbraced, head⟩
    exact ⟨bracesHold_plain plain (fun dollar brace => noBrace dollar (head brace)) unbraced, id⟩
  · rintro token text left right s w shape referent leftSpace rightSpace ⟨unbraced, _⟩
    obtain ⟨plain, head⟩ := referent.written leftSpace rightSpace
    exact ⟨bracesHold_append_plain plain unbraced, fun same => absurd same (head w)⟩

end

end FormLogic.Field.Reference
