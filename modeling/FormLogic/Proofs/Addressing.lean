import FormLogic.Proofs.Pointing
import FormLogic.Proofs.Replacing

/-!
The declared path of a field as a reference. Where a token may start, an absolute path is found as one
token up to the first character that is in no path, whatever stands before it, and gives way to the
field's identifier with nothing reported. A slash begins a path only before a letter of ASCII or an
underscore, so that a declared path whose first name begins with another letter is not found, though
declarations and lookups know it and letters of every script may go on in a name.
-/
namespace FormLogic.Field.Reference

open Text

/-- A text without slashes at the beginning of another one ends before the first slash there. -/
theorem cut_before_slash {u v tail after : Text} (whole : u ++ '/' :: tail = v ++ after)
    (fresh : '/' ∉ v) : ∃ more, u = v ++ more := by
  rcases List.append_eq_append_iff.1 whole with ⟨more, left, right⟩ | ⟨more, left, right⟩
  · cases more with
    | nil => exact ⟨[], by rw [left, List.append_nil, List.append_nil]⟩
    | cons d more =>
      obtain ⟨rfl, _⟩ := List.cons.inj right
      exact absurd (by rw [left]; simp) fresh
  · exact ⟨more, left⟩

/-- Whether a text begins with a path is seen in its first two characters. -/
theorem startsPath_append {t : Text} (long : 2 ≤ t.length) (tail : Text) :
    startsPath (t ++ tail) = startsPath t := by
  obtain ⟨c, d, rest, rfl⟩ : ∃ c d rest, t = c :: d :: rest := by
    match t with
    | c :: d :: rest => exact ⟨c, d, rest, rfl⟩
  rw [List.cons_append, startsPath_eq, startsPath_eq]
  rfl

namespace Fragment

variable {before : Option Char} {c : Char} {rest tail : Text}

/-- No token reaches over a place before a slash where another token may start. -/
theorem token?_append_slash (opens : startsToken (c :: rest).getLast? = true)
    (noToken : token? before (c :: rest) = none) :
    token? before (c :: (rest ++ '/' :: tail)) = none := by
  cases found : token? before (c :: (rest ++ '/' :: tail)) with
  | none => rfl
  | some parts =>
    obtain ⟨token, after⟩ := parts
    have step := step_token found
    generalize same : c :: (rest ++ '/' :: tail) = t at step
    have whole : (c :: rest) ++ '/' :: tail = t := same
    cases step with
    | @braced name after fresh valid =>
      have noSlash : '/' ∉ name := fun member =>
        absurd (isBracedChar_of_mem valid '/' member) (by decide)
      obtain ⟨more, left⟩ := cut_before_slash whole (by simp [noSlash])
      have inside : c :: rest = '$' :: '{' :: (name ++ '}' :: more) := by simp [left]
      rw [inside, token?_braced fresh valid] at noToken
      cases noToken
    | @current path after starts all slash stop =>
      rw [List.append_assoc] at whole
      obtain ⟨more, left⟩ := cut_before_slash whole (by decide)
      rw [left, token?_current starts] at noToken
      cases noToken
    | @path token after starts isPath all stop =>
      rw [← same] at isPath
      obtain ⟨_, _, first, path⟩ := startsPath_cons isPath
      obtain ⟨rfl, _⟩ := List.cons.inj first
      cases rest with
      | nil =>
        have closes : startsToken (some c) = false := by
          rcases path with rfl | rfl <;> rfl
        exact absurd (opens.symm.trans closes) (by decide)
      | cons d rest =>
        rw [← List.cons_append, startsPath_append (by simp)] at isPath
        rw [token?_path starts path isPath] at noToken
        cases noToken

/-- A fragment before a slash is read as if nothing stood behind it, if a token may start there. -/
theorem Step.append_slash {t : Text} {s : Fragment} (step : Step before t s rest)
    (terminated : Terminated t) (opens : startsToken t.getLast? = true) :
    Step before (t ++ '/' :: tail) s (rest ++ '/' :: tail) := by
  have left {token : Text} (same : s = .reference token) : token ≠ [] ∧ rest ≠ [] := by
    rw [same] at step
    refine ⟨step.source_ne_nil, ?_⟩
    rintro rfl
    rw [← step.source_append, List.append_nil] at opens
    exact absurd (opens.symm.trans step.shape.startsToken) (by decide)
  cases step with
  | literal proper =>
    rw [List.append_assoc]
    exact .literal proper
  | unclosed quote fresh =>
    rw [Terminated, quoteAfter, quote, if_pos rfl, quoteAfter_some_of_notMem fresh] at terminated
    cases terminated
  | braced fresh valid =>
    rw [List.append_assoc]
    exact .braced fresh valid
  | @current path rest starts all slash stop =>
    obtain ⟨d, more, rfl⟩ := List.exists_cons_of_ne_nil (left rfl).2
    rw [List.append_assoc]
    exact .current starts all slash stop
  | @path token rest starts isPath all stop =>
    obtain ⟨visible, behind⟩ := left rfl
    obtain ⟨d, more, rfl⟩ := List.exists_cons_of_ne_nil behind
    have long : 2 ≤ (token ++ d :: more).length := by
      have positive := List.length_pos_iff.2 visible
      simp only [List.length_append, List.length_cons]
      omega
    rw [List.append_assoc]
    refine .path starts ?_ all stop
    rw [← List.append_assoc, startsPath_append long]
    exact isPath
  | char plain noToken => exact .char plain (token?_append_slash opens noToken)

theorem Step.terminated_rest {t : Text} {s : Fragment} (step : Step before t s rest)
    (terminated : Terminated t) : Terminated rest := by
  rcases Decidable.em (rest = []) with last | followed
  · rw [last]
    rfl
  · rw [← step.source_append, Terminated,
      quoteAfter_append_of_terminated (step.terminated followed)] at terminated
    exact terminated

theorem Step.opens_rest {t : Text} {s : Fragment} (step : Step before t s rest)
    (opens : startsToken t.getLast? = true) : startsToken rest.getLast? = true := by
  cases rest with
  | nil => rfl
  | cons d more =>
    rw [← step.source_append, getLast?_append_cons] at opens
    exact opens

end Fragment

variable {before : Option Char} {t tail : Text}

/-- Where a token may start, an expression may be read in two parts before a slash. -/
theorem fragments_append_slash (terminated : Terminated t) (opens : startsToken t.getLast? = true)
    (before : Option Char) :
    fragments before (t ++ '/' :: tail) =
      fragments before t ++ fragments (t.getLast?.or before) ('/' :: tail) := by
  refine @Scanner.items_append _ Fragment.scanner
    (fun _ t => Terminated t ∧ startsToken t.getLast? = true) ('/' :: tail) ?_ before t
    ⟨terminated, opens⟩
  rintro before c rest ⟨terminated, opens⟩
  have step := Fragment.step_next before c rest
  have longer : Fragment.Step before (c :: rest ++ '/' :: tail) _ _ :=
    step.append_slash terminated opens
  obtain ⟨d, more, whole, same⟩ := Fragment.next_of_step longer
  obtain ⟨rfl, rfl⟩ := List.cons.inj whole
  exact ⟨same, step.terminated_rest terminated, step.opens_rest opens⟩

/-- A text that goes on with a delimiter is read and written alike, whatever stands before it. -/
theorem fragments_of_delimiter {right : Text} (delimited : ∀ c ∈ right.head?, c ∈ [' ', ')', ','])
    (before : Option Char) :
    fragments before right = fragments none right ∧
      ∀ (meaning : Text → Text) (written after : Option Char),
        splice meaning written after (fragments none right) =
          splice meaning none after (fragments none right) := by
  cases right with
  | nil =>
    have read (before : Option Char) : fragments before [] = [] := Scanner.items_nil _ before
    exact ⟨by rw [read, read], fun _ _ _ => by rw [read, splice, splice]⟩
  | cons c rest =>
    have table : ∀ c ∈ [' ', ')', ','], isQuote c = false ∧ c ∉ ['$', 'c', '.', '/'] := by decide
    obtain ⟨plain, other⟩ := table c (delimited c rfl)
    have read (before : Option Char) :
        fragments before (c :: rest) = .plain [c] :: fragments (some c) rest :=
      fragments_step (.char plain (token?_eq_none other rest))
    exact ⟨by rw [read, read], fun _ _ _ => by rw [read, splice, splice]; rfl⟩

/-- Where a token may start, what was written does not end in a word. -/
theorem last_replaced {meaning : Text → Text} {after : Option Char} {left : Text}
    (opens : startsToken left.getLast? = true) :
    (replaced meaning none none after left).getLast?.any isWordChar = false := by
  have last : (replaced meaning none none after left).getLast? = left.getLast? := by
    rcases Decidable.em (left = []) with empty | nonempty
    · rw [empty, replaced_nil]
    · rcases replaced_end meaning none none nonempty with
        ⟨u, text, visible, suffix, same⟩ | ⟨u, token, shape, suffix, same⟩
      · obtain ⟨front, whole⟩ := suffix
        rw [same, ← whole, List.getLast?_append, List.getLast?_append,
          List.getLast?_eq_some_getLast visible, Option.some_or, Option.some_or]
      · obtain ⟨front, whole⟩ := suffix
        rw [← whole, List.getLast?_append, List.getLast?_eq_some_getLast shape.ne_nil, Option.some_or,
          ← List.getLast?_eq_some_getLast shape.ne_nil, shape.startsToken] at opens
        cases opens
  rw [last]
  cases found : left.getLast? with
  | none => rfl
  | some c =>
    rw [found] at opens
    simp only [startsToken, extendsToken, isNameChar, Option.any_some, Bool.not_eq_true',
      Bool.or_eq_false_iff] at opens
    simp [isWordChar, opens]

/-- A path outside literals, between a place where a token may start and a delimiter. -/
structure Placed (left path right : Text) : Prop where
  terminated : Terminated left
  opens : startsToken left.getLast? = true
  slash : path.head? = some '/'
  starts : path.tail.head?.any isNameStart = true
  all : ∀ c ∈ path, isPathChar c = true
  delimited : ∀ c ∈ right.head?, c ∈ [' ', ')', ',']

namespace Placed

variable {left path right : Text}

theorem stop (placed : Placed left path right) :
    right.head?.any isPathChar = false ∧ right.head?.any isWordChar = false := by
  cases head : right.head? with
  | none => exact ⟨rfl, rfl⟩
  | some c =>
    have table : ∀ c ∈ [' ', ')', ','], isPathChar c = false ∧ isWordChar c = false := by decide
    exact table c (placed.delimited c head)

/-- The path is found as one token. -/
theorem fragments_eq (placed : Placed left path right) :
    fragments none (left ++ path ++ right) =
      fragments none left ++ .reference path :: fragments none right := by
  obtain ⟨d, more, rfl⟩ : ∃ d more, path = '/' :: d :: more := by
    have slash := placed.slash
    have starts := placed.starts
    match path with
    | [] => cases slash
    | [c] => cases starts
    | c :: d :: more => exact ⟨d, more, by rw [Option.some.inj slash]⟩
  have step : Fragment.Step left.getLast? ('/' :: d :: more ++ right)
      (.reference ('/' :: d :: more)) right :=
    .path placed.opens (by rw [startsPath_append (by simp)]; exact placed.starts) placed.all
      placed.stop.1
  have cut := @fragments_append_slash left (d :: more ++ right) placed.terminated placed.opens none
  have read := fragments_step step
  rw [(fragments_of_delimiter placed.delimited _).1] at read
  rw [Option.or_none] at cut
  rw [List.append_assoc]
  exact cut.trans (congrArg (fragments none left ++ ·) read)

theorem tokens_eq (placed : Placed left path right) :
    tokens (left ++ path ++ right) = tokens left ++ path :: tokens right := by
  rw [tokens, placed.fragments_eq, List.filterMap_append, List.filterMap_cons]
  rfl

/-- The path gives way to its text, and all else is as it is without the path. -/
theorem replaced_eq (placed : Placed left path right) (meaning : Text → Text) :
    replaced meaning none none none (left ++ path ++ right) =
      replaced meaning none none none left ++ meaning path ++ replaced meaning none none none right := by
  have first : firstChar (.reference path :: fragments none right) = some '/' := by
    rw [firstChar, Fragment.source, placed.slash, Option.some_or]
  have front : splice meaning none (some '/') (fragments none left) =
      replaced meaning none none none left := splice_congr _ rfl rfl
  have alone : spaced meaning ((replaced meaning none none none left).getLast?.or none)
      (right.head?.or none) path = meaning path := by
    rw [spaced, Option.or_none, Option.or_none, separator_plain placed.stop.2, separator,
      last_replaced placed.opens, Bool.false_and, if_neg (by decide), List.nil_append,
      List.append_nil]
  rw [replaced, placed.fragments_eq, splice_append, first, Option.some_or, front, splice_reference,
    firstChar_fragments, (fragments_of_delimiter placed.delimited none).2, alone, ← List.append_assoc]
  rfl

end Placed

end FormLogic.Field.Reference

namespace FormLogic.Field

open Text Reference

/-- The characters of a name in a path: letters of every script, digits, `_` and `-`. -/
def isSegmentChar (c : Char) : Bool :=
  c.isAlphanum || c == '_' || c == '-' || !isAscii c && !isBlank c

theorem isSegmentChar_plain {c : Char} (segment : isSegmentChar c = true) :
    isPathChar c = true ∧ isBlank c = false := by
  simp only [isSegmentChar, Bool.or_eq_true, Bool.and_eq_true, Bool.not_eq_true', beq_iff_eq]
    at segment
  rcases segment with ((letter | rfl) | rfl) | ⟨foreign, visible⟩
  · exact ⟨by simp [isPathChar, isNameChar, letter], not_isBlank_of_isAlphanum letter⟩
  · decide
  · decide
  · exact ⟨by simp [isPathChar, isNameChar, foreign], visible⟩

theorem mem_joinSegments {c : Char} {ss : List Text} (member : c ∈ joinSegments ss) :
    c = '/' ∨ ∃ s ∈ ss, c ∈ s := by
  match ss with
  | [] => simp [joinSegments] at member
  | [s] => exact Or.inr ⟨s, by simp, by simpa [joinSegments] using member⟩
  | s :: t :: rest =>
    rw [joinSegments_cons, List.mem_append, List.mem_cons] at member
    rcases member with inside | slash | later
    · exact Or.inr ⟨s, by simp, inside⟩
    · exact Or.inl slash
    · refine (mem_joinSegments later).imp_right ?_
      rintro ⟨u, member, inside⟩
      exact ⟨u, List.mem_cons_of_mem s member, inside⟩

variable {path : Text}

theorem direct_of_spelled (absolute : path.head? = some '/')
    (spelled : ∀ s ∈ segments path, ∀ c ∈ s, isSegmentChar c = true) : Direct path := by
  refine ⟨absolute, fun s member => ⟨?_, ?_, ?_⟩⟩
  · rintro rfl
    exact absurd (spelled _ member '.' (by simp)) (by decide)
  · rintro rfl
    exact absurd (spelled _ member '.' (by simp)) (by decide)
  · refine trim_of_trimmed ⟨fun c first => ?_, fun c last => ?_⟩
    · exact (isSegmentChar_plain (spelled s member c (List.mem_of_head? first))).2
    · exact (isSegmentChar_plain (spelled s member c (List.mem_of_getLast? last))).2

theorem path_of_spelled (rooted : Rooted path)
    (spelled : ∀ s ∈ segments path, ∀ c ∈ s, isSegmentChar c = true) :
    ∀ c ∈ path, isPathChar c = true := by
  intro c member
  rw [rooted, absolutePath, List.mem_cons] at member
  have inside : c = '/' ∨ ∃ s ∈ segments path, c ∈ s := member.elim Or.inl mem_joinSegments
  rcases inside with rfl | ⟨s, segment, inside⟩
  · decide
  · exact (isSegmentChar_plain (spelled s segment c inside)).1

namespace Registry

variable {r : Registry}

/-- Between delimiters, the absolute path of a field gives way to the field's identifier and nothing is
reported for it, if the path's first name begins with a letter of ASCII or an underscore. -/
theorem replaceReferences_declared (built : r.Built) {e : Entry} (member : e ∈ r.entries)
    (absolute : e.path.head? = some '/')
    (spelled : ∀ s ∈ segments e.path, ∀ c ∈ s, isSegmentChar c = true)
    (starts : e.path.tail.head?.any isNameStart = true) (owner : Option Text) {left right : Text}
    (terminated : Terminated left) (before : ∀ c ∈ left.getLast?, c ∈ [' ', '(', ','])
    (behind : ∀ c ∈ right.head?, c ∈ [' ', ')', ',']) :
    r.replaceReferences owner (left ++ e.path ++ right) =
      r.replaceReferences owner left ++ e.identifier ++ r.replaceReferences owner right ∧
    r.unresolvedTokens owner (left ++ e.path ++ right) =
      r.unresolvedTokens owner left ++ r.unresolvedTokens owner right := by
  have direct := direct_of_spelled absolute spelled
  have all := path_of_spelled (built.sound.rooted member absolute) spelled
  have resolved := resolve_direct built.sound member direct owner
  have opens : startsToken left.getLast? = true := by
    cases last : left.getLast? with
    | none => rfl
    | some c =>
      have table : ∀ c ∈ [' ', '(', ','], startsToken (some c) = true := by decide
      exact table c (before c last)
  have placed : Placed left e.path right := ⟨terminated, opens, absolute, starts, all, behind⟩
  constructor
  · have whole := placed.replaced_eq fun token => (r.resolve token owner).text
    rw [replaceReferences, whole, resolved]
    rfl
  · rw [unresolvedTokens, placed.tokens_eq, List.filter_append, List.filter_cons_of_neg]
    · rfl
    · rw [resolved]
      exact Bool.false_ne_true

/-- A form whose first names begin with a letter of ASCII and with another one. -/
def twoScripts : Registry :=
  (declareAll empty (["/data/prénom".toList, "/été/x".toList].map fun path => ⟨path, none, []⟩)).2

theorem ofPaths_twoScripts :
    ofPaths ["/data/prénom".toList, "/été/x".toList] = .ok twoScripts := rfl

/-- A path as the argument of a call that is not closed before it. -/
theorem replaceReferences_declared_argument :
    ∃ e ∈ twoScripts.entries, e.path = "/data/prénom".toList ∧ e.identifier = "prnom".toList ∧
      twoScripts.replaceReferences none ("not(" ++ "/data/prénom" ++ ") or /data/a").toList =
        "not(prnom) or a".toList ∧
      twoScripts.unresolvedTokens none ("not(" ++ "/data/prénom" ++ ") or /data/a").toList =
        ["/data/a".toList] := by
  have member : ⟨"/data/prénom".toList, "prénom".toList, "prnom".toList, []⟩ ∈ twoScripts.entries := by
    decide +kernel
  have before : ∀ c ∈ "not(".toList.getLast?, c ∈ [' ', '(', ','] := by
    rintro c ⟨⟩
    decide
  have behind : ∀ c ∈ ") or /data/a".toList.head?, c ∈ [' ', ')', ','] := by
    rintro c ⟨⟩
    decide
  obtain ⟨output, unresolved⟩ := @replaceReferences_declared twoScripts
    (built_ofDeclarations ofPaths_twoScripts) _ member (by decide +kernel) (by decide +kernel)
    (by decide +kernel) none "not(".toList ") or /data/a".toList (by decide +kernel) before behind
  exact ⟨_, member, rfl, rfl, output.trans (by decide +kernel), unresolved.trans (by decide +kernel)⟩

/-- A declared path that is known to the registry, and found behind a point, but not where it stands by
itself. -/
theorem foreign_path_overlooked :
    ∃ e ∈ twoScripts.entries, e.path = "/été/x".toList ∧ e.identifier = "x".toList ∧
      twoScripts.resolve e.path none = .resolved e ∧
      twoScripts.replaceReferences (some "/data/prénom".toList) "../../été/x".toList = e.identifier ∧
      twoScripts.replaceReferences none e.path = e.path ∧
      twoScripts.unresolvedTokens none e.path = [] := by
  refine ⟨⟨"/été/x".toList, ['x'], ['x'], []⟩, ?_⟩
  decide +kernel

end Registry

end FormLogic.Field
