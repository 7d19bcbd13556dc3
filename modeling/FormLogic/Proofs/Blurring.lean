import FormLogic.Proofs.Following
import FormLogic.Proofs.Requoting

/-!
Paths that differ in the kind of their quotes. Blurring a text makes its quotes alike; whatever reads
a path reads a blurred path in the same way. A field without a quote in its path is therefore found
by two paths at once if they are blurred into one.
-/
namespace FormLogic

open Text

namespace Text

def blurredChar (c : Char) : Char := if isQuote c then '"' else c

/-- The text with its quotes made alike. -/
def blurred (t : Text) : Text := t.map blurredChar

theorem blurredChar_of_plain {c : Char} (plain : isQuote c = false) : blurredChar c = c := by
  rw [blurredChar, if_neg (by rw [plain]; exact Bool.false_ne_true)]

theorem blurredChar_of_quote {c : Char} (quote : isQuote c = true) : blurredChar c = '"' := by
  rw [blurredChar, if_pos quote]

theorem blurredChar_eq_iff {c d : Char} (plain : isQuote d = false) : blurredChar c = d ↔ c = d := by
  cases quote : isQuote c with
  | false => rw [blurredChar_of_plain quote]
  | true =>
    rw [blurredChar_of_quote quote]
    constructor <;> rintro rfl
    · cases plain
    · rw [quote] at plain
      cases plain

theorem of_blurredChar {p : Char → Bool} (alike : p '\'' = p '"') (c : Char) :
    p (blurredChar c) = p c := by
  cases quote : isQuote c with
  | false => rw [blurredChar_of_plain quote]
  | true => rw [blurredChar_of_quote quote, Literal.of_isQuote_alike quote alike]

theorem blurred_of_noQuote {t : Text} (plain : ∀ c ∈ t, isQuote c = false) : blurred t = t := by
  conv => rhs; rw [← List.map_id t]
  exact List.map_congr_left fun c member => blurredChar_of_plain (plain c member)

/-- A text without quotes is blurred from itself only. -/
theorem eq_of_blurred {s t : Text} (plain : ∀ c ∈ t, isQuote c = false) (same : blurred s = t) :
    s = t := by
  rw [← same]
  refine (blurred_of_noQuote fun c member => ?_).symm
  have image : blurredChar c ∈ t := same ▸ List.mem_map_of_mem member
  rw [← of_blurredChar (p := isQuote) rfl c]
  exact plain _ image

theorem blurred_append (s t : Text) : blurred (s ++ t) = blurred s ++ blurred t := List.map_append

theorem blurred_eq_nil_iff {t : Text} : blurred t = [] ↔ t = [] := List.map_eq_nil_iff

theorem trimStart_blurred (t : Text) : trimStart (blurred t) = blurred (trimStart t) := by
  have same : isBlank ∘ blurredChar = isBlank := funext fun c => of_blurredChar (by decide) c
  rw [trimStart, blurred, List.dropWhile_map, same]
  rfl

theorem trim_blurred (t : Text) : trim (blurred t) = blurred (trim t) := by
  rw [trim, trim, trimStart_blurred, trimEnd_eq, trimEnd_eq, blurred, ← List.map_reverse]
  change (trimStart (blurred _)).reverse = _
  rw [trimStart_blurred, blurred, ← List.map_reverse]
  rfl

theorem splitOn_blurred (t : Text) : (blurred t).splitOn '/' = (t.splitOn '/').map blurred := by
  induction t with
  | nil => rfl
  | cons c rest ih =>
    have slash : (blurredChar c == '/') = (c == '/') := of_blurredChar (p := (· == '/')) (by decide) c
    rw [blurred, List.map_cons, List.splitOn_cons_eq_if_modifyHead,
      List.splitOn_cons_eq_if_modifyHead, slash]
    change (if (c == '/') = true then [] :: (blurred rest).splitOn '/'
      else ((blurred rest).splitOn '/').modifyHead (blurredChar c :: ·)) = _
    rw [ih]
    split
    · rfl
    · cases rest.splitOn '/' <;> rfl

theorem behind?_blurred {start : Text} (plain : ∀ c ∈ start, isQuote c = false) (t : Text) :
    behind? start (blurred t) = (behind? start t).map blurred := by
  induction start generalizing t with
  | nil => rfl
  | cons c start ih =>
    cases t with
    | nil => rfl
    | cons d t =>
      have same : c = blurredChar d ↔ c = d := by
        rw [eq_comm, blurredChar_eq_iff (plain c List.mem_cons_self), eq_comm]
      rw [blurred, List.map_cons, behind?, behind?]
      by_cases first : c = d
      · rw [if_pos (same.2 first), if_pos first]
        exact ih (fun e member => plain e (List.mem_cons_of_mem c member)) t
      · rw [if_neg fun equal => first (same.1 equal), if_neg first]
        rfl

end Text

theorem Literal.blurred_requote (t : Text) : blurred (requote t) = blurred t := by
  induction t using segmentInduction with
  | nil => rw [requote_nil]
  | plain c rest plain ih =>
    rw [requote_cons plain]
    exact congrArg (blurredChar c :: ·) ih
  | literal l rest proper ih =>
    rw [requote_render_append proper, blurred_append, blurred_append, ih]
    simp [quoted, render, blurred, blurredChar_of_quote proper.quote_isQuote,
      blurredChar_of_quote proper.proper_quoteFor.quote_isQuote]
  | unclosed q rest quote fresh => rw [requote_unclosed quote fresh]

namespace Field

theorem filter_blurred (ts : List Text) :
    (ts.map blurred).filter (· ≠ []) = (ts.filter (· ≠ [])).map blurred := by
  rw [List.filter_map]
  congr 1
  refine List.filter_congr fun t _ => ?_
  simp [blurred_eq_nil_iff]

theorem segments_blurred (t : Text) : segments (blurred t) = (segments t).map blurred := by
  rw [segments, splitOn_blurred, filter_blurred]
  rfl

theorem joinSegments_blurred (ss : List Text) :
    joinSegments (ss.map blurred) = blurred (joinSegments ss) := by
  match ss with
  | [] => rfl
  | [s] => simp [joinSegments]
  | s :: t :: rest =>
    rw [joinSegments_cons, blurred_append, List.map_cons, List.map_cons, joinSegments_cons,
      ← List.map_cons, joinSegments_blurred (t :: rest)]
    rfl

theorem absolutePath_blurred (ss : List Text) :
    absolutePath (ss.map blurred) = blurred (absolutePath ss) := by
  rw [absolutePath, joinSegments_blurred]
  rfl

theorem head?_blurred_iff {c : Char} (plain : isQuote c = false) (t : Text) :
    (blurred t).head? = some c ↔ t.head? = some c := by
  cases t with
  | nil => exact Iff.rfl
  | cons d rest => simp [blurred, blurredChar_eq_iff plain]

theorem normalPath_blurred (path : Text) : normalPath (blurred path) = blurred (normalPath path) := by
  have slash : (blurred (trim path)).contains '/' = (trim path).contains '/' := by
    rw [Bool.eq_iff_iff]
    simp [blurred, blurredChar_eq_iff (d := '/') (by decide)]
  rw [normalPath, normalPath, trim_blurred, slash]
  simp only [head?_blurred_iff (c := '/') (by decide)]
  split
  · split
    · rw [segments_blurred, absolutePath_blurred]
    · rw [segments_blurred, joinSegments_blurred]
  · rfl

namespace Step

def blurred : Step → Step
  | child name => child (Text.blurred name)
  | step => step

theorem ofSegment_blurred (segment : Text) :
    ofSegment (Text.blurred segment) = (ofSegment segment).blurred := by
  have same (t : Text) (plain : ∀ c ∈ t, isQuote c = false) :
      Text.blurred segment = t ↔ segment = t :=
    ⟨eq_of_blurred plain, fun equal => by rw [equal, blurred_of_noQuote plain]⟩
  rw [ofSegment, ofSegment]
  simp only [same ['.'] (by decide), same ['.', '.'] (by decide)]
  split
  · rfl
  · split <;> rfl

theorem apply_blurred (node : List Text) (step : Step) :
    step.blurred.apply (node.map Text.blurred) = (step.apply node).map (List.map Text.blurred) := by
  cases step with
  | current => rfl
  | parent =>
    dsimp only [blurred, apply]
    simp only [List.map_eq_nil_iff]
    split
    · rfl
    · simp [List.map_dropLast]
  | child name => simp [blurred, apply]

end Step

namespace Path

def blurred (p : Path) : Path := ⟨p.absolute, p.steps.map Step.blurred⟩

theorem stepsOf_blurred (t : Text) : stepsOf (Text.blurred t) = (stepsOf t).map Step.blurred := by
  have trimmed : (((t.splitOn '/').map Text.blurred).map trim) =
      ((t.splitOn '/').map trim).map Text.blurred := by
    rw [List.map_map, List.map_map]
    exact List.map_congr_left fun s _ => trim_blurred s
  rw [stepsOf, splitOn_blurred, trimmed, filter_blurred, List.map_map, stepsOf, List.map_map]
  exact List.map_congr_left fun s _ => Step.ofSegment_blurred s

theorem parse_blurred (t : Text) : parse (Text.blurred t) = (parse t).blurred := by
  rw [parse, parse, trim_blurred, behind?_blurred (by decide)]
  cases behind? currentCall (trim t) with
  | some rest =>
    dsimp only [Option.map_some]
    rw [stepsOf_blurred]
    rfl
  | none =>
    dsimp only [Option.map_none]
    cases trim t with
    | nil => rfl
    | cons c rest =>
      by_cases slash : c = '/'
      · rw [slash]
        change (⟨true, stepsOf (Text.blurred rest)⟩ : Path) = _
        rw [stepsOf_blurred]
        rfl
      · have other : blurredChar c ≠ '/' := fun same =>
          slash ((blurredChar_eq_iff (by decide)).1 same)
        have whole := stepsOf_blurred (c :: rest)
        simp only [Text.blurred, List.map_cons] at whole ⊢
        simp [slash, other, whole, blurred]

theorem isSelf_blurred (p : Path) : p.blurred.isSelf = p.isSelf := by
  have current (step : Step) : (step.blurred == .current) = (step == .current) := by
    cases step <;> rfl
  rw [isSelf, isSelf, blurred, List.isEmpty_map, List.all_map]
  simp only [Function.comp_def, current]

theorem name?_blurred (p : Path) : p.blurred.name? = p.name?.map Text.blurred := by
  rw [name?, name?, blurred, List.getLast?_map]
  cases p.steps.getLast? with
  | none => rfl
  | some step => cases step <;> rfl

theorem foldlM_blurred (steps : List Step) (node : List Text) :
    (steps.map Step.blurred).foldlM Step.apply (node.map Text.blurred) =
      (steps.foldlM Step.apply node).map (List.map Text.blurred) := by
  induction steps generalizing node with
  | nil => rfl
  | cons step rest ih =>
    rw [List.map_cons, List.foldlM_cons, List.foldlM_cons, Step.apply_blurred]
    cases step.apply node with
    | none => rfl
    | some next => exact ih next

theorem origin?_blurred (p : Path) (context : Option Text) :
    p.blurred.origin? (context.map Text.blurred) =
      (p.origin? context).map (List.map Text.blurred) := by
  unfold origin? blurred
  dsimp only
  split
  · rfl
  · cases context with
    | none => rfl
    | some t =>
      cases t with
      | nil => rfl
      | cons c rest =>
        by_cases slash : c = '/'
        · rw [slash]
          exact congrArg some (segments_blurred rest)
        · have other : blurredChar c ≠ '/' := fun same =>
            slash ((blurredChar_eq_iff (by decide)).1 same)
          simp [Text.blurred, slash, other]

/-- A blurred path leads from a blurred context to the place that the path leads to, blurred. -/
theorem evaluate_blurred (p : Path) (context : Option Text) :
    p.blurred.evaluate (context.map Text.blurred) = (p.evaluate context).map Text.blurred := by
  rw [evaluate, evaluate, origin?_blurred]
  cases p.origin? context with
  | none => rfl
  | some origin =>
    simp only [Option.map_some, Option.bind_eq_bind, Option.bind_some]
    rw [show p.blurred.steps = p.steps.map Step.blurred from rfl, foldlM_blurred]
    cases p.steps.foldlM Step.apply origin with
    | none => rfl
    | some node => exact congrArg some (absolutePath_blurred node)

/-- The place that a path with a last name leads to has that name. -/
theorem lastSegment_of_evaluate {token name path : Text} {context : Option Text}
    (named : (parse token).name? = some name)
    (leads : (parse token).evaluate context = some path) :
    lastSegment (normalPath path) = name := by
  unfold evaluate at leads
  obtain ⟨origin, start, leads⟩ := Option.bind_eq_some_iff.1 leads
  obtain ⟨node, found, whole⟩ := Option.bind_eq_some_iff.1 leads
  cases whole
  have separate : ∀ s ∈ node, s ≠ [] ∧ '/' ∉ s :=
    separate_foldlM (fun name member => (separate_of_parse member).1) (separate_origin? start) found
  have last : node.getLast? = some name := by
    unfold name? at named
    split at named
    · next n final =>
      cases named
      obtain ⟨steps, same⟩ := List.getLast?_eq_some_iff.1 final
      rw [same, List.foldlM_append] at found
      obtain ⟨before, _, found⟩ := Option.bind_eq_some_iff.1 found
      cases found
      exact List.getLast?_concat
    · cases named
  have trimmed : ∀ s ∈ node.getLast?, trim s = s := by
    intro s member
    rw [last, Option.mem_some] at member
    rw [← member]
    exact (separate_of_parse (child_of_name? named)).2
  rw [normalPath_absolutePath separate trimmed, lastSegment, segments_absolutePath separate, last]
  rfl

end Path

theorem noQuote_of_braceName? {t name : Text} (braced : braceName? t = some name) :
    ∀ c ∈ t, isQuote c = false := by
  unfold braceName? at braced
  split at braced
  · next rest =>
    split at braced
    · next last =>
      have valid : (bracedName? rest.dropLast).isSome = true := by rw [braced]; rfl
      obtain ⟨inner, same⟩ := List.getLast?_eq_some_iff.1 last
      rw [same, List.dropLast_concat] at valid
      intro c member
      have whole : '$' :: '{' :: rest = ['$', '{'] ++ inner ++ ['}'] := by rw [same]; rfl
      rw [whole] at member
      exact (Reference.braced_plain valid c member).2.2
    · cases braced
  · cases braced

namespace Registry

variable {r : Registry}

theorem found?_ofLookup (found : Option Entry) (name : Text) :
    (Resolution.ofLookup found name).found? = found := by
  cases found <;> rfl

theorem found?_resolveSelf (token : Text) (owner : Option Text) :
    (r.resolveSelf token owner).found? = owner.bind r.lookup? := by
  cases owner with
  | none => rfl
  | some name => exact found?_ofLookup _ _

theorem found?_resolvePath (token : Text) (p : Path) (owner : Option Text) :
    (r.resolvePath token p owner).found? =
      ((p.evaluate (owner.bind r.ownerPath?)).bind r.get?).or (p.name?.bind r.byName?) := by
  rw [resolvePath]
  cases (p.evaluate (owner.bind r.ownerPath?)).bind r.get? with
  | some e => rfl
  | none =>
    cases p.name? with
    | none => rfl
    | some name => exact found?_ofLookup _ _

theorem get?_of_blurred {x y : Text} (same : blurred x = blurred y) {e : Entry}
    (plain : ∀ c ∈ e.path, isQuote c = false) (found : r.get? x = some e) : r.get? y = some e := by
  have place := (at?_eq_some found).2
  have normal : normalPath y = normalPath x := by
    rw [← place]
    refine eq_of_blurred plain ?_
    rw [← normalPath_blurred, ← same, normalPath_blurred, ← place, blurred_of_noQuote plain]
  rwa [get?, normal]

/-- What is found by a path is found by each path that is blurred into the same one: by the place
that the path leads to, or by its last name. -/
theorem found?_resolvePath_of_blurred (sound : Sound r) {u v : Text}
    (same : (Path.parse u).blurred = (Path.parse v).blurred) {s t : Text} {owner : Option Text}
    {e : Entry} (plain : ∀ c ∈ e.path, isQuote c = false)
    (found : (r.resolvePath s (Path.parse u) owner).found? = some e) :
    (r.resolvePath t (Path.parse v) owner).found? = some e := by
  rw [found?_resolvePath] at found ⊢
  generalize owner.bind r.ownerPath? = context at found ⊢
  have places : ((Path.parse u).evaluate context).map blurred =
      ((Path.parse v).evaluate context).map blurred := by
    rw [← Path.evaluate_blurred, same, Path.evaluate_blurred]
  rcases Option.or_eq_some_iff.1 found with found | ⟨_, found⟩
  · obtain ⟨x, leads, found⟩ := Option.bind_eq_some_iff.1 found
    rw [leads, Option.map_some, eq_comm, Option.map_eq_some_iff] at places
    obtain ⟨y, leads', places⟩ := places
    rw [leads', Option.bind_some, get?_of_blurred places.symm plain found]
    rfl
  · obtain ⟨name, named, found⟩ := Option.bind_eq_some_iff.1 found
    obtain ⟨called, only⟩ := sound.byName?_eq_some found
    have quoteless : ∀ c ∈ name, isQuote c = false := by
      rw [← called, sound.named e (mem_of_byName? found)]
      exact fun c member => plain c (lastSegment_sublist.subset member)
    have named' : (Path.parse v).name? = some name := by
      have names : (Path.parse u).name?.map blurred = (Path.parse v).name?.map blurred := by
        rw [← Path.name?_blurred, same, Path.name?_blurred]
      rw [named, Option.map_some, eq_comm, Option.map_eq_some_iff] at names
      obtain ⟨n, last, names⟩ := names
      rw [last, eq_of_blurred quoteless (names.trans (blurred_of_noQuote quoteless))]
    cases other : ((Path.parse v).evaluate context).bind r.get? with
    | none => rw [named', Option.bind_some, found]; rfl
    | some d =>
      -- The place that the other path leads to has the same name, so it is the same field.
      obtain ⟨y, leads, place⟩ := Option.bind_eq_some_iff.1 other
      obtain ⟨member, path⟩ := at?_eq_some place
      have namesake : d.name = name := by
        rw [sound.named d member, path, Path.lastSegment_of_evaluate named' leads]
      rw [only d member namesake]
      rfl

/-- A field whose path has no quote is found by every way of writing a path to it. -/
theorem found?_of_blurred (sound : Sound r) {u v : Text} (same : blurred u = blurred v)
    {owner : Option Text} {e : Entry} (plain : ∀ c ∈ e.path, isQuote c = false)
    (found : (r.resolve u owner).found? = some e) : (r.resolve v owner).found? = some e := by
  have trimmed : blurred (trim u) = blurred (trim v) := by rw [← trim_blurred, same, trim_blurred]
  cases braced : braceName? (trim u) with
  | some name =>
    have quoteless := noQuote_of_braceName? braced
    rw [blurred_of_noQuote quoteless] at trimmed
    rw [resolve, eq_of_blurred quoteless trimmed.symm]
    exact found
  | none =>
    have isPath : braceName? (trim v) = none := by
      cases other : braceName? (trim v) with
      | none => rfl
      | some name =>
        have quoteless := noQuote_of_braceName? other
        rw [blurred_of_noQuote quoteless] at trimmed
        rw [eq_of_blurred quoteless trimmed, other] at braced
        cases braced
    have parsed : (Path.parse u).blurred = (Path.parse v).blurred := by
      rw [← Path.parse_blurred, same, Path.parse_blurred]
    have self : (Path.parse u).isSelf = (Path.parse v).isSelf := by
      rw [← Path.isSelf_blurred, parsed, Path.isSelf_blurred]
    rw [resolve_of_path braced, parse_trim] at found
    rw [resolve_of_path isPath, parse_trim, ← self]
    split at found
    · next isSelf =>
      rw [if_pos isSelf, found?_resolveSelf]
      rwa [found?_resolveSelf] at found
    · next other =>
      rw [if_neg other]
      exact found?_resolvePath_of_blurred sound parsed plain found

/-- Where only fields without a quote in their paths have answer codes, the code for a value is found
by every way of writing a path to its field. -/
theorem answerCode?_of_blurred (sound : Sound r)
    (plain : ∀ e ∈ r.entries, e.choices ≠ [] → ∀ c ∈ e.path, isQuote c = false) {u v : Text}
    (same : blurred u = blurred v) (owner : Option Text) (value : Text) :
    ((r.resolve u owner).found?.bind (·.answerCode? value)) =
      ((r.resolve v owner).found?.bind (·.answerCode? value)) := by
  have oneWay {u v code : Text} (same : blurred u = blurred v)
      (found : (r.resolve u owner).found?.bind (·.answerCode? value) = some code) :
      (r.resolve v owner).found?.bind (·.answerCode? value) = some code := by
    obtain ⟨e, field, answer⟩ := Option.bind_eq_some_iff.1 found
    have coded : e.choices ≠ [] := by
      intro noChoices
      rw [Entry.answerCode?, noChoices] at answer
      cases answer
    have quoteless := plain e (mem_of_found? field) coded
    rw [found?_of_blurred sound same quoteless field, Option.bind_some, answer]
  ext code
  exact ⟨oneWay same, oneWay same.symm⟩

end Registry

end Field

end FormLogic
