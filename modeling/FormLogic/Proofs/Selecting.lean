import FormLogic.Proofs.Compilation
import FormLogic.Proofs.Policies

/-!
The two sides of a converted `selected` call. The left side is the first argument after all passes,
which write the identifier of the field for the reference that they find in it. The answer code on
the right is looked up for the text of that argument. Where the argument is one reference, white space
around it aside, both sides are about the same field; an identifier that is a boolean word gets spaces
beside it like any other one.
-/
namespace FormLogic.Operator

open Text Grammar

section

variable {v t : Text}

/-- How a white space character is read. Beyond ASCII it is like any other character. -/
def blankToken (c : Char) : Token := if isSpace c then .space c else .other c

theorem tokens_blank (blank : Blank v) (before : Option Char) (t : Text) :
    tokens before (v ++ t) = v.map blankToken ++ tokens (v.getLast?.or before) t := by
  induction v generalizing before with
  | nil => rfl
  | cons c rest ih =>
    have first := blank c List.mem_cons_self
    have step : Token.Step before (c :: (rest ++ t)) (blankToken c) (rest ++ t) := by
      unfold blankToken
      split
      · next space => exact .space space
      · next visible =>
        exact step_other before (not_isQuote first (by decide) (by decide))
          (Bool.eq_false_iff.2 visible) (notMem_of_class first (by decide)) _
    have source : (blankToken c).source = [c] := by
      unfold blankToken
      split <;> rfl
    rw [List.cons_append, tokens_step step, source,
      ih (fun d member => blank d (List.mem_cons_of_mem c member)), getLast?_cons_or]
    rfl

/-- White space is written as it is or left out. -/
theorem render_blank (blank : Blank v) (spaced : Bool) (ts : List Token) :
    ∃ v' spaced', Blank v' ∧
      render spaced (v.map blankToken ++ ts) = v' ++ render spaced' ts := by
  induction v generalizing spaced with
  | nil => exact ⟨[], spaced, blank_nil, rfl⟩
  | cons c rest ih =>
    have later := ih fun d member => blank d (List.mem_cons_of_mem c member)
    have kept : ∃ v' spaced', Blank v' ∧
        c :: render false (rest.map blankToken ++ ts) = v' ++ render spaced' ts := by
      obtain ⟨v', spaced', blank', same⟩ := later false
      refine ⟨c :: v', spaced', ?_, by rw [same, List.cons_append]⟩
      exact List.forall_mem_cons.2 ⟨blank c List.mem_cons_self, blank'⟩
    rw [List.map_cons, List.cons_append]
    unfold blankToken
    split
    · rw [render]
      split
      · exact later spaced
      · exact kept
    · rw [render]
      exact kept

/-- A run of letters and digits is read as a boolean word or character by character. -/
theorem tokens_name {name : Text} (all : ∀ c ∈ name, c.isAlphanum = true)
    (stop : t.head?.any Char.isAlphanum = false) (before : Option Char) :
    (∃ word : BooleanWord, name = word.render ∧
        tokens before (name ++ t) = .boolean word :: tokens name.getLast? t) ∨
      tokens before (name ++ t) = name.map .other ++ tokens (name.getLast?.or before) t := by
  cases found : booleanWord? before (name ++ t) with
  | none => exact Or.inr (tokens_alphanum before all found)
  | some parts =>
    obtain ⟨word, after⟩ := parts
    obtain ⟨starts, ends⟩ := Token.ends_of_booleanWord? found
    have whole := eq_of_booleanWord? found
    have letters : ∀ c ∈ word.render, c.isAlphanum = true := by cases word <;> decide
    have noName : after.head?.any isNameChar = false := by simpa [endsWord] using ends
    have stop' : after.head?.any Char.isAlphanum = false :=
      any_head?_mono (fun c => isNameChar_of_isAlphanum) noName
    have same : name = word.render := by
      rw [← takeWhile_run all stop, whole, takeWhile_run letters stop']
    rw [same] at whole ⊢
    rw [List.append_cancel_left whole]
    exact Or.inl ⟨word, rfl, tokens_step (.boolean starts ends)⟩

theorem render_others (u : Text) (spaced : Bool) (ts : List Token) :
    ∃ spaced', render spaced (u.map .other ++ ts) = u ++ render spaced' ts := by
  cases u with
  | nil => exact ⟨spaced, rfl⟩
  | cons c rest =>
    refine ⟨false, ?_⟩
    rw [List.map_cons, List.cons_append, render, render_other, List.cons_append]

/-- A run of letters and digits that stands between white space is kept between white space. -/
theorem render_padded {lead name trail : Text} (leadBlank : Blank lead) (trailBlank : Blank trail)
    (all : ∀ c ∈ name, c.isAlphanum = true) (stop : (trail ++ t).head?.any Char.isAlphanum = false)
    (before : Option Char) (spaced : Bool) :
    ∃ front back before' spaced', Blank front ∧ Blank back ∧
      render spaced (tokens before (lead ++ (name ++ (trail ++ t)))) =
        front ++ (name ++ (back ++ render spaced' (tokens (trail.getLast?.or before') t))) := by
  obtain ⟨front, spaced₁, frontBlank, first⟩ :=
    render_blank leadBlank spaced (tokens (lead.getLast?.or before) (name ++ (trail ++ t)))
  rw [tokens_blank leadBlank, first]
  have two : Blank [' ', ' '] := by simp [Blank]; decide
  -- A boolean word is written with two spaces on each side, any other name as it stands.
  rcases tokens_name all stop (lead.getLast?.or before) with ⟨word, same, read⟩ | read
  · obtain ⟨back, spaced₂, backBlank, last⟩ :=
      render_blank trailBlank true (tokens (trail.getLast?.or name.getLast?) t)
    refine ⟨front ++ [' ', ' '], [' ', ' '] ++ back, name.getLast?, spaced₂, frontBlank.append two,
      two.append backBlank, ?_⟩
    rw [read, render, tokens_blank trailBlank, last, ← same]
    simp only [List.append_assoc]
  · obtain ⟨spaced₂, kept⟩ := render_others name spaced₁
      (tokens (name.getLast?.or (lead.getLast?.or before)) (trail ++ t))
    obtain ⟨back, spaced₃, backBlank, last⟩ := render_blank trailBlank spaced₂
      (tokens (trail.getLast?.or (name.getLast?.or (lead.getLast?.or before))) t)
    refine ⟨front, back, name.getLast?.or (lead.getLast?.or before), spaced₃, frontBlank, backBlank, ?_⟩
    rw [read, kept, tokens_blank trailBlank, last]

/-- A name between white space has white space around it once operators have their form. -/
theorem normalize_padded {lead name trail : Text} (leadBlank : Blank lead) (trailBlank : Blank trail)
    (all : ∀ c ∈ name, c.isAlphanum = true) :
    ∃ front back, Blank front ∧ Blank back ∧
      normalize (lead ++ (name ++ trail)) = front ++ (name ++ back) := by
  have stop : (trail ++ []).head?.any Char.isAlphanum = false := by
    rw [List.append_nil, Option.any_eq_false]
    intro c head
    cases alphanum : c.isAlphanum with
    | false => rfl
    | true =>
      have blank := trailBlank c (List.mem_of_head? head)
      rw [not_isBlank_of_isAlphanum alphanum] at blank
      cases blank
  obtain ⟨front, back, before, spaced, frontBlank, backBlank, same⟩ :=
    render_padded leadBlank trailBlank all stop none false
  rw [tokens_nil, render, List.append_nil, List.append_nil] at same
  exact ⟨front, back, frontBlank, backBlank, same⟩

/-- A name at the start of a group, before a text with a space in front, gets white space around it. -/
theorem normalize_group {name rest : Text} (all : ∀ c ∈ name, c.isAlphanum = true)
    (starts : Starts rest) :
    ∃ front back, Blank front ∧ Blank back ∧
      normalize ('(' :: (name ++ (' ' :: rest))) =
        '(' :: (front ++ (name ++ (back ++ normalize rest))) := by
  have space : Blank [' '] := by simp [Blank]; decide
  obtain ⟨front, back, before, spaced, frontBlank, backBlank, same⟩ :=
    @render_padded rest [] name [' '] blank_nil space all rfl (some '(') false
  have alone : tokens ((' ' :: []).getLast?.or before) rest = tokens none rest :=
    tokens_congr (Or.inl rfl)
  refine ⟨front, back, frontBlank, backBlank, ?_⟩
  rw [alone, render_spaced (head_tokens starts.visible)] at same
  rw [normalize, tokens_step (step_other none (by decide) (by decide) (by decide) _), render]
  exact congrArg _ same

end

end FormLogic.Operator

namespace FormLogic.Grammar

open Text Call FormLogic.Field FormLogic.Field.Reference FormLogic.Conversion

section Field

variable {ctx : Context} {lead token trail : Text} {e : Entry}

/-- A text without calls is converted by the finishing passes alone. -/
theorem outcome_of_passes {u : Text} (passes : ∀ stage, Passes (Context.accepts stage) none u [])
    (depth : Nat) :
    ctx.Converts (depth + 1) u ∧ ctx.output (depth + 1) u = ctx.converter.finish ctx.owner u := by
  have cut (stage : Stage) : Cut ctx (ctx.output depth) (ctx.Converts depth) stage u u [] :=
    .of_passes (passes stage) (Or.inr rfl)
  exact (cut .logical).outcome (cut .predicate)

theorem passes_blank {accept : Text → Bool} {before : Option Char} {u t : Text} (blank : Blank u) :
    Passes accept before u t :=
  .chars fun c member => ⟨(isBlank_plain (blank c member)).2.2,
    ne_of_class (blank c member) (by decide), not_isNameStart_of_isBlank (blank c member)⟩

theorem padded_noQuote {front name back : Text} (frontBlank : Blank front)
    (all : ∀ c ∈ name, c.isAlphanum = true) (backBlank : Blank back) :
    ∀ c ∈ front ++ (name ++ back), isQuote c = false := by
  intro c member
  rw [List.mem_append, List.mem_append] at member
  rcases member with member | member | member
  · exact (isBlank_plain (frontBlank c member)).2.2
  · exact isQuote_of_isAlphanum (all c member)
  · exact (isBlank_plain (backBlank c member)).2.2

/-- A field is found for a text that is one reference, white space around it aside. -/
structure Points (ctx : Context) (lead token trail : Text) (e : Entry) : Prop where
  leadBlank : Blank lead
  trailBlank : Blank trail
  single : Reference.token? lead.getLast? (token ++ trail) = some (token, trail)
  found : (ctx.registry.resolve (lead ++ (token ++ trail)) ctx.owner).found? = some e

namespace Points

theorem step (points : Points ctx lead token trail e) :
    Fragment.Step lead.getLast? (token ++ trail) (.reference token) trail := by
  have single := points.single
  obtain ⟨c, rest, same⟩ := List.exists_cons_of_ne_nil (eq_of_token? single).2
  rw [same, List.cons_append] at single ⊢
  exact Fragment.step_token single

theorem passes (points : Points ctx lead token trail e) {accept : Text → Bool} {t : Text}
    (refused : accept ['c', 'u', 'r', 'r', 'e', 'n', 't'] = false) :
    Passes accept none (lead ++ (token ++ trail)) t :=
  .append (passes_blank points.leadBlank)
    (.append (passes_shape points.step.shape refused _) (passes_blank points.trailBlank))

theorem single_text (points : Points ctx lead token trail e) : Single (lead ++ (token ++ trail)) := by
  have blank {u : Text} (blank : Blank u) : Single u :=
    .plain fun c member => ⟨isBlank_plain (blank c member), ne_of_class (blank c member) (by decide)⟩
  exact (blank points.leadBlank).append
    ((single_shape points.step.shape).append (blank points.trailBlank))

theorem visible (points : Points ctx lead token trail e) :
    ∃ c ∈ lead ++ (token ++ trail), isBlank c = false := by
  obtain ⟨c, member, visible⟩ := visible_shape points.step.shape
  exact ⟨c, by simp [member], visible⟩

theorem meaning (points : Points ctx lead token trail e) : ctx.meaning token = e.identifier := by
  have found := points.found
  rw [← resolve_trim, trim_padded points.leadBlank points.trailBlank, resolve_trim] at found
  exact meaning_of_found found

/-- The identifier takes the place of the reference, between white space. -/
theorem replaced_text (points : Points ctx lead token trail e) :
    ∃ front back, Blank front ∧ Blank back ∧
      replaced ctx.meaning none none none (lead ++ (token ++ trail)) =
        front ++ (e.identifier ++ back) := by
  have plain {u : Text} (blank : Blank u) : ∀ c ∈ u, isQuote c = false ∧ c ∉ ['$', 'c', '.', '/'] :=
    fun c member => ⟨(isBlank_plain (blank c member)).2.2,
      notMem_of_class (blank c member) (by decide)⟩
  have space (left right : Option Char) : Blank (separator left right) := fun c member =>
    of_isSpace (separator_spaces left right c member) (by decide)
  have rest (before written : Option Char) : replaced ctx.meaning before written none trail = trail := by
    have whole := @replaced_append_of_plain ctx.meaning before written none trail []
      (plain points.trailBlank)
    rwa [replaced_nil, List.append_nil] at whole
  rw [replaced_append_of_plain (plain points.leadBlank), Option.or_none,
    replaced_reference points.step, rest, spaced, points.meaning]
  refine ⟨_, _, points.leadBlank.append (space lead.getLast? e.identifier.head?),
    (space e.identifier.getLast? (trail.head?.or none)).append points.trailBlank, ?_⟩
  simp only [List.append_assoc]

/-- The identifier is what the reference is converted to, white space around it aside. -/
theorem finish (points : Points ctx lead token trail e) (derived : Alphanumeric ctx.registry) :
    trim (ctx.converter.finish ctx.owner (lead ++ (token ++ trail))) = e.identifier := by
  have all := (derived e (Registry.mem_of_found? points.found)).1
  obtain ⟨front, back, frontBlank, backBlank, named⟩ := points.replaced_text
  obtain ⟨front', back', frontBlank', backBlank', normal⟩ :=
    Operator.normalize_padded frontBlank backBlank all
  have kept : quoted ctx.options.quotePolicy (front' ++ (e.identifier ++ back')) =
      front' ++ (e.identifier ++ back') := by
    rw [quoted, Literal.requote_of_noQuote (padded_noQuote frontBlank' all backBlank')]
    split <;> rfl
  rw [finish_eq, named, normal, kept]
  exact trim_blank_append (trimmed_of_isAlphanum all) frontBlank' backBlank'

end Points

end Field

section Comparison

variable {ctx : Context} {name : Text} {l : Literal}

/-- A comparison with a literal from its sign on, up to the end of the group that it stands in. -/
def rightSide (l : Literal) : Text := ['=', '=', ' '] ++ (l.render ++ [')'])

theorem starts_rightSide (l : Literal) : Starts (rightSide l) :=
  starts_of_head (by decide) (by decide) (by decide)

theorem replaced_comparison (all : ∀ c ∈ name, c.isAlphanum = true) (proper : l.Proper) :
    replaced ctx.meaning none none none ('(' :: (name ++ (' ' :: rightSide l))) =
      '(' :: (name ++ (' ' :: rightSide l)) := by
  have pass := named_pass ctx
  have opening : Named ctx ['('] ['('] (name ++ (' ' :: rightSide l)) := pass.opening _
  have left : Named ctx name name (' ' :: rightSide l) :=
    replaced_alphanum _ _ _ all (stops_sign true .equal _)
  have right : Named ctx (' ' :: rightSide l) (' ' :: rightSide l) [] :=
    pass.rightSide rfl proper rfl stops_nil
  rw [Named, List.append_nil, replaced_nil, List.append_nil] at right
  rw [Named, right] at left
  rw [Named, left] at opening
  exact opening

theorem normalize_rightSide (proper : l.Proper) : Operator.normalize (rightSide l) = rightSide l := by
  have right : Normalized (' ' :: rightSide l) (' ' :: rightSide l) [] :=
    normalized_pass.rightSide rfl proper rfl stops_nil
  rw [Normalized, List.append_nil, Operator.normalize_nil, List.append_nil,
    normalize_space (starts_rightSide l)] at right
  exact (List.cons.inj right).2

theorem quoted_comparison {left : Text} {policy : QuotePolicy}
    (plain : ∀ c ∈ left, isQuote c = false) (proper : l.Proper) (kept : requotedIn policy l = l) :
    quoted policy ('(' :: (left ++ rightSide l)) = '(' :: (left ++ rightSide l) := by
  have pass := requoted_pass policy
  have literal : Requoted policy l.render (requotedIn policy l).render ([')'] ++ []) :=
    pass.literal proper (stops_closing [])
  rw [kept] at literal
  have sign : Requoted policy ['=', '=', ' '] ['=', '=', ' '] (l.render ++ [')'] ++ []) :=
    .of_plain (by decide)
  have whole : Requoted policy (['('] ++ (left ++ rightSide l)) (['('] ++ (left ++ rightSide l)) [] :=
    pass.append (pass.opening _) (pass.append (.of_plain plain)
      (pass.append sign (pass.append literal (pass.closing stops_nil))))
  rw [Requoted, List.append_nil, quoted_nil, List.append_nil] at whole
  exact whole

/-- The finishing passes keep a name that is compared with a literal, with white space around it. -/
theorem finish_comparison (all : ∀ c ∈ name, c.isAlphanum = true) (proper : l.Proper)
    (kept : requotedIn ctx.options.quotePolicy l = l) :
    ∃ left, trim left = name ∧
      ctx.converter.finish ctx.owner ('(' :: (name ++ (' ' :: rightSide l))) =
        '(' :: (left ++ rightSide l) := by
  obtain ⟨front, back, frontBlank, backBlank, normal⟩ :=
    Operator.normalize_group all (starts_rightSide l)
  have whole : front ++ (name ++ (back ++ rightSide l)) =
      front ++ (name ++ back) ++ rightSide l := by simp only [List.append_assoc]
  refine ⟨front ++ (name ++ back), trim_blank_append (trimmed_of_isAlphanum all) frontBlank backBlank,
    ?_⟩
  rw [finish_eq, replaced_comparison all proper, normal, normalize_rightSide proper, whole,
    quoted_comparison (padded_noQuote frontBlank all backBlank) proper kept]

end Comparison

/-- The field and the value of a `selected` call are converted, and the call becomes a comparison of
what the field is converted to. -/
theorem Points.output_selected {ctx : Context} {lead token trail : Text} {e : Entry}
    (points : Points ctx lead token trail e) (derived : Alphanumeric ctx.registry)
    (value : ProperLiteral) (depth : Nat) :
    ctx.Converts (depth + 2) (Style.source.selected (lead ++ (token ++ trail)) value.1) ∧
      ctx.output (depth + 2) (Style.source.selected (lead ++ (token ++ trail)) value.1) =
        ctx.converter.finish ctx.owner ('(' :: (e.identifier ++
          (' ' :: rightSide (answer ctx (lead ++ (token ++ trail)) value.1)))) := by
  have refused (stage : Stage) : Context.accepts stage ['c', 'u', 'r', 'r', 'e', 'n', 't'] = false := by
    cases stage <;> decide
  -- One level is for the call and one for its arguments, which hold no calls.
  have field := @outcome_of_passes ctx _ (fun stage => points.passes (refused stage)) depth
  have literal : ctx.Converts (depth + 1) (' ' :: value.1.render) :=
    (outcome_of_passes (fun stage => .append (.spaces (u := [' ']) (by decide))
      (.plain (List.cons_ne_nil _ _) (.literal value.2))) depth).1
  have converted : trim (ctx.output (depth + 1) (lead ++ (token ++ trail))) = e.identifier := by
    rw [field.2]
    exact points.finish derived
  have logical : Cut ctx (ctx.output (depth + 1)) (ctx.Converts (depth + 1)) .logical _ _ [] :=
    cut_selected_logical value (fun stops => .of_passes (points.passes (refused .logical))
      (Or.inr (stops.head_of (by decide)))) stops_nil
  have predicate : Cut ctx (ctx.output (depth + 1)) (ctx.Converts (depth + 1)) .predicate _ _ [] :=
    cut_selected points.single_text points.visible value ⟨field.1, literal⟩ converted stops_nil
  exact logical.outcome predicate

theorem content_answer {ctx : Context} {token : Text} {e : Entry}
    (found : (ctx.registry.resolve token ctx.owner).found? = some e) (l : Literal) :
    (answer ctx token l).content = (e.answerCode? l.content).getD l.content := by
  unfold answer
  rw [found]
  cases ctx.options.quotePolicy <;> rfl

/-- A `selected` call whose first argument is one reference to a declared field and whose second one is
a literal is converted into a comparison of that field's identifier with the answer code that the field
has for the literal, or with the literal itself. -/
theorem convertFor_selected (r : Registry) (options : Options) (owner : Option Text)
    (derived : Alphanumeric r) {lead token trail : Text} (leadBlank : Blank lead)
    (trailBlank : Blank trail)
    (single : Reference.token? lead.getLast? (token ++ trail) = some (token, trail)) {e : Entry}
    (found : (r.resolve (lead ++ (token ++ trail)) owner).found? = some e) {l : Literal}
    (proper : l.Proper) :
    ∃ c left quote, Converter.convertFor ⟨r, .builtin, options⟩ owner
        ("selected(".toList ++ (lead ++ (token ++ trail)) ++ ", ".toList ++ l.render ++ [')']) =
          .ok c ∧
      trim left = e.identifier ∧ isQuote quote = true ∧
      c.output = ['('] ++ left ++ "== ".toList ++
        Literal.render ⟨quote, (e.answerCode? l.content).getD l.content⟩ ++ [')'] := by
  have points : Points ⟨r, options, owner⟩ lead token trail e := ⟨leadBlank, trailBlank, single, found⟩
  have whole : "selected(".toList ++ (lead ++ (token ++ trail)) ++ ", ".toList ++ l.render ++ [')'] =
      Style.source.selected (lead ++ (token ++ trail)) l := by
    simp [Style.source, callText, RuleSet.selectedName]
  obtain ⟨depth, enough⟩ : ∃ depth, Converter.depthFor
      (Style.source.selected (lead ++ (token ++ trail)) l) = depth + 2 :=
    ⟨nesting (Style.source.selected (lead ++ (token ++ trail)) l) + 999998, rfl⟩
  have codes : ∀ d ∈ r.entries, ∀ choice ∈ d.choices, ∀ c ∈ choice.2, isQuote c = false :=
    fun d member choice inside c code =>
      isQuote_of_isAlphanum ((derived d member).2 choice inside c code)
  have answered := @answer_proper ⟨r, options, owner⟩ codes (lead ++ (token ++ trail)) l proper
  obtain ⟨converts, compared⟩ := points.output_selected derived ⟨l, proper⟩ depth
  obtain ⟨left, trimmed, written⟩ := @finish_comparison ⟨r, options, owner⟩ e.identifier _
    (derived e (Registry.mem_of_found? found)).1 answered (requotedIn_answer _ _)
  obtain ⟨c, converted, outcome⟩ := (@Context.convertFor_iff ⟨r, options, owner⟩ _ _).2
    ⟨by rw [enough]; exact converts, by rw [enough, compared, written]⟩
  refine ⟨c, left, (answer ⟨r, options, owner⟩ (lead ++ (token ++ trail)) l).quote, ?_, trimmed,
    answered.quote_isQuote, ?_⟩
  · rw [whole]
    exact converted
  · rw [outcome, ← @content_answer ⟨r, options, owner⟩ _ _ found l]
    simp [rightSide]

/-- The registry of one field, whose identifier is not its name, with a code for its choice. -/
def oneChoice : Registry :=
  (Registry.declareAll .empty [⟨"/data/first_name".toList, none, ["banana_split".toList]⟩]).2

/-- A relative reference between white space. -/
theorem convertFor_selected_relative :
    Alphanumeric oneChoice ∧
      ∃ c left quote, Converter.convertFor ⟨oneChoice, .builtin, ⟨.preserve, none⟩⟩
          (some "/data/group/other".toList)
          "selected( ../../first_name , 'banana_split')".toList = .ok c ∧
        trim left = "firstname".toList ∧ isQuote quote = true ∧
        c.output = ['('] ++ left ++ "== ".toList ++ Literal.render ⟨quote, "banan".toList⟩ ++ [')'] := by
  have derived : Alphanumeric oneChoice := by decide +kernel
  have found : (oneChoice.resolve ([' '] ++ ("../../first_name".toList ++ [' ']))
      (some "/data/group/other".toList)).found? = some ⟨"/data/first_name".toList,
        "first_name".toList, "firstname".toList, [("banana_split".toList, "banan".toList)]⟩ := by
    decide +kernel
  exact ⟨derived, @convertFor_selected oneChoice ⟨.preserve, none⟩ (some "/data/group/other".toList)
    derived [' '] "../../first_name".toList [' '] (by simp [Blank]; decide) (by simp [Blank]; decide)
    (by decide +kernel) _ found ⟨'\'', "banana_split".toList⟩ ⟨by decide, by decide⟩⟩

/-- A field's bare name is no reference to the passes, but the code of its choice is looked up. -/
theorem bare_name_coded :
    Registry.ofDeclarations [⟨"/data/first_name".toList, none, ["banana_split".toList]⟩] =
        .ok oneChoice ∧
      Alphanumeric oneChoice ∧
      ∃ e ∈ oneChoice.entries, e.identifier = "firstname".toList ∧
        e.answerCode? "banana_split".toList = some "banan".toList ∧
        ∃ c, Converter.convertFor ⟨oneChoice, .builtin, .default⟩ none
            "selected(first_name, 'banana_split')".toList = .ok c ∧
          c.output = "(first_name == \"banan\")".toList := by
  have converted : (Converter.convertFor ⟨oneChoice, .builtin, .default⟩ none
      "selected(first_name, 'banana_split')".toList).toOption.map Converted.output =
        some "(first_name == \"banan\")".toList := by decide +kernel
  exact ⟨rfl, by decide +kernel, ⟨"/data/first_name".toList, "first_name".toList, "firstname".toList,
    [("banana_split".toList, "banan".toList)]⟩, by decide +kernel, rfl, rfl,
    exists_of_output converted⟩

end FormLogic.Grammar
