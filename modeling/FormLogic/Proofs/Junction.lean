import FormLogic.Proofs.Preservation

/-!
A boolean word between two texts. Where white space, a parenthesis, a quote or the brace of a token
stands beside the word, each pass treats the two texts as if the other were not there: no call, no
reference and no literal begins in the first text and goes on behind the word, and the second is read
as a text of its own.
-/
namespace FormLogic.Conversion

open Text Call FormLogic.Field FormLogic.Field.Reference

/-- A `${name}` token that a field is found for. -/
structure FoundToken (ctx : Context) (token : Text) : Prop where
  braced : ∃ name, (bracedName? name).isSome = true ∧ token = ['$', '{'] ++ name ++ ['}']
  found : (ctx.registry.resolve token ctx.owner).found?.isSome = true

/-- A boolean word may follow the text without white space. -/
inductive EndsApart (ctx : Context) : Text → Prop where
  | group (t : Text) : EndsApart ctx (t ++ [')'])
  | literal (t : Text) {q : Char} (quote : isQuote q = true) : EndsApart ctx (t ++ [q])
  | token (t : Text) {token : Text} (found : FoundToken ctx token) : EndsApart ctx (t ++ token)

/-- A boolean word may stand before the text without white space. -/
inductive BeginsApart (ctx : Context) : Text → Prop where
  | group (t : Text) : BeginsApart ctx ('(' :: t)
  | literal {q : Char} (quote : isQuote q = true) (t : Text) : BeginsApart ctx (q :: t)
  | token {token : Text} (found : FoundToken ctx token) (t : Text) : BeginsApart ctx (token ++ t)

/-- A boolean word, in white space, between a closed text and any other. -/
structure Junction (ctx : Context) (left gap gap' right : Text) : Prop where
  closed : Closed left
  last : left.getLast?.any isSpace = false
  head : right.head?.any isSpace = false
  spaces : ∀ c ∈ gap, isSpace c = true
  spaces' : ∀ c ∈ gap', isSpace c = true
  ends : gap ≠ [] ∨ EndsApart ctx left
  begins : gap' ≠ [] ∨ BeginsApart ctx right

variable {ctx : Context}

theorem FoundToken.head {token : Text} (found : FoundToken ctx token) :
    ∃ rest, token = '$' :: rest := by
  obtain ⟨name, _, rfl⟩ := found.braced
  exact ⟨_, rfl⟩

theorem FoundToken.last {token : Text} (found : FoundToken ctx token) :
    ∃ front, token = front ++ ['}'] := by
  obtain ⟨name, _, rfl⟩ := found.braced
  exact ⟨_, rfl⟩

theorem FoundToken.shape {token : Text} (found : FoundToken ctx token) : Shape token := by
  obtain ⟨name, valid, rfl⟩ := found.braced
  exact .braced valid

theorem FoundToken.step {token : Text} (found : FoundToken ctx token) (before : Option Char)
    (t : Text) : Fragment.Step before (token ++ t) (.reference token) t := by
  obtain ⟨name, valid, rfl⟩ := found.braced
  exact .braced (fresh_of_valid valid) valid

theorem FoundToken.piece {token : Text} (found : FoundToken ctx token) (accept : Text → Bool)
    (before : Option Char) (t : Text) : Piece.Step accept before (token ++ t) (.plain token) t := by
  obtain ⟨name, valid, rfl⟩ := found.braced
  exact .token (fresh_of_valid valid) valid

theorem FoundToken.seam {token : Text} (found : FoundToken ctx token) (t : Text) : Seam t token := by
  obtain ⟨rest, rfl⟩ := found.head
  exact ⟨fun _ => rfl, fun _ => rfl, fun _ => by simp, fun _ => by simp, fun _ => by simp⟩

theorem FoundToken.closed_of_append {t token : Text} (found : FoundToken ctx token)
    (closed : Closed (t ++ token)) : Closed t := by
  obtain ⟨groups, braces⟩ := closed
  obtain ⟨name, valid, rfl⟩ := found.braced
  refine ⟨?_, braces.of_append_cons (by decide) (by decide)⟩
  rwa [closes_append_right (by rintro _ ⟨⟩) (braced_plain valid)] at groups

/-- A text that ends apart ends neither in a word nor in white space. -/
theorem EndsApart.last {t : Text} (apart : EndsApart ctx t) :
    ∃ c, t.getLast? = some c ∧ isPathChar c = false ∧ isSpace c = false ∧ c ≠ '$' ∧ c ≠ '=' := by
  cases apart with
  | group t => exact ⟨')', List.getLast?_concat, by decide⟩
  | @literal t q quote =>
    refine ⟨q, List.getLast?_concat, ?_⟩
    simp only [isQuote, Bool.or_eq_true, beq_iff_eq] at quote
    rcases quote with rfl | rfl <;> decide
  | @token t token found =>
    obtain ⟨front, rfl⟩ := found.last
    refine ⟨'}', ?_, by decide⟩
    rw [← List.append_assoc, List.getLast?_concat]

/-- No name starts a text that begins apart, and no space. -/
theorem BeginsApart.head {t : Text} (apart : BeginsApart ctx t) :
    t.head?.any isNameStart = false ∧ t.head?.any isNameChar = false := by
  cases apart with
  | group t => exact ⟨rfl, rfl⟩
  | @literal q quote t =>
    simp only [isQuote, Bool.or_eq_true, beq_iff_eq] at quote
    rcases quote with rfl | rfl <;> exact ⟨rfl, rfl⟩
  | @token token found t =>
    obtain ⟨rest, rfl⟩ := found.head
    exact ⟨rfl, rfl⟩

section

variable {left gap gap' right : Text}

/-- What stands between the two texts. -/
theorem openedGroup?_boolean (spaces : ∀ c ∈ gap, isSpace c = true) (word : Operator.BooleanWord)
    (rest : Text) : Piece.openedGroup? (gap ++ (word.render ++ rest)) = none := by
  cases found : Piece.openedGroup? (gap ++ (word.render ++ rest)) with
  | none => rfl
  | some parts =>
    obtain ⟨lead, inside⟩ := parts
    obtain ⟨whole, blanks⟩ := Piece.openedGroup?_eq_some_iff.1 found
    have stop : (word.render ++ rest).head?.any isSpace = false := by cases word <;> rfl
    have stop' : ('(' :: inside).head?.any isSpace = false := rfl
    have first := dropWhile_run spaces stop
    rw [whole, dropWhile_run blanks stop'] at first
    cases word <;> cases first

theorem Junction.seam (junction : Junction ctx left gap gap' right) (word : Operator.BooleanWord)
    (rest : Text) : Seam left (gap ++ (word.render ++ rest)) := by
  have group := openedGroup?_boolean junction.spaces word rest
  cases same : gap with
  | cons c more =>
    rw [same] at group
    exact .of_space rfl (junction.spaces c (by rw [same]; exact List.mem_cons_self)) group
  | nil =>
    obtain ⟨c, last, notPath, notSpace, notDollar, notEquals⟩ :=
      (junction.ends.resolve_left fun nonempty => nonempty same).last
    rw [List.nil_append]
    rw [same] at group
    refine ⟨fun path => ?_, fun _ => group, ?_, fun _ => ?_, ?_⟩
    · rw [last, Option.any_some, notPath] at path
      cases path
    · rw [last]
      exact fun dollar => absurd (Option.some.inj dollar) notDollar
    · cases word <;> exact fun impossible => absurd (Option.some.inj impossible) (by decide)
    · rw [last]
      exact fun equals => absurd (Option.some.inj equals) notEquals

end

section

variable {left gap gap' right : Text}

theorem Junction.head_right (junction : Junction ctx left gap gap' right) :
    (gap' ++ right).head?.any isNameChar = false := by
  cases same : gap' with
  | cons c more =>
    exact not_isNameChar_of_isSpace (junction.spaces' c (by rw [same]; exact List.mem_cons_self))
  | nil => exact (junction.begins.resolve_left fun nonempty => nonempty same).head.2

/-- The calls on both sides of the word are those of the two texts. -/
theorem Junction.pieces (junction : Junction ctx left gap gap' right)
    (word : Operator.BooleanWord) (stage : Stage) :
    ∃ ps, (∀ c, .call c ∉ ps) ∧ joined ps = gap ++ (word.render ++ gap') ∧
      pieces (Context.accepts stage) none (left ++ (gap ++ (word.render ++ gap') ++ right)) =
        pieces (Context.accepts stage) none left ++
          (ps ++ pieces (Context.accepts stage) none right) := by
  have refused : Context.accepts stage word.render = false := by
    cases stage <;> cases word <;> rfl
  have named : word.render.head?.any isNameStart = true ∧ ∀ c ∈ word.render, isNameChar c = true := by
    cases word <;> decide
  have passes : Passes (Context.accepts stage) (left.getLast?.or none)
      (gap ++ (word.render ++ gap')) right :=
    (Passes.spaces junction.spaces).append
      ((Passes.name named.1 named.2 (Or.inr refused) junction.head_right).append
        (.spaces junction.spaces'))
  obtain ⟨ps, plain, whole, same⟩ := passes
  refine ⟨ps, plain, whole, ?_⟩
  have seam := junction.seam word (gap' ++ right)
  rw [pieces_append junction.closed.groups junction.closed.braces (by simpa using seam), same]
  congr 2
  apply pieces_congr
  rcases junction.begins with nonempty | apart
  · refine Or.inl ?_
    rw [List.getLast?_append, List.getLast?_append, List.getLast?_eq_some_getLast nonempty]
    have space := junction.spaces' _ (List.getLast_mem nonempty)
    exact of_isSpace (p := fun c => startsToken (some c)) space (by decide)
  · exact Or.inr apart.head.1

/-- A stage replaces calls in the two texts apart. -/
theorem Junction.replaceIn_eq (junction : Junction ctx left gap gap' right)
    (word : Operator.BooleanWord) (convert : Text → Text) (stage : Stage) :
    ctx.replaceIn convert stage (left ++ (gap ++ (word.render ++ gap') ++ right)) =
      ctx.replaceIn convert stage left ++ (gap ++ (word.render ++ gap') ++
        ctx.replaceIn convert stage right) := by
  obtain ⟨ps, plain, whole, same⟩ := junction.pieces word stage
  rw [Context.replaceIn, Call.rewrite, same, List.flatMap_append, List.flatMap_append,
    flatMap_rewritten plain, whole]
  rfl

theorem Junction.ready_iff (junction : Junction ctx left gap gap' right)
    (word : Operator.BooleanWord) (depth : Nat) (stage : Stage) :
    ctx.Ready depth stage (left ++ (gap ++ (word.render ++ gap') ++ right)) ↔
      ctx.Ready depth stage left ∧ ctx.Ready depth stage right := by
  obtain ⟨ps, plain, _, same⟩ := junction.pieces word stage
  have parts (c : Call) : .call c ∈ Call.pieces (Context.accepts stage) none
      (left ++ (gap ++ (word.render ++ gap') ++ right)) ↔
        .call c ∈ Call.pieces (Context.accepts stage) none left ∨
          .call c ∈ Call.pieces (Context.accepts stage) none right := by
    rw [same, List.mem_append, List.mem_append]
    exact or_congr_right (or_iff_right (plain c))
  simp only [Context.Ready, parts, or_imp, forall_and]

/-- Both texts stay apart from the word once the calls of a stage are replaced. -/
theorem Junction.replaceIn (regular : Regular ctx)
    (junction : Junction ctx left gap gap' right) {convert : Text → Text}
    (closed : ∀ a, Closed a → Closed (convert a)) (stage : Stage) :
    Junction ctx (ctx.replaceIn convert stage left) gap gap' (ctx.replaceIn convert stage right) := by
  obtain ⟨braces, groups⟩ := replaceIn_keeps regular closed stage junction.closed.braces
  have last (t : Text) : (ctx.replaceIn convert stage t).getLast? = t.getLast? :=
    getLast?_rewrite fun call _ => getLast?_replacement ctx convert call
  have head (t : Text) : (ctx.replaceIn convert stage t).head? = t.head? ∨
      (ctx.replaceIn convert stage t).head? = some '(' := by
    refine head?_rewrite fun call member => ?_
    have named : call.run ≠ [] := by
      intro empty
      have accepted := (mem_pieces member).1
      rw [empty] at accepted
      cases stage <;> cases accepted
    exact ⟨named, head?_replacement ctx convert named⟩
  refine ⟨⟨(groups 0).trans junction.closed.groups, braces⟩, ?_, ?_, junction.spaces,
    junction.spaces', junction.ends.imp_right fun apart => ?_,
    junction.begins.imp_right fun apart => ?_⟩
  · rw [last, junction.last]
  · rcases head right with same | same
    · rw [same, junction.head]
    · rw [same]
      rfl
  · have same := last left
    cases apart with
    | group t =>
      rw [List.getLast?_concat] at same
      obtain ⟨front, whole⟩ := List.getLast?_eq_some_iff.1 same
      rw [whole]
      exact .group front
    | literal t quote =>
      rw [List.getLast?_concat] at same
      obtain ⟨front, whole⟩ := List.getLast?_eq_some_iff.1 same
      rw [whole]
      exact .literal front quote
    | @token t token found =>
      have front := found.closed_of_append junction.closed
      have step := found.piece (Context.accepts stage) (t.getLast?.or none) []
      rw [List.append_nil] at step
      rw [Context.replaceIn, rewrite_append _ front.groups front.braces (found.seam t),
        rewrite_step _ step, rewrite_nil, List.append_nil]
      exact .token _ found
  · have first (c : Char) (t : Text) (same : right = c :: t) (apart : ∀ t, BeginsApart ctx (c :: t)) :
        BeginsApart ctx (ctx.replaceIn convert stage right) := by
      have begins := head right
      rw [same] at begins ⊢
      rcases begins with begins | begins
      · obtain ⟨rest, whole⟩ := List.head?_eq_some_iff.1 begins
        rw [whole]
        exact apart rest
      · obtain ⟨rest, whole⟩ := List.head?_eq_some_iff.1 begins
        rw [whole]
        exact .group rest
    generalize whole : right = text at apart
    cases apart with
    | group t => exact whole ▸ first '(' t whole .group
    | @literal q quote t => exact whole ▸ first q t whole (.literal quote)
    | @token token found t =>
      rw [Context.replaceIn, rewrite_step _ (found.piece (Context.accepts stage) none t)]
      exact .token found _

end

section References

variable {left gap gap' right : Text}

theorem FoundToken.text {token : Text} (found : FoundToken ctx token) :
    ∃ e ∈ ctx.registry.entries, (ctx.registry.resolve token ctx.owner).text = e.identifier := by
  obtain ⟨e, same⟩ := Option.isSome_iff_exists.1 found.found
  refine ⟨e, Registry.mem_of_found? same, ?_⟩
  cases resolution : ctx.registry.resolve token ctx.owner with
  | resolved entry =>
    rw [resolution] at same
    exact congrArg Entry.identifier (Option.some.inj same)
  | unresolved text =>
    rw [resolution] at same
    cases same

/-- A field's identifier begins and ends with a word character. -/
theorem Regular.identifier_ends (regular : Regular ctx) {e : Entry}
    (member : e ∈ ctx.registry.entries) :
    e.identifier.head?.any isWordChar = true ∧ e.identifier.getLast?.any isWordChar = true := by
  obtain ⟨nonempty, word⟩ := regular.worded e member
  refine ⟨?_, any_getLast? nonempty word⟩
  obtain ⟨c, rest, same⟩ := List.exists_cons_of_ne_nil nonempty
  rw [same]
  exact word c (by rw [same]; exact List.mem_cons_self)

/-- The context node is a field, or its function stays as it is. -/
theorem Regular.resolve_current (regular : Regular ctx) :
    (∃ e ∈ ctx.registry.entries,
        (ctx.registry.resolve currentCall ctx.owner).text = e.identifier) ∨
      (ctx.registry.resolve currentCall ctx.owner).text = currentCall := by
  have self : ctx.registry.resolve currentCall ctx.owner =
      ctx.registry.resolveSelf currentCall ctx.owner := rfl
  rw [self]
  cases owner : ctx.owner with
  | none => exact Or.inr rfl
  | some name =>
    obtain ⟨e, found⟩ := Option.isSome_iff_exists.1 (regular.known name (by rw [owner]; rfl))
    rw [Registry.resolveSelf, found]
    exact Or.inl ⟨e, Registry.mem_of_lookup? found, rfl⟩

/-- Before `next`, a text ends as it does alone once its references are replaced, but for a space
that may be needed behind its last token. -/
def EndsAlone (ctx : Context) (gap : Text) (next : Option Char) (left : Text) : Prop :=
  ∃ s, replaced ctx.meaning none none next left =
      ctx.registry.replaceReferences ctx.owner left ++ s ∧
    (∀ c ∈ s, isSpace c = true) ∧
    (ctx.registry.replaceReferences ctx.owner left).getLast?.any isSpace = false ∧
    (s ++ gap ≠ [] ∨ (ctx.registry.replaceReferences ctx.owner left).getLast?.any
      (fun c => c == ')' || isQuote c) = true)

/-- Behind a token that a word follows, a space is written unless the token's text ends in a
parenthesis. -/
theorem endsAlone_of_token (regular : Regular ctx) {next : Option Char} {u token : Text}
    (shape : Shape token) (follows : gap ≠ [] ∨ next.any isWordChar = true)
    (same : ∀ after, replaced ctx.meaning none none after left =
      u ++ ctx.meaning token ++ separator (ctx.meaning token).getLast? after)
    (fits : gap = [] → (ctx.meaning token).getLast?.any isWordChar = true ∨
      (ctx.meaning token).getLast? = some ')') : EndsAlone ctx gap next left := by
  have referent : Referent (ctx.meaning token) := regular.referent token shape
  have alone : ctx.registry.replaceReferences ctx.owner left = u ++ ctx.meaning token := by
    have whole := same none
    rwa [separator_plain rfl, List.append_nil] at whole
  obtain ⟨c, last⟩ : ∃ c, (ctx.meaning token).getLast? = some c :=
    ⟨_, List.getLast?_eq_some_getLast referent.1⟩
  have final : (u ++ ctx.meaning token).getLast? = some c := by rw [List.getLast?_append, last]; rfl
  rw [EndsAlone, same next, alone, final]
  refine ⟨_, rfl, separator_spaces _ _, referent.visible c (List.mem_of_getLast? last), ?_⟩
  rcases Decidable.em (gap = []) with touching | spaced
  · rcases fits touching with word | closing
    · rw [separator_word word (follows.resolve_left fun nonempty => nonempty touching)]
      exact Or.inl (List.cons_ne_nil _ _)
    · rw [last] at closing
      rw [Option.some.inj closing]
      exact Or.inr rfl
  · exact Or.inl (List.append_ne_nil_of_right_ne_nil _ spaced)

theorem endsAlone_of_found (regular : Regular ctx) {next : Option Char} {t token : Text}
    (found : FoundToken ctx token) (closed : Closed (t ++ token))
    (follows : gap ≠ [] ∨ next.any isWordChar = true) : EndsAlone ctx gap next (t ++ token) := by
  have front := found.closed_of_append closed
  obtain ⟨e, member, text⟩ := found.text
  obtain ⟨rest, dollar⟩ := found.head
  have step := found.step (t.getLast?.or none) []
  rw [List.append_nil] at step
  have written (after : Option Char) : replaced ctx.meaning none none after (t ++ token) =
      replaced ctx.meaning none none (some '$') t ++
        separator ((replaced ctx.meaning none none (some '$') t).getLast?.or none)
          (ctx.meaning token).head? ++ ctx.meaning token ++
        separator (ctx.meaning token).getLast? after := by
    rw [replaced_append front.groups front.braces (found.seam t), replaced_reference step,
      replaced_nil, List.append_nil, spaced, ← List.append_assoc, ← List.append_assoc, dollar]
    rfl
  refine endsAlone_of_token regular found.shape follows written fun _ => Or.inl ?_
  rw [Context.meaning, text]
  exact (regular.identifier_ends member).2

theorem Junction.endsAlone (regular : Regular ctx) (junction : Junction ctx left gap gap' right)
    {next : Option Char} (follows : gap ≠ [] ∨ next.any isWordChar = true) :
    EndsAlone ctx gap next left := by
  rcases Decidable.em (left = []) with empty | nonempty
  · have spaced : gap ≠ [] := by
      refine junction.ends.resolve_right fun apart => ?_
      obtain ⟨c, last, _⟩ := apart.last
      rw [empty] at last
      cases last
    rw [empty, EndsAlone, Registry.replaceReferences, replaced_nil, replaced_nil]
    exact ⟨[], rfl, by simp, rfl, Or.inl spaced⟩
  by_cases found : ∃ t token, left = t ++ token ∧ FoundToken ctx token
  · obtain ⟨t, token, rfl, found⟩ := found
    exact endsAlone_of_found regular found junction.closed follows
  have suffix_last {u : Text} (nonempty : u ≠ []) (suffix : u <:+ left) (v : Text) :
      (v ++ u).getLast? = left.getLast? := by
    obtain ⟨front, whole⟩ := suffix
    obtain ⟨c, rest, same⟩ := List.exists_cons_of_ne_nil nonempty
    rw [← whole, same, getLast?_append_cons, getLast?_append_cons]
  have last (touching : gap = []) :
      left.getLast? = some ')' ∨ ∃ q, isQuote q = true ∧ left.getLast? = some q := by
    generalize whole : left = text
    have apart := junction.ends.resolve_left fun nonempty => nonempty touching
    rw [whole] at apart
    cases apart with
    | group t => exact Or.inl List.getLast?_concat
    | @literal t q quote => exact Or.inr ⟨q, quote, List.getLast?_concat⟩
    | @token t token resolves => exact absurd ⟨t, token, whole, resolves⟩ found
  rcases replaced_end ctx.meaning none none nonempty with
    ⟨u, text, visible, suffix, same⟩ | ⟨u, token, shape, suffix, same⟩
  · have alone : ctx.registry.replaceReferences ctx.owner left = u ++ text := same none
    rw [EndsAlone, same next, alone, suffix_last visible suffix]
    refine ⟨[], by rw [List.append_nil], by simp, junction.last, ?_⟩
    rcases Decidable.em (gap = []) with touching | spaced
    · rcases last touching with closing | ⟨q, quote, same⟩
      · rw [closing]
        exact Or.inr rfl
      · rw [same, Option.any_some, quote, Bool.or_true]
        exact Or.inr rfl
    · exact Or.inl spaced
  · refine endsAlone_of_token regular shape follows same fun touching => ?_
    have final := suffix_last shape.ne_nil suffix []
    rw [List.nil_append] at final
    rcases last touching with closing | ⟨q, quote, same⟩
    · rw [Shape.eq_current shape (final.trans closing), Context.meaning]
      rcases regular.resolve_current with ⟨e, member, text⟩ | text
      · rw [text]
        exact Or.inl (regular.identifier_ends member).2
      · rw [text]
        exact Or.inr rfl
    · rw [shape.noQuote q (List.mem_of_getLast? (final.trans same))] at quote
      cases quote

/-- Behind `before`, a text begins as it does alone once its references are replaced, but for a
space that may be needed before its first token. -/
def BeginsAlone (ctx : Context) (gap : Text) (before : Option Char) (right : Text) : Prop :=
  ∃ s, replaced ctx.meaning before before none right =
      s ++ ctx.registry.replaceReferences ctx.owner right ∧
    (∀ c ∈ s, isSpace c = true) ∧
    (ctx.registry.replaceReferences ctx.owner right).head?.any isSpace = false ∧
    (gap ++ s ≠ [] ∨ (ctx.registry.replaceReferences ctx.owner right).head?.any
      (fun c => c == '(' || isQuote c) = true)

theorem head_replaceReferences (regular : Regular ctx) {t : Text}
    (visible : t.head?.any isSpace = false) :
    (ctx.registry.replaceReferences ctx.owner t).head?.any isSpace = false := by
  rw [Registry.replaceReferences]
  cases t with
  | nil => rw [replaced_nil]; rfl
  | cons c rest =>
    have step := Fragment.step_next none c rest
    generalize (Fragment.next none c rest).1 = s at step
    generalize (Fragment.next none c rest).2 = later at step
    have whole := step.source_append
    cases s with
    | plain text =>
      rw [replaced_plain step]
      cases text with
      | nil =>
        obtain ⟨d, more, _, same⟩ := Fragment.next_of_step step
        have nonempty := Fragment.source_next_ne_nil none d more
        rw [same] at nonempty
        exact absurd rfl nonempty
      | cons d more =>
        have same : d = c := (List.cons.inj whole).1
        rw [same]
        exact visible
    | reference token =>
      have referent : Referent (ctx.meaning token) := regular.referent token step.shape
      obtain ⟨d, more, same⟩ := List.exists_cons_of_ne_nil referent.1
      have text : (ctx.registry.resolve token ctx.owner).text = d :: more := same
      rw [replaced_reference step, spaced, text]
      exact referent.visible d (by rw [same]; exact List.mem_cons_self)

theorem Junction.beginsAlone (regular : Regular ctx) (junction : Junction ctx left gap gap' right)
    {before : Option Char} (follows : gap' ≠ [] ∧ before.any isSpace = true ∨
      gap' = [] ∧ before.any isWordChar = true) : BeginsAlone ctx gap' before right := by
  have visible := head_replaceReferences regular junction.head
  rcases follows with ⟨nonempty, space⟩ | ⟨touching, word⟩
  · rw [Option.any_eq_true] at space
    obtain ⟨c, rfl, space⟩ := space
    have starts : startsToken (some c) = startsToken none :=
      of_isSpace (p := fun c => startsToken (some c)) space (by decide)
    have noWord : (some c).any isWordChar = none.any isWordChar :=
      of_isSpace (p := isWordChar) space (by decide)
    have same : replaced ctx.meaning (some c) (some c) none right =
        replaced ctx.meaning none none none right := replaced_congr starts noWord rfl right
    exact ⟨[], same, by simp, visible, Or.inl (by rwa [List.append_nil])⟩
  · have apart := junction.begins.resolve_left fun nonempty => nonempty touching
    cases apart with
    | group t =>
      have step (b : Option Char) : Fragment.Step b ('(' :: t) (.plain ['(']) t :=
        .char (by decide) (token?_eq_none (by decide) t)
      rw [BeginsAlone, Registry.replaceReferences, replaced_plain (step _), replaced_plain (step _)]
      exact ⟨[], rfl, by simp, rfl, Or.inr rfl⟩
    | @literal q quote t =>
      obtain ⟨text, rest, first, step⟩ : ∃ text rest, text.head? = some q ∧
          ∀ b, Fragment.Step b (q :: t) (.plain text) rest := by
        by_cases member : q ∈ t
        · obtain ⟨⟨content, rest⟩, cut⟩ := Option.ne_none_iff_exists'.1
            fun uncut => cutAt?_eq_none_iff.1 uncut member
          obtain ⟨whole, fresh⟩ := cutAt?_eq_some_iff.1 cut
          have proper : Literal.Proper ⟨q, content⟩ := ⟨quote, fresh⟩
          refine ⟨Literal.render ⟨q, content⟩, rest, rfl, fun b => ?_⟩
          rw [whole, ← Literal.cons_quote_append ⟨q, content⟩ rest]
          exact .literal proper
        · exact ⟨q :: t, [], rfl, fun b => .unclosed quote member⟩
      rw [BeginsAlone, Registry.replaceReferences, replaced_plain (step _), replaced_plain (step _),
        List.head?_append, first]
      refine ⟨[], rfl, by simp, ?_, Or.inr ?_⟩
      · exact of_isQuote (p := isSpace) quote (by decide)
      · rw [Option.some_or, Option.any_some, quote, Bool.or_true]
    | @token token found t =>
      obtain ⟨e, member, text⟩ := found.text
      have first : (ctx.meaning token).head?.any isWordChar = true := by
        rw [Context.meaning, text]
        exact (regular.identifier_ends member).1
      have written : spaced ctx.meaning before t.head? token =
          ' ' :: spaced ctx.meaning none t.head? token := by
        rw [spaced, spaced, separator_word word first]
        rfl
      obtain ⟨c, rest, same⟩ : ∃ c rest, spaced ctx.meaning none t.head? token = c :: rest := by
        rw [Option.any_eq_true] at first
        obtain ⟨c, head, _⟩ := first
        obtain ⟨rest, whole⟩ := List.head?_eq_some_iff.1 head
        exact ⟨c, _, by rw [spaced, whole]; rfl⟩
      refine ⟨[' '], ?_, by decide, visible, Or.inl (by simp)⟩
      change _ = _ ++ replaced ctx.meaning none none none _
      rw [replaced_reference (found.step _ t), replaced_reference (found.step _ t), Option.or_none,
        written, same, List.getLast?_cons_cons]
      rfl

/-- In the target grammar the two texts are those that they are alone, with a boolean word in white
space between them. -/
theorem Junction.flanked (regular : Regular ctx) (junction : Junction ctx left gap gap' right)
    (word : Operator.BooleanWord) :
    ∃ v v', ctx.registry.replaceReferences ctx.owner
          (left ++ (gap ++ (word.render ++ gap') ++ right)) =
        ctx.registry.replaceReferences ctx.owner left ++ (v ++ (word.render ++ v') ++
          ctx.registry.replaceReferences ctx.owner right) ∧
      Operator.Flanked (ctx.registry.replaceReferences ctx.owner left) v v'
        (ctx.registry.replaceReferences ctx.owner right) := by
  have plain : ∀ c ∈ gap ++ (word.render ++ gap'),
      isQuote c = false ∧ c ∉ ['$', 'c', '.', '/'] := by
    have space {c : Char} (space : isSpace c = true) :
        isQuote c = false ∧ c ∉ ['$', 'c', '.', '/'] := by
      refine ⟨(Piece.isSpace_plain space).2.2, fun member => ?_⟩
      simp only [List.mem_cons, List.not_mem_nil, or_false] at member
      rcases member with rfl | rfl | rfl | rfl <;> cases space
    intro c member
    rcases List.mem_append.1 member with member | member
    · exact space (junction.spaces c member)
    · rcases List.mem_append.1 member with member | member
      · have table : ∀ d ∈ word.render, isQuote d = false ∧ d ∉ ['$', 'c', '.', '/'] := by
          cases word <;> decide
        exact table c member
      · exact space (junction.spaces' c member)
  have last : ∃ d, (gap ++ (word.render ++ gap')).getLast? = some d ∧
      (gap' ≠ [] ∧ isSpace d = true ∨ gap' = [] ∧ isWordChar d = true) := by
    rcases Decidable.em (gap' = []) with touching | spaced
    · rw [touching, List.append_nil]
      cases word
      · exact ⟨'d', getLast?_append_cons gap _ _, Or.inr ⟨rfl, by decide⟩⟩
      · exact ⟨'r', getLast?_append_cons gap _ _, Or.inr ⟨rfl, by decide⟩⟩
    · refine ⟨_, ?_, Or.inl ⟨spaced, junction.spaces' _ (List.getLast_mem spaced)⟩⟩
      rw [List.getLast?_append, List.getLast?_append, List.getLast?_eq_some_getLast spaced]
      rfl
  obtain ⟨d, last, follows⟩ := last
  have next : gap ≠ [] ∨
      ((gap ++ (word.render ++ gap') ++ right).head?.or none).any isWordChar = true := by
    cases gap with
    | cons c more => exact Or.inl (List.cons_ne_nil c more)
    | nil => cases word <;> exact Or.inr rfl
  obtain ⟨s, written, spaces, visible, ends⟩ := junction.endsAlone regular next
  obtain ⟨s', written', spaces', visible', begins⟩ : BeginsAlone ctx gap' (some d) right :=
    junction.beginsAlone regular follows
  have seam : Seam left (gap ++ (word.render ++ gap') ++ right) := by
    have seam := junction.seam word (gap' ++ right)
    rwa [← List.append_assoc, ← List.append_assoc, List.append_assoc gap] at seam
  refine ⟨s ++ gap, gap' ++ s', ?_, ⟨?_, ?_, visible, visible', ends, begins⟩⟩
  · have whole : replaced ctx.meaning none none none
        (left ++ (gap ++ (word.render ++ gap') ++ right)) = _ :=
      replaced_append junction.closed.groups junction.closed.braces seam
    rw [replaced_append_of_plain plain, last, Option.some_or, Option.some_or, written, written']
      at whole
    exact whole.trans (by simp only [List.append_assoc])
  · intro c member
    exact (List.mem_append.1 member).elim (spaces c) (junction.spaces c)
  · intro c member
    exact (List.mem_append.1 member).elim (junction.spaces' c) (spaces' c)

/-- The last passes treat the two texts apart. -/
theorem Junction.finish_eq (regular : Regular ctx) (junction : Junction ctx left gap gap' right)
    (word : Operator.BooleanWord) :
    ctx.converter.finish ctx.owner (left ++ (gap ++ (word.render ++ gap') ++ right)) =
      ctx.converter.finish ctx.owner left ++ ([' ', ' '] ++ word.render ++ [' ', ' '] ++
        ctx.converter.finish ctx.owner right) := by
  obtain ⟨v, v', whole, flanked⟩ := junction.flanked regular word
  have groups : closes .outside (ctx.registry.replaceReferences ctx.owner left) = true :=
    (closes_replaced regular.referent junction.closed.braces 0).trans junction.closed.groups
  have terminated : Terminated (Operator.normalize
      (ctx.registry.replaceReferences ctx.owner left)) :=
    terminated_of_closes ((Operator.closes_render 0).trans groups)
  have normal : Operator.normalize (ctx.registry.replaceReferences ctx.owner
      (left ++ (gap ++ (word.render ++ gap') ++ right))) = _ :=
    (congrArg Operator.normalize whole).trans
      (flanked.normalize_eq (terminated_of_closes groups) word)
  have finish (t : Text) : ctx.converter.finish ctx.owner t =
      if ctx.options.quotePolicy = .double then
        Literal.requote (Operator.normalize (ctx.registry.replaceReferences ctx.owner t))
      else Operator.normalize (ctx.registry.replaceReferences ctx.owner t) := rfl
  rw [finish, finish, finish]
  split
  · rw [normal, Literal.requote_append terminated, Literal.requote_append_of_noQuote
      fun c member => (Operator.boolean_plain word c member).2.2]
  · exact normal

end References

section Levels

variable {left gap gap' right : Text}

/-- With any number of levels but none, the outcome for the two texts joined by the word is made of
their outcomes, and the levels suffice where they suffice for each of the two. -/
theorem Junction.output_eq (regular : Regular ctx) (junction : Junction ctx left gap gap' right)
    (word : Operator.BooleanWord) (depth : Nat) :
    ctx.output (depth + 1) (left ++ (gap ++ (word.render ++ gap') ++ right)) =
        ctx.output (depth + 1) left ++ ([' ', ' '] ++ word.render ++ [' ', ' '] ++
          ctx.output (depth + 1) right) ∧
      (ctx.Converts (depth + 1) (left ++ (gap ++ (word.render ++ gap') ++ right)) ↔
        ctx.Converts (depth + 1) left ∧ ctx.Converts (depth + 1) right) := by
  have closed := fun a (inside : Closed a) => closed_output regular depth inside
  have logical := junction.replaceIn regular closed .logical
  have predicate := logical.replaceIn regular closed .predicate
  constructor
  · simp only [Context.output]
    rw [junction.replaceIn_eq word, logical.replaceIn_eq word, predicate.finish_eq regular word]
  · rw [Context.converts_succ_iff, Context.converts_succ_iff, Context.converts_succ_iff,
      junction.replaceIn_eq word, junction.ready_iff word, logical.ready_iff word]
    exact and_and_and_comm

end Levels

end FormLogic.Conversion
