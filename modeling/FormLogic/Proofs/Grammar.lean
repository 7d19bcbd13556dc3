import FormLogic.Proofs.Preservation

/-!
The source grammar, and how a pass over a text acts on the expressions of it. A tree is written in
two styles, one for what stands in a call of a logical function and one for the rest; a pass changes
the styles. What it does to a tree follows from what it does to the leaves, to the words and signs
between them, and to the calls of logical functions.
-/
namespace FormLogic.Grammar

open Text Call FormLogic.Field FormLogic.Field.Reference FormLogic.Conversion

/-- A text that is one reference token from its first character to its last. -/
structure Token where
  text : Text
  whole : Reference.token? none text = some (text, [])

/-- A number: digits, and a fraction if that is not empty. -/
structure Numeral where
  digits : Text
  fraction : Text
  nonempty : digits ≠ []
  digits_all : ∀ c ∈ digits, c.isDigit = true
  fraction_all : ∀ c ∈ fraction, c.isDigit = true

def Numeral.render (n : Numeral) : Text :=
  n.digits ++ if n.fraction = [] then [] else '.' :: n.fraction

abbrev ProperLiteral := { l : Literal // l.Proper }

inductive Operand where
  | reference (token : Token)
  | numeral (n : Numeral)
  | literal (l : ProperLiteral)

inductive Comparison where
  | equal
  | unequal
  | less
  | greater
  | atMost
  | atLeast
  deriving DecidableEq, Repr

inductive Expression where
  | operand (o : Operand)
  | comparison (left : Operand) (sign : Comparison) (right : Operand)
  | selected (field : Token) (value : ProperLiteral)
  | negation (e : Expression)
  | choice (test whenTrue whenFalse : Expression)
  | group (e : Expression)
  | boolean (word : Operator.BooleanWord) (left right : Expression)
  | constant (value : Bool)

/-- How the parts of an expression are written. -/
structure Style where
  reference : Text → Text
  literal : Literal → Literal
  selected : Text → Literal → Text
  /-- Whether operators have their form in the target grammar. -/
  normal : Bool

/-- A comparison sign with the white space around it. -/
def signText (normal : Bool) : Comparison → Text
  | .equal => if normal then [' ', '=', '=', ' '] else [' ', '=', ' ']
  | .unequal => [' ', '!', '=', ' ']
  | .less => [' ', '<', ' ']
  | .greater => [' ', '>', ' ']
  | .atMost => [' ', '<', '=', ' ']
  | .atLeast => [' ', '>', '=', ' ']

/-- A boolean word with the white space around it. -/
def wordText (normal : Bool) (word : Operator.BooleanWord) : Text :=
  if normal then [' ', ' '] ++ word.render ++ [' ', ' '] else [' '] ++ word.render ++ [' ']

def constantText : Bool → Text
  | true => ['t', 'r', 'u', 'e', '(', ')']
  | false => ['f', 'a', 'l', 's', 'e', '(', ')']

def callText (name : Text) (arguments : List Text) : Text :=
  name ++ '(' :: [',', ' '].intercalate arguments ++ [')']

namespace Style

/-- The source grammar. -/
def source : Style where
  reference := id
  literal := id
  selected := fun token l => callText RuleSet.selectedName [token, l.render]
  normal := false

def operand (s : Style) : Operand → Text
  | .reference token => s.reference token.text
  | .numeral n => n.render
  | .literal l => (s.literal l.1).render

end Style

namespace Expression

/-- An expression in the style `outer`, the arguments of logical functions in the style `inner`. -/
def write (inner outer : Style) : Expression → Text
  | operand o => outer.operand o
  | comparison left sign right =>
    outer.operand left ++ (signText outer.normal sign ++ outer.operand right)
  | selected field value => outer.selected field.text value.1
  | negation e => callText RuleSet.negationName [e.write inner inner]
  | choice test whenTrue whenFalse =>
    callText RuleSet.choiceName
      [test.write inner inner, whenTrue.write inner inner, whenFalse.write inner inner]
  | group e => ['('] ++ (e.write inner outer ++ [')'])
  | boolean word left right =>
    left.write inner outer ++ (wordText outer.normal word ++ right.write inner outer)
  | constant value => constantText value

/-- An expression as it is written in a form. -/
def print (e : Expression) : Text := e.write .source .source

/-- How deep calls are nested in an expression. -/
def height : Expression → Nat
  | operand _ => 0
  | comparison .. => 0
  | selected .. => 1
  | negation e => e.height + 1
  | choice test whenTrue whenFalse =>
    max test.height (max whenTrue.height whenFalse.height) + 1
  | group e => e.height
  | boolean _ left right => max left.height right.height
  | constant _ => 0

end Expression

/-- The reference tokens of an operand. -/
def Operand.tokens : Operand → List Text
  | reference token => [token.text]
  | _ => []

/-- The reference tokens of an expression. -/
def Expression.tokens : Expression → List Text
  | operand o => o.tokens
  | comparison left _ right => left.tokens ++ right.tokens
  | selected field _ => [field.text]
  | negation e => e.tokens
  | choice test whenTrue whenFalse => test.tokens ++ (whenTrue.tokens ++ whenFalse.tokens)
  | group e => e.tokens
  | boolean _ left right => left.tokens ++ right.tokens
  | constant _ => []

/-- The calls in the expression are nested less than `height` deep, and its references are known. -/
structure Expression.Fits (known : Text → Prop) (height : Nat) (e : Expression) : Prop where
  height : e.height < height
  known : ∀ token ∈ e.tokens, known token

/-- A name of letters and digits that is no boolean word. -/
structure IsIdentifier (name : Text) : Prop where
  head : name.head?.any Char.isAlpha = true
  all : ∀ c ∈ name, c.isAlphanum = true
  noWord : ∀ word : Operator.BooleanWord, name ≠ word.render

instance (name : Text) : Decidable (IsIdentifier name) :=
  decidable_of_iff (name.head?.any Char.isAlpha = true ∧ (∀ c ∈ name, c.isAlphanum = true) ∧
      name ≠ Operator.BooleanWord.conjunction.render ∧
      name ≠ Operator.BooleanWord.disjunction.render)
    ⟨fun ⟨head, all, noAnd, noOr⟩ => ⟨head, all, fun word => word.casesOn noAnd noOr⟩,
      fun identifier => ⟨identifier.head, identifier.all, identifier.noWord _, identifier.noWord _⟩⟩

/-- The logical functions. -/
def IsLogical (name : Text) : Prop := name = RuleSet.negationName ∨ name = RuleSet.choiceName

/-- A text that may stand behind an expression: no name, path or group goes on there. -/
structure Stops (t : Text) : Prop where
  head : t.head?.all (fun c => c == ' ' || c == ')' || c == ',') = true
  group : Piece.openedGroup? t = none

/-- A text that an expression begins. -/
structure Starts (t : Text) : Prop where
  visible : t.head?.any isSpace = false
  noWord : Operator.booleanWord? none t = none

section Stops

theorem stops_nil : Stops [] := ⟨rfl, rfl⟩

theorem stops_closing (t : Text) : Stops (')' :: t) := ⟨rfl, rfl⟩

theorem stops_comma (t : Text) : Stops (',' :: t) := ⟨rfl, rfl⟩

theorem stops_sign (normal : Bool) (sign : Comparison) (t : Text) :
    Stops (signText normal sign ++ t) := by
  cases sign <;> cases normal <;> exact ⟨rfl, rfl⟩

theorem stops_word (normal : Bool) (word : Operator.BooleanWord) (t : Text) :
    Stops (wordText normal word ++ t) := by
  cases word <;> cases normal <;> exact ⟨rfl, rfl⟩

/-- What a text that stops begins with, if it is not empty. -/
theorem Stops.cases {t : Text} (stops : Stops t) :
    t = [] ∨ ∃ c rest, t = c :: rest ∧ (c = ' ' ∨ c = ')' ∨ c = ',') := by
  have head := stops.head
  cases t with
  | nil => exact Or.inl rfl
  | cons c rest =>
    simp only [List.head?_cons, Option.all_some, Bool.or_eq_true, beq_iff_eq, or_assoc] at head
    exact Or.inr ⟨c, rest, rfl, head⟩

/-- What a text that stops does not begin with. -/
theorem Stops.head_of {t : Text} (stops : Stops t) {p : Char → Bool}
    (table : ∀ c ∈ [' ', ')', ','], p c = false) : t.head?.any p = false := by
  rcases stops.cases with rfl | ⟨c, rest, rfl, rfl | rfl | rfl⟩
  · rfl
  · exact table ' ' (by simp)
  · exact table ')' (by simp)
  · exact table ',' (by simp)

end Stops

/-- Leaves in the style begin an expression. -/
structure Style.Begins (s : Style) (known : Text → Prop) : Prop where
  reference (token : Token) {t : Text} : known token.text → Stops t →
    Starts (s.reference token.text ++ t)
  selected (field : Token) (value : ProperLiteral) {t : Text} : known field.text →
    Starts (s.selected field.text value.1 ++ t)
  proper (l : Literal) : l.Proper → (s.literal l).Proper

section Starts

variable {known : Text → Prop} {inner s : Style}

theorem starts_of_head {c : Char} {t : Text} (visible : isSpace c = false) (notA : c ≠ 'a')
    (notO : c ≠ 'o') : Starts (c :: t) :=
  ⟨visible, Operator.Token.booleanWord?_eq_none notA notO t⟩

theorem starts_call {name : Text} (logical : IsLogical name) (t : Text) : Starts (name ++ t) := by
  rcases logical with rfl | rfl
  · exact starts_of_head (by decide) (by decide) (by decide)
  · exact starts_of_head (by decide) (by decide) (by decide)

theorem Numeral.head (n : Numeral) (t : Text) :
    ∃ c rest, n.render ++ t = c :: rest ∧ c.isDigit = true := by
  obtain ⟨digits, fraction, nonempty, all, _⟩ := n
  cases digits with
  | nil => exact absurd rfl nonempty
  | cons c rest => exact ⟨c, _, rfl, all c List.mem_cons_self⟩

theorem Style.Begins.operand (begins : s.Begins known) (o : Operand)
    (allKnown : ∀ token ∈ o.tokens, known token) {t : Text} (stops : Stops t) :
    Starts (s.operand o ++ t) := by
  cases o with
  | reference token => exact begins.reference token (allKnown _ List.mem_cons_self) stops
  | numeral n =>
    obtain ⟨c, rest, whole, digit⟩ := n.head t
    rw [Style.operand, whole]
    exact starts_of_head (not_isSpace_of_class digit (by decide)) (ne_of_class digit (by decide))
      (ne_of_class digit (by decide))
  | literal l =>
    have quote := (begins.proper l.1 l.2).quote_isQuote
    rw [Style.operand, Literal.cons_quote_append]
    exact starts_of_head (of_isQuote quote (by decide)) (ne_of_class quote (by decide))
      (ne_of_class quote (by decide))

theorem starts_write (begins : s.Begins known) (e : Expression)
    (allKnown : ∀ token ∈ e.tokens, known token) {t : Text} (stops : Stops t) :
    Starts (e.write inner s ++ t) := by
  induction e generalizing t with
  | operand o => exact begins.operand o allKnown stops
  | comparison left sign right =>
    rw [Expression.write, List.append_assoc, List.append_assoc]
    exact begins.operand left (fun token member => allKnown token (List.mem_append_left _ member))
      (stops_sign s.normal sign _)
  | selected field value => exact begins.selected field value (allKnown _ List.mem_cons_self)
  | negation e ih =>
    rw [Expression.write, callText, List.append_assoc, List.append_assoc]
    exact starts_call (Or.inl rfl) _
  | choice test whenTrue whenFalse _ _ _ =>
    rw [Expression.write, callText, List.append_assoc, List.append_assoc]
    exact starts_call (Or.inr rfl) _
  | group e ih => exact starts_of_head (by decide) (by decide) (by decide)
  | boolean word left right ihLeft ihRight =>
    rw [Expression.write, List.append_assoc, List.append_assoc]
    exact ihLeft (fun token member => allKnown token (List.mem_append_left _ member))
      (stops_word s.normal word _)
  | constant value =>
    cases value <;> exact starts_of_head (by decide) (by decide) (by decide)

end Starts

/-- The relation `R u u' t`, that a pass makes `u'` of a text `u` before `t`, holds of the words and
signs of an expression and of leaves that are no references. -/
structure Pass (R : Text → Text → Text → Prop) (requoted : Literal → Literal)
    (spelled : Bool → Bool) : Prop where
  append {u u' w w' t : Text} : R u u' (w ++ t) → R w w' t → R (u ++ w) (u' ++ w') t
  identifier {name t : Text} : IsIdentifier name → Stops t → R name name t
  numeral (n : Numeral) {t : Text} : Stops t → R n.render n.render t
  literal {l : Literal} {t : Text} : l.Proper → Stops t → R l.render (requoted l).render t
  sign (normal : Bool) (sign : Comparison) {t : Text} : Starts t →
    R (signText normal sign) (signText (spelled normal) sign) t
  word (normal : Bool) (word : Operator.BooleanWord) {t : Text} : Starts t →
    R (wordText normal word) (wordText (spelled normal) word) t
  space {t : Text} : Starts t → R [' '] [' '] t
  opening (t : Text) : R ['('] ['('] t
  closing {t : Text} : Stops t → R [')'] [')'] t
  constant (value : Bool) {t : Text} : Stops t → R (constantText value) (constantText value) t

/-- The pass takes the leaves of an expression from one style to another. -/
structure Carries (R : Text → Text → Text → Prop) (requoted : Literal → Literal)
    (spelled : Bool → Bool) (known : Text → Prop) (height : Nat) (s s' : Style) : Prop where
  begins : s.Begins known
  literal (l : Literal) : s'.literal l = requoted (s.literal l)
  normal : s'.normal = spelled s.normal
  reference (token : Token) {t : Text} : known token.text → Stops t →
    R (s.reference token.text) (s'.reference token.text) t
  selected (field : Token) (value : ProperLiteral) {t : Text} : known field.text → 0 < height →
    Stops t → R (s.selected field.text value.1) (s'.selected field.text value.1) t

/-- The pass leaves the words of a call of a logical function alone. -/
structure Spells (R : Text → Text → Text → Prop) : Prop where
  name {name : Text} : IsLogical name → ∀ t, R (name ++ ['(']) (name ++ ['(']) t
  comma (t : Text) : R [','] [','] (' ' :: t)

section Pass

variable {R : Text → Text → Text → Prop} {requoted : Literal → Literal} {spelled : Bool → Bool}
  {known : Text → Prop} {height : Nat} {s s' inner inner' : Style}

theorem Pass.operand (pass : Pass R requoted spelled)
    (carries : Carries R requoted spelled known height s s') (o : Operand)
    (allKnown : ∀ token ∈ o.tokens, known token) {t : Text} (stops : Stops t) :
    R (s.operand o) (s'.operand o) t := by
  cases o with
  | reference token => exact carries.reference token (allKnown _ List.mem_cons_self) stops
  | numeral n => exact pass.numeral n stops
  | literal l =>
    rw [Style.operand, Style.operand, carries.literal]
    exact pass.literal (carries.begins.proper l.1 l.2) stops

/-- A pass takes an expression from one style to another, if it does so with the calls of logical
functions. -/
theorem Pass.write (pass : Pass R requoted spelled)
    (carries : Carries R requoted spelled known height s s')
    (calls : ∀ name, IsLogical name → ∀ arguments : List Expression, arguments ≠ [] →
      (∀ a ∈ arguments, a.Fits known height) → ∀ t, Stops t →
      R (callText name (arguments.map (Expression.write inner inner)))
        (callText name (arguments.map (Expression.write inner' inner'))) t)
    {e : Expression} (fits : e.Fits known (height + 1)) {t : Text} (stops : Stops t) :
    R (e.write inner s) (e.write inner' s') t := by
  induction e generalizing t with
  | operand o => exact pass.operand carries o fits.known stops
  | comparison left sign right =>
    have first := fun token member => fits.known token (List.mem_append_left _ member)
    have second := fun token member => fits.known token (List.mem_append_right _ member)
    rw [Expression.write, Expression.write, carries.normal]
    refine pass.append (pass.operand carries left first ?_)
      (pass.append (pass.sign s.normal sign ?_) (pass.operand carries right second stops))
    · rw [List.append_assoc]
      exact stops_sign s.normal sign _
    · exact carries.begins.operand right second stops
  | selected field value =>
    exact carries.selected field value (fits.known _ List.mem_cons_self)
      (Nat.lt_of_succ_lt_succ fits.height) stops
  | negation e ih =>
    refine calls _ (Or.inl rfl) [e] (List.cons_ne_nil e []) (fun a member => ?_) t stops
    rw [List.mem_singleton.1 member]
    exact ⟨Nat.lt_of_succ_lt_succ fits.height, fits.known⟩
  | choice test whenTrue whenFalse _ _ _ =>
    have below := fits.height
    have allKnown := fits.known
    simp only [Expression.height, Expression.tokens, List.mem_append] at below allKnown
    refine calls _ (Or.inr rfl) [test, whenTrue, whenFalse] (List.cons_ne_nil test _)
      (fun a member => ?_) t stops
    simp only [List.mem_cons, List.not_mem_nil, or_false] at member
    rcases member with rfl | rfl | rfl
    · exact ⟨by omega, fun token member => allKnown token (Or.inl member)⟩
    · exact ⟨by omega, fun token member => allKnown token (Or.inr (Or.inl member))⟩
    · exact ⟨by omega, fun token member => allKnown token (Or.inr (Or.inr member))⟩
  | group e ih =>
    exact pass.append (pass.opening _) (pass.append
      (ih ⟨fits.height, fits.known⟩ (stops_closing t)) (pass.closing stops))
  | boolean word left right ihLeft ihRight =>
    have below := fits.height
    simp only [Expression.height] at below
    have second := fun token member => fits.known token (List.mem_append_right _ member)
    rw [Expression.write, Expression.write, carries.normal]
    refine pass.append (ihLeft ⟨by omega, fun token member =>
        fits.known token (List.mem_append_left _ member)⟩ ?_)
      (pass.append (pass.word s.normal word ?_) (ihRight ⟨by omega, second⟩ stops))
    · rw [List.append_assoc]
      exact stops_word s.normal word _
    · exact starts_write carries.begins right second stops
  | constant value => exact pass.constant value stops

theorem Pass.arguments (pass : Pass R requoted spelled) (spells : Spells R)
    (begins : s.Begins known) {arguments : List Expression} (nonempty : arguments ≠ [])
    (each : ∀ a ∈ arguments, (∀ token ∈ a.tokens, known token) ∧
      ∀ t, Stops t → R (a.write s s) (a.write s s) t) (t : Text) :
    R ([',', ' '].intercalate (arguments.map (Expression.write s s)))
      ([',', ' '].intercalate (arguments.map (Expression.write s s))) (')' :: t) := by
  match arguments with
  | [] => exact absurd rfl nonempty
  | [a] =>
    simp only [List.map_cons, List.map_nil, List.intercalate_singleton]
    exact (each a List.mem_cons_self).2 _ (stops_closing t)
  | a :: b :: rest =>
    have later := pass.arguments spells begins (List.cons_ne_nil b rest)
      (fun c member => each c (List.mem_cons_of_mem a member)) t
    have second := (each b (List.mem_cons_of_mem a List.mem_cons_self)).1
    have starts : Starts ([',', ' '].intercalate ((b :: rest).map (Expression.write s s)) ++
        ')' :: t) := by
      cases rest with
      | nil =>
        simp only [List.map_cons, List.map_nil, List.intercalate_singleton]
        exact starts_write begins b second (stops_closing t)
      | cons c more =>
        simp only [List.map_cons, List.intercalate_cons_cons, List.append_assoc]
        exact starts_write begins b second (stops_comma _)
    have cut : [',', ' '].intercalate ((a :: b :: rest).map (Expression.write s s)) =
        a.write s s ++ ([','] ++ ([' '] ++
          [',', ' '].intercalate ((b :: rest).map (Expression.write s s)))) := by
      simp only [List.map_cons, List.intercalate_cons_cons, List.append_assoc]
      rfl
    rw [cut]
    exact pass.append ((each a List.mem_cons_self).2 _ (stops_comma _))
      (pass.append (spells.comma _) (pass.append (pass.space starts) later))

/-- A pass that leaves the arguments of a call alone leaves the call alone. -/
theorem Pass.call (pass : Pass R requoted spelled) (spells : Spells R) (begins : s.Begins known)
    {name : Text} (logical : IsLogical name) {arguments : List Expression}
    (nonempty : arguments ≠ [])
    (each : ∀ a ∈ arguments, (∀ token ∈ a.tokens, known token) ∧
      ∀ t, Stops t → R (a.write s s) (a.write s s) t) {t : Text} (stops : Stops t) :
    R (callText name (arguments.map (Expression.write s s)))
      (callText name (arguments.map (Expression.write s s))) t := by
  have whole (texts : List Text) : callText name texts =
      (name ++ ['(']) ++ ([',', ' '].intercalate texts ++ [')']) := by simp [callText]
  rw [whole]
  exact pass.append (spells.name logical _)
    (pass.append (pass.arguments spells begins nonempty each t) (pass.closing stops))

/-- A pass that takes a style to itself leaves expressions in that style alone. -/
theorem Pass.fixed (pass : Pass R requoted spelled) (spells : Spells R)
    (carries : ∀ height, Carries R requoted spelled known height s s) (height : Nat)
    {e : Expression} (fits : e.Fits known height) {t : Text} (stops : Stops t) :
    R (e.write s s) (e.write s s) t := by
  induction height generalizing e t with
  | zero => exact absurd fits.height (Nat.not_lt_zero _)
  | succ height ih =>
    refine pass.write (carries height) (fun name logical arguments nonempty fit t stops => ?_) fits
      stops
    exact pass.call spells (carries height).begins logical nonempty
      (fun a member => ⟨(fit a member).known, fun t => ih (fit a member)⟩) stops

/-- A pass takes an expression from one style to another, if it leaves the style in which the
arguments of logical functions are written alone. -/
theorem Pass.outer (pass : Pass R requoted spelled) (spells : Spells R)
    (fixes : ∀ height, Carries R requoted spelled known height inner inner)
    (carries : Carries R requoted spelled known height s s')
    {e : Expression} (fits : e.Fits known (height + 1)) {t : Text} (stops : Stops t) :
    R (e.write inner s) (e.write inner s') t := by
  refine pass.write carries (fun name logical arguments nonempty fit t stops => ?_) fits stops
  exact pass.call spells (fixes height).begins logical nonempty
    (fun a member => ⟨(fit a member).known, fun t => pass.fixed spells fixes height (fit a member)⟩)
    stops

end Pass

end FormLogic.Grammar
