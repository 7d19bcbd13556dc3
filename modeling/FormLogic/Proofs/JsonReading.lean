import FormLogic.Json.Reader
import FormLogic.Proofs.Allocation

/-!
What is written as JSON is read back. A character that is written within a string, by an escape or
as it stands, is read as that character; a numeral is read as its number where neither a digit nor a
fraction or an exponent follows; and a value of texts and natural numbers is read back whole from the
front of a text, whatever follows its comma, bracket or brace.
-/
namespace FormLogic.Json

open Text

section Lists

variable {α β : Type} {xs : List α}

theorem mapM_congr {f g : α → Option β} (same : ∀ x ∈ xs, f x = g x) : xs.mapM f = xs.mapM g := by
  induction xs with
  | nil => rfl
  | cons x xs ih =>
    rw [List.mapM_cons, List.mapM_cons, same x (.head _),
      ih fun y member => same y (.tail _ member)]

/-- What is read back one by one is read back as a list. -/
theorem mapM_map_of_read {write : α → β} {read : β → Option α}
    (back : ∀ x ∈ xs, read (write x) = some x) : (xs.map write).mapM read = some xs := by
  have each : xs.mapM (read ∘ write) = xs.mapM (fun x => pure (id x)) := mapM_congr back
  rw [List.mapM_map, each, List.mapM_pure, List.map_id]
  rfl

end Lists

/-! ### Strings -/

theorem hexValue?_hexDigit : ∀ {n : Nat}, n < 16 → hexValue? (hexDigit n) = some n := by
  decide

/-- Four hexadecimal digits are read as the number they were written for. -/
theorem hexNumber?_hexEscape {n : Nat} (below : n < 0x10000) (rest : Text) :
    hexNumber? ((hexEscape n).drop 2 ++ rest) = some (n, rest) := by
  have digit (k : Nat) : hexValue? (hexDigit (k % 16)) = some (k % 16) :=
    hexValue?_hexDigit (Nat.mod_lt k (by omega))
  have whole : ((n / 4096 % 16 * 16 + n / 256 % 16) * 16 + n / 16 % 16) * 16 + n % 16 = n := by
    omega
  simp [hexEscape, hexNumber?, digit, whole]

/-- A number below both halves of the surrogate pairs is the number of a character. -/
theorem codeUnit_of_lt {n : Nat} (below : n < 0xd800) (after : Text) :
    codeUnit n after = (.char (Char.ofNat n), after) := by
  have high : isHighHalf n = false := by simp [isHighHalf]; omega
  have low : isLowHalf n = false := by simp [isLowHalf]; omega
  simp [codeUnit, high, low]

/-- A character that needs no escape stands for itself. -/
theorem stringUnit?_of_plain {c : Char} {rest : Text} (other : c ≠ '\\')
    (visible : ¬c.toNat < 0x20) : stringUnit? (c :: rest) = some (.char c, rest) := by
  unfold stringUnit?
  split
  · next eq => exact absurd (List.cons.inj eq).1 other
  · next eq => exact absurd (List.cons.inj eq).1 other
  · next eq =>
    cases eq
    rw [if_neg (by simp [other, visible])]
  · next eq => cases eq

/-- A written character is read back. -/
theorem stringUnit?_escape (c : Char) (rest : Text) :
    stringUnit? (escape c ++ rest) = some (.char c, rest) := by
  unfold escape
  split_ifs with quote slash back feed line carriage tab control
  · subst quote; rfl
  · subst slash; rfl
  · subst back; rfl
  · subst feed; rfl
  · subst line; rfl
  · subst carriage; rfl
  · subst tab; rfl
  · have below : c.toNat < 0x10000 := by omega
    have read := hexNumber?_hexEscape below rest
    rw [hexEscape] at read ⊢
    simp only [List.cons_append, List.drop_succ_cons, List.drop_zero] at read
    simp only [List.cons_append, stringUnit?, read, Option.map_some]
    rw [codeUnit_of_lt (by omega), Char.ofNat_toNat]
  · exact stringUnit?_of_plain slash control

theorem head?_escape (c : Char) : (escape c).head? ≠ some '"' ∧ escape c ≠ [] := by
  unfold escape
  split_ifs with quote <;> simp [hexEscape, *]

theorem stringUnits?_quote (rest : Text) : stringUnits? ('"' :: rest) = some ([], rest) := by
  rw [stringUnits?]
  rfl

/-- A unit that is read at the front of a string's text is the first of the string. -/
theorem stringUnits?_of_unit {t after : Text} {u : StringUnit} (inside : t.head? ≠ some '"')
    (read : stringUnit? t = some (u, after)) :
    stringUnits? t = (stringUnits? after).map fun (us, rest) => (u :: us, rest) := by
  rw [stringUnits?, if_neg inside]
  split
  · next found =>
    rw [read] at found
    cases found
    rfl
  · next found =>
    rw [read] at found
    cases found

/-- A written text is read back up to its closing quote. -/
theorem stringUnits?_units (t rest : Text) :
    stringUnits? ((units t).flatMap StringUnit.render ++ '"' :: rest) = some (units t, rest) := by
  induction t with
  | nil => exact stringUnits?_quote rest
  | cons c t ih =>
    obtain ⟨inside, nonempty⟩ := head?_escape c
    have front : (units (c :: t)).flatMap StringUnit.render ++ '"' :: rest =
        escape c ++ ((units t).flatMap StringUnit.render ++ '"' :: rest) := by
      simp [units, StringUnit.render]
    have head : (escape c ++ ((units t).flatMap StringUnit.render ++ '"' :: rest)).head? ≠
        some '"' := by
      rwa [List.head?_append_of_ne_nil _ nonempty]
    rw [front, stringUnits?_of_unit head (stringUnit?_escape c _), ih]
    rfl

theorem contents?_units (t : Text) : contents? (units t) = some t :=
  mapM_map_of_read fun _ _ => rfl

/-! ### Numbers -/

/-- What may follow a value: nothing, or what separates it from the next value or closes what it
stands in. -/
def Ends (rest : Text) : Prop := ∀ c, rest.head? = some c → c = ',' ∨ c = ']' ∨ c = '}'

theorem ends_nil : Ends [] := fun _ head => by cases head

theorem ends_cons {c : Char} (closes : c = ',' ∨ c = ']' ∨ c = '}') (rest : Text) :
    Ends (c :: rest) := fun d head => by
  cases head
  exact closes

theorem ofDigits_ofNat (n : Nat) : ofDigits (Text.ofNat n) = n := by
  have value : Nat.ofDigitChars 10 (Text.ofNat n) 0 = n := Nat.ofDigitChars_ten_toDigits
  rw [Nat.ofDigitChars_eq_foldl] at value
  exact value

/-- A numeral has no leading zero. -/
theorem head?_ofNat {n : Nat} (positive : 0 < n) : (Text.ofNat n).head? ≠ some '0' := by
  have digit : ∀ m : Fin 10, 0 < m.val → m.val.digitChar ≠ '0' := by decide
  induction n using Nat.strongRecOn with
  | ind n ih =>
    rw [Text.ofNat, Nat.toDigits_eq_if (by omega)]
    split
    · next small =>
      rw [List.head?_cons, Ne, Option.some.injEq]
      exact digit ⟨n, small⟩ positive
    · next large =>
      rw [List.head?_append_of_ne_nil _ Nat.toDigits_ne_nil]
      exact ih (n / 10) (by omega) (by omega)

theorem wholePart?_ofNat (n : Nat) {rest : Text} (ends : Ends rest) :
    wholePart? (Text.ofNat n ++ rest) = some (Text.ofNat n, rest) := by
  have digits : ∀ c ∈ Text.ofNat n, c.isDigit = true := fun _ => isDigit_of_mem_ofNat
  have stops : ∀ c, rest.head? = some c → c.isDigit = false := fun c head => by
    rcases ends c head with rfl | rfl | rfl <;> rfl
  have run : rest.takeWhile Char.isDigit = [] ∧ rest.dropWhile Char.isDigit = rest := by
    cases rest with
    | nil => exact ⟨rfl, rfl⟩
    | cons c rest => simp [stops c rfl]
  have read : digits? (Text.ofNat n ++ rest) = some (Text.ofNat n, rest) := by
    rw [digits?, List.takeWhile_append_of_pos digits, List.dropWhile_append_of_pos digits, run.1,
      run.2, List.append_nil]
    exact if_neg Nat.toDigits_ne_nil
  have leading : ¬((Text.ofNat n).head? = some '0' ∧ (Text.ofNat n).tail ≠ []) := by
    rintro ⟨zero, more⟩
    rcases Nat.eq_zero_or_pos n with rfl | positive
    · exact more rfl
    · exact head?_ofNat positive zero
  simp only [wholePart?, read, if_neg leading]

/-- A numeral is read as its number. -/
theorem unsigned?_ofNat (n : Nat) {rest : Text} (ends : Ends rest) :
    unsigned? (Text.ofNat n ++ rest) = some (.natural n, rest) := by
  have fraction : fraction? rest = some ([], rest) := by
    unfold fraction?
    split
    · rcases ends _ rfl with same | same | same <;> cases same
    · rfl
  have exponent : exponent? rest = some ([], rest) := by
    unfold exponent?
    split
    · next c rest =>
      rw [if_neg]
      rintro (rfl | rfl) <;> rcases ends _ rfl with same | same | same <;> cases same
    · rfl
  simp [unsigned?, wholePart?_ofNat n ends, fraction, exponent, ofDigits_ofNat]

/-! ### Values -/

/-- Values made of texts and natural numbers, whose keys are texts. -/
inductive Textual : Json → Prop
  | null : Textual null
  | bool (b : Bool) : Textual (bool b)
  | nat (n : Nat) : Textual (ofNat n)
  | text (t : Text) : Textual (ofText t)
  | array {items : List Json} (all : ∀ j ∈ items, Textual j) : Textual (array items)
  | fields {fields : List (Text × Json)} (all : ∀ field ∈ fields, Textual field.2) :
    Textual (ofFields fields)

theorem ofNat_eq_cons (n : Nat) : ∃ c t, Text.ofNat n = c :: t ∧ c.isDigit = true := by
  obtain ⟨c, t, whole⟩ := List.exists_cons_of_ne_nil (Nat.toDigits_ne_nil (n := n) (b := 10))
  exact ⟨c, t, whole, isDigit_of_mem_ofNat (n := n) (by rw [Text.ofNat, whole]; exact .head _)⟩

theorem ne_of_isDigit {c d : Char} (digit : c.isDigit = true) (other : d.isDigit = false) :
    c ≠ d := by
  rintro rfl
  rw [digit] at other
  cases other

/-- A written value begins neither with white space nor as an array ends. -/
theorem Textual.render_eq_cons {j : Json} (textual : Textual j) :
    ∃ c t, j.render = c :: t ∧ isJsonSpace c = false ∧ c ≠ ']' := by
  cases textual with
  | null => exact ⟨'n', "ull".toList, rfl, rfl, by decide⟩
  | bool b =>
    cases b with
    | false => exact ⟨'f', "alse".toList, rfl, rfl, by decide⟩
    | true => exact ⟨'t', "rue".toList, rfl, rfl, by decide⟩
  | nat n =>
    obtain ⟨c, t, whole, digit⟩ := ofNat_eq_cons n
    refine ⟨c, t, whole, ?_, ne_of_isDigit digit rfl⟩
    simp [isJsonSpace, ne_of_isDigit digit]
  | text t => exact ⟨'"', _, rfl, rfl, by decide⟩
  | @array items _ => cases items <;> exact ⟨'[', _, rfl, rfl, by decide⟩
  | @fields fields _ => cases fields <;> exact ⟨'\x7b', _, rfl, rfl, by decide⟩

theorem skipSpace_cons {c : Char} (visible : isJsonSpace c = false) (t : Text) :
    skipSpace (c :: t) = c :: t := by
  simp [skipSpace, visible]

theorem Textual.skipSpace_render {j : Json} (textual : Textual j) (rest : Text) :
    skipSpace (j.render ++ rest) = j.render ++ rest := by
  obtain ⟨c, t, whole, visible, -⟩ := textual.render_eq_cons
  rw [whole, List.cons_append, skipSpace_cons visible]

/-- The value is read from the front of every text that it ends in, with as many steps as it has
characters. -/
def Reads (j : Json) : Prop :=
  ∀ fuel rest, j.render.length ≤ fuel → Ends rest → value? fuel (j.render ++ rest) = some (j, rest)

/-- A value without parts is read in one step. -/
theorem reads_of_plain {j : Json} (textual : Textual j)
    (read : ∀ rest, Ends rest → plainValue? (j.render ++ rest) = some (j, rest))
    (plain : ∀ c, j.render.head? = some c → c ≠ '"' ∧ c ≠ '[' ∧ c ≠ '\x7b') : Reads j := by
  intro fuel rest enough ends
  obtain ⟨c, t, whole, -, -⟩ := textual.render_eq_cons
  obtain ⟨quote, bracket, brace⟩ := plain c (by rw [whole]; rfl)
  cases fuel with
  | zero => simp [whole] at enough
  | succ fuel =>
    rw [value?, textual.skipSpace_render]
    split
    · next eq => simp_all
    · next eq => simp_all
    · next eq => simp_all
    · exact read rest ends

theorem plainValue?_ofNat (n : Nat) {rest : Text} (ends : Ends rest) :
    plainValue? (Text.ofNat n ++ rest) = some (ofNat n, rest) := by
  have read := unsigned?_ofNat n ends
  obtain ⟨c, t, whole, digit⟩ := ofNat_eq_cons n
  have other (d : Char) (noDigit : d.isDigit = false) : d ≠ c := (ne_of_isDigit digit noDigit).symm
  have signless : number? (Text.ofNat n ++ rest) = unsigned? (Text.ofNat n ++ rest) := by
    rw [whole, List.cons_append, number?]
    exact fun _ same => other '-' rfl (List.cons.inj same).1.symm
  have word (d : Char) (s : Text) (noDigit : d.isDigit = false) :
      behind? (d :: s) (Text.ofNat n ++ rest) = none := by
    rw [whole, List.cons_append, behind?, if_neg (other d noDigit)]
  unfold plainValue?
  rw [show "null".toList = 'n' :: "ull".toList from rfl,
    show "true".toList = 't' :: "rue".toList from rfl,
    show "false".toList = 'f' :: "alse".toList from rfl, word 'n' _ rfl, word 't' _ rfl,
    word 'f' _ rfl, signless, read]
  rfl

theorem reads_text (t : Text) : Reads (ofText t) := by
  intro fuel rest enough _
  have whole : (ofText t).render ++ rest =
      '"' :: ((units t).flatMap StringUnit.render ++ '"' :: rest) := by
    simp [ofText, render, renderString]
  cases fuel with
  | zero => simp [ofText, render, renderString] at enough
  | succ fuel =>
    rw [value?, whole, skipSpace_cons rfl]
    simp only [stringUnits?_units, Option.map_some]
    rfl

section Parts

variable {fuel : Nat} {t after : Text} {j : Json}

theorem items?_last (read : value? fuel t = some (j, ']' :: after)) :
    items? (fuel + 1) t = some ([j], after) := by
  simp only [items?, read, Option.bind_eq_bind, Option.bind_some]
  rfl

theorem items?_more (read : value? fuel t = some (j, ',' :: after)) :
    items? (fuel + 1) t = (items? fuel after).map fun (items, rest) => (j :: items, rest) := by
  simp only [items?, read, Option.bind_eq_bind, Option.bind_some, skipSpace_cons (c := ',') rfl]
  cases items? fuel after <;> rfl

/-- A key, its colon and the value behind it are read before the next comma or the closing brace. -/
theorem fields?_eq (key : Text) {next : Char} (mark : next = '\x7d' ∨ next = ',')
    (read : value? fuel t = some (j, next :: after)) :
    fields? (fuel + 1) (renderString (units key) ++ ':' :: t) =
      if next = '\x7d' then some ([(units key, j)], after)
      else (fields? fuel after).map fun (fields, rest) => ((units key, j) :: fields, rest) := by
  have opening : opened? '"' (renderString (units key) ++ ':' :: t) =
      some ((units key).flatMap StringUnit.render ++ '"' :: ':' :: t) := by
    simp [opened?, renderString, skipSpace_cons (c := '"') rfl]
  have colon : opened? ':' (':' :: t) = some t := by simp [opened?, skipSpace_cons (c := ':') rfl]
  simp only [fields?, opening, stringUnits?_units, colon, read, Option.bind_eq_bind,
    Option.bind_some]
  rcases mark with rfl | rfl
  · rfl
  · simp only [skipSpace_cons (c := ',') rfl]
    cases fields? fuel after <;> rfl

end Parts

/-- The items of an array are read one after the other, up to the closing bracket. -/
theorem items?_render {first : Json} {others : List Json} (all : ∀ j ∈ first :: others, Reads j)
    {fuel : Nat} (enough : (first.render ++ renderItems others).length < fuel) (rest : Text) :
    items? fuel (first.render ++ renderItems others ++ ']' :: rest) =
      some (first :: others, rest) := by
  induction others generalizing first fuel with
  | nil =>
    obtain ⟨fuel, rfl⟩ := Nat.exists_eq_succ_of_ne_zero (Nat.ne_zero_of_lt enough)
    rw [renderItems, List.append_nil] at enough ⊢
    exact items?_last (all first (.head _) fuel _ (by omega) (ends_cons (by simp) rest))
  | cons second others ih =>
    obtain ⟨fuel, rfl⟩ := Nat.exists_eq_succ_of_ne_zero (Nat.ne_zero_of_lt enough)
    simp only [renderItems, List.length_append, List.length_cons] at enough
    have whole : first.render ++ renderItems (second :: others) ++ ']' :: rest =
        first.render ++ ',' :: (second.render ++ renderItems others ++ ']' :: rest) := by
      simp [renderItems]
    have later : items? fuel (second.render ++ renderItems others ++ ']' :: rest) =
        some (second :: others, rest) :=
      ih (fun j member => all j (.tail _ member)) (by rw [List.length_append]; omega)
    rw [whole, items?_more (all first (.head _) fuel _ (by omega) (ends_cons (by simp) _)), later]
    rfl

/-- The fields of an object with keys that are texts. -/
def keyed (fields : List (Text × Json)) : List (List StringUnit × Json) :=
  fields.map fun (key, value) => (units key, value)

/-- The fields of an object are read one after the other, up to the closing brace. -/
theorem fields?_render {key : Text} {value : Json} {others : List (Text × Json)}
    (all : ∀ field ∈ (key, value) :: others, Reads field.2) {fuel : Nat}
    (enough : (renderString (units key) ++ ':' :: value.render ++
      renderFields (keyed others)).length < fuel) (rest : Text) :
    fields? fuel (renderString (units key) ++ ':' :: value.render ++ renderFields (keyed others) ++
      '\x7d' :: rest) = some (keyed ((key, value) :: others), rest) := by
  induction others generalizing key value fuel with
  | nil =>
    obtain ⟨fuel, rfl⟩ := Nat.exists_eq_succ_of_ne_zero (Nat.ne_zero_of_lt enough)
    simp only [keyed, List.map_nil, renderFields, List.append_nil, List.length_append,
      List.length_cons] at enough ⊢
    rw [List.append_assoc, List.cons_append]
    exact fields?_eq key (.inl rfl)
      (all (key, value) (.head _) fuel _ (by dsimp only; omega) (ends_cons (by simp) rest))
  | cons second others ih =>
    obtain ⟨next, following⟩ := second
    obtain ⟨fuel, rfl⟩ := Nat.exists_eq_succ_of_ne_zero (Nat.ne_zero_of_lt enough)
    simp only [keyed, List.map_cons, renderFields, List.length_append, List.length_cons] at enough
    have whole : renderString (units key) ++ ':' :: value.render ++
          renderFields (keyed ((next, following) :: others)) ++ '\x7d' :: rest =
        renderString (units key) ++ ':' :: (value.render ++ ',' :: (renderString (units next) ++
          ':' :: following.render ++ renderFields (keyed others) ++ '\x7d' :: rest)) := by
      simp [renderFields, keyed]
    have later := @ih next following (fun field member => all field (.tail _ member)) fuel
      (by simp only [keyed, List.length_append, List.length_cons]; omega)
    rw [whole, fields?_eq key (.inr rfl)
      (all (key, value) (.head _) fuel _ (by dsimp only; omega) (ends_cons (by simp) _)), later]
    rfl

theorem reads_array {items : List Json} (textual : ∀ j ∈ items, Textual j)
    (all : ∀ j ∈ items, Reads j) : Reads (array items) := by
  intro fuel rest enough _
  cases fuel with
  | zero => cases items <;> simp [render] at enough
  | succ fuel =>
    cases items with
    | nil => rfl
    | cons first others =>
      obtain ⟨c, t, whole, visible, notBracket⟩ := (textual first (.head _)).render_eq_cons
      have inside : (skipSpace (first.render ++ renderItems others ++ ']' :: rest)).head? ≠
          some ']' := by
        rw [List.append_assoc, (textual first (.head _)).skipSpace_render, whole]
        simpa using notBracket
      have text : (array (first :: others)).render ++ rest =
          '[' :: (first.render ++ renderItems others ++ ']' :: rest) := by
        simp [render]
      simp only [render, List.length_append, List.length_cons, List.length_nil] at enough
      have read := @items?_render first others all fuel (by rw [List.length_append]; omega) rest
      rw [value?, text, skipSpace_cons rfl]
      simp only [if_neg inside, read, Option.map_some]

theorem reads_fields {fields : List (Text × Json)} (all : ∀ field ∈ fields, Reads field.2) :
    Reads (ofFields fields) := by
  intro fuel rest enough _
  cases fuel with
  | zero => cases fields <;> simp [ofFields, render] at enough
  | succ fuel =>
    cases fields with
    | nil => rfl
    | cons first others =>
      obtain ⟨key, value⟩ := first
      have text : (ofFields ((key, value) :: others)).render ++ rest =
          '\x7b' :: (renderString (units key) ++ ':' :: value.render ++
            renderFields (keyed others) ++ '\x7d' :: rest) := by
        simp [ofFields, keyed, render]
      have inside : (skipSpace (renderString (units key) ++ ':' :: value.render ++
          renderFields (keyed others) ++ '\x7d' :: rest)).head? ≠ some '\x7d' := by
        simp [renderString, skipSpace_cons (c := '"') rfl]
      have length := congrArg List.length text
      simp only [List.length_append, List.length_cons] at length
      have read := @fields?_render key value others all fuel
        (by simp only [List.length_append, List.length_cons]; omega) rest
      rw [value?, text, skipSpace_cons rfl]
      simp only [if_neg inside, read, Option.map_some]
      rfl

/-- A written value is read back from the front of a text. -/
theorem Textual.reads {j : Json} (textual : Textual j) : Reads j := by
  induction textual with
  | null => exact reads_of_plain .null (fun _ _ => rfl) (by rintro _ ⟨⟩; decide)
  | bool b =>
    cases b
    · exact reads_of_plain (.bool false) (fun _ _ => rfl) (by rintro _ ⟨⟩; decide)
    · exact reads_of_plain (.bool true) (fun _ _ => rfl) (by rintro _ ⟨⟩; decide)
  | nat n =>
    refine reads_of_plain (.nat n) (fun _ ends => plainValue?_ofNat n ends) fun c head => ?_
    obtain ⟨d, t, whole, digit⟩ := ofNat_eq_cons n
    have same : d = c := by
      rw [ofNat, render, Number.render, whole] at head
      exact Option.some.inj head
    subst same
    exact ⟨ne_of_isDigit digit rfl, ne_of_isDigit digit rfl, ne_of_isDigit digit rfl⟩
  | text t => exact reads_text t
  | array textual all => exact reads_array textual all
  | fields _ all => exact reads_fields all

/-- A value that is written compactly is read back. -/
theorem Textual.parse?_render {j : Json} (textual : Textual j) : parse? j.render = some j := by
  have read := textual.reads (2 * j.render.length + 2) [] (by omega) ends_nil
  rw [List.append_nil] at read
  rw [parse?, read]
  rfl

end FormLogic.Json
