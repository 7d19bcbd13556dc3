import FormLogic.Proofs.Histories
import Mathlib.Data.List.Pairwise

/-!
The identifiers that declarations get. A list of declarations gives one entry each: under the
identifier that the declaration chooses, or under one that is made from the field's name by the pool
as it stands then. What is chosen anywhere in the list is taken from the start, so an identifier that
is made differs from all others; and there is always a counter short enough to leave room for the
letter that the identifier begins with.
-/
namespace FormLogic

namespace Name

open Text

/-- A name that the survey engine accepts for a question. -/
structure IsQuestionCode (code : Text) : Prop where
  alphanumeric : ∀ c ∈ code, c.isAlphanum = true
  letter : code.head?.any Char.isAlpha = true
  short : code.length ≤ questionLimit

theorem isAlphanum_of_mem_question {name : Text} {c : Char} (member : c ∈ question name) :
    c.isAlphanum = true := by
  have cleaned {c : Char} (member : c ∈ alphanumeric name) : c.isAlphanum = true :=
    (List.mem_filter.1 member).2
  unfold question at member
  dsimp only at member
  have whole := List.mem_of_mem_take member
  split at whole
  · rcases List.mem_cons.1 whole with rfl | inside
    · decide
    · exact cleaned inside
  · exact cleaned whole

theorem head?_question (name : Text) : (question name).head?.any Char.isAlpha = true := by
  unfold question
  dsimp only
  rw [List.head?_take, if_neg (by decide)]
  split
  · rfl
  · next lettered =>
    cases cleaned : alphanumeric name with
    | nil => exact absurd (by rw [cleaned]; rfl) lettered
    | cons c rest =>
      have member : c ∈ alphanumeric name := cleaned ▸ List.mem_cons_self
      have alphanum : c.isAlphanum = true := (List.mem_filter.1 member).2
      rw [cleaned, List.head?_cons, Option.all_some, Bool.not_eq_true] at lettered
      rw [Char.isAlphanum, lettered, Bool.or_false] at alphanum
      exact alphanum

theorem isAlphanum_of_mem_nameFor_question {pool : Pool} {name : Text} {c : Char}
    (member : c ∈ pool.nameFor (question name)) : c.isAlphanum = true :=
  Pool.isAlphanum_of_mem_nameFor (fun _ => isAlphanum_of_mem_question) member

/-- With fewer names in use than there are numerals one digit shorter than a question code, the pool
makes a question code. -/
theorem isQuestionCode_nameFor {pool : Pool} (limit : pool.limit = questionLimit)
    (few : pool.used.length < 9 * 10 ^ 18) (name : Text) :
    IsQuestionCode (pool.nameFor (question name)) := by
  have letter := head?_question name
  obtain ⟨c, first, _⟩ := (Option.any_eq_true _ _).1 letter
  have nonempty : question name ≠ [] := fun empty => by rw [empty] at first; cases first
  have ascii : ∀ c ∈ (question name).head?, isAscii c = true := fun c first =>
    isAscii_of_isAlphanum (isAlphanum_of_mem_question (List.mem_of_head? first))
  refine ⟨fun c => isAlphanum_of_mem_nameFor_question, ?_, ?_⟩
  · rwa [Pool.head?_nameFor few (by rw [limit]; decide) nonempty ascii]
  · rw [← limit]
    exact Pool.length_nameFor_le few (by rw [limit]; decide) _

end Name

namespace Field

open Text Name

/-- The entry that a declaration gives while the identifiers of the pool are taken. -/
def Declaration.entry (d : Declaration) (pool : Pool) : Entry :=
  let key := normalPath d.path
  let name := lastSegment key
  ⟨key, name, d.identifier.getD (pool.nameFor (question name)), []⟩

/-- What an entry has from its declaration. -/
structure Declaration.Gives (d : Declaration) (e : Entry) : Prop where
  path : e.path = normalPath d.path
  name : e.name = lastSegment e.path
  identifier : ∀ identifier, d.identifier = some identifier → e.identifier = identifier

namespace Registry

/-- The entries that declarations give one after the other. -/
def assigned (pool : Pool) : List Declaration → List Entry
  | [] => []
  | d :: rest => d.entry pool :: assigned (pool.reserve (d.entry pool).identifier) rest

/-- What a field's declaration does if it succeeds. -/
theorem declare_eq_ok {r r' : Registry} {d : Declaration} (done : r.declare d = (.ok (), r')) :
    normalPath d.path ≠ [] ∧
      r'.entries.map Entry.bare = r.entries.map Entry.bare ++ [d.entry r.identifiers] ∧
      r'.identifiers = r.identifiers.reserve (d.entry r.identifiers).identifier := by
  have choices {path : Text} {values : List Text} {r : Registry} :
      (r.addChoices path values).2.entries.map Entry.bare = r.entries.map Entry.bare ∧
        (r.addChoices path values).2.identifiers = r.identifiers :=
    ⟨entries_modify fun _ => rfl, identifiers_modify path _⟩
  unfold declare at done
  cases key : r.newKey d.path with
  | error e =>
    cases chosen : d.identifier <;>
      simp [chosen, registerDerived_of_newKey_error key, register_of_newKey_error key] at done
  | ok key' =>
    have same := (newKey_eq_ok key).1
    have visible := ne_nil_of_newKey key
    subst same
    have after := congrArg Prod.snd done
    cases chosen : d.identifier with
    | none =>
      simp only [chosen, registerDerived_of_newKey key] at after
      rw [← after, choices.1, choices.2]
      exact ⟨visible, by simp [insert, Declaration.entry, Entry.bare, chosen],
        by simp [insert, Declaration.entry, chosen]⟩
    | some identifier =>
      simp only [chosen, register_of_newKey key] at after
      rw [← after, choices.1, choices.2]
      exact ⟨visible, by simp [insert, Declaration.entry, Entry.bare, chosen],
        by simp [insert, Declaration.entry, chosen]⟩

/-- Declarations that all succeed add their entries. -/
theorem entries_declareAll {r : Registry} {ds : List Declaration} (done : (r.declareAll ds).1 = []) :
    (∀ d ∈ ds, normalPath d.path ≠ []) ∧
      (r.declareAll ds).2.entries.map Entry.bare =
        r.entries.map Entry.bare ++ assigned r.identifiers ds := by
  induction ds generalizing r with
  | nil => exact ⟨by simp, (List.append_nil _).symm⟩
  | cons d rest ih =>
    rw [declareAll] at done ⊢
    rcases first : r.declare d with ⟨answer, after⟩
    rw [first] at done
    dsimp only at done ⊢
    cases answer with
    | error e => cases done
    | ok _ =>
      obtain ⟨visible, added, taken⟩ := declare_eq_ok first
      obtain ⟨others, later⟩ := ih done
      refine ⟨List.forall_mem_cons.2 ⟨visible, others⟩, ?_⟩
      dsimp only
      rw [later, added, taken, assigned, List.append_assoc]
      rfl

/-- The pool in which the identifiers that declarations choose are reserved. -/
def chosenPool (ds : List Declaration) : Pool :=
  (Pool.empty questionLimit).reserveAll (ds.filterMap Declaration.identifier)

theorem entries_ofDeclarations {ds : List Declaration} {r : Registry}
    (made : ofDeclarations ds = .ok r) :
    (∀ d ∈ ds, normalPath d.path ≠ []) ∧ r.entries.map Entry.bare = assigned (chosenPool ds) ds := by
  unfold ofDeclarations at made
  dsimp only at made
  split at made
  · next whole =>
    cases Except.ok.inj made
    have all := entries_declareAll (congrArg Prod.fst whole)
    rw [whole] at all
    exact all
  · cases made

variable {pool : Pool} {ds : List Declaration}

/-- Each declaration gives the entry in its place. -/
theorem gives_assigned (pool : Pool) (ds : List Declaration) :
    List.Forall₂ Declaration.Gives ds (assigned pool ds) := by
  induction ds generalizing pool with
  | nil => exact .nil
  | cons d rest ih =>
    refine .cons ⟨rfl, rfl, fun identifier chosen => ?_⟩ (ih _)
    simp [Declaration.entry, chosen]

/-- The identifiers that declarations choose are taken. -/
def Reserves (pool : Pool) (ds : List Declaration) : Prop :=
  ∀ d ∈ ds, ∀ identifier, d.identifier = some identifier → pool.isTaken identifier = true

theorem reserves_chosenPool (ds : List Declaration) : Reserves (chosenPool ds) ds := by
  intro d member identifier chosen
  refine Pool.isTaken_reserveAll.2 (Or.inl (List.mem_map_of_mem ?_))
  exact List.mem_filterMap.2 ⟨d, member, chosen⟩

theorem Reserves.tail {d : Declaration} {rest : List Declaration}
    (reserves : Reserves pool (d :: rest)) (name : Text) : Reserves (pool.reserve name) rest :=
  fun d member identifier chosen => Pool.isTaken_reserve.2
    (Or.inr (reserves d (List.mem_cons_of_mem _ member) identifier chosen))

/-- An identifier that is made comes from a pool in which everything is taken that was so at the
start, and fewer names besides than there are identifiers to make. -/
theorem made_of_mem_assigned (reserves : Reserves pool ds) {d : Declaration} {e : Entry}
    (member : (d, e) ∈ ds.zip (assigned pool ds)) (derived : d.identifier = none) :
    ∃ later : Pool, later.limit = pool.limit ∧
      later.used.length < pool.used.length + ds.countP (·.identifier.isNone) ∧
      (∀ name, pool.isTaken name = true → later.isTaken name = true) ∧
      e.identifier = later.nameFor (question e.name) := by
  induction ds generalizing pool with
  | nil => cases member
  | cons first rest ih =>
    rw [assigned, List.zip_cons_cons, List.mem_cons] at member
    rcases member with same | member
    · cases same
      refine ⟨pool, rfl, ?_, fun _ taken => taken, by simp [Declaration.entry, derived]⟩
      rw [List.countP_cons, if_pos (by rw [derived]; rfl)]
      omega
    · obtain ⟨later, limit, few, kept, identifier⟩ := ih (reserves.tail _) member
      refine ⟨later, by rw [limit, Pool.limit_reserve], ?_, fun name taken =>
        kept name (Pool.isTaken_reserve.2 (Or.inr taken)), identifier⟩
      rw [List.countP_cons]
      cases chosen : first.identifier with
      | none =>
        have grown := @Pool.length_reserve_le pool (first.entry pool).identifier
        rw [Option.isNone_none, if_pos rfl]
        omega
      | some own =>
        -- A chosen identifier is taken already, so the pool does not grow.
        have taken := reserves first List.mem_cons_self own chosen
        have entry : (first.entry pool).identifier = own := by simp [Declaration.entry, chosen]
        rw [entry, Pool.reserve_of_isTaken taken] at few
        simpa using few

/-- Of two declarations and their entries: the identifiers differ if one of them is made. -/
def Apart (p q : Declaration × Entry) : Prop :=
  p.1.identifier = none ∨ q.1.identifier = none → folded p.2.identifier ≠ folded q.2.identifier

instance : Std.Symm Apart := ⟨fun _ _ apart made same => apart made.symm same.symm⟩

theorem pairwise_assigned (reserves : Reserves pool ds) :
    (ds.zip (assigned pool ds)).Pairwise Apart := by
  induction ds generalizing pool with
  | nil => exact List.Pairwise.nil
  | cons first rest ih =>
    rw [assigned, List.zip_cons_cons, List.pairwise_cons]
    refine ⟨?_, ih (reserves.tail _)⟩
    rintro ⟨d, e⟩ member derived same
    dsimp only at derived same
    cases chosen : d.identifier with
    | none =>
      obtain ⟨later, _, _, kept, identifier⟩ := made_of_mem_assigned (reserves.tail _) member chosen
      have taken := kept e.identifier (Pool.isTaken_reserve.2 (Or.inl same.symm))
      rw [identifier, Pool.isTaken_nameFor] at taken
      cases taken
    | some own =>
      have free : first.identifier = none := derived.resolve_right (by rw [chosen]; simp)
      have gives : e.identifier = own :=
        ((List.forall₂_iff_zip.1 (gives_assigned _ rest)).2 member).identifier own chosen
      have taken := reserves d (List.mem_cons_of_mem _ (List.of_mem_zip member).1) own chosen
      have entry : (first.entry pool).identifier =
          pool.nameFor (question (first.entry pool).name) := by simp [Declaration.entry, free]
      rw [← gives, Pool.isTaken_eq_true, ← same, ← Pool.isTaken_eq_true, entry,
        Pool.isTaken_nameFor] at taken
      cases taken

/-! The entries of a registry that is made of declarations. -/

variable {r : Registry}

theorem zip_entries (made : ofDeclarations ds = .ok r) :
    ds.zip (assigned (chosenPool ds) ds) = (ds.zip r.entries).map (Prod.map id Entry.bare) := by
  rw [← (entries_ofDeclarations made).2, List.zip_map_right]

theorem gives_entries (made : ofDeclarations ds = .ok r) :
    List.Forall₂ Declaration.Gives ds r.entries := by
  have given := gives_assigned (chosenPool ds) ds
  rw [← (entries_ofDeclarations made).2, List.forall₂_map_right_iff] at given
  exact given.imp fun d e gives => ⟨gives.path, gives.name, gives.identifier⟩

theorem exists_of_entries {es : List Entry}
    (outcome : (ofDeclarations ds).toOption.map Registry.entries = some es) :
    ∃ r, ofDeclarations ds = .ok r ∧ r.entries = es := by
  cases made : ofDeclarations ds with
  | error errors =>
    rw [made] at outcome
    cases outcome
  | ok r =>
    rw [made] at outcome
    exact ⟨r, rfl, Option.some.inj outcome⟩

theorem exists_declaration (made : ofDeclarations ds = .ok r) {e : Entry} (member : e ∈ r.entries) :
    ∃ d, (d, e) ∈ ds.zip r.entries := by
  rw [← List.map_snd_zip (Nat.le_of_eq (gives_entries made).length_eq.symm)] at member
  obtain ⟨⟨d, _⟩, pair, rfl⟩ := List.mem_map.1 member
  exact ⟨d, pair⟩

theorem path_ne_nil (made : ofDeclarations ds = .ok r) {e : Entry} (member : e ∈ r.entries) :
    e.path ≠ [] := fun nothing =>
  (built_ofDeclarations made).path_ne_nil (nothing ▸ List.mem_map_of_mem member)

/-- An identifier that is made comes from a pool with fewer names in use than there are
declarations. -/
theorem made_of_mem_entries (made : ofDeclarations ds = .ok r) {d : Declaration} {e : Entry}
    (member : (d, e) ∈ ds.zip r.entries) (derived : d.identifier = none) :
    ∃ pool : Pool, pool.limit = questionLimit ∧ pool.used.length < ds.length ∧
      e.identifier = pool.nameFor (question e.name) := by
  have inside : (d, e.bare) ∈ ds.zip (assigned (chosenPool ds) ds) := by
    rw [zip_entries made]
    exact List.mem_map_of_mem (f := Prod.map id Entry.bare) member
  obtain ⟨pool, limit, few, _, identifier⟩ :=
    made_of_mem_assigned (reserves_chosenPool ds) inside derived
  have chosen : (chosenPool ds).used.length ≤ ds.countP (·.identifier.isSome) := by
    have reserved := @Pool.length_reserveAll_le (.empty questionLimit)
      (ds.filterMap Declaration.identifier)
    rwa [List.length_filterMap_eq_countP, Pool.empty, List.length_nil, Nat.zero_add] at reserved
  have all := List.length_eq_countP_add_countP (fun d : Declaration => d.identifier.isSome) (l := ds)
  have others : ds.countP (fun d => decide ¬d.identifier.isSome = true) =
      ds.countP (·.identifier.isNone) := by
    refine List.countP_congr fun d _ => ?_
    cases d.identifier <;> simp
  refine ⟨pool, by rw [limit, chosenPool, Pool.limit_reserveAll]; rfl, by omega, identifier⟩

theorem pairwise_entries (made : ofDeclarations ds = .ok r) : (ds.zip r.entries).Pairwise Apart := by
  have pairs := pairwise_assigned (reserves_chosenPool ds)
  rwa [zip_entries made, List.pairwise_map] at pairs

/-- In a registry made of declarations, the identifiers made for fields are question codes and differ
from those of all other fields even if the case of letters does not count. So all identifiers differ
if those that the declarations choose do. -/
theorem ofDeclarations_identifiers (made : ofDeclarations ds = .ok r)
    (few : ds.length < 9 * 10 ^ 18) :
    List.Forall₂ Declaration.Gives ds r.entries ∧
      (∀ d e, (d, e) ∈ ds.zip r.entries → d.identifier = none →
        IsQuestionCode e.identifier ∧
          ∀ other ∈ r.entries, other ≠ e → folded other.identifier ≠ folded e.identifier) ∧
      (((ds.filterMap Declaration.identifier).map folded).Nodup →
        (r.entries.map fun e => folded e.identifier).Nodup) := by
  have gives := gives_entries made
  have pairs := pairwise_entries made
  refine ⟨gives, fun d e member derived => ⟨?_, fun other known different => ?_⟩, fun distinct => ?_⟩
  · obtain ⟨pool, limit, used, identifier⟩ := made_of_mem_entries made member derived
    rw [identifier]
    exact isQuestionCode_nameFor limit (Nat.lt_trans used few) e.name
  · obtain ⟨d', member'⟩ := exists_declaration made known
    exact pairs.forall member' member (fun same => different (Prod.ext_iff.1 same).2) (Or.inr derived)
  · have chosen : (ds.zip r.entries).Pairwise fun p q =>
        ∀ i, p.1.identifier = some i → ∀ j, q.1.identifier = some j → folded i ≠ folded j := by
      rw [List.Nodup, List.pairwise_map, List.pairwise_filterMap,
        ← List.map_fst_zip (Nat.le_of_eq gives.length_eq), List.pairwise_map] at distinct
      exact distinct
    have all : (ds.zip r.entries).Pairwise fun p q =>
        folded p.2.identifier ≠ folded q.2.identifier := by
      refine (pairs.and chosen).imp_of_mem fun {p q} left right both => ?_
      have named {p : Declaration × Entry} (member : p ∈ ds.zip r.entries) :=
        ((List.forall₂_iff_zip.1 gives).2 member).identifier
      cases first : p.1.identifier with
      | none => exact both.1 (Or.inl first)
      | some i =>
        cases second : q.1.identifier with
        | none => exact both.1 (Or.inr second)
        | some j =>
          rw [named left i first, named right j second]
          exact both.2 i first j second
    rw [List.Nodup, List.pairwise_map, ← List.map_snd_zip (Nat.le_of_eq gives.length_eq.symm),
      List.pairwise_map]
    exact all

/-- Two fields of one name around a field that chooses that name in capitals. -/
def mixedDeclarations : List Declaration :=
  [⟨"/data/age".toList, none, ["old".toList]⟩, ⟨"/data/years".toList, some "AGE".toList, []⟩,
    ⟨"/group/age".toList, none, []⟩]

theorem ofDeclarations_identifiers_mixed :
    ∃ r, ofDeclarations mixedDeclarations = .ok r ∧ mixedDeclarations.length < 9 * 10 ^ 18 ∧
      r.entries.map Entry.identifier = ["age1".toList, "AGE".toList, "age2".toList] ∧
      (∀ d e, (d, e) ∈ mixedDeclarations.zip r.entries → d.identifier = none →
        IsQuestionCode e.identifier ∧
          ∀ other ∈ r.entries, other ≠ e → folded other.identifier ≠ folded e.identifier) ∧
      (r.entries.map fun e => folded e.identifier).Nodup := by
  have outcome : (ofDeclarations mixedDeclarations).toOption.map Registry.entries =
      some [⟨"/data/age".toList, "age".toList, "age1".toList, [("old".toList, "old".toList)]⟩,
        ⟨"/data/years".toList, "years".toList, "AGE".toList, []⟩,
        ⟨"/group/age".toList, "age".toList, "age2".toList, []⟩] := by decide +kernel
  have few : mixedDeclarations.length < 9 * 10 ^ 18 := by decide
  obtain ⟨r, made, entries⟩ := exists_of_entries outcome
  obtain ⟨_, codes, distinct⟩ := ofDeclarations_identifiers made few
  exact ⟨r, made, few, by rw [entries]; rfl, codes, distinct (by decide +kernel)⟩

end Registry

end Field

end FormLogic
