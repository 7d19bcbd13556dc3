import FormLogic.Text.Bytes

/-!
Pools of names in use. Names are compared without regard to the case of ASCII letters. A pool hands
out a name for a base: the base itself, cut to the pool's limit, or else the first free name made of
a shortened base and a counter. Names of one length that end in different counters differ, so a free
one is found among the first few more counters than there are names in use.
-/
namespace FormLogic.Name

open Text

structure Pool where
  /-- The limit on names in bytes. A counter with more digits than that exceeds it. -/
  limit : Nat
  /-- The names in use, in lower case. -/
  used : List Text
  deriving DecidableEq, Repr

/-- The form under which names are compared. -/
def folded (name : Text) : Text := name.map Char.toLower

namespace Pool

def empty (limit : Nat) : Pool := ⟨limit, []⟩

def isTaken (pool : Pool) (name : Text) : Bool := pool.used.contains (folded name)

/-- Marks a name as taken. -/
def reserve (pool : Pool) (name : Text) : Pool :=
  if pool.isTaken name then pool else { pool with used := folded name :: pool.used }

def reserveAll (pool : Pool) (names : List Text) : Pool := names.foldl reserve pool

/-- The base cut to make room for the numeral of a counter, with that numeral. -/
def candidate (pool : Pool) (base : Text) (counter : Nat) : Text :=
  let numeral := Text.ofNat counter
  takeBytes (pool.limit - byteLength numeral) base ++ numeral

/-- A number of counters among which one gives a free name. -/
def counterBound (pool : Pool) : Nat := 12 * pool.used.length + 10

/-- The first counter that gives a free name. -/
def freeCounter (pool : Pool) (base : Text) : Nat :=
  ((List.range' 1 pool.counterBound).find? fun counter =>
    !pool.isTaken (pool.candidate base counter)).getD (pool.counterBound + 1)

/-- A free name for a base. -/
def nameFor (pool : Pool) (base : Text) : Text :=
  let base := takeBytes pool.limit base
  if pool.isTaken base then pool.candidate base (pool.freeCounter base) else base

/-- Hands out a free name for a base and marks it as taken. -/
def allocate (pool : Pool) (base : Text) : Text × Pool :=
  let name := pool.nameFor base
  (name, pool.reserve name)

/-- Whether a name can be handed out for a base without cutting one of its characters in two. Always
so for a base in ASCII. -/
def cutsCleanly (pool : Pool) (base : Text) : Bool :=
  Text.cutsCleanly pool.limit base &&
    (let base := takeBytes pool.limit base
    !pool.isTaken base ||
      (List.range' 1 (Text.ofNat (pool.freeCounter base)).length).all fun digits =>
        Text.cutsCleanly (pool.limit - digits) base)

end Pool

end FormLogic.Name
