import MountRegistry.Node.Path
import MountRegistry.Store.Cohort

/-
  The pool of stores: one store for each mount path and kind, built when it is first asked for.
  Every store ever built keeps its number, so that whoever holds the number goes on using the
  store after the pool has let go of it. Asking takes two steps, a look-up and, if that misses, an
  insertion that looks again.
-/

namespace MountRegistry

/-- What a store of the pool is found by. -/
abbrev StoreKey := MountPath × StoreKind

instance : Ord StoreKey := lexOrd

/-- The stores that mount points share with whoever writes to them. -/
structure StorePool where
  /-- Every store ever built; a store's number is its place in the list. -/
  stores : List Store := []
  /-- The stores in the pool, by number. -/
  keys : List (StoreKey × Nat) := []
  deriving Repr

namespace StorePool

/-- The number of stores in the pool. -/
def size (p : StorePool) : Nat := p.keys.length

/-- The number of stores ever built. -/
def created (p : StorePool) : Nat := p.stores.length

/-- The number of the store of a kind at a mount path. -/
def lookup? (p : StorePool) (path : MountPath) (kind : StoreKind) : Option Nat :=
  Keyed.find? p.keys (path, kind)

/-- The store of a key that is in the pool by now, or a new one. -/
def insertIfAbsent (p : StorePool) (path : MountPath) (kind : StoreKind) (model : Yang.Model) :
    StorePool × Nat :=
  match p.lookup? path kind with
  | some n => (p, n)
  | none =>
    let n := p.stores.length
    ({ stores := p.stores ++ [Store.create (path.storeName kind) kind model]
       keys := Keyed.insert p.keys (path, kind) n }, n)

/-- The store of a kind at a mount path, which is built if there is none. One that is there keeps
its schema. -/
def getOrCreate (p : StorePool) (path : MountPath) (kind : StoreKind) (model : Yang.Model) :
    StorePool × Nat :=
  match p.lookup? path kind with
  | some n => (p, n)
  | none => p.insertIfAbsent path kind model

/-- Lets go of the stores of a mount path, and answers how many there were. -/
def removeMount (p : StorePool) (path : MountPath) : StorePool × Nat :=
  let present := StoreKind.all.filter fun kind => (p.lookup? path kind).isSome
  ({ p with keys := present.foldl (fun keys kind => Keyed.erase keys (path, kind)) p.keys },
    present.length)

/-- The store of a number, also if it is no longer in the pool. -/
def store? (p : StorePool) (n : Nat) : Option Store := p.stores[n]?

/-- What stands where a number names no store. -/
def noStore : Store := Store.create "" .configuration .empty

/-- The store of a number. -/
def store (p : StorePool) (n : Nat) : Store := p.stores.getD n noStore

/-- Puts a store back after something was done to it. -/
def setStore (p : StorePool) (n : Nat) (s : Store) : StorePool :=
  { p with stores := p.stores.set n s }

/-- `count` calls for one path, of the two kinds in turn. -/
def getOrCreateMany (path : MountPath) (model : Yang.Model) :
    Nat → StoreKind → StorePool → StorePool × List Nat
  | 0, _, p => (p, [])
  | count + 1, kind, p =>
    let (p, n) := p.getOrCreate path kind model
    let other := if kind = .configuration then StoreKind.operational else .configuration
    let (p, ns) := getOrCreateMany path model count other p
    (p, n :: ns)

end StorePool

end MountRegistry
