import MountRegistry.Store.Pool

/-
  The broker of a mount point: its node, its schema, and its two stores. A broker keeps its stores
  by number, so it goes on using them when the pool has let go of them.
-/

namespace MountRegistry

/-- The way into the two stores of a mount point, which it knows by their numbers in the pool. -/
structure Broker where
  node : NodeId
  model : Yang.Model
  configuration : Nat
  operational : Nat
  deriving Repr

namespace Broker

/-- The mount path of its node. -/
def mountPath (b : Broker) : MountPath := b.node.mountPath

/-- The number of its store of a kind. -/
def storeNumber (b : Broker) : StoreKind → Nat
  | .configuration => b.configuration
  | .operational => b.operational

/-- Its store of a kind, as it is in the pool now. -/
def store (b : Broker) (pool : StorePool) (kind : StoreKind) : Store :=
  pool.store (b.storeNumber kind)

/-- A broker over the pooled stores of a node, built if they are not there. -/
def ofPool (pool : StorePool) (node : NodeId) (model : Yang.Model) : StorePool × Broker :=
  let (pool, configuration) := pool.getOrCreate node.mountPath .configuration model
  let (pool, operational) := pool.getOrCreate node.mountPath .operational model
  (pool, { node, model, configuration, operational })

/-- The committed node at a path. -/
def readCommitted (b : Broker) (pool : StorePool) (kind : StoreKind) (path : DataPath) :
    Except StoreFailure (Option Json) :=
  (b.store pool kind).read path

/-- The name under which someone listens to a store. -/
def listenerName (b : Broker) (pool : StorePool) (kind : StoreKind) : String :=
  (b.store pool kind).name ++ "-listener"

end Broker

end MountRegistry
