import MountRegistry.Instant
import MountRegistry.Mount.Endpoints

/-
  The record of an active mount point, and what it holds until it is taken down: its endpoint and
  the listeners to its stores. Everything held is released in order, whatever fails on the way.
-/

namespace MountRegistry

/-- Something held that must be released. -/
inductive Registration where
  | endpoint (path : MountPath)
  | listener (l : Listener)
  /-- Any other resource, and whether its release succeeds. -/
  | resource (name : String) (releasable : Bool)
  deriving Repr

namespace Registration

/-- The name by which a failed release is logged. -/
def name : Registration → String
  | endpoint path => path.text
  | listener l => l.name
  | resource name _ => name

/-- Gives back one thing that is held, or says why that fails. -/
def release (e : Endpoints) (pool : StorePool) :
    Registration → Endpoints × StorePool × Except ReleaseFailure Unit
  | endpoint path =>
    match e.unregister path with
    | .ok e => (e, pool, .ok ())
    | .error failure => (e, pool, .error failure)
  | listener l => let (pool, _, result) := l.close pool; (e, pool, result)
  | resource name releasable =>
    (e, pool, if releasable then .ok () else .error (.listenerTerminated name))

/-- Releases everything, and counts the failures. -/
def releaseAll (e : Endpoints) (pool : StorePool) :
    List Registration → Endpoints × StorePool × Nat
  | [] => (e, pool, 0)
  | r :: rest =>
    let (e, pool, result) := r.release e pool
    let (e, pool, failures) := releaseAll e pool rest
    (e, pool, match result with
      | .ok () => failures
      | .error _ => failures + 1)

end Registration

/-- What is known of a mount point that is up, and all that it holds. -/
structure MountRecord where
  broker : Broker
  cacheDirectory : String
  createdAt : Instant
  registrations : List Registration
  deriving Repr

namespace MountRecord

/-- The node of its broker. -/
def node (r : MountRecord) : NodeId := r.broker.node

/-- The mount path of its broker. -/
def mountPath (r : MountRecord) : MountPath := r.broker.mountPath

/-- A module as the record of its mount point shows it. -/
def moduleJson (m : Yang.Module) : Json :=
  .ofMembers [("name", .text m.name), ("revision", .ofOptionalText m.revision),
    ("namespace", .text m.namespaceUri)]

/-- What is shown of a mount point. -/
def toJson (r : MountRecord) : Json :=
  .ofMembers [("node_id", .text r.node.text), ("mount_path", .text r.mountPath.text),
    ("cache_directory", .text r.cacheDirectory),
    ("modules", .array (r.broker.model.moduleList.map moduleJson)),
    ("created_at", .text r.createdAt.toString)]

end MountRecord

end MountRegistry
