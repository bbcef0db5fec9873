import MountRegistry.Data.Path
import MountRegistry.Instant
import MountRegistry.Json.Value
import MountRegistry.Node.Path

/-
  What is told of the mount points: that one was created, removed or could not be created, and that
  the data of one changed.
-/

namespace MountRegistry

/-- What happens to the mount point of a node. -/
inductive MountEvent where
  | created (node : NodeId) (mountPath : MountPath) (modules : Nat) (time : Instant)
  | removed (node : NodeId) (releaseFailures : Nat) (time : Instant)
  | failed (node : NodeId) (reason : String) (time : Instant)
  | dataChanged (node : NodeId) (store : StoreKind) (version : Nat) (paths : List String)
      (time : Instant)
  deriving DecidableEq, Repr

namespace MountEvent

/-- The node of the event. -/
def node : MountEvent → NodeId
  | created node .. | removed node .. | failed node .. | dataChanged node .. => node

/-- The name of the event for those who subscribe to it. -/
def typeName : MountEvent → String
  | created .. => "created"
  | removed .. => "removed"
  | failed .. => "failed"
  | dataChanged .. => "data_changed"

/-- The event as its subscribers receive it, with the members that its type has. -/
def toJson (e : MountEvent) : Json :=
  let base := [("event_type", Json.text e.typeName), ("node_id", .text e.node.text)]
  .ofMembers <| match e with
    | created _ mountPath modules time =>
      base ++ [("mount_path", .text mountPath.text), ("module_count", .ofNat modules),
        ("timestamp", .text time.toString)]
    | removed _ failures time =>
      base ++ [("release_failures", .ofNat failures), ("timestamp", .text time.toString)]
    | failed _ reason time =>
      base ++ [("reason", .text reason), ("timestamp", .text time.toString)]
    | dataChanged _ store version paths time =>
      base ++ [("store", .text store.name), ("version", .ofNat version), ("paths", .ofTexts paths),
        ("timestamp", .text time.toString)]

end MountEvent

end MountRegistry
