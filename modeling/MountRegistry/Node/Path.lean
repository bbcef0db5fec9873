import MountRegistry.Store.Kind

/-
  Devices by their node identifiers, and where their mount points stand: every identifier has one
  mount path, and every mount path one store of each kind.
-/

namespace MountRegistry

/-- The identifier of a device. -/
structure NodeId where
  text : String
  deriving DecidableEq, Repr, Inhabited, Ord

/-- Where the mount point of a device stands. -/
structure MountPath where
  text : String
  deriving DecidableEq, Repr, Inhabited, Ord

/-- The topology that holds the nodes. -/
def topologyName : String := "cached-mount-point"

/-- The mount path of a node. Two nodes never have the same one. -/
def NodeId.mountPath (n : NodeId) : MountPath :=
  ⟨"/network-topology/topology/" ++ topologyName ++ "/node/" ++ n.text⟩

/-- The name of the store of a kind at a mount path. -/
def MountPath.storeName (p : MountPath) (kind : StoreKind) : String := p.text ++ "-" ++ kind.ending

end MountRegistry
