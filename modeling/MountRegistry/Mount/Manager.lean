import MountRegistry.Mount.Record
import MountRegistry.Node.Event

/-
  The manager of the mount points: the records of the active ones, and what they are made of. A
  mount point that is active has a record, a published endpoint and two pooled stores.
-/

namespace MountRegistry

/-- The mount points of all nodes, with everything that they share: files, sources, stores and
endpoints. -/
structure Manager where
  cacheRoot : String
  files : Files
  library : SourceLibrary := .empty
  pool : StorePool := {}
  endpoints : Endpoints := {}
  records : List (NodeId × MountRecord) := []
  /-- Events that were not handed on yet, oldest first. -/
  outbox : List MountEvent := []

namespace Manager

/-- The record of a node, which it has while it is up. -/
def record? (m : Manager) (node : NodeId) : Option MountRecord := Keyed.find? m.records node

/-- The broker of a node that is up. -/
def broker? (m : Manager) (node : NodeId) : Option Broker := (m.record? node).map (·.broker)

/-- Whether a node is up. -/
def isActive (m : Manager) (node : NodeId) : Bool := Keyed.contains m.records node

/-- The number of nodes that are up. -/
def active (m : Manager) : Nat := m.records.length

/-- The active mount points in the order of their nodes. -/
def recordList (m : Manager) : List MountRecord := m.records.map (·.2)

/-- An event waits to be handed on. -/
def publish (m : Manager) (e : MountEvent) : Manager := { m with outbox := m.outbox ++ [e] }

/-- Hands on all events that wait. -/
def takeOutbox (m : Manager) : List MountEvent × Manager := (m.outbox, { m with outbox := [] })

/-- What is told of a change of a store. -/
def changeEvent (node : NodeId) (now : Instant) (c : Change) : MountEvent :=
  .dataChanged node c.kind c.version (c.paths.map (·.toString)) now

/-- A listener takes what waits for it and tells of it; any other registration tells nothing. -/
def hear (node : NodeId) (now : Instant) (m : Manager) : Registration → Manager
  | .listener l =>
    let (pool, l) := Listener.hear m.pool l
    { m with pool, outbox := m.outbox ++ l.heard.map (changeEvent node now) }
  | _ => m

/-- Every listener of every record tells of what waits for it. -/
def hearAll (m : Manager) (now : Instant) : Manager :=
  m.recordList.foldl (fun m r => r.registrations.foldl (hear r.node now) m) m

end Manager

end MountRegistry
