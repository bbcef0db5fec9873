import MountRegistry.Json.Shape
import MountRegistry.Node.Path

/-
  The configured topology: the device nodes, and a feed of their changes in batches. An update
  changes the map of nodes and says what is to be published; publishing is a step of its own.
-/

namespace MountRegistry

/-- A device as it is announced: what it can do, and the directory that its sources are cached
in. -/
structure TopologyNode where
  nodeId : NodeId
  capabilities : List String
  cacheDirectory : String
  deriving DecidableEq, Repr

namespace TopologyNode

/-- The members that a node has to have. -/
def fields : List Field :=
  [⟨"node_id", .text, false⟩, ⟨"capabilities", .texts, false⟩,
    ⟨"schema_cache_directory", .text, false⟩]

/-- The node, from the members that were read. -/
def ofFields? (found : List (String × Json)) : Option TopologyNode := do
  let .text nodeId ← Keyed.find? found "node_id" | none
  let capabilities ← (← Keyed.find? found "capabilities").texts?
  let .text cacheDirectory ← Keyed.find? found "schema_cache_directory" | none
  return ⟨⟨nodeId⟩, capabilities, cacheDirectory⟩

/-- Reads a node. -/
def read (r : Reading) : Except Fault TopologyNode := do
  match ofFields? (← Field.readRecord fields r) with
  | some node => .ok node
  | none => .error .mismatched

end TopologyNode

/-- What a client sends to configure a node. -/
structure NodeRequest where
  capabilities : List String
  cacheDirectory : Option String
  deriving DecidableEq, Repr

namespace NodeRequest

/-- The members of a request for a node; the directory may be left out. -/
def fields : List Field :=
  [⟨"capabilities", .texts, false⟩, ⟨"schema_cache_directory", .optionalText, true⟩]

/-- The request, from the members that were read. -/
def ofFields? (found : List (String × Json)) : Option NodeRequest := do
  let capabilities ← (← Keyed.find? found "capabilities").texts?
  match Keyed.find? found "schema_cache_directory" with
  | some (.text directory) => return ⟨capabilities, some directory⟩
  | _ => return ⟨capabilities, none⟩

/-- Reads a request for a node. -/
def read (r : Reading) : Except Fault NodeRequest := do
  match ofFields? (← Field.readRecord fields r) with
  | some request => .ok request
  | none => .error .mismatched

/-- The node asked for; its directory is named like the node unless another name is given. -/
def toNode (r : NodeRequest) (nodeId : NodeId) : TopologyNode :=
  ⟨nodeId, r.capabilities, (r.cacheDirectory.filter (!·.isEmpty)).getD nodeId.text⟩

end NodeRequest

/-- What a change does to a node: sets a new one, sets one that is there, or removes one. -/
inductive ChangeKind where
  | write
  | subtreeModified
  | delete
  deriving DecidableEq, Repr

/-- The name of the kind, as answers write it. -/
def ChangeKind.name : ChangeKind → String
  | .write => "write"
  | .subtreeModified => "subtree_modified"
  | .delete => "delete"

/-- A change of one node, with what the node is afterwards unless it was removed. -/
structure TopologyChange where
  nodeId : NodeId
  kind : ChangeKind
  node : Option TopologyNode
  deriving DecidableEq, Repr

/-- The nodes, and the batches of changes that wait for the consumer, oldest first. -/
structure Topology where
  nodes : List (NodeId × TopologyNode) := []
  feed : List (List TopologyChange) := []
  /-- Whether anyone takes the batches. -/
  hasConsumer : Bool := true
  deriving Repr

namespace Topology

/-- The node of an identifier. -/
def node? (t : Topology) (id : NodeId) : Option TopologyNode := Keyed.find? t.nodes id

/-- All nodes, in the order of their identifiers. -/
def nodeList (t : Topology) : List TopologyNode := t.nodes.map (·.2)

/-- Sets a node. The change is not published yet. -/
def update (t : Topology) (node : TopologyNode) : Topology × TopologyChange :=
  let kind := if Keyed.contains t.nodes node.nodeId then .subtreeModified else .write
  ({ t with nodes := Keyed.insert t.nodes node.nodeId node }, ⟨node.nodeId, kind, some node⟩)

/-- Removes a node. The change, if there is one, is not published yet. -/
def withdraw (t : Topology) (id : NodeId) : Topology × Option TopologyChange :=
  if Keyed.contains t.nodes id then
    ({ t with nodes := Keyed.erase t.nodes id }, some ⟨id, .delete, none⟩)
  else (t, none)

/-- A batch joins the feed, unless nobody would take it. -/
def publish (t : Topology) (batch : List TopologyChange) : Topology :=
  if t.hasConsumer then { t with feed := t.feed ++ [batch] } else t

/-- Sets a node, and publishes the change as a batch of its own. -/
def put (t : Topology) (node : TopologyNode) : Topology × ChangeKind :=
  let (t, change) := t.update node
  (t.publish [change], change.kind)

/-- Removes a node, and publishes the change if there was such a node. -/
def remove (t : Topology) (id : NodeId) : Topology × Bool :=
  match t.withdraw id with
  | (t, some change) => (t.publish [change], true)
  | (t, none) => (t, false)

/-- The consumer takes every batch that waits. -/
def takeFeed (t : Topology) : List (List TopologyChange) × Topology :=
  (t.feed, { t with feed := [] })

/-- The consumer leaves. -/
def close (t : Topology) : Topology := { t with feed := [], hasConsumer := false }

end Topology

end MountRegistry
