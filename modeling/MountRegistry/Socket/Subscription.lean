import MountRegistry.Node.Path

/-
  What the client of a socket wants to hear of: some nodes, or all of them. A list of targets names
  nodes; a star in it stands for all nodes, and an empty name for none.
-/

namespace MountRegistry

/-- The nodes that a list of targets names, and whether it has a star. -/
structure Targets where
  nodes : List NodeId
  all : Bool
  deriving DecidableEq, Repr

/-- The targets that a client names: nodes, or a star for all of them. -/
def Targets.ofTexts (texts : List String) : Targets where
  nodes := (texts.filter fun t => t ≠ "*" ∧ t ≠ "").map NodeId.mk
  all := texts.contains "*"

/-- What a client listens to. -/
structure Subscription where
  /-- The nodes subscribed to by name, without duplicates. -/
  nodes : List NodeId := []
  all : Bool := false
  deriving DecidableEq, Repr

namespace Subscription

/-- The number of nodes subscribed to by name. -/
def count (s : Subscription) : Nat := s.nodes.length

/-- Whether the events of a node reach the client. -/
def hears (s : Subscription) (node : NodeId) : Bool := s.all || decide (node ∈ s.nodes)

/-- Adds targets. Naming a node twice is naming it once. -/
def subscribe (s : Subscription) (t : Targets) : Subscription where
  nodes := t.nodes.foldl (fun nodes n => if n ∈ nodes then nodes else nodes ++ [n]) s.nodes
  all := s.all || t.all

/-- Takes targets away. All nodes and single ones are kept apart. -/
def unsubscribe (s : Subscription) (t : Targets) : Subscription where
  nodes := s.nodes.filter fun n => decide (n ∉ t.nodes)
  all := s.all && !t.all

end Subscription

end MountRegistry
