import MountRegistry.Node.Topology
import MountRegistry.Proofs.Keyed
import MountRegistry.Proofs.Node.Path

/-
  Changes of the topology, replayed on the nodes. A replay looks at each node by itself: it goes
  through if the changes of each node do (`replay?_isSome`), and makes of each node what these make
  of it. So changes of different nodes may trade places (`replay?_of_same`).
-/

namespace MountRegistry

namespace TopologyChange

/-- What a change makes of what was there of its node. A write is of a node that was absent, any
other change of one that was present. -/
def make? (c : TopologyChange) (old : Option TopologyNode) : Option (Option TopologyNode) :=
  match c.kind, c.node, old with
  | .write, some node, none => some (some node)
  | .subtreeModified, some node, some _ => some (some node)
  | .delete, _, some _ => some none
  | _, _, _ => none

/-- The changes that name a node. -/
def of (id : NodeId) (cs : List TopologyChange) : List TopologyChange :=
  cs.filter fun c => c.nodeId = id

/-- What the changes make of what was there of one node. -/
def makeAll? (old : Option TopologyNode) : List TopologyChange → Option (Option TopologyNode)
  | [] => some old
  | c :: rest => (c.make? old).bind (makeAll? · rest)

/-- The nodes with something else there, or nothing. -/
def put (nodes : List (NodeId × TopologyNode)) (id : NodeId) :
    Option TopologyNode → List (NodeId × TopologyNode)
  | some node => Keyed.insert nodes id node
  | none => Keyed.erase nodes id

/-- The nodes after the changes, if each of them fits. -/
def replay? (nodes : List (NodeId × TopologyNode)) :
    List TopologyChange → Option (List (NodeId × TopologyNode))
  | [] => some nodes
  | c :: rest =>
    (c.make? (Keyed.find? nodes c.nodeId)).bind fun new => replay? (put nodes c.nodeId new) rest

variable {nodes nodes' : List (NodeId × TopologyNode)} {cs : List TopologyChange}

theorem find?_put (nodes : List (NodeId × TopologyNode)) (id q : NodeId)
    (new : Option TopologyNode) :
    Keyed.find? (put nodes id new) q = if q = id then new else Keyed.find? nodes q := by
  cases new with
  | some node => exact Keyed.find?_insert ..
  | none => exact Keyed.find?_erase ..

theorem ascending_put (h : Keyed.Ascending nodes) (id : NodeId) (new : Option TopologyNode) :
    Keyed.Ascending (put nodes id new) := by
  cases new with
  | some node => exact h.insert id node
  | none => exact h.erase id

theorem replay?_append (cs ds : List TopologyChange) :
    replay? nodes (cs ++ ds) = (replay? nodes cs).bind (replay? · ds) := by
  induction cs generalizing nodes with
  | nil => rfl
  | cons c cs ih =>
    simp only [List.cons_append, replay?]
    cases c.make? (Keyed.find? nodes c.nodeId) with
    | none => rfl
    | some new => exact ih

theorem ascending_replay? (h : Keyed.Ascending nodes) (hr : replay? nodes cs = some nodes') :
    Keyed.Ascending nodes' := by
  induction cs generalizing nodes with
  | nil => exact Option.some.inj hr ▸ h
  | cons c cs ih =>
    obtain ⟨new, _, hr⟩ := Option.bind_eq_some_iff.1 hr
    exact ih (ascending_put h c.nodeId new) hr

theorem of_cons (id : NodeId) (c : TopologyChange) (cs : List TopologyChange) :
    of id (c :: cs) = if c.nodeId = id then c :: of id cs else of id cs := by
  unfold of
  rw [List.filter_cons]
  simp only [decide_eq_true_eq]

theorem of_append (id : NodeId) (cs ds : List TopologyChange) :
    of id (cs ++ ds) = of id cs ++ of id ds :=
  List.filter_append ..

theorem of_middle (id : NodeId) (before after : List TopologyChange) (c : TopologyChange) :
    of id (before ++ c :: after) =
      of id before ++ ((if c.nodeId = id then [c] else []) ++ of id after) := by
  rw [of_append, of_cons]
  split <;> rfl

/-- A replay that goes through makes of each node what the changes of that node do. -/
theorem makeAll?_of_replay? (h : replay? nodes cs = some nodes') (id : NodeId) :
    makeAll? (Keyed.find? nodes id) (of id cs) = some (Keyed.find? nodes' id) := by
  induction cs generalizing nodes with
  | nil => exact congrArg (fun m => some (Keyed.find? m id)) (Option.some.inj h)
  | cons c cs ih =>
    obtain ⟨new, hnew, hrest⟩ := Option.bind_eq_some_iff.1 h
    have hid := ih hrest
    rw [find?_put] at hid
    rw [of_cons]
    split
    · rename_i hc
      rw [if_pos hc.symm] at hid
      rw [makeAll?, ← hc, hnew]
      exact hc ▸ hid
    · rename_i hc
      rwa [if_neg (Ne.symm hc)] at hid

/-- A replay goes through if the changes of each node do. -/
theorem replay?_isSome (h : ∀ id, (makeAll? (Keyed.find? nodes id) (of id cs)).isSome) :
    ∃ nodes', replay? nodes cs = some nodes' := by
  induction cs generalizing nodes with
  | nil => exact ⟨nodes, rfl⟩
  | cons c cs ih =>
    have hc := h c.nodeId
    rw [of_cons, if_pos rfl, makeAll?] at hc
    cases hnew : c.make? (Keyed.find? nodes c.nodeId) with
    | none =>
      rw [hnew] at hc
      cases hc
    | some new =>
      rw [hnew] at hc
      have hrest : ∀ id,
          (makeAll? (Keyed.find? (put nodes c.nodeId new) id) (of id cs)).isSome := by
        intro id
        rw [find?_put]
        split
        · rename_i hid
          rw [hid]
          exact hc
        · rename_i hid
          have hother := h id
          rwa [of_cons, if_neg (Ne.symm hid)] at hother
      obtain ⟨nodes', hr⟩ := ih hrest
      exact ⟨nodes', by rw [replay?, hnew]; exact hr⟩

/-- Whatever order changes come in, they replay the same if those of each node come in the same. -/
theorem replay?_of_same {ds : List TopologyChange} (hasc : Keyed.Ascending nodes)
    (hsame : ∀ id, of id ds = of id cs) (h : replay? nodes cs = some nodes') :
    replay? nodes ds = some nodes' := by
  have hmake : ∀ id, makeAll? (Keyed.find? nodes id) (of id ds) =
      some (Keyed.find? nodes' id) := by
    intro id
    rw [hsame]
    exact makeAll?_of_replay? h id
  have hfits : ∀ id, (makeAll? (Keyed.find? nodes id) (of id ds)).isSome := by
    intro id
    rw [hmake]
    rfl
  obtain ⟨other, hother⟩ := replay?_isSome hfits
  rw [hother]
  refine congrArg some ((ascending_replay? hasc hother).ext (ascending_replay? hasc h) fun id => ?_)
  exact Option.some.inj ((makeAll?_of_replay? hother id).symm.trans (hmake id))

end TopologyChange

end MountRegistry
