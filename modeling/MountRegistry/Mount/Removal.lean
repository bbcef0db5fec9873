import MountRegistry.Mount.Creation

/-
  Taking a mount point down, in the steps between which other calls can take their turn: remove
  the record, release what it holds one by one, let the pool go of its stores. `Removal.finish`
  takes all steps without a turn of others. The manager also takes down what the topology says is
  gone.
-/

namespace MountRegistry

/-- How far a removal has come. -/
inductive Removal where
  | taking (node : NodeId)
  /-- Releases what is held, with the failures so far. -/
  | releasing (record : MountRecord) (held : List Registration) (failures : Nat)
  | ended (removed : Bool)

namespace Removal

/-- The removal of a record that was taken from the manager. -/
def ofRecord (r : MountRecord) : Removal := .releasing r r.registrations 0

/-- The first step: the record is taken out, and with it all that it holds. Without a record
there is nothing to do. -/
def takeRecord (m : Manager) (node : NodeId) : Manager × Removal :=
  match m.record? node with
  | some r => ({ m with records := Keyed.erase m.records node }, ofRecord r)
  | none => (m, .ended false)

/-- Lets the pool go of the stores, and tells of the removal. -/
def releaseStores (m : Manager) (now : Instant) (r : MountRecord) (failures : Nat) : Manager :=
  { m with pool := (m.pool.removeMount r.mountPath).1 }.publish (.removed r.node failures now)

/-- The next step of a removal. A release that fails is counted and holds nothing up. -/
def step (m : Manager) (now : Instant) : Removal → Manager × Removal
  | taking node => takeRecord m node
  | releasing r [] failures => (releaseStores m now r failures, .ended true)
  | releasing r (held :: rest) failures =>
    let (endpoints, pool, result) := held.release m.endpoints m.pool
    let failures := match result with
      | .ok () => failures
      | .error _ => failures + 1
    ({ m with endpoints, pool }, .releasing r rest failures)
  | ended removed => (m, .ended removed)

/-- What came of a removal that has ended: whether there was a mount point to remove. -/
def outcome? : Removal → Option Bool
  | ended removed => some removed
  | _ => none

/-- A bound for the steps that are left: the phases, and the steps of this phase. -/
def stepsLeft : Removal → Nat × Nat
  | taking _ => (1, 0)
  | releasing _ held _ => (0, held.length + 1)
  | ended _ => (0, 0)

/-- Every step of a removal that has not ended leaves fewer. -/
theorem stepsLeft_step (m : Manager) (now : Instant) (r : Removal) (h : r.outcome? = none) :
    Prod.Lex (· < ·) (· < ·) (step m now r).2.stepsLeft r.stepsLeft := by
  cases r with
  | taking node =>
    simp only [step, takeRecord]
    split <;> exact Prod.Lex.left _ _ (by decide)
  | releasing record held failures =>
    cases held <;> exact Prod.Lex.right _ (by simp)
  | ended removed => simp [outcome?] at h

/-- Takes the steps that are left. -/
def finish (m : Manager) (now : Instant) (r : Removal) : Manager × Bool :=
  match _h : r.outcome? with
  | some removed => (m, removed)
  | none => finish (step m now r).1 now (step m now r).2
termination_by r.stepsLeft
decreasing_by exact stepsLeft_step m now r _h

end Removal

namespace Manager

/-- Takes down the mount point of a node, and answers whether there was one. -/
def delete (m : Manager) (now : Instant) (node : NodeId) : Manager × Bool :=
  Removal.finish m now (.taking node)

/-- Takes down every mount point. No record is left as soon as the first is taken down. -/
def closeAll (m : Manager) (now : Instant) : Manager :=
  m.recordList.foldl (fun m r => (Removal.finish m now (.ofRecord r)).1) { m with records := [] }

/-- Follows a change of the topology. A node that is set is brought up if its data come along. -/
def follow (now : Instant) (m : Manager) (c : TopologyChange) : Manager :=
  match c.kind, c.node with
  | .delete, _ => (m.delete now c.nodeId).1
  | _, some node =>
    match m.create now node with
    | (m, .error failure) => m.publish (.failed c.nodeId failure.message now)
    | (m, .ok _) => m
  | _, none => m

/-- Whether following a change lets others take their turn before anything comes of it. -/
def waitsFor (m : Manager) (c : TopologyChange) : Bool :=
  match c.kind, c.node with
  | .delete, _ => false
  | _, some node => (Creation.check m node).waitsForFiles
  | _, none => false

/-- Follows a batch of changes in order. -/
def followAll (m : Manager) (now : Instant) (batch : List TopologyChange) : Manager :=
  batch.foldl (follow now) m

end Manager

end MountRegistry
