import MountRegistry.Mount.Manager
import MountRegistry.Node.Topology

/-
  Bringing a mount point up, in the steps between which other calls can take their turn: look for a
  record, resolve the schema, take the two stores from the pool, register the endpoint, insert the
  record. A creation that fails inserts no record; one that finds a record at the end gives up what
  it holds. `Creation.finish` takes all steps without a turn of others.
-/

namespace MountRegistry

/-- What a creation comes to when it does not fail. -/
inductive CreateOutcome where
  | created
  | alreadyActive
  deriving DecidableEq, Repr

/-- How far a creation has come, and what it knows by then. -/
inductive Creation where
  | checking (node : TopologyNode)
  | resolving (node : TopologyNode)
  /-- Takes the configuration store; `missed` once a look-up did not find it. -/
  | takingConfiguration (node : TopologyNode) (model : Yang.Model) (missed : Bool)
  | takingOperational (node : TopologyNode) (model : Yang.Model) (configuration : Nat)
      (missed : Bool)
  | registering (node : TopologyNode) (broker : Broker)
  | recording (record : MountRecord)
  /-- Releases what a superfluous creation holds. -/
  | discarding (held : List Registration)
  | ended (outcome : Except MountFailure CreateOutcome)

namespace Creation

/-- The first step: a node that is up already, or has no capabilities, is not brought up. -/
def check (m : Manager) (node : TopologyNode) : Creation :=
  if m.isActive node.nodeId then .ended (.ok .alreadyActive)
  else if node.capabilities.isEmpty then .ended (.error (.noCapabilities node.nodeId))
  else .resolving node

/-- Whether the next step works on files, and so lets others take their turn before it ends. -/
def waitsForFiles : Creation → Bool
  | resolving node => Resolution.isDirectoryName node.cacheDirectory
  | _ => false

/-- Resolves the schema in the cache directory of the node. What was found on the way stays in
the library and in the files, also if it fails. -/
def resolve (m : Manager) (node : TopologyNode) : Manager × Creation :=
  let o := Resolution.resolve m.cacheRoot node.cacheDirectory m.library m.files
    (CapabilityReport.ofList node.capabilities).modules
  ({ m with library := o.library, files := o.files },
    match o.result with
    | .ok model => .takingConfiguration node model false
    | .error cause => .ended (.error (.schema node.nodeId cause)))

/-- One step of taking a store from the pool: a look-up, or the insertion after it missed. -/
def take (m : Manager) (path : MountPath) (kind : StoreKind) (model : Yang.Model) (missed : Bool) :
    Manager × Option Nat :=
  if missed then
    let (pool, n) := m.pool.insertIfAbsent path kind model
    ({ m with pool }, some n)
  else (m, m.pool.lookup? path kind)

/-- Registers the endpoint and listens to the configuration store. -/
def register (m : Manager) (now : Instant) (node : TopologyNode) (b : Broker) :
    Manager × Creation :=
  match m.endpoints.register b with
  | .error failure => (m, .ended (.error failure))
  | .ok endpoints =>
    let (pool, l) := Listener.create m.pool b .configuration false
    ({ m with endpoints, pool },
      .recording ⟨b, node.cacheDirectory, now, [.endpoint b.mountPath, .listener l]⟩)

/-- The last step: the record is inserted unless another is there, and only then is the creation
told. -/
def insertRecord (m : Manager) (now : Instant) (r : MountRecord) : Manager × Creation :=
  if m.isActive r.node then (m, .discarding r.registrations)
  else
    let m := { m with records := Keyed.insert m.records r.node r }
    (m.publish (.created r.node r.mountPath r.broker.model.size now), .ended (.ok .created))

/-- The next step of a creation. -/
def step (m : Manager) (now : Instant) : Creation → Manager × Creation
  | checking node => (m, check m node)
  | resolving node => resolve m node
  | takingConfiguration node model missed =>
    match take m node.nodeId.mountPath .configuration model missed with
    | (m, some n) => (m, .takingOperational node model n false)
    | (m, none) => (m, .takingConfiguration node model true)
  | takingOperational node model configuration missed =>
    match take m node.nodeId.mountPath .operational model missed with
    | (m, some n) => (m, .registering node ⟨node.nodeId, model, configuration, n⟩)
    | (m, none) => (m, .takingOperational node model configuration true)
  | registering node b => register m now node b
  | recording r => insertRecord m now r
  | discarding [] => (m, .ended (.ok .alreadyActive))
  | discarding (r :: rest) =>
    let (endpoints, pool, _) := r.release m.endpoints m.pool
    ({ m with endpoints, pool }, .discarding rest)
  | ended outcome => (m, .ended outcome)

/-- What came of a creation that has ended. -/
def outcome? : Creation → Option (Except MountFailure CreateOutcome)
  | ended outcome => some outcome
  | _ => none

/-- A bound for the steps that are left. -/
def stepsLeft : Creation → Nat
  | ended _ => 0
  | discarding held => held.length + 1
  | recording r => r.registrations.length + 2
  | registering _ _ => 5
  | takingOperational _ _ _ missed => if missed then 6 else 7
  | takingConfiguration _ _ missed => if missed then 8 else 9
  | resolving _ => 10
  | checking _ => 11

theorem take_missed (m : Manager) (path : MountPath) (kind : StoreKind) (model : Yang.Model) :
    (take m path kind model true).2.isSome := by
  simp [take]

theorem stepsLeft_check (m : Manager) (node : TopologyNode) :
    (check m node).stepsLeft < stepsLeft (checking node) := by
  unfold check
  split
  · simp [stepsLeft]
  · split <;> simp [stepsLeft]

theorem stepsLeft_resolve (m : Manager) (node : TopologyNode) :
    (resolve m node).2.stepsLeft < stepsLeft (resolving node) := by
  unfold resolve
  dsimp only
  split <;> simp [stepsLeft]

theorem stepsLeft_register (m : Manager) (now : Instant) (node : TopologyNode) (b : Broker) :
    (register m now node b).2.stepsLeft < stepsLeft (registering node b) := by
  unfold register
  split <;> simp [stepsLeft]

theorem stepsLeft_insertRecord (m : Manager) (now : Instant) (r : MountRecord) :
    (insertRecord m now r).2.stepsLeft < stepsLeft (recording r) := by
  unfold insertRecord
  split <;> simp [stepsLeft]

/-- Every step of a creation that has not ended leaves fewer. -/
theorem stepsLeft_step (m : Manager) (now : Instant) (c : Creation) (h : c.outcome? = none) :
    (step m now c).2.stepsLeft < c.stepsLeft := by
  cases c with
  | checking node => exact stepsLeft_check m node
  | resolving node => exact stepsLeft_resolve m node
  | takingConfiguration node model missed =>
    simp only [step]
    split
    · cases missed <;> simp [stepsLeft]
    · rename_i e
      cases missed
      · simp [stepsLeft]
      · have := take_missed m node.nodeId.mountPath .configuration model
        simp [e] at this
  | takingOperational node model configuration missed =>
    simp only [step]
    split
    · cases missed <;> simp [stepsLeft]
    · rename_i e
      cases missed
      · simp [stepsLeft]
      · have := take_missed m node.nodeId.mountPath .operational model
        simp [e] at this
  | registering node b => exact stepsLeft_register m now node b
  | recording r => exact stepsLeft_insertRecord m now r
  | discarding held => cases held <;> simp [step, stepsLeft]
  | ended outcome => simp [outcome?] at h

/-- Takes the steps that are left. -/
def finish (m : Manager) (now : Instant) (c : Creation) :
    Manager × Except MountFailure CreateOutcome :=
  match _h : c.outcome? with
  | some outcome => (m, outcome)
  | none => finish (step m now c).1 now (step m now c).2
termination_by c.stepsLeft
decreasing_by exact stepsLeft_step m now c _h

end Creation

/-- Brings up the mount point of a node, unless it is active. -/
def Manager.create (m : Manager) (now : Instant) (node : TopologyNode) :
    Manager × Except MountFailure CreateOutcome :=
  Creation.finish m now (.checking node)

end MountRegistry
