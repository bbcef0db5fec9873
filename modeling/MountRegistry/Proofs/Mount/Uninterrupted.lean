import MountRegistry.Mount.Removal
import MountRegistry.Proofs.Store.Pool

/-
  What a creation and a removal come to if nobody takes a turn between their steps. A creation
  leaves the manager alone but for the library and the files, or else it brings the mount point up
  (`bringUp`); which of the two, and with which schema, does not depend on the pool
  (`create_cases`). A removal releases all that the record holds and lets the pool go of the stores
  of the path (`finish_ofRecord`).
-/

namespace MountRegistry

namespace Manager

/-- The endpoint of a broker is published, and its configuration store listened to. -/
def publishEndpoint (m : Manager) (b : Broker) : Manager :=
  { m with
    pool := (Listener.create m.pool b .configuration false).1
    endpoints := ⟨Keyed.insert m.endpoints.points b.mountPath b⟩ }

/-- The record of a mount point whose endpoint is about to be published. -/
def recordFor (m : Manager) (now : Instant) (node : TopologyNode) (b : Broker) : MountRecord :=
  ⟨b, node.cacheDirectory, now,
    [.endpoint b.mountPath, .listener (Listener.create m.pool b .configuration false).2]⟩

/-- The manager with the record, and the event that tells of it. -/
def putRecord (m : Manager) (now : Instant) (r : MountRecord) : Manager :=
  { m with records := Keyed.insert m.records r.node r }.publish
    (.created r.node r.mountPath r.broker.model.size now)

/-- The manager with a new mount point, if nothing is in its way. -/
def bringUp (m : Manager) (now : Instant) (node : TopologyNode) (model : Yang.Model) : Manager :=
  let (pool, b) := Broker.ofPool m.pool node.nodeId model
  let m := { m with pool }
  (m.publishEndpoint b).putRecord now (m.recordFor now node b)

/-- The manager after a mount point with this listener is taken down, if nothing goes wrong. -/
def takeDown (m : Manager) (now : Instant) (r : MountRecord) (l : Listener) : Manager :=
  let pool := m.pool.setStore l.store ((m.pool.store l.store).unsubscribe l.receiver)
  { m with
    endpoints := ⟨Keyed.erase m.endpoints.points r.mountPath⟩
    pool := (pool.removeMount r.mountPath).1 }.publish (.removed r.node 0 now)

theorem isActive_eq_false_iff {m : Manager} {node : NodeId} :
    m.isActive node = false ↔ m.record? node = none := by
  unfold isActive record? Keyed.contains
  rw [Option.isSome_eq_false_iff, Option.isNone_iff_eq_none]

end Manager

namespace Endpoints

theorem register_of_free {e : Endpoints} {b : Broker} (h : e.find? b.mountPath = none) :
    e.register b = .ok ⟨Keyed.insert e.points b.mountPath b⟩ := by
  unfold register Keyed.contains
  rw [show Keyed.find? e.points b.mountPath = none from h]
  rfl

theorem register_of_published {e : Endpoints} {b b' : Broker}
    (h : e.find? b.mountPath = some b') :
    e.register b = .error (.alreadyRegistered b.mountPath) := by
  unfold register Keyed.contains
  rw [show Keyed.find? e.points b.mountPath = some b' from h]
  rfl

theorem unregister_of_published {e : Endpoints} {path : MountPath} {b : Broker}
    (h : e.find? path = some b) : e.unregister path = .ok ⟨Keyed.erase e.points path⟩ := by
  unfold unregister Keyed.contains
  rw [show Keyed.find? e.points path = some b from h]
  rfl

end Endpoints

namespace Listener

/-- Closing a listener touches neither keys nor number of the stores. -/
theorem close_pool (l : Listener) (pool : StorePool) :
    (l.close pool).1.keys = pool.keys ∧ (l.close pool).1.created = pool.created := by
  unfold Listener.close
  split
  · exact ⟨rfl, rfl⟩
  · exact ⟨rfl, StorePool.created_setStore ..⟩

end Listener

namespace Broker

/-- Where the pool has neither store of a node, both are built. -/
theorem ofPool_of_absent {pool : StorePool} {node : NodeId}
    (h : ∀ kind, pool.lookup? node.mountPath kind = none) (model : Yang.Model) :
    ofPool pool node model =
      (⟨pool.stores ++ StoreKind.all.map fun kind =>
          Store.create (node.mountPath.storeName kind) kind model,
        Keyed.insert (Keyed.insert pool.keys (node.mountPath, .configuration) pool.created)
          (node.mountPath, .operational) (pool.created + 1)⟩,
        { node, model, configuration := pool.created, operational := pool.created + 1 }) := by
  have hother : (node.mountPath, StoreKind.operational) ≠ (node.mountPath, .configuration) :=
    fun h => StoreKind.noConfusion (Prod.mk.inj h).2
  have hlater : StorePool.lookup?
      ⟨pool.stores ++ [Store.create (node.mountPath.storeName .configuration) .configuration model],
        Keyed.insert pool.keys (node.mountPath, .configuration) pool.stores.length⟩
      node.mountPath .operational = none :=
    (Keyed.find?_insert_of_ne _ _ hother).trans (h .operational)
  unfold ofPool
  rw [StorePool.getOrCreate_of_lookup?_eq_none (h .configuration)]
  dsimp only
  rw [StorePool.getOrCreate_of_lookup?_eq_none hlater]
  simp only [List.append_assoc, List.length_append, List.length_singleton, StorePool.created]
  rfl

/-- The pool holds the stores of the broker under its path, and else what it held. -/
theorem lookup?_ofPool (pool : StorePool) (node : NodeId) (model : Yang.Model) (path : MountPath)
    (kind : StoreKind) :
    (ofPool pool node model).1.lookup? path kind =
      if path = node.mountPath then some ((ofPool pool node model).2.storeNumber kind)
      else pool.lookup? path kind := by
  unfold ofPool
  simp only [StorePool.getOrCreate_eq, StorePool.lookup?_insertIfAbsent]
  by_cases hpath : path = node.mountPath
  · cases kind <;> simp [hpath, storeNumber]
  · simp [hpath]

theorem stores_ofPool (pool : StorePool) (node : NodeId) (model : Yang.Model) :
    pool.stores <+: (ofPool pool node model).1.stores := by
  unfold ofPool
  simp only [StorePool.getOrCreate_eq]
  exact (StorePool.stores_insertIfAbsent ..).trans (StorePool.stores_insertIfAbsent ..)

/-- A store that is built for a broker is empty. -/
theorem store?_ofPool {pool : StorePool} {node : NodeId}
    (h : ∀ kind, pool.lookup? node.mountPath kind = none) (model : Yang.Model) (kind : StoreKind) :
    (ofPool pool node model).1.store? ((ofPool pool node model).2.storeNumber kind) =
      some (Store.create (node.mountPath.storeName kind) kind model) := by
  rw [ofPool_of_absent h]
  have place : ∀ (built : List Store) (k : Nat),
      (pool.stores ++ built)[pool.stores.length + k]? = built[k]? := by
    intro built k
    rw [List.getElem?_append_right (Nat.le_add_right ..), Nat.add_sub_cancel_left]
  cases kind
  · exact place _ 0
  · exact place _ 1

end Broker

namespace Creation

variable {m : Manager} {now : Instant} {node : TopologyNode} {model : Yang.Model}

theorem finish_ended (m : Manager) (now : Instant) (o : Except MountFailure CreateOutcome) :
    finish m now (.ended o) = (m, o) := by
  unfold finish
  rfl

/-- One step, and then the steps that are left. -/
theorem finish_of_step {c c' : Creation} {m' : Manager} (h : c.outcome? = none)
    (hstep : step m now c = (m', c')) : finish m now c = finish m' now c' := by
  conv => lhs; unfold finish
  split
  · rename_i o ho
    rw [h] at ho
    cases ho
  · rw [hstep]

theorem register_of_free {b : Broker} (h : m.endpoints.find? b.mountPath = none) :
    register m now node b = (m.publishEndpoint b, .recording (m.recordFor now node b)) := by
  simp only [register, Endpoints.register_of_free h]
  rfl

theorem insertRecord_of_absent {r : MountRecord} (h : m.isActive r.node = false) :
    insertRecord m now r = (m.putRecord now r, .ended (.ok .created)) := by
  unfold insertRecord
  rw [if_neg (Bool.eq_false_iff.1 h)]
  rfl

theorem finish_takingConfiguration :
    finish m now (.takingConfiguration node model false) =
      let (pool, n) := m.pool.getOrCreate node.nodeId.mountPath .configuration model
      finish { m with pool } now (.takingOperational node model n false) := by
  unfold StorePool.getOrCreate
  cases h : m.pool.lookup? node.nodeId.mountPath .configuration with
  | some n => exact finish_of_step rfl (by simp only [step, take, h]; rfl)
  | none =>
    rw [finish_of_step rfl (by simp only [step, take, h]; rfl)]
    exact finish_of_step rfl rfl

theorem finish_takingOperational {configuration : Nat} :
    finish m now (.takingOperational node model configuration false) =
      let (pool, n) := m.pool.getOrCreate node.nodeId.mountPath .operational model
      finish { m with pool } now (.registering node ⟨node.nodeId, model, configuration, n⟩) := by
  unfold StorePool.getOrCreate
  cases h : m.pool.lookup? node.nodeId.mountPath .operational with
  | some n => exact finish_of_step rfl (by simp only [step, take, h]; rfl)
  | none =>
    rw [finish_of_step rfl (by simp only [step, take, h]; rfl)]
    exact finish_of_step rfl rfl

/-- Both stores are taken as a broker takes them. -/
theorem finish_taking :
    finish m now (.takingConfiguration node model false) =
      let (pool, b) := Broker.ofPool m.pool node.nodeId model
      finish { m with pool } now (.registering node b) := by
  rw [finish_takingConfiguration]
  dsimp only
  rw [finish_takingOperational]
  rfl

/-- With the path free and the node absent, the creation ends well. -/
theorem finish_registering {b : Broker} (hnode : m.isActive b.node = false)
    (hpath : m.endpoints.find? b.mountPath = none) :
    finish m now (.registering node b) =
      ((m.publishEndpoint b).putRecord now (m.recordFor now node b), .ok .created) :=
  calc finish m now (.registering node b)
    _ = finish (m.publishEndpoint b) now (.recording (m.recordFor now node b)) :=
      finish_of_step rfl (register_of_free hpath)
    _ = finish ((m.publishEndpoint b).putRecord now (m.recordFor now node b)) now
          (.ended (.ok .created)) :=
      finish_of_step rfl (insertRecord_of_absent hnode)
    _ = _ := finish_ended ..

theorem finish_resolved (hnode : m.isActive node.nodeId = false)
    (hpath : m.endpoints.find? node.nodeId.mountPath = none) :
    finish m now (.takingConfiguration node model false) =
      (m.bringUp now node model, .ok .created) := by
  rw [finish_taking]
  exact finish_registering hnode hpath

end Creation

namespace Manager

variable {m : Manager} {now : Instant} {node : TopologyNode}

/-- The resolution of the schema of a node. -/
def resolution (m : Manager) (node : TopologyNode) : Resolution.Outcome :=
  Resolution.resolve m.cacheRoot node.cacheDirectory m.library m.files
    (CapabilityReport.ofList node.capabilities).modules

theorem create_of_check {c : Creation} (h : Creation.check m node = c) :
    m.create now node = Creation.finish m now c :=
  Creation.finish_of_step rfl (Prod.ext rfl h)

theorem create_of_active (h : m.isActive node.nodeId = true) :
    m.create now node = (m, .ok .alreadyActive) := by
  rw [create_of_check (by rw [Creation.check, if_pos h])]
  exact Creation.finish_ended ..

theorem create_of_bare (h : m.isActive node.nodeId = false)
    (hcap : node.capabilities.isEmpty = true) :
    m.create now node = (m, .error (.noCapabilities node.nodeId)) := by
  rw [create_of_check (by rw [Creation.check, if_neg (Bool.eq_false_iff.1 h), if_pos hcap])]
  exact Creation.finish_ended ..

theorem create_of_capable (h : m.isActive node.nodeId = false)
    (hcap : node.capabilities.isEmpty = false) :
    m.create now node =
      let o := m.resolution node
      Creation.finish { m with library := o.library, files := o.files } now
        (match o.result with
        | .ok model => .takingConfiguration node model false
        | .error cause => .ended (.error (.schema node.nodeId cause))) := by
  rw [create_of_check (by
    rw [Creation.check, if_neg (Bool.eq_false_iff.1 h), if_neg (Bool.eq_false_iff.1 hcap)])]
  exact Creation.finish_of_step rfl rfl

theorem create_of_unresolved (h : m.isActive node.nodeId = false)
    (hcap : node.capabilities.isEmpty = false) {cause : ResolutionFailure}
    (hcause : (m.resolution node).result = .error cause) :
    m.create now node =
      ({ m with
        library := (m.resolution node).library
        files := (m.resolution node).files }, .error (.schema node.nodeId cause)) := by
  rw [create_of_capable h hcap]
  dsimp only
  rw [hcause]
  exact Creation.finish_ended ..

theorem create_of_resolved (h : m.isActive node.nodeId = false)
    (hfree : m.endpoints.find? node.nodeId.mountPath = none)
    (hcap : node.capabilities.isEmpty = false) {model : Yang.Model}
    (hmodel : (m.resolution node).result = .ok model) :
    m.create now node =
      ({ m with
        library := (m.resolution node).library
        files := (m.resolution node).files }.bringUp now node model, .ok .created) := by
  rw [create_of_capable h hcap]
  dsimp only
  rw [hmodel]
  exact Creation.finish_resolved h hfree

/-- What comes of a creation, whatever the pool, if the path of an absent node is free: nothing, a
failure, or a new mount point. -/
theorem create_cases (m : Manager) (now : Instant) (node : TopologyNode)
    (hfree : m.isActive node.nodeId = false → m.endpoints.find? node.nodeId.mountPath = none) :
    (m.isActive node.nodeId = true ∧
      ∀ pool, { m with pool }.create now node = ({ m with pool }, .ok .alreadyActive)) ∨
    (m.isActive node.nodeId = false ∧ ∃ library files failure, ∀ pool,
      { m with pool }.create now node = ({ m with pool, library, files }, .error failure)) ∨
    (m.isActive node.nodeId = false ∧ ∃ library files model, ∀ pool,
      { m with pool }.create now node =
        ({ m with pool, library, files }.bringUp now node model, .ok .created)) := by
  cases hact : m.isActive node.nodeId with
  | true => exact .inl ⟨rfl, fun pool => create_of_active hact⟩
  | false =>
    cases hcap : node.capabilities.isEmpty with
    | true => exact .inr (.inl ⟨rfl, _, _, _, fun pool => create_of_bare hact hcap⟩)
    | false =>
      cases ho : (m.resolution node).result with
      | error cause =>
        exact .inr (.inl ⟨rfl, (m.resolution node).library, (m.resolution node).files, _,
          fun pool => create_of_unresolved (m := { m with pool }) hact hcap ho⟩)
      | ok model =>
        exact .inr (.inr ⟨rfl, (m.resolution node).library, (m.resolution node).files, model,
          fun pool => create_of_resolved (m := { m with pool }) hact (hfree hact) hcap ho⟩)

end Manager

namespace Removal

variable {m : Manager} {now : Instant}

theorem finish_ended (m : Manager) (now : Instant) (b : Bool) :
    finish m now (.ended b) = (m, b) := by
  unfold finish
  rfl

theorem finish_of_step {r r' : Removal} {m' : Manager} (h : r.outcome? = none)
    (hstep : step m now r = (m', r')) : finish m now r = finish m' now r' := by
  conv => lhs; unfold finish
  split
  · rename_i o ho
    rw [h] at ho
    cases ho
  · rw [hstep]

/-- Releasing step by step counts the same failures as releasing all at once. -/
theorem finish_releasing (m : Manager) (now : Instant) (r : MountRecord) (held : List Registration)
    (failures : Nat) :
    finish m now (.releasing r held failures) =
      let (endpoints, pool, n) := Registration.releaseAll m.endpoints m.pool held
      (releaseStores { m with endpoints, pool } now r (failures + n), true) := by
  induction held generalizing m failures with
  | nil =>
    rw [finish_of_step rfl rfl]
    exact finish_ended ..
  | cons h held ih =>
    rw [finish_of_step rfl rfl, ih]
    dsimp only [Registration.releaseAll]
    cases (h.release m.endpoints m.pool).2.2 with
    | ok u => rfl
    | error e =>
      dsimp only
      rw [Nat.add_right_comm, Nat.add_assoc]

theorem finish_ofRecord (m : Manager) (now : Instant) (r : MountRecord) :
    finish m now (.ofRecord r) =
      let (endpoints, pool, n) := Registration.releaseAll m.endpoints m.pool r.registrations
      (releaseStores { m with endpoints, pool } now r n, true) := by
  rw [ofRecord, finish_releasing]
  simp only [Nat.zero_add]

theorem created_releaseAll (e : Endpoints) (pool : StorePool) (held : List Registration) :
    (Registration.releaseAll e pool held).2.1.created = pool.created := by
  induction held generalizing e pool with
  | nil => rfl
  | cons r held ih =>
    unfold Registration.releaseAll
    refine (ih _ _).trans ?_
    cases r with
    | endpoint path =>
      unfold Registration.release
      dsimp only
      split <;> rfl
    | listener l => exact (l.close_pool pool).2
    | resource name releasable => rfl

/-- A removal builds no store, and none is lost. -/
theorem created_finish_ofRecord (m : Manager) (now : Instant) (r : MountRecord) :
    (finish m now (.ofRecord r)).1.pool.created = m.pool.created := by
  rw [finish_ofRecord]
  exact created_releaseAll m.endpoints m.pool r.registrations

theorem records_finish_ofRecord (m : Manager) (now : Instant) (r : MountRecord) :
    (finish m now (.ofRecord r)).1.records = m.records := by
  rw [finish_ofRecord]
  rfl

/-- With the endpoint published and the listener alive, no release fails. -/
theorem finish_ofRecord_of_published {r : MountRecord} {l : Listener} {b : Broker}
    (hr : r.registrations = [.endpoint r.mountPath, .listener l]) (hl : l.state ≠ .dead)
    (hb : m.endpoints.find? r.mountPath = some b) :
    finish m now (.ofRecord r) = (m.takeDown now r l, true) := by
  have hclose : l.close m.pool =
      (m.pool.setStore l.store ((m.pool.store l.store).unsubscribe l.receiver),
        { l with state := .closed }, .ok ()) := by
    unfold Listener.close
    split
    · rename_i h
      exact absurd h hl
    · rfl
  rw [finish_ofRecord, hr]
  simp only [Registration.releaseAll, Registration.release,
    Endpoints.unregister_of_published hb, hclose]
  rfl

end Removal

namespace Manager

theorem delete_of_record?_eq_none {m : Manager} {now : Instant} {node : NodeId}
    (h : m.record? node = none) : m.delete now node = (m, false) := by
  unfold delete
  rw [Removal.finish_of_step rfl (by simp only [Removal.step, Removal.takeRecord, h]; rfl)]
  exact Removal.finish_ended ..

theorem delete_of_record? {m : Manager} {now : Instant} {node : NodeId} {r : MountRecord}
    (h : m.record? node = some r) :
    m.delete now node =
      Removal.finish { m with records := Keyed.erase m.records node } now (.ofRecord r) := by
  unfold delete
  exact Removal.finish_of_step rfl (by simp only [Removal.step, Removal.takeRecord, h])

theorem created_delete (m : Manager) (now : Instant) (node : NodeId) :
    (m.delete now node).1.pool.created = m.pool.created := by
  cases hr : m.record? node with
  | none => rw [delete_of_record?_eq_none hr]
  | some r =>
    rw [delete_of_record? hr]
    exact Removal.created_finish_ofRecord ..

/-- What a removal leaves was there before. -/
theorem record?_of_delete {m : Manager} {now : Instant} {node q : NodeId} {r : MountRecord}
    (h : (m.delete now node).1.record? q = some r) : m.record? q = some r := by
  cases hr : m.record? node with
  | none => rwa [delete_of_record?_eq_none hr] at h
  | some r' =>
    rw [delete_of_record? hr] at h
    unfold record? at h ⊢
    rw [Removal.records_finish_ofRecord, Keyed.find?_erase] at h
    split at h
    · cases h
    · exact h

theorem foldl_finish_ofRecord (m : Manager) (now : Instant) (rs : List MountRecord) :
    let m' := rs.foldl (fun m r => (Removal.finish m now (.ofRecord r)).1) m
    m'.pool.created = m.pool.created ∧ m'.records = m.records := by
  induction rs generalizing m with
  | nil => exact ⟨rfl, rfl⟩
  | cons r rs ih =>
    obtain ⟨hcreated, hrecords⟩ := ih (Removal.finish m now (.ofRecord r)).1
    exact ⟨hcreated.trans (Removal.created_finish_ofRecord m now r),
      hrecords.trans (Removal.records_finish_ofRecord m now r)⟩

end Manager

end MountRegistry
