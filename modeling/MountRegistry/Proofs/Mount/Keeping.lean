import MountRegistry.Proofs.Mount.Uninterrupted
import MountRegistry.Proofs.Node.Path

/-
  What a manager keeps of the mount points that it answers for, between one completed call and the
  next: an endpoint for each and no other, two stores in the pool for each and no other, and a
  history of events after which exactly these are up. The records that the manager answers for are
  those it lists, but while all mount points are taken down it lists none and still answers for the
  ones that are left; so they are a parameter of the invariant (`Keeps`).
-/

namespace MountRegistry

namespace MountEvent

/-- Whether the last that was told of the coming and going of a node is that it came. -/
def isUp (node : NodeId) (told : List MountEvent) : Bool :=
  told.foldl (fun up e => match e with
    | .created n .. => if n = node then true else up
    | .removed n .. => if n = node then false else up
    | _ => up) false

/-- A history in which each node comes and goes in turn, every removal releases all that was held,
and a failure is told of an absent node only, or at a time when that node is excused. -/
inductive Alternating (excused : NodeId → Instant → Prop) : List MountEvent → Prop where
  | nil : Alternating excused []
  | created {told : List MountEvent} {node : NodeId} (before : Alternating excused told)
    (down : isUp node told = false) (modules : Nat) (time : Instant) :
    Alternating excused (told ++ [.created node node.mountPath modules time])
  | removed {told : List MountEvent} {node : NodeId} (before : Alternating excused told)
    (up : isUp node told = true) (time : Instant) :
    Alternating excused (told ++ [.removed node 0 time])
  | failed {told : List MountEvent} {node : NodeId} (before : Alternating excused told)
    (reason : String) (time : Instant) (down : isUp node told = false ∨ excused node time) :
    Alternating excused (told ++ [.failed node reason time])

/-- What was told last was a failure. -/
theorem Alternating.of_failed {excused : NodeId → Instant → Prop} {told : List MountEvent}
    {node : NodeId} {reason : String} {time : Instant}
    (h : Alternating excused (told ++ [.failed node reason time])) :
    isUp node told = false ∨ excused node time := by
  generalize hall : told ++ [.failed node reason time] = all at h
  cases h with
  | nil => simp at hall
  | created => cases (List.append_inj' hall rfl).2
  | removed => cases (List.append_inj' hall rfl).2
  | failed _ _ _ down =>
    obtain ⟨rfl, hlast⟩ := List.append_inj' hall rfl
    cases hlast
    exact down

variable (node n : NodeId) (told : List MountEvent)

theorem isUp_created (path : MountPath) (modules : Nat) (time : Instant) :
    isUp node (told ++ [.created n path modules time]) =
      if node = n then true else isUp node told := by
  unfold isUp
  rw [List.foldl_append]
  exact ite_congr (propext eq_comm) (fun _ => rfl) fun _ => rfl

theorem isUp_removed (failures : Nat) (time : Instant) :
    isUp node (told ++ [.removed n failures time]) =
      if node = n then false else isUp node told := by
  unfold isUp
  rw [List.foldl_append]
  exact ite_congr (propext eq_comm) (fun _ => rfl) fun _ => rfl

theorem isUp_failed (reason : String) (time : Instant) :
    isUp node (told ++ [.failed n reason time]) = isUp node told := by
  unfold isUp
  rw [List.foldl_append]
  rfl

end MountEvent

namespace StorePool

/-- `q` has every store of `p`, of the same name, kind and schema. -/
structure Later (p q : StorePool) : Prop where
  created : p.created ≤ q.created
  same : ∀ n, n < p.created → (q.store n).name = (p.store n).name ∧
    (q.store n).kind = (p.store n).kind ∧ (q.store n).model = (p.store n).model

theorem Later.trans {p q r : StorePool} (h : p.Later q) (h' : q.Later r) : p.Later r := by
  refine ⟨Nat.le_trans h.created h'.created, fun n hn => ?_⟩
  obtain ⟨hname, hkind, hmodel⟩ := h.same n hn
  obtain ⟨hname', hkind', hmodel'⟩ := h'.same n (Nat.lt_of_lt_of_le hn h.created)
  exact ⟨hname'.trans hname, hkind'.trans hkind, hmodel'.trans hmodel⟩

theorem later_of_extended {p q : StorePool} (h : p.stores <+: q.stores) : p.Later q := by
  refine ⟨h.length_le, fun n hn => ?_⟩
  rw [store_of_extended h hn]
  exact ⟨rfl, rfl, rfl⟩

/-- Writing to a store what has its name, kind and schema. -/
theorem later_setStore (p : StorePool) (n : Nat) {s : Store} (hname : s.name = (p.store n).name)
    (hkind : s.kind = (p.store n).kind) (hmodel : s.model = (p.store n).model) :
    p.Later (p.setStore n s) := by
  refine ⟨Nat.le_of_eq (created_setStore p n s).symm, fun m hm => ?_⟩
  by_cases hmn : m = n
  · subst hmn
    rw [store_setStore hm, if_pos rfl]
    exact ⟨hname, hkind, hmodel⟩
  · rw [store_setStore_of_ne p hmn]
    exact ⟨rfl, rfl, rfl⟩

end StorePool

namespace MountRecord

theorem mountPath_eq (r : MountRecord) : r.mountPath = r.node.mountPath := rfl

/-- The record of a node over a pool: it holds the endpoint of the node and a listener that lives,
and its broker has a store of each kind, under the schema of the record. -/
structure Stands (r : MountRecord) (pool : StorePool) (node : NodeId) : Prop where
  serves : r.node = node
  held : ∃ l, r.registrations = [.endpoint node.mountPath, .listener l] ∧ l.state ≠ .dead
  stores : ∀ kind, ∃ s, pool.store? (r.broker.storeNumber kind) = some s ∧
    s.name = node.mountPath.storeName kind ∧ s.kind = kind ∧ s.model = r.broker.model

theorem Stands.later {r : MountRecord} {pool pool' : StorePool} {node : NodeId}
    (h : r.Stands pool node) (hp : pool.Later pool') : r.Stands pool' node where
  serves := h.serves
  held := h.held
  stores := by
    intro kind
    obtain ⟨s, hs, hname, hkind, hmodel⟩ := h.stores kind
    obtain ⟨hlt, rfl⟩ := StorePool.store?_eq_some_iff.1 hs
    obtain ⟨hname', hkind', hmodel'⟩ := hp.same _ hlt
    exact ⟨_, StorePool.store?_eq_some_iff.2 ⟨Nat.lt_of_lt_of_le hlt hp.created, rfl⟩,
      hname'.trans hname, hkind'.trans hkind, hmodel'.trans hmodel⟩

end MountRecord

namespace Manager

/-- What the manager keeps is that of the mount points with these records. -/
structure Keeps (m : Manager) (owner? : NodeId → Option MountRecord) : Prop where
  stands : ∀ node r, owner? node = some r → r.Stands m.pool node
  endpoint : ∀ node, m.endpoints.find? node.mountPath = (owner? node).map (·.broker)
  endpointPath : ∀ path b, m.endpoints.find? path = some b → ∃ node : NodeId, path = node.mountPath
  pooled : ∀ node kind,
    m.pool.lookup? node.mountPath kind = (owner? node).map (·.broker.storeNumber kind)
  pooledPath : ∀ path kind n, m.pool.lookup? path kind = some n →
    ∃ node : NodeId, path = node.mountPath
  up : ∀ node, MountEvent.isUp node m.outbox = (owner? node).isSome

variable {m : Manager} {owner? : NodeId → Option MountRecord} {now : Instant}

/-- The invariant looks at the endpoints, the pool and what was told, and at the latter only as far
as the coming and going of the nodes goes. -/
theorem Keeps.congr (h : m.Keeps owner?) {m' : Manager} (hendpoints : m'.endpoints = m.endpoints)
    (hpool : m'.pool = m.pool)
    (hup : ∀ node, MountEvent.isUp node m'.outbox = MountEvent.isUp node m.outbox) :
    m'.Keeps owner? where
  stands := hpool ▸ h.stands
  endpoint := hendpoints ▸ h.endpoint
  endpointPath := hendpoints ▸ h.endpointPath
  pooled := hpool ▸ h.pooled
  pooledPath := hpool ▸ h.pooledPath
  up := fun node => (hup node).trans (h.up node)

/-- A pool with the same keys, and with stores that have gone on, serves as well. -/
theorem Keeps.withPool (h : m.Keeps owner?) {pool : StorePool} (hl : m.pool.Later pool)
    (hk : pool.keys = m.pool.keys) : { m with pool }.Keeps owner? where
  stands := fun node r hr => (h.stands node r hr).later hl
  endpoint := h.endpoint
  endpointPath := h.endpointPath
  pooled := by
    intro node kind
    rw [← h.pooled node kind]
    exact congrArg (Keyed.find? · (node.mountPath, kind)) hk
  pooledPath := by
    intro path kind n hn
    refine h.pooledPath path kind n (hn ▸ ?_)
    exact congrArg (Keyed.find? · (path, kind)) hk.symm
  up := h.up

/-- All that changes is of one node, for which the manager now answers with `o`. -/
theorem Keeps.replace (h : m.Keeps owner?) {m' : Manager} {q : NodeId} {o : Option MountRecord}
    (hlater : m.pool.Later m'.pool) (hstands : ∀ r, o = some r → r.Stands m'.pool q)
    (hfind : ∀ path, m'.endpoints.find? path =
      if path = q.mountPath then o.map (·.broker) else m.endpoints.find? path)
    (hlookup : ∀ path kind, m'.pool.lookup? path kind =
      if path = q.mountPath then o.map (·.broker.storeNumber kind) else m.pool.lookup? path kind)
    (hup : ∀ p, MountEvent.isUp p m'.outbox =
      if p = q then o.isSome else MountEvent.isUp p m.outbox) :
    m'.Keeps fun p => if p = q then o else owner? p where
  stands := by
    intro p r hr
    split at hr
    · rename_i hp
      rw [hp]
      exact hstands r hr
    · exact (h.stands p r hr).later hlater
  endpoint := by
    intro p
    rw [hfind]
    simp only [NodeId.mountPath_inj]
    split
    · rfl
    · exact h.endpoint p
  endpointPath := by
    intro path b hb
    rw [hfind] at hb
    split at hb
    · exact ⟨q, ‹_›⟩
    · exact h.endpointPath path b hb
  pooled := by
    intro p kind
    rw [hlookup]
    simp only [NodeId.mountPath_inj]
    split
    · rfl
    · exact h.pooled p kind
  pooledPath := by
    intro path kind n hn
    rw [hlookup] at hn
    split at hn
    · exact ⟨q, ‹_›⟩
    · exact h.pooledPath path kind n hn
  up := by
    intro p
    rw [hup]
    split
    · rfl
    · exact h.up p

theorem later_create (pool : StorePool) (b : Broker) (kind : StoreKind) (fails : Bool) :
    pool.Later (Listener.create pool b kind fails).1 :=
  StorePool.later_setStore pool _ rfl rfl rfl

/-! ## A mount point comes -/

variable {node : TopologyNode} {model : Yang.Model}

theorem bringUp_record? (q : NodeId) :
    (m.bringUp now node model).record? q =
      if q = node.nodeId then
        some ({ m with pool := (Broker.ofPool m.pool node.nodeId model).1 }.recordFor now node
          (Broker.ofPool m.pool node.nodeId model).2)
      else m.record? q :=
  Keyed.find?_insert ..

theorem bringUp_find? (path : MountPath) :
    (m.bringUp now node model).endpoints.find? path =
      if path = node.nodeId.mountPath then some (Broker.ofPool m.pool node.nodeId model).2
      else m.endpoints.find? path :=
  Keyed.find?_insert ..

theorem bringUp_lookup? (path : MountPath) (kind : StoreKind) :
    (m.bringUp now node model).pool.lookup? path kind =
      if path = node.nodeId.mountPath then
        some ((Broker.ofPool m.pool node.nodeId model).2.storeNumber kind)
      else m.pool.lookup? path kind :=
  Broker.lookup?_ofPool ..

theorem bringUp_later : m.pool.Later (m.bringUp now node model).pool :=
  (StorePool.later_of_extended (Broker.stores_ofPool ..)).trans
    (later_create _ _ .configuration false)

theorem bringUp_broker? :
    (m.bringUp now node model).broker? node.nodeId =
      some (Broker.ofPool m.pool node.nodeId model).2 := by
  unfold broker?
  rw [bringUp_record?, if_pos rfl]
  rfl

/-- Two stores are built, and they have the next two numbers. -/
theorem bringUp_created (h : ∀ kind, m.pool.lookup? node.nodeId.mountPath kind = none) :
    (m.bringUp now node model).pool.created = m.pool.created + 2 := by
  have hbuilt : (Broker.ofPool m.pool node.nodeId model).1.created = m.pool.created + 2 := by
    rw [Broker.ofPool_of_absent h]
    exact List.length_append
  exact (StorePool.created_setStore ..).trans hbuilt

/-- A new mount point over new stores. -/
theorem stands_bringUp (h : ∀ kind, m.pool.lookup? node.nodeId.mountPath kind = none) :
    ({ m with pool := (Broker.ofPool m.pool node.nodeId model).1 }.recordFor now node
      (Broker.ofPool m.pool node.nodeId model).2).Stands (m.bringUp now node model).pool
      node.nodeId := by
  suffices hs : MountRecord.Stands _ (Broker.ofPool m.pool node.nodeId model).1 node.nodeId from
    hs.later (later_create _ _ .configuration false)
  refine ⟨rfl, ⟨_, rfl, by intro h; cases h⟩, fun kind => ?_⟩
  exact ⟨_, Broker.store?_ofPool h model kind, rfl, rfl, rfl⟩

theorem Keeps.bringUp (h : m.Keeps m.record?) (habsent : m.record? node.nodeId = none) :
    (m.bringUp now node model).Keeps (m.bringUp now node model).record? := by
  have hfree : ∀ kind, m.pool.lookup? node.nodeId.mountPath kind = none := by
    intro kind
    rw [h.pooled, habsent]
    rfl
  have hup : ∀ p, MountEvent.isUp p (m.bringUp now node model).outbox =
      if p = node.nodeId then true else MountEvent.isUp p m.outbox :=
    fun p => MountEvent.isUp_created p node.nodeId m.outbox _ _ _
  rw [show (m.bringUp now node model).record? = _ from funext bringUp_record?]
  refine h.replace bringUp_later (fun r hr => ?_) bringUp_find? bringUp_lookup? hup
  exact Option.some.inj hr ▸ stands_bringUp hfree

/-! ## A mount point goes -/

section
variable {r : MountRecord} {l : Listener}

theorem takeDown_find? (path : MountPath) :
    (m.takeDown now r l).endpoints.find? path =
      if path = r.mountPath then none else m.endpoints.find? path :=
  Keyed.find?_erase ..

theorem takeDown_lookup? (path : MountPath) (kind : StoreKind) :
    (m.takeDown now r l).pool.lookup? path kind =
      if path = r.mountPath then none else m.pool.lookup? path kind :=
  StorePool.lookup?_removeMount ..

theorem takeDown_later : m.pool.Later (m.takeDown now r l).pool := by
  have hclosed : m.pool.Later
      (m.pool.setStore l.store ((m.pool.store l.store).unsubscribe l.receiver)) :=
    StorePool.later_setStore m.pool l.store rfl rfl rfl
  exact hclosed.trans (StorePool.later_of_extended List.prefix_rfl)

/-- The manager answers for the mount point no more. -/
theorem Keeps.takeDown (h : m.Keeps owner?) {q : NodeId} (hr : r.node = q) (now : Instant)
    (l : Listener) :
    (m.takeDown now r l).Keeps fun p => if p = q then none else owner? p := by
  subst hr
  have hup : ∀ p, MountEvent.isUp p (m.takeDown now r l).outbox =
      if p = r.node then false else MountEvent.isUp p m.outbox :=
    fun p => MountEvent.isUp_removed p r.node m.outbox _ _
  exact h.replace takeDown_later (fun _ hr => by cases hr) takeDown_find? takeDown_lookup? hup

end

/-- A mount point that the manager answers for is taken down without a failure. -/
theorem Keeps.finish_ofRecord (h : m.Keeps owner?) (now : Instant) {q : NodeId} {r : MountRecord}
    (hr : owner? q = some r) :
    ∃ l, r.registrations = [.endpoint r.mountPath, .listener l] ∧
      Removal.finish m now (.ofRecord r) = (m.takeDown now r l, true) := by
  obtain ⟨rfl, ⟨l, hl, hlive⟩, _⟩ := h.stands q r hr
  have hb : m.endpoints.find? r.mountPath = some r.broker := by
    rw [MountRecord.mountPath_eq, h.endpoint, hr]
    rfl
  exact ⟨l, hl, Removal.finish_ofRecord_of_published hl hlive hb⟩

end Manager

end MountRegistry
