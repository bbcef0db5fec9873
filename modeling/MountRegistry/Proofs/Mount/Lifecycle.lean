import MountRegistry.Proofs.Keyed
import MountRegistry.Proofs.Mount.Keeping

/-
  Any sequence of completed calls on a manager that nobody shares its endpoints and pool with. At
  each call the library and the files are whatever they are by then. The records, the endpoints and
  the pool agree after every call, and every node comes and goes in turn (`lifecycle`).

  A failure to bring a mount point up is told of the node that the change of the topology names. It
  may be told of a node that is up, if the change carries the data of another node
  (`failure_told_of_other_node`); the topology makes no such change.
-/

namespace MountRegistry

/-- The change carries the data of another node than the one it names. -/
def TopologyChange.Strays (c : TopologyChange) : Prop :=
  ∃ node, c.node = some node ∧ node.nodeId ≠ c.nodeId

/-- What a call finds: the time, the library and the files. -/
structure Surroundings where
  now : Instant
  library : SourceLibrary
  files : Files

/-- An empty library, and nothing in the files. -/
def Surroundings.bare : Surroundings := ⟨.epoch, .empty, ⟨"", .directory []⟩⟩

namespace Manager

/-- A new manager with nothing in its files. -/
def bare : Manager := { cacheRoot := "/c", files := ⟨"", .directory []⟩ }

/-- A call of the manager. -/
inductive Call where
  | create (node : TopologyNode)
  | delete (node : NodeId)
  /-- Follows a batch of changes of the topology. -/
  | follow (batch : List TopologyChange)
  | closeAll

/-- The manager, when the library and the files are these. -/
def within (m : Manager) (x : Surroundings) : Manager :=
  { m with library := x.library, files := x.files }

/-- A completed call. -/
def perform (m : Manager) (x : Surroundings) : Call → Manager
  | .create node => ((m.within x).create x.now node).1
  | .delete node => ((m.within x).delete x.now node).1
  | .follow batch => (m.within x).followAll x.now batch
  | .closeAll => (m.within x).closeAll x.now

/-- The manager after a sequence of completed calls. -/
def after (m : Manager) : List (Surroundings × Call) → Manager
  | [] => m
  | (x, c) :: rest => (m.perform x c).after rest

/-- The changes that a call follows. -/
def Call.changes : Call → List TopologyChange
  | .follow batch => batch
  | _ => []

/-- Some change that a call of this time follows names the node, but carries the data of another. -/
def Mistaken (calls : List (Surroundings × Call)) (node : NodeId) (time : Instant) : Prop :=
  ∃ x ∈ calls, x.1.now = time ∧ ∃ c ∈ x.2.changes, c.nodeId = node ∧ c.Strays

/-- What holds between completed calls. -/
structure Settled (m : Manager) (excused : NodeId → Instant → Prop) : Prop where
  keeps : m.Keeps m.record?
  ascending : Keyed.Ascending m.records
  told : MountEvent.Alternating excused m.outbox

variable {m : Manager} {excused : NodeId → Instant → Prop} {now : Instant}

theorem settled_start (cacheRoot : String) (files : Files) (excused : NodeId → Instant → Prop) :
    Settled { cacheRoot, files } excused where
  keeps := by
    refine ⟨?_, fun _ => rfl, ?_, fun _ _ => rfl, ?_, fun _ => rfl⟩
    · intro node r h
      cases h
    · intro path b h
      cases h
    · intro path kind n h
      cases h
  ascending := List.Pairwise.nil
  told := .nil

theorem Settled.within (h : m.Settled excused) (library : SourceLibrary) (files : Files) :
    { m with library, files }.Settled excused :=
  ⟨h.keeps.congr rfl rfl fun _ => rfl, h.ascending, h.told⟩

theorem Settled.isUp_eq (h : m.Settled excused) (node : NodeId) :
    MountEvent.isUp node m.outbox = m.isActive node := h.keeps.up node

theorem Settled.find?_of_absent (h : m.Settled excused) {node : NodeId}
    (hnode : m.isActive node = false) : m.endpoints.find? node.mountPath = none := by
  rw [h.keeps.endpoint, isActive_eq_false_iff.1 hnode]
  rfl

/-! ## One call -/

theorem Settled.bringUp (h : m.Settled excused) {node : TopologyNode}
    (hnode : m.isActive node.nodeId = false) (model : Yang.Model) :
    (m.bringUp now node model).Settled excused where
  keeps := h.keeps.bringUp (isActive_eq_false_iff.1 hnode)
  ascending := h.ascending.insert _ _
  told := .created h.told ((h.isUp_eq node.nodeId).trans hnode) _ _

/-- A creation keeps the manager settled; when it fails the node is absent. -/
theorem Settled.create (h : m.Settled excused) (now : Instant) (node : TopologyNode) :
    (m.create now node).1.Settled excused ∧
      ∀ failure, (m.create now node).2 = .error failure →
        MountEvent.isUp node.nodeId (m.create now node).1.outbox = false := by
  rcases m.create_cases now node h.find?_of_absent with
    ⟨_, heq⟩ | ⟨hnode, library, files, failure, heq⟩ | ⟨hnode, library, files, model, heq⟩
  · have hcreate : m.create now node = (m, .ok .alreadyActive) := heq m.pool
    rw [hcreate]
    exact ⟨h, fun _ hf => by cases hf⟩
  · have hcreate : m.create now node = ({ m with library, files }, .error failure) := heq m.pool
    rw [hcreate]
    exact ⟨h.within library files, fun _ _ => (h.isUp_eq node.nodeId).trans hnode⟩
  · have hcreate : m.create now node =
        ({ m with library, files }.bringUp now node model, .ok .created) := heq m.pool
    rw [hcreate]
    exact ⟨(h.within library files).bringUp hnode model, fun _ hf => by cases hf⟩

theorem record?_erase (m : Manager) (node : NodeId) :
    { m with records := Keyed.erase m.records node }.record? =
      fun q => if q = node then none else m.record? q :=
  funext fun q => Keyed.find?_erase m.records node q

theorem Settled.delete (h : m.Settled excused) (now : Instant) (node : NodeId) :
    (m.delete now node).1.Settled excused := by
  cases hr : m.record? node with
  | none =>
    rw [delete_of_record?_eq_none hr]
    exact h
  | some r =>
    -- the record leaves the list at once, and the manager answers for it until it is taken down
    let m' : Manager := { m with records := Keyed.erase m.records node }
    have hkeeps : m'.Keeps m.record? := h.keeps.congr rfl rfl fun _ => rfl
    obtain ⟨l, _, hfinish⟩ := hkeeps.finish_ofRecord now hr
    have hnode : r.node = node := (h.keeps.stands node r hr).serves
    rw [delete_of_record? hr, hfinish]
    refine ⟨?_, h.ascending.erase node, ?_⟩
    · have hdown := hkeeps.takeDown hnode now l
      rw [← record?_erase] at hdown
      exact hdown
    · refine .removed h.told ?_ now
      rw [hnode]
      exact (h.keeps.up node).trans (by rw [hr]; rfl)

/-- Taking down one after the other all that the manager answers for. -/
theorem Keeps.takeDownAll {owners : List (NodeId × MountRecord)}
    (h : m.Keeps (Keyed.find? owners)) (hd : (owners.map (·.1)).Nodup)
    (ht : MountEvent.Alternating excused m.outbox) (now : Instant) :
    let m' := (owners.map (·.2)).foldl (fun m r => (Removal.finish m now (.ofRecord r)).1) m
    m'.Keeps (fun _ => none) ∧ m'.records = m.records ∧
      MountEvent.Alternating excused m'.outbox := by
  induction owners generalizing m with
  | nil => exact ⟨h, rfl, ht⟩
  | cons e rest ih =>
    obtain ⟨node, r⟩ := e
    obtain ⟨hnot, hrest⟩ := List.nodup_cons.1 hd
    have hr : Keyed.find? ((node, r) :: rest) node = some r := if_pos rfl
    obtain ⟨l, _, hfinish⟩ := h.finish_ofRecord now hr
    have hnode : r.node = node := (h.stands node r hr).serves
    have hleft : (fun p => if p = node then none else Keyed.find? ((node, r) :: rest) p) =
        Keyed.find? rest := by
      funext p
      by_cases hp : p = node
      · rw [if_pos hp, hp, Keyed.find?_eq_none_of_not_mem hnot]
      · rw [if_neg hp]
        exact if_neg hp
    have hdown := h.takeDown hnode now l
    rw [hleft] at hdown
    rw [List.map_cons, List.foldl_cons, hfinish]
    refine ih hdown hrest (.removed ht ?_ now)
    rw [hnode, h.up node, hr]
    rfl

theorem Settled.closeAll (h : m.Settled excused) (now : Instant) :
    (m.closeAll now).Settled excused := by
  have hkeeps : { m with records := [] }.Keeps (Keyed.find? m.records) :=
    h.keeps.congr rfl rfl fun _ => rfl
  obtain ⟨hnone, hrecords, htold⟩ := hkeeps.takeDownAll h.ascending.nodup h.told now
  have hempty : (m.closeAll now).records = [] := hrecords
  refine ⟨?_, hempty ▸ List.Pairwise.nil, htold⟩
  have howner : (m.closeAll now).record? = fun _ => none := by
    funext q
    unfold record?
    rw [hempty]
    rfl
  rw [howner]
  exact hnone

theorem Settled.follow (h : m.Settled excused) (now : Instant) (c : TopologyChange)
    (hc : c.Strays → excused c.nodeId now) : (m.follow now c).Settled excused := by
  unfold Manager.follow
  split
  · exact h.delete now c.nodeId
  · rename_i node hnode _
    obtain ⟨hs, hdown⟩ := h.create now node
    split
    · rename_i m' failure hfailed
      rw [hfailed] at hs hdown
      refine ⟨?_, hs.ascending, .failed hs.told _ _ ?_⟩
      · exact hs.keeps.congr rfl rfl fun q => MountEvent.isUp_failed q c.nodeId m'.outbox _ _
      · by_cases hown : node.nodeId = c.nodeId
        · exact .inl (hown ▸ hdown failure rfl)
        · exact .inr (hc ⟨node, hnode, hown⟩)
    · rename_i m' o hdone
      rw [hdone] at hs
      exact hs
  · exact h

theorem Settled.followAll (h : m.Settled excused) (now : Instant) (batch : List TopologyChange)
    (hb : ∀ c ∈ batch, c.Strays → excused c.nodeId now) :
    (m.followAll now batch).Settled excused := by
  induction batch generalizing m with
  | nil => exact h
  | cons c batch ih =>
    refine ih (h.follow now c (hb c List.mem_cons_self)) fun c' hc' => ?_
    exact hb c' (List.mem_cons_of_mem c hc')

theorem Settled.perform (h : m.Settled excused) (x : Surroundings) (call : Call)
    (hc : ∀ c ∈ call.changes, c.Strays → excused c.nodeId x.now) :
    (m.perform x call).Settled excused := by
  have hx : (m.within x).Settled excused := h.within x.library x.files
  cases call with
  | create node => exact (hx.create x.now node).1
  | delete node => exact hx.delete x.now node
  | follow batch => exact hx.followAll x.now batch hc
  | closeAll => exact hx.closeAll x.now

theorem Settled.after (h : m.Settled excused) (calls : List (Surroundings × Call))
    (hc : ∀ x ∈ calls, ∀ c ∈ x.2.changes, c.Strays → excused c.nodeId x.1.now) :
    (m.after calls).Settled excused := by
  induction calls generalizing m with
  | nil => exact h
  | cons x calls ih =>
    refine ih (h.perform x.1 x.2 (hc x List.mem_cons_self)) fun y hy => ?_
    exact hc y (List.mem_cons_of_mem x hy)

theorem settled_after (cacheRoot : String) (files : Files) (calls : List (Surroundings × Call)) :
    (Manager.after { cacheRoot, files } calls).Settled (Mistaken calls) :=
  (settled_start cacheRoot files (Mistaken calls)).after calls
    fun x hx c hc hs => ⟨x, hx, rfl, c, hc, rfl, hs⟩

/-! ## Any sequence of calls -/

theorem Keeps.find?_endpoint_iff {owner? : NodeId → Option MountRecord} (h : m.Keeps owner?)
    (path : MountPath) (b : Broker) :
    m.endpoints.find? path = some b ↔
      ∃ node r, owner? node = some r ∧ path = node.mountPath ∧ b = r.broker := by
  constructor
  · intro hb
    obtain ⟨node, rfl⟩ := h.endpointPath path b hb
    rw [h.endpoint] at hb
    obtain ⟨r, hr, rfl⟩ := Option.map_eq_some_iff.1 hb
    exact ⟨node, r, hr, rfl, rfl⟩
  · rintro ⟨node, r, hr, rfl, rfl⟩
    rw [h.endpoint, hr]
    rfl

theorem Keeps.lookup?_iff {owner? : NodeId → Option MountRecord} (h : m.Keeps owner?)
    (path : MountPath) (kind : StoreKind) (n : Nat) :
    m.pool.lookup? path kind = some n ↔
      ∃ node r, owner? node = some r ∧ path = node.mountPath ∧ n = r.broker.storeNumber kind := by
  constructor
  · intro hn
    obtain ⟨node, rfl⟩ := h.pooledPath path kind n hn
    rw [h.pooled] at hn
    obtain ⟨r, hr, rfl⟩ := Option.map_eq_some_iff.1 hn
    exact ⟨node, r, hr, rfl, rfl⟩
  · rintro ⟨node, r, hr, rfl, rfl⟩
    rw [h.pooled, hr]
    rfl

/-- After any calls, records, endpoints and pool agree: an endpoint is published for each record and
no other, the pool holds the two stores of each record and no other, and these are the ones its
broker writes to, under its schema. Every node has come and gone in turn, nothing failed to be
released, and no failure was told of a node that was up, unless a change that was followed then
named that node and carried the data of another. The nodes that are up are those with a record. -/
theorem lifecycle (cacheRoot : String) (files : Files) (calls : List (Surroundings × Call)) :
    let m := Manager.after { cacheRoot, files } calls
    (∀ path b, m.endpoints.find? path = some b ↔
      ∃ node r, m.record? node = some r ∧ path = node.mountPath ∧ b = r.broker) ∧
    (∀ path kind n, m.pool.lookup? path kind = some n ↔
      ∃ node r, m.record? node = some r ∧ path = node.mountPath ∧
        n = r.broker.storeNumber kind) ∧
    (∀ node r, m.record? node = some r → r.node = node ∧
      ∀ kind, ∃ s, m.pool.store? (r.broker.storeNumber kind) = some s ∧
        s.name = node.mountPath.storeName kind ∧ s.kind = kind ∧ s.model = r.broker.model) ∧
    MountEvent.Alternating (Mistaken calls) m.outbox ∧
    ∀ node, m.isActive node = MountEvent.isUp node m.outbox := by
  intro m
  have h : m.Settled (Mistaken calls) := settled_after cacheRoot files calls
  refine ⟨h.keeps.find?_endpoint_iff, h.keeps.lookup?_iff, ?_, h.told, fun node => ?_⟩
  · intro node r hr
    have hstands := h.keeps.stands node r hr
    exact ⟨hstands.serves, hstands.stores⟩
  · exact (h.isUp_eq node).symm

/-- A change without capabilities fails for the node whose data it carries, and the failure is told
of the node that it names. -/
theorem follow_of_bare {c : TopologyChange} (node : TopologyNode) (hkind : c.kind ≠ .delete)
    (hnode : c.node = some node) (habsent : m.isActive node.nodeId = false)
    (hcap : node.capabilities.isEmpty = true) :
    m.follow now c =
      m.publish (.failed c.nodeId (MountFailure.noCapabilities node.nodeId).message now) := by
  unfold Manager.follow
  split
  · exact absurd ‹c.kind = .delete› hkind
  · rename_i other hother _
    obtain rfl : node = other := Option.some.inj (hnode.symm.trans hother)
    rw [create_of_bare habsent hcap]
  · rename_i hnone _
    rw [hnode] at hnone
    cases hnone

/-- A capability that names no module resolves to the empty schema. -/
theorem create_bare :
    bare.create .epoch ⟨⟨"a"⟩, ["x"], "a"⟩ =
      ({ bare with
        library := (bare.resolution ⟨⟨"a"⟩, ["x"], "a"⟩).library
        files := (bare.resolution ⟨⟨"a"⟩, ["x"], "a"⟩).files }.bringUp .epoch
          ⟨⟨"a"⟩, ["x"], "a"⟩ ⟨[], [], []⟩, .ok .created) := by
  have hmodel : (bare.resolution ⟨⟨"a"⟩, ["x"], "a"⟩).result = .ok ⟨[], [], []⟩ := rfl
  exact create_of_resolved rfl rfl rfl hmodel

/-- A change names `a`, which is up, and carries the data of `b`, which has no capabilities. It
fails for `b`, and the failure is told of `a`. -/
theorem failure_told_of_other_node :
    ¬ MountEvent.Alternating (fun _ _ => False)
      (bare.after [(.bare, .create ⟨⟨"a"⟩, ["x"], "a"⟩),
        (.bare, .follow [⟨⟨"a"⟩, .write, some ⟨⟨"b"⟩, [], "b"⟩⟩])]).outbox := by
  have hup : (bare.within .bare).create .epoch ⟨⟨"a"⟩, ["x"], "a"⟩ = _ := create_bare
  have hfailed : ∀ m : Manager, m.isActive ⟨"b"⟩ = false →
      m.follow .epoch ⟨⟨"a"⟩, .write, some ⟨⟨"b"⟩, [], "b"⟩⟩ =
        m.publish (.failed ⟨"a"⟩ (MountFailure.noCapabilities ⟨"b"⟩).message .epoch) :=
    fun m hm => follow_of_bare ⟨⟨"b"⟩, [], "b"⟩ (by decide) rfl hm rfl
  intro h
  simp only [Manager.after, perform, followAll, List.foldl_cons, List.foldl_nil] at h
  rw [show Surroundings.bare.now = .epoch from rfl, hup, hfailed _ rfl] at h
  -- all that was told before is that `a` came
  rcases MountEvent.Alternating.of_failed h with hdown | hexcused
  · exact absurd hdown (by decide)
  · exact hexcused

end Manager

end MountRegistry
