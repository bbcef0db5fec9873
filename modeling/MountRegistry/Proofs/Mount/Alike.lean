import MountRegistry.Proofs.Mount.Keeping

/-
  Managers that are the same but for the stores in their pools, of which only some need agree. The
  same calls keep them so: what a creation makes and what a removal releases depends on the keys of
  the pool, never on what is in a store, and both write the same to the stores of a number.
-/

namespace MountRegistry

namespace StorePool

/-- Pools with the same keys, of which the stores of some numbers are the same. -/
structure Alike (which : Nat → Prop) (p p' : StorePool) : Prop where
  keys : p'.keys = p.keys
  created : p'.created = p.created
  store : ∀ n, which n → p'.store n = p.store n

variable {which : Nat → Prop} {p p' : StorePool}

theorem Alike.refl (which : Nat → Prop) (p : StorePool) : p.Alike which p :=
  ⟨rfl, rfl, fun _ _ => rfl⟩

theorem Alike.lookup? (h : p.Alike which p') (path : MountPath) (kind : StoreKind) :
    p'.lookup? path kind = p.lookup? path kind := by
  unfold StorePool.lookup?
  rw [h.keys]

/-- Something is made of the store of a number, in both pools. -/
theorem Alike.update (h : p.Alike which p') (n : Nat) {f : Store → Store} :
    (p.setStore n (f (p.store n))).Alike which (p'.setStore n (f (p'.store n))) where
  keys := h.keys
  created := by
    rw [created_setStore, created_setStore]
    exact h.created
  store := by
    intro m hm
    by_cases hmn : m = n
    · subst hmn
      rcases Nat.lt_or_ge m p.created with hlt | hge
      · have hlt' : m < p'.created := Nat.lt_of_lt_of_eq hlt h.created.symm
        rw [store_setStore hlt, store_setStore hlt', if_pos rfl, if_pos rfl, h.store m hm]
      · -- there is no such store, and nothing is written
        unfold StorePool.setStore
        have hge' : p'.stores.length ≤ m := Nat.le_trans (Nat.le_of_eq h.created) hge
        rw [List.set_eq_of_length_le hge, List.set_eq_of_length_le hge']
        exact h.store m hm
    · rw [store_setStore_of_ne p hmn, store_setStore_of_ne p' hmn]
      exact h.store m hm

/-- One pool has a store written of which nothing is asked. -/
theorem Alike.setStore_left (h : p.Alike which p') {n : Nat} (hn : ¬ which n) (s : Store) :
    (p.setStore n s).Alike which p' where
  keys := h.keys
  created := by
    rw [created_setStore]
    exact h.created
  store := by
    intro m hm
    have hmn : m ≠ n := fun heq => hn (heq ▸ hm)
    rw [store_setStore_of_ne p hmn]
    exact h.store m hm

theorem Alike.removeMount (h : p.Alike which p') (path : MountPath) :
    (p.removeMount path).1.Alike which (p'.removeMount path).1 where
  keys := by
    unfold StorePool.removeMount
    simp only [h.keys, h.lookup?]
  created := h.created
  store := h.store

/-- Both stores of an absent node are built in both pools. -/
theorem Alike.ofPool (h : p.Alike which p') {node : NodeId}
    (habsent : ∀ kind, p.lookup? node.mountPath kind = none) (model : Yang.Model) :
    (Broker.ofPool p' node model).2 = (Broker.ofPool p node model).2 ∧
      (Broker.ofPool p node model).1.Alike which (Broker.ofPool p' node model).1 := by
  have habsent' : ∀ kind, p'.lookup? node.mountPath kind = none :=
    fun kind => (h.lookup? node.mountPath kind).trans (habsent kind)
  rw [Broker.ofPool_of_absent habsent, Broker.ofPool_of_absent habsent', h.keys, h.created]
  refine ⟨rfl, rfl, ?_, fun n hn => ?_⟩
  · unfold StorePool.created
    rw [List.length_append, List.length_append]
    exact congrArg (· + _) h.created
  · have hn := h.store n hn
    unfold StorePool.store at hn ⊢
    rw [List.getD_eq_getElem?_getD, List.getD_eq_getElem?_getD] at hn ⊢
    rcases Nat.lt_or_ge n p.stores.length with hlt | hge
    · have hlt' : n < p'.stores.length := Nat.lt_of_lt_of_eq hlt h.created.symm
      rwa [List.getElem?_append_left hlt, List.getElem?_append_left hlt']
    · have hlen : p'.stores.length = p.stores.length := h.created
      rw [List.getElem?_append_right hge, List.getElem?_append_right (hlen ▸ hge), hlen]

end StorePool

namespace Manager

/-- Managers that differ in their pools only, and these are alike. -/
structure Alike (which : Nat → Prop) (m m' : Manager) : Prop where
  rest : m' = { m with pool := m'.pool }
  pool : m.pool.Alike which m'.pool

variable {which : Nat → Prop} {m m' : Manager} {now : Instant}

theorem Alike.refl (which : Nat → Prop) (m : Manager) : m.Alike which m :=
  ⟨rfl, StorePool.Alike.refl which m.pool⟩

theorem Alike.record?_eq (h : m.Alike which m') (node : NodeId) :
    m'.record? node = m.record? node := by
  rw [h.rest]
  rfl

theorem Alike.withRecords (h : m.Alike which m')
    (f : List (NodeId × MountRecord) → List (NodeId × MountRecord)) :
    { m with records := f m.records }.Alike which { m' with records := f m'.records } := by
  refine ⟨?_, h.pool⟩
  rw [h.rest]

/-! ## Taking down -/

theorem alike_release {p p' : StorePool} (h : p.Alike which p') (e : Endpoints)
    (r : Registration) :
    (r.release e p').1 = (r.release e p).1 ∧ (r.release e p').2.2 = (r.release e p).2.2 ∧
      (r.release e p).2.1.Alike which (r.release e p').2.1 := by
  cases r with
  | endpoint path =>
    unfold Registration.release
    dsimp only
    split <;> exact ⟨rfl, rfl, h⟩
  | listener l =>
    unfold Registration.release Listener.close
    dsimp only
    split
    · exact ⟨rfl, rfl, h⟩
    · exact ⟨rfl, rfl, h.update l.store (f := (·.unsubscribe l.receiver))⟩
  | resource name releasable => exact ⟨rfl, rfl, h⟩

theorem alike_releaseAll {p p' : StorePool} (h : p.Alike which p') (e : Endpoints)
    (held : List Registration) :
    (Registration.releaseAll e p' held).1 = (Registration.releaseAll e p held).1 ∧
      (Registration.releaseAll e p' held).2.2 = (Registration.releaseAll e p held).2.2 ∧
      (Registration.releaseAll e p held).2.1.Alike which
        (Registration.releaseAll e p' held).2.1 := by
  induction held generalizing e p p' with
  | nil => exact ⟨rfl, rfl, h⟩
  | cons r held ih =>
    obtain ⟨hendpoints, hresult, hpool⟩ := alike_release h e r
    obtain ⟨hendpoints', hfailures, hpool'⟩ := ih hpool (r.release e p).1
    unfold Registration.releaseAll
    dsimp only
    rw [hendpoints, hresult]
    exact ⟨hendpoints', by rw [hfailures], hpool'⟩

theorem Alike.finish_ofRecord (h : m.Alike which m') (r : MountRecord) :
    (Removal.finish m now (.ofRecord r)).1.Alike which (Removal.finish m' now (.ofRecord r)).1 := by
  obtain ⟨hrest, hpool⟩ := h
  obtain ⟨hendpoints, hfailures, hreleased⟩ :=
    alike_releaseAll hpool m.endpoints r.registrations
  rw [Removal.finish_ofRecord, Removal.finish_ofRecord, hrest]
  dsimp only
  rw [hendpoints, hfailures]
  exact ⟨rfl, hreleased.removeMount r.mountPath⟩

theorem Alike.delete (h : m.Alike which m') (node : NodeId) :
    (m.delete now node).1.Alike which (m'.delete now node).1 := by
  have hrecord := h.record?_eq node
  cases hr : m.record? node with
  | none =>
    rw [delete_of_record?_eq_none hr, delete_of_record?_eq_none (hrecord.trans hr)]
    exact h
  | some r =>
    rw [delete_of_record? hr, delete_of_record? (hrecord.trans hr)]
    exact (h.withRecords (Keyed.erase · node)).finish_ofRecord r

theorem Alike.foldl_finish (h : m.Alike which m') (rs : List MountRecord) :
    (rs.foldl (fun m r => (Removal.finish m now (.ofRecord r)).1) m).Alike which
      (rs.foldl (fun m r => (Removal.finish m now (.ofRecord r)).1) m') := by
  induction rs generalizing m m' with
  | nil => exact h
  | cons r rs ih => exact ih (h.finish_ofRecord r)

theorem Alike.closeAll (h : m.Alike which m') :
    (m.closeAll now).Alike which (m'.closeAll now) := by
  have hrecords : m'.recordList = m.recordList := by
    rw [h.rest]
    rfl
  unfold Manager.closeAll
  rw [hrecords]
  exact (h.withRecords fun _ => []).foldl_finish m.recordList

/-! ## Bringing up -/

theorem create_same {p p' : StorePool} {b : Broker} {kind : StoreKind}
    (h : p'.store (b.storeNumber kind) = p.store (b.storeNumber kind)) (fails : Bool) :
    (Listener.create p' b kind fails).2 = (Listener.create p b kind fails).2 := by
  simp only [Listener.create, Broker.listenerName, Broker.store, h]

theorem Alike.bringUp (h : m.Alike which m') {node : TopologyNode}
    (habsent : ∀ kind, m.pool.lookup? node.nodeId.mountPath kind = none) (model : Yang.Model) :
    (m.bringUp now node model).Alike which (m'.bringUp now node model) := by
  obtain ⟨hrest, hpool⟩ := h
  obtain ⟨hb, hbuilt⟩ := hpool.ofPool habsent model
  have habsent' : ∀ kind, m'.pool.lookup? node.nodeId.mountPath kind = none :=
    fun kind => (hpool.lookup? node.nodeId.mountPath kind).trans (habsent kind)
  -- the store that is listened to is new in both
  have hnew := Broker.store?_ofPool habsent model .configuration
  have hnew' := Broker.store?_ofPool habsent' model .configuration
  rw [hb] at hnew'
  have hstore := (StorePool.store?_eq_some_iff.1 hnew').2.trans
    (StorePool.store?_eq_some_iff.1 hnew).2.symm
  have hlistener := create_same (b := (Broker.ofPool m.pool node.nodeId model).2) hstore false
  refine ⟨?_, ?_⟩
  · unfold Manager.bringUp recordFor
    dsimp only
    rw [hb, hlistener, hrest]
    rfl
  · unfold Manager.bringUp
    dsimp only
    rw [hb]
    exact hbuilt.update _ (f := (·.subscribe.1))

end Manager

end MountRegistry
