import MountRegistry.Proofs.Mount.Race

/-
  Every turn of a creation and of a removal keeps a race consistent, and so does a whole run
  (`Consistent.run`). Once all errands have ended nobody has an endpoint in hand or answers for a
  store but the record, and that settles what is left of the node (`settled_of_ended`).
-/

namespace MountRegistry.Race

section
variable {s : Race} {node : NodeId} {before after : List Runner} {e : Runner} {b : Broker}
variable {asked : Nat} {x : Surroundings} {n : TopologyNode} {model : Yang.Model} {missed : Bool}

theorem Consistent.turn_checking (h : s.Consistent node)
    (hs : s.runners = before ++ ⟨.creation (.checking n), asked⟩ :: after) :
    (s.turn ⟨.creation (.checking n), asked⟩ (before ++ · :: after) x).Consistent node := by
  have hn : n.nodeId = node := h.isFor hs
  change Consistent { s with
    manager := s.manager.within x
    runners := before ++ ⟨.creation (Creation.check (s.manager.within x) n), asked⟩ :: after } node
  rcases Creation.check_cases (s.manager.within x) n with ⟨o, ho⟩ | hc
  · rw [ho]
    exact h.unladen hs rfl rfl rfl trivial rfl rfl rfl
  · rw [hc]
    exact h.unladen hs rfl rfl rfl hn rfl rfl rfl

theorem Consistent.turn_resolving (h : s.Consistent node)
    (hs : s.runners = before ++ ⟨.creation (.resolving n), asked⟩ :: after) :
    (s.turn ⟨.creation (.resolving n), asked⟩ (before ++ · :: after) x).Consistent node := by
  have hn : n.nodeId = node := h.isFor hs
  obtain ⟨library, files, c, hc, hnext⟩ := Creation.resolve_cases (s.manager.within x) n
  change Consistent { s with
    manager := (Creation.resolve (s.manager.within x) n).1
    runners := before ++ ⟨.creation (Creation.resolve (s.manager.within x) n).2, asked⟩ ::
      after } node
  rw [hc]
  rcases hnext with ⟨o, rfl⟩ | ⟨model, rfl⟩
  · exact h.unladen hs rfl rfl rfl trivial rfl rfl rfl
  · exact h.unladen hs rfl rfl rfl hn rfl rfl rfl

theorem Consistent.turn_takingConfiguration (h : s.Consistent node)
    (hs : s.runners = before ++ ⟨.creation (.takingConfiguration n model missed), asked⟩ :: after) :
    (s.turn ⟨.creation (.takingConfiguration n model missed), asked⟩ (before ++ · :: after)
      x).Consistent node := by
  have hn : n.nodeId = node := h.isFor hs
  subst hn
  unfold turn
  simp only [Errand.step, Creation.step]
  rcases Creation.take_cases (s.manager.within x) n.nodeId.mountPath .configuration model
    missed with hmiss | ⟨pool, k, htake, hpool, hk⟩
  · rw [hmiss]
    exact h.unladen hs rfl rfl rfl rfl rfl rfl rfl
  · rw [htake]
    exact h.take hs hpool rfl rfl rfl rfl (h.holds_first hpool hk) rfl

theorem Consistent.turn_takingOperational (h : s.Consistent node) {configuration : Nat}
    (hs : s.runners =
      before ++ ⟨.creation (.takingOperational n model configuration missed), asked⟩ :: after) :
    (s.turn ⟨.creation (.takingOperational n model configuration missed), asked⟩
      (before ++ · :: after) x).Consistent node := by
  have hn : n.nodeId = node := h.isFor hs
  have hfirst := h.holds hs rfl
  subst hn
  unfold turn
  simp only [Errand.step, Creation.step]
  rcases Creation.take_cases (s.manager.within x) n.nodeId.mountPath .operational model missed with
    hmiss | ⟨pool, k, htake, hpool, hk⟩
  · rw [hmiss]
    exact h.quiet hs rfl rfl rfl rfl rfl rfl (fun t ht => ⟨ht, rfl⟩) fun ha => ha
  · rw [htake]
    have hboth := hfirst.extend hpool
    refine h.take hs hpool rfl rfl rfl rfl ?_ rfl
    exact ⟨hboth.built, hboth.asked_le, hboth.configuration, fun _ j hj => Option.some.inj hj ▸ hk⟩

/-- While the endpoint is free the creation takes it in hand. -/
theorem Consistent.turn_registering_free (h : s.Consistent node)
    (hs : s.runners = before ++ ⟨.creation (.registering n b), asked⟩ :: after)
    (hfind : s.manager.endpoints.find? node.mountPath = none) :
    (s.turn ⟨.creation (.registering n b), asked⟩ (before ++ · :: after) x).Consistent node := by
  obtain rfl : b.node = node := h.isFor hs
  let r := (s.manager.within x).recordFor x.now n b
  have hstep : s.turn ⟨.creation (.registering n b), asked⟩ (before ++ · :: after) x =
      { s with
        manager := (s.manager.within x).publishEndpoint b
        runners := before ++ ⟨.creation (.recording r), asked⟩ :: after } := by
    unfold turn
    simp only [Errand.step, Creation.step,
      Creation.register_of_free (m := s.manager.within x) hfind]
    rfl
  have hpool : s.manager.pool.Extends ((s.manager.within x).publishEndpoint b).pool
      b.node.mountPath :=
    StorePool.extends_of_keys _ rfl (StorePool.created_setStore ..)
  obtain ⟨hrecord, hnobody⟩ := h.of_free hfind
  obtain ⟨hbefore, hafter⟩ := idle_of_endpoints (hs ▸ hnobody)
  rw [hstep]
  refine h.advance hs rfl hpool ⟨rfl, _, rfl⟩ ?_ ?_ ?_
  · rw [hrecord, endpoints_of_idle hbefore hafter]
    exact congrArg Option.toList (Keyed.find?_insert_self ..).symm
  · intro t ht
    exact Option.some.inj ht ▸ (h.holds hs rfl).extend hpool
  · intro kind k _
    exact .inr ⟨_, List.mem_append_right _ List.mem_cons_self, rfl⟩

/-- If somebody has the endpoint the creation fails, and whoever has it answers for the stores. -/
theorem Consistent.turn_registering_published (h : s.Consistent node)
    (hs : s.runners = before ++ ⟨.creation (.registering n b), asked⟩ :: after) {b' : Broker}
    (hfind : s.manager.endpoints.find? node.mountPath = some b') :
    (s.turn ⟨.creation (.registering n b), asked⟩ (before ++ · :: after) x).Consistent node := by
  obtain rfl : b.node = node := h.isFor hs
  have hstep : s.turn ⟨.creation (.registering n b), asked⟩ (before ++ · :: after) x =
      { s with
        manager := s.manager.within x
        runners := before ++
          ⟨.creation (.ended (.error (.alreadyRegistered b.mountPath))), asked⟩ :: after } := by
    unfold turn
    simp only [Errand.step, Creation.step, Creation.register,
      Endpoints.register_of_published (e := (s.manager.within x).endpoints) hfind]
    rfl
  rw [hstep]
  refine h.advance hs rfl (StorePool.extends_of_keys _ rfl rfl) trivial
    (h.endpoint_replaced hs rfl) (fun t ht => by cases ht) fun kind k _ => ?_
  refine (h.of_published hfind).imp_right fun hx => ?_
  obtain ⟨y, hy, hyb⟩ := Replaced.exists_mem (hs ▸ hx) fun hno => by cases hno
  exact ⟨y, hy, Errand.answers_of_endpoint? hyb⟩

theorem Consistent.turn_registering (h : s.Consistent node)
    (hs : s.runners = before ++ ⟨.creation (.registering n b), asked⟩ :: after) :
    (s.turn ⟨.creation (.registering n b), asked⟩ (before ++ · :: after) x).Consistent node := by
  cases hfind : s.manager.endpoints.find? node.mountPath with
  | none => exact h.turn_registering_free hs hfind
  | some b' => exact h.turn_registering_published hs hfind

/-- A creation that has the endpoint finds no record. -/
theorem Consistent.turn_recording (h : s.Consistent node) {r : MountRecord}
    (hs : s.runners = before ++ ⟨.creation (.recording r), asked⟩ :: after) :
    (s.turn ⟨.creation (.recording r), asked⟩ (before ++ · :: after) x).Consistent node := by
  have hr : r.IsFor node := h.isFor hs
  have hboth := h.holds hs rfl
  -- the endpoint is in the hand of this creation, so it is in no record's
  obtain ⟨hrecord, hbefore, hafter, hfind⟩ := h.alone hs rfl
  have habsent : (s.manager.within x).isActive r.node = false := by
    rw [hr.1]
    exact Manager.isActive_eq_false_iff.2 hrecord
  have hstep : s.turn ⟨.creation (.recording r), asked⟩ (before ++ · :: after) x =
      { s with
        manager := (s.manager.within x).putRecord x.now r
        runners := before ++ ⟨.creation (.ended (.ok .created)), asked⟩ :: after
        recordAsked := asked } := by
    unfold turn
    simp only [Errand.step, Creation.step, Creation.insertRecord_of_absent habsent]
    rfl
  have hput : ((s.manager.within x).putRecord x.now r).record? node = some r := by
    rw [← hr.1]
    exact Keyed.find?_insert_self ..
  rw [hstep]
  refine ⟨Replaced.forall_mem (hs ▸ h.shaped) trivial, ?_, ?_, h.built,
    Replaced.forall_mem (hs ▸ h.taken) (fun t ht => by cases ht), ?_, fun _ _ _ => .inl ⟨r, hput⟩⟩
  · intro r' hr'
    rw [hput] at hr'
    exact Option.some.inj hr' ▸ hr
  · rw [hput, endpoints_of_idle hbefore hafter]
    exact congrArg Option.toList hfind.symm
  · intro r' hr'
    rw [hput] at hr'
    exact Option.some.inj hr' ▸ hboth

theorem Consistent.turn_creation (h : s.Consistent node) {c : Creation}
    (hs : s.runners = before ++ ⟨.creation c, asked⟩ :: after) :
    (s.turn ⟨.creation c, asked⟩ (before ++ · :: after) x).Consistent node := by
  cases c with
  | checking n => exact h.turn_checking hs
  | resolving n => exact h.turn_resolving hs
  | takingConfiguration n model missed => exact h.turn_takingConfiguration hs
  | takingOperational n model configuration missed => exact h.turn_takingOperational hs
  | registering n b => exact h.turn_registering hs
  | recording r => exact h.turn_recording hs
  | discarding held => exact (h.isFor hs).elim
  | ended o =>
    exact h.unladen hs rfl rfl rfl trivial rfl rfl rfl

/-- The removal that takes the record has its endpoint in hand, and answers for the stores. -/
theorem Consistent.turn_taking_record (h : s.Consistent node)
    (hs : s.runners = before ++ ⟨.removal (.taking node), asked⟩ :: after) {r : MountRecord}
    (hr : s.manager.record? node = some r) :
    (s.turn ⟨.removal (.taking node), asked⟩ (before ++ · :: after) x).Consistent node := by
  have hstep : s.turn ⟨.removal (.taking node), asked⟩ (before ++ · :: after) x =
      { s with
        manager := { s.manager.within x with records := Keyed.erase s.manager.records node }
        runners := before ++ ⟨.removal (.ofRecord r), asked⟩ :: after } := by
    unfold turn
    simp only [Errand.step, Removal.step, Removal.takeRecord,
      show (s.manager.within x).record? node = some r from hr]
    rfl
  have hgone : Manager.record?
      { s.manager.within x with records := Keyed.erase s.manager.records node } node = none :=
    (Keyed.find?_erase ..).trans (if_pos rfl)
  obtain ⟨hnode, l, hl⟩ := h.record r hr
  obtain ⟨hnobody, hfind⟩ := h.of_record hr
  obtain ⟨hbefore, hafter⟩ := idle_of_endpoints (hs ▸ hnobody)
  have hendpoint : Runner.endpoint? ⟨.removal (.ofRecord r), asked⟩ = some r.broker := by
    unfold Removal.ofRecord
    rw [hl]
    rfl
  rw [hstep]
  refine ⟨Replaced.forall_mem (hs ▸ h.shaped) ⟨hnode, l, hl ▸ List.suffix_rfl⟩, ?_, ?_, h.built,
    Replaced.forall_mem (hs ▸ h.taken) (fun t ht => by cases ht), ?_, ?_⟩
  · intro r' hr'
    rw [hgone] at hr'
    cases hr'
  · rw [hgone, endpoints_of_idle hbefore hafter, hendpoint]
    exact congrArg Option.toList hfind.symm
  · intro r' hr'
    rw [hgone] at hr'
    cases hr'
  · intro kind k _
    exact .inr ⟨_, List.mem_append_right _ List.mem_cons_self, rfl⟩

theorem Consistent.turn_taking (h : s.Consistent node) {q : NodeId}
    (hs : s.runners = before ++ ⟨.removal (.taking q), asked⟩ :: after) :
    (s.turn ⟨.removal (.taking q), asked⟩ (before ++ · :: after) x).Consistent node := by
  obtain rfl : q = node := h.isFor hs
  cases hr : s.manager.record? q with
  | some r => exact h.turn_taking_record hs hr
  | none =>
    have hstep : s.turn ⟨.removal (.taking q), asked⟩ (before ++ · :: after) x =
        { s with
          manager := s.manager.within x
          runners := before ++ ⟨.removal (.ended false), asked⟩ :: after } := by
      unfold turn
      simp only [Errand.step, Removal.step, Removal.takeRecord,
        show (s.manager.within x).record? q = none from hr]
      rfl
    rw [hstep]
    exact h.unladen hs rfl rfl rfl trivial rfl rfl rfl

/-- With the endpoint withdrawn it is in nobody's hand. -/
theorem Consistent.turn_withdrawing (h : s.Consistent node) {r : MountRecord} {l : Listener}
    {failures : Nat} (hs : s.runners = before ++
      ⟨.removal (.releasing r [.endpoint node.mountPath, .listener l] failures), asked⟩ :: after) :
    (s.turn ⟨.removal (.releasing r [.endpoint node.mountPath, .listener l] failures), asked⟩
      (before ++ · :: after) x).Consistent node := by
  obtain ⟨hrecord, hbefore, hafter, hfind⟩ := h.alone hs rfl
  have hstep : s.turn ⟨.removal (.releasing r [.endpoint node.mountPath, .listener l] failures),
        asked⟩ (before ++ · :: after) x =
      { s with
        manager := { s.manager.within x with
          endpoints := ⟨Keyed.erase s.manager.endpoints.points node.mountPath⟩ }
        runners := before ++
          ⟨.removal (.releasing r [.listener l] failures), asked⟩ :: after } := by
    unfold turn
    simp only [Errand.step, Removal.step, Registration.release,
      Endpoints.unregister_of_published (e := (s.manager.within x).endpoints) hfind]
    rfl
  obtain ⟨hnode, _⟩ := h.isFor hs
  rw [hstep]
  refine h.advance hs rfl (StorePool.extends_of_keys _ rfl rfl) ⟨hnode, l, List.suffix_cons ..⟩ ?_
    (fun t ht => by cases ht) fun kind k _ => ?_
  · rw [hrecord, endpoints_of_idle hbefore hafter]
    exact congrArg Option.toList ((Keyed.find?_erase ..).trans (if_pos rfl)).symm
  · exact .inr ⟨_, List.mem_append_right _ List.mem_cons_self, rfl⟩

/-- Whatever the pool held of the node is dropped. -/
theorem Consistent.turn_dropping (h : s.Consistent node) {r : MountRecord} {failures : Nat}
    (hs : s.runners = before ++ ⟨.removal (.releasing r [] failures), asked⟩ :: after) :
    (s.turn ⟨.removal (.releasing r [] failures), asked⟩ (before ++ · :: after) x).Consistent
      node := by
  obtain ⟨hnode, _⟩ := h.isFor hs
  have hstep : s.turn ⟨.removal (.releasing r [] failures), asked⟩ (before ++ · :: after) x =
      { s with
        manager := Removal.releaseStores (s.manager.within x) x.now r failures
        runners := before ++ ⟨.removal (.ended true), asked⟩ :: after
        drops := s.drops + 1 } := rfl
  have hpath : r.mountPath = node.mountPath := congrArg NodeId.mountPath hnode
  have hpool : (Removal.releaseStores (s.manager.within x) x.now r failures).pool =
      (s.manager.pool.removeMount node.mountPath).1 := by
    rw [← hpath]
    rfl
  have hnone : ∀ kind, (s.manager.pool.removeMount node.mountPath).1.lookup? node.mountPath kind =
      none := by
    intro kind
    rw [StorePool.lookup?_removeMount, if_pos rfl]
  rw [hstep]
  refine ⟨Replaced.forall_mem (hs ▸ h.shaped) trivial, h.record, h.endpoint_replaced hs rfl,
    ?_, ?_, ?_, ?_⟩
  · intro kind k hk
    rw [hpool, hnone] at hk
    cases hk
  · rw [hpool]
    exact Replaced.forall_mem (hs ▸ fun y hy t ht => (h.taken y hy t ht).drop)
      fun t ht => by cases ht
  · rw [hpool]
    exact fun r' hr' => (h.recorded r' hr').drop
  · intro kind k hk
    rw [hpool, hnone] at hk
    cases hk

theorem Consistent.turn_removal (h : s.Consistent node) {r : Removal}
    (hs : s.runners = before ++ ⟨.removal r, asked⟩ :: after) :
    (s.turn ⟨.removal r, asked⟩ (before ++ · :: after) x).Consistent node := by
  cases r with
  | taking q => exact h.turn_taking hs
  | releasing r held failures =>
    obtain ⟨hnode, l, hheld⟩ := h.isFor hs
    rcases List.suffix_cons_iff.1 hheld with rfl | hheld
    · exact h.turn_withdrawing hs
    · rcases List.suffix_cons_iff.1 hheld with rfl | hheld
      · obtain ⟨hkeys, hcreated⟩ := l.close_pool s.manager.pool
        exact h.quiet hs rfl hkeys hcreated rfl ⟨hnode, l, List.nil_suffix⟩ rfl
          (fun t ht => by cases ht) fun ha => ha
      · obtain rfl := List.suffix_nil.1 hheld
        exact h.turn_dropping hs
  | ended o =>
    exact h.unladen hs rfl rfl rfl trivial rfl rfl rfl

end

variable {s : Race} {node : NodeId}

theorem Consistent.step (h : s.Consistent node) (i : Nat) (x : Surroundings) :
    (s.step i x).Consistent node := by
  unfold Race.step
  cases hi : s.runners[i]? with
  | none => exact h
  | some e =>
    obtain ⟨before, after, hs, hset⟩ := Replaced.exists_split hi
    dsimp only
    rw [hset]
    obtain ⟨errand, asked⟩ := e
    cases errand with
    | creation c => exact h.turn_creation hs
    | removal r => exact h.turn_removal hs

theorem Consistent.run (h : s.Consistent node) (moves : List (Nat × Surroundings)) :
    (s.run moves).Consistent node := by
  induction moves generalizing s with
  | nil => exact h
  | cons move moves ih => exact ih (h.step move.1 move.2)

theorem consistent_start {m : Manager} (h : m.Keeps m.record?) (node : NodeId)
    (requests : List Request) : (start m node requests).Consistent node where
  shaped := by
    intro e he
    obtain ⟨r, _, rfl⟩ := List.mem_map.1 he
    cases r <;> exact rfl
  record := by
    intro r hr
    obtain ⟨hserves, ⟨l, hl, _⟩, _⟩ := h.stands node r hr
    exact ⟨hserves, l, hl⟩
  endpoint := by
    have hnobody : (start m node requests).runners.filterMap Runner.endpoint? = [] := by
      refine List.filterMap_eq_nil_iff.2 fun e he => ?_
      obtain ⟨r, _, rfl⟩ := List.mem_map.1 he
      cases r <;> rfl
    rw [hnobody, List.append_nil]
    exact congrArg Option.toList (h.endpoint node).symm
  built := by
    intro kind n hn
    have hlookup := h.pooled node kind
    rw [show m.pool.lookup? node.mountPath kind = some n from hn] at hlookup
    obtain ⟨r, hr, rfl⟩ := Option.map_eq_some_iff.1 hlookup.symm
    obtain ⟨_, hstore, _⟩ := (h.stands node r hr).stores kind
    exact (StorePool.store?_eq_some_iff.1 hstore).1
  taken := by
    intro e he t ht
    obtain ⟨r, _, rfl⟩ := List.mem_map.1 he
    cases r <;> cases ht
  recorded := by
    intro r hr
    have hlookup : ∀ kind, m.pool.lookup? node.mountPath kind =
        some (r.broker.storeNumber kind) := by
      intro kind
      rw [h.pooled, show m.record? node = some r from hr]
      rfl
    obtain ⟨_, hstore, _⟩ := (h.stands node r hr).stores .configuration
    refine ⟨(StorePool.store?_eq_some_iff.1 hstore).1, Nat.le_refl _,
      ⟨fun _ => rfl, fun _ => hlookup .configuration⟩, fun _ n hn => ?_⟩
    exact Option.some.inj hn ▸ hlookup .operational
  answered := by
    intro kind n hn
    have hlookup := h.pooled node kind
    rw [show m.pool.lookup? node.mountPath kind = some n from hn] at hlookup
    obtain ⟨r, hr, _⟩ := Option.map_eq_some_iff.1 hlookup.symm
    exact .inl ⟨r, hr⟩

/-! ## When all errands have ended -/

theorem endpoint?_of_hasEnded {e : Runner} (h : e.errand.hasEnded = true) :
    e.endpoint? = none ∧ e.errand.answers = false := by
  obtain ⟨errand, asked⟩ := e
  cases errand with
  | creation c => cases c <;> first | exact ⟨rfl, rfl⟩ | cases h
  | removal r => cases r <;> first | exact ⟨rfl, rfl⟩ | cases h

/-- Once all calls for a node have returned, it has a record just if its endpoint is published, and
then the broker of the record is; without a record the pool holds nothing of it either. A record has
its two stores in the pool just if no removal dropped the stores of the node after the creation of
the record asked for the first of them. -/
theorem settled_of_ended (cacheRoot : String) (files : Files)
    (calls : List (Surroundings × Manager.Call)) (node : NodeId) (requests : List Request)
    (moves : List (Nat × Surroundings))
    (hended : ∀ e ∈ ((start (.after { cacheRoot, files } calls) node requests).run moves).runners,
      e.errand.hasEnded = true) :
    let s := (start (.after { cacheRoot, files } calls) node requests).run moves
    s.manager.endpoints.find? node.mountPath = (s.manager.record? node).map (·.broker) ∧
    (s.manager.record? node = none →
      ∀ kind, s.manager.pool.lookup? node.mountPath kind = none) ∧
    ∀ r, s.manager.record? node = some r → (s.recordAsked = s.drops ↔
      ∀ kind, s.manager.pool.lookup? node.mountPath kind = some (r.broker.storeNumber kind)) := by
  intro s
  have h : s.Consistent node :=
    (consistent_start (Manager.settled_after cacheRoot files calls).keeps node requests).run moves
  have hnobody : s.runners.filterMap Runner.endpoint? = [] :=
    List.filterMap_eq_nil_iff.2 fun e he => (endpoint?_of_hasEnded (hended e he)).1
  refine ⟨?_, fun hr kind => ?_, fun r hr => ?_⟩
  · have heq := h.endpoint
    rw [hnobody, List.append_nil] at heq
    have hhead := congrArg List.head? heq
    rw [Option.head?_toList, Option.head?_toList] at hhead
    exact hhead.symm
  · cases hk : s.manager.pool.lookup? node.mountPath kind with
    | none => rfl
    | some n =>
      rcases h.answered kind n hk with ⟨r, hr'⟩ | ⟨e, he, hanswers⟩
      · rw [hr] at hr'
        cases hr'
      · rw [(endpoint?_of_hasEnded (hended e he)).2] at hanswers
        cases hanswers
  · have hholds := h.recorded r hr
    constructor
    · intro hasked kind
      cases kind with
      | configuration => exact hholds.configuration.2 hasked
      | operational => exact hholds.operational hasked _ rfl
    · intro hpool
      exact hholds.configuration.1 (hpool .configuration)

/-- Two creations that take turns: the second finds the endpoint published, and fails. -/
theorem settled_of_ended_two_creations :
    let s := (start (.after { cacheRoot := "/c", files := ⟨"", .directory []⟩ } []) ⟨"a"⟩
      [.create ["x"] "a", .create ["x"] "a"]).run
        ((List.range 16).map fun i => (i % 2, Surroundings.bare))
    (∀ e ∈ s.runners, e.errand.hasEnded = true) ∧ s.manager.isActive ⟨"a"⟩ = true ∧
      s.manager.endpoints.find? (NodeId.mountPath ⟨"a"⟩) =
        (s.manager.record? ⟨"a"⟩).map (·.broker) ∧
      ∀ r, s.manager.record? ⟨"a"⟩ = some r → ∀ kind,
        s.manager.pool.lookup? (NodeId.mountPath ⟨"a"⟩) kind =
          some (r.broker.storeNumber kind) := by
  intro s
  have hended : ∀ e ∈ s.runners, e.errand.hasEnded = true := by decide +kernel
  have hdrops : s.recordAsked = s.drops := by decide +kernel
  obtain ⟨hendpoint, _, hpool⟩ := settled_of_ended "/c" ⟨"", .directory []⟩ [] ⟨"a"⟩
    [.create ["x"] "a", .create ["x"] "a"] _ hended
  exact ⟨hended, by decide +kernel, hendpoint, fun r hr => (hpool r hr).1 hdrops⟩

/-- A first creation, a removal that has withdrawn the endpoint and closed the listener, a second
creation, and the rest of the removal. -/
theorem stores_dropped_under_mount_point :
    let s := (start { cacheRoot := "/c", files := ⟨"", .directory []⟩ } ⟨"a"⟩
      [.create ["x"] "a", .delete, .create ["x"] "a"]).run
        ((List.replicate 8 0 ++ [1, 1, 1] ++ List.replicate 6 2 ++ [1]).map (·, .bare))
    (s.runners.map (·.errand.hasEnded) = [true, true, true]) ∧
      s.manager.isActive ⟨"a"⟩ = true ∧ s.manager.pool.size = 0 := by
  decide +kernel

end MountRegistry.Race
