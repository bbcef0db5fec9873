import MountRegistry.Proofs.Mount.Lifecycle
import MountRegistry.Proofs.Source.Rebuild

/-
  What a creation that fails leaves behind. The endpoint is the last thing that can be refused, and
  by then both stores have been taken from the pool. So a creation that finds its path published
  has built the stores that the pool did not have (`StorePool.Supplied`), with the schema that it
  resolved in vain, and nobody takes them back. Besides the library and the files it touches nothing
  else (`create_failed`). The next mount point at the path gets these stores, whatever its own
  schema (`schema_of_refused_creation`).
-/

namespace MountRegistry

/-- The pool `p'` is `p` with a new store of this schema for every kind that `p` has no store of for
the path. -/
structure StorePool.Supplied (p p' : StorePool) (path : MountPath) (model : Yang.Model) : Prop where
  elsewhere : ∀ q kind, q ≠ path → p'.lookup? q kind = p.lookup? q kind
  stores : p.stores <+: p'.stores
  kept : ∀ kind n, p.lookup? path kind = some n → p'.lookup? path kind = some n
  built : ∀ kind, p.lookup? path kind = none → ∃ n, p'.lookup? path kind = some n ∧
    p'.store? n = some (Store.create (path.storeName kind) kind model)

namespace Broker

variable {pool : StorePool} {node : NodeId} {kind : StoreKind}

/-- Taking one of the two stores does not look at the other. -/
theorem lookup?_operational (pool : StorePool) (path : MountPath) (model : Yang.Model) :
    (pool.insertIfAbsent path .configuration model).1.lookup? path .operational =
      pool.lookup? path .operational := by
  rw [StorePool.lookup?_insertIfAbsent, if_neg (fun h => StoreKind.noConfusion h.2)]

/-- A store that the pool has for a path is the store of a broker for it. -/
theorem storeNumber_ofPool {n : Nat} (h : pool.lookup? node.mountPath kind = some n)
    (model : Yang.Model) : (ofPool pool node model).2.storeNumber kind = n := by
  unfold ofPool
  simp only [StorePool.getOrCreate_eq]
  cases kind with
  | configuration => rw [storeNumber, StorePool.insertIfAbsent_of_lookup? h]
  | operational =>
    rw [storeNumber, StorePool.insertIfAbsent_of_lookup?
      ((lookup?_operational pool node.mountPath model).trans h)]

/-- A store that the pool does not have is built for a broker. -/
theorem store?_ofPool_of_lookup?_eq_none (h : pool.lookup? node.mountPath kind = none)
    (model : Yang.Model) :
    (ofPool pool node model).1.store? ((ofPool pool node model).2.storeNumber kind) =
      some (Store.create (node.mountPath.storeName kind) kind model) := by
  unfold ofPool
  simp only [StorePool.getOrCreate_eq]
  cases kind with
  | configuration =>
    -- taking the second store leaves the first, which was just built
    refine StorePool.store?_of_extended (StorePool.stores_insertIfAbsent ..) ?_
    rw [storeNumber, StorePool.insertIfAbsent_of_lookup?_eq_none h]
    exact List.getElem?_concat_length
  | operational =>
    rw [storeNumber, StorePool.insertIfAbsent_of_lookup?_eq_none
      ((lookup?_operational pool node.mountPath model).trans h)]
    exact List.getElem?_concat_length

/-- The pool of a broker is the pool it was taken from, with what was missing. -/
theorem supplied_ofPool (pool : StorePool) (node : NodeId) (model : Yang.Model) :
    pool.Supplied (ofPool pool node model).1 node.mountPath model where
  elsewhere := by
    intro q kind hq
    rw [lookup?_ofPool, if_neg hq]
  stores := stores_ofPool pool node model
  kept := by
    intro kind n h
    rw [lookup?_ofPool, if_pos rfl, storeNumber_ofPool h]
  built := by
    intro kind h
    exact ⟨_, by rw [lookup?_ofPool, if_pos rfl], store?_ofPool_of_lookup?_eq_none h model⟩

/-- Where both stores are pooled, nothing is built. -/
theorem ofPool_of_pooled (h : ∀ kind, (pool.lookup? node.mountPath kind).isSome)
    (model : Yang.Model) : (ofPool pool node model).1 = pool := by
  obtain ⟨c, hc⟩ := Option.isSome_iff_exists.1 (h .configuration)
  obtain ⟨o, ho⟩ := Option.isSome_iff_exists.1 (h .operational)
  unfold ofPool
  simp only [StorePool.getOrCreate_eq, StorePool.insertIfAbsent_of_lookup? hc,
    StorePool.insertIfAbsent_of_lookup? ho]

end Broker

namespace Creation

variable {m : Manager} {now : Instant} {node : TopologyNode}

theorem register_of_published {b b' : Broker} (h : m.endpoints.find? b.mountPath = some b') :
    register m now node b = (m, .ended (.error (.alreadyRegistered b.mountPath))) := by
  simp only [register, Endpoints.register_of_published h]

theorem finish_refused {b b' : Broker} (h : m.endpoints.find? b.mountPath = some b') :
    finish m now (.registering node b) = (m, .error (.alreadyRegistered b.mountPath)) :=
  calc finish m now (.registering node b)
    _ = finish m now (.ended (.error (.alreadyRegistered b.mountPath))) :=
      finish_of_step rfl (register_of_published h)
    _ = _ := finish_ended ..

/-- With the path published, the creation ends where its endpoint is refused. -/
theorem finish_published {b : Broker} (h : m.endpoints.find? node.nodeId.mountPath = some b)
    (model : Yang.Model) :
    finish m now (.takingConfiguration node model false) =
      ({ m with pool := (Broker.ofPool m.pool node.nodeId model).1 },
        .error (.alreadyRegistered node.nodeId.mountPath)) := by
  rw [finish_taking]
  exact finish_refused h

end Creation

namespace Manager

variable {m m' : Manager} {now : Instant} {node : TopologyNode}

theorem create_of_published (h : m.isActive node.nodeId = false)
    (hcap : node.capabilities.isEmpty = false) {model : Yang.Model}
    (hmodel : (m.resolution node).result = .ok model) {b : Broker}
    (hpath : m.endpoints.find? node.nodeId.mountPath = some b) :
    m.create now node =
      ({ m with
        library := (m.resolution node).library
        files := (m.resolution node).files
        pool := (Broker.ofPool m.pool node.nodeId model).1 },
        .error (.alreadyRegistered node.nodeId.mountPath)) := by
  rw [create_of_capable h hcap]
  dsimp only
  rw [hmodel]
  exact Creation.finish_published (m := { m with
    library := (m.resolution node).library, files := (m.resolution node).files }) hpath model

/-- What can come of a creation, and why. -/
inductive CreationEffect (m : Manager) (now : Instant) (node : TopologyNode) :
    Manager × Except MountFailure CreateOutcome → Prop where
  | active : CreationEffect m now node (m, .ok .alreadyActive)
  | bare : CreationEffect m now node (m, .error (.noCapabilities node.nodeId))
  | unresolved (cause : ResolutionFailure) (result : (m.resolution node).result = .error cause) :
    CreationEffect m now node
      ({ m with library := (m.resolution node).library, files := (m.resolution node).files },
        .error (.schema node.nodeId cause))
  | refused (model : Yang.Model) (result : (m.resolution node).result = .ok model)
    (published : (m.endpoints.find? node.nodeId.mountPath).isSome) :
    CreationEffect m now node
      ({ m with
        library := (m.resolution node).library
        files := (m.resolution node).files
        pool := (Broker.ofPool m.pool node.nodeId model).1 },
        .error (.alreadyRegistered node.nodeId.mountPath))
  | created (model : Yang.Model) (result : (m.resolution node).result = .ok model)
    (free : m.endpoints.find? node.nodeId.mountPath = none) :
    CreationEffect m now node
      ({ m with library := (m.resolution node).library, files := (m.resolution node).files }.bringUp
        now node model, .ok .created)

theorem effect_create (m : Manager) (now : Instant) (node : TopologyNode) :
    CreationEffect m now node (m.create now node) := by
  cases hact : m.isActive node.nodeId with
  | true =>
    rw [create_of_active hact]
    exact .active
  | false =>
    cases hcap : node.capabilities.isEmpty with
    | true =>
      rw [create_of_bare hact hcap]
      exact .bare
    | false =>
      cases hresult : (m.resolution node).result with
      | error cause =>
        rw [create_of_unresolved hact hcap hresult]
        exact .unresolved cause hresult
      | ok model =>
        cases hpath : m.endpoints.find? node.nodeId.mountPath with
        | none =>
          rw [create_of_resolved hact hpath hcap hresult]
          exact .created model hresult hpath
        | some b =>
          rw [create_of_published hact hcap hresult hpath]
          exact .refused model hresult (Option.isSome_iff_exists.2 ⟨b, hpath⟩)

/-- What a creation that fails leaves as it was: the records, the endpoints, what is to be told, and
the pool too, unless it failed since the path is published. Then it leaves a store of its schema
behind for every kind of which the pool had none, and nothing else. -/
theorem create_failed {e : MountFailure} (h : m.create now node = (m', .error e)) :
    m'.records = m.records ∧ m'.endpoints = m.endpoints ∧ m'.outbox = m.outbox ∧
    ((m'.pool = m.pool ∧
        (e = .noCapabilities node.nodeId ∨ ∃ cause, e = .schema node.nodeId cause)) ∨
      (e = .alreadyRegistered node.nodeId.mountPath ∧
        (m.endpoints.find? node.nodeId.mountPath).isSome ∧
        ∃ model, (m.resolution node).result = .ok model ∧
          m.pool.Supplied m'.pool node.nodeId.mountPath model ∧
          ((∀ kind, (m.pool.lookup? node.nodeId.mountPath kind).isSome) → m'.pool = m.pool))) := by
  have heffect := effect_create m now node
  rw [h] at heffect
  cases heffect with
  | bare => exact ⟨rfl, rfl, rfl, .inl ⟨rfl, .inl rfl⟩⟩
  | unresolved cause => exact ⟨rfl, rfl, rfl, .inl ⟨rfl, .inr ⟨cause, rfl⟩⟩⟩
  | refused model result published =>
    exact ⟨rfl, rfl, rfl, .inr ⟨rfl, published, model, result,
      Broker.supplied_ofPool m.pool node.nodeId model,
      fun hpooled => Broker.ofPool_of_pooled hpooled model⟩⟩

/-- A manager that has a module to offer, and finds the path of `a` published by somebody else. -/
def occupied : Manager :=
  { bare with
    library := (SourceLibrary.empty.register Resolution.typesSource).1
    endpoints := ⟨[(NodeId.mountPath ⟨"a"⟩, ⟨⟨"a"⟩, .empty, 0, 1⟩)]⟩ }

/-- The manager after a creation in vain, with a schema that has no module. -/
def refused : Manager :=
  { occupied with
    library := (occupied.resolution ⟨⟨"a"⟩, ["x"], "a"⟩).library
    files := (occupied.resolution ⟨⟨"a"⟩, ["x"], "a"⟩).files
    pool := (Broker.ofPool occupied.pool ⟨"a"⟩ ⟨[], [], []⟩).1 }

theorem create_occupied :
    occupied.create .epoch ⟨⟨"a"⟩, ["x"], "a"⟩ =
      (refused, .error (.alreadyRegistered (NodeId.mountPath ⟨"a"⟩))) := by
  have hmodel : (occupied.resolution ⟨⟨"a"⟩, ["x"], "a"⟩).result = .ok ⟨[], [], []⟩ := rfl
  exact create_of_published rfl rfl hmodel rfl

/-- Nothing but two stores is left of the creation. -/
theorem create_failed_occupied :
    refused.records = [] ∧ refused.endpoints = occupied.endpoints ∧ refused.outbox = [] ∧
      ∃ model, occupied.pool.Supplied refused.pool (NodeId.mountPath ⟨"a"⟩) model := by
  obtain ⟨hrecords, hendpoints, houtbox, hpool⟩ := create_failed create_occupied
  refine ⟨hrecords, hendpoints, houtbox, ?_⟩
  rcases hpool with ⟨_, hbare | ⟨_, hschema⟩⟩ | ⟨_, _, model, _, hsupplied, _⟩
  · cases hbare
  · cases hschema
  · exact ⟨model, hsupplied⟩

/-! ## The next creation -/

/-- A mount point that comes up takes a pooled store with the schema that it has. -/
theorem model_bringUp {kind : StoreKind} {n : Nat} {s : Store}
    (h : m.pool.lookup? node.nodeId.mountPath kind = some n) (hs : m.pool.store? n = some s)
    (model : Yang.Model) :
    ((Broker.ofPool m.pool node.nodeId model).2.store (m.bringUp now node model).pool kind).model =
      s.model := by
  obtain ⟨hlt, rfl⟩ := StorePool.store?_eq_some_iff.1 hs
  have hlater : m.pool.Later (m.bringUp now node model).pool := bringUp_later
  obtain ⟨_, _, hmodel⟩ := hlater.same n hlt
  unfold Broker.store
  rw [Broker.storeNumber_ofPool h, hmodel]

/-- Where the pool had no store for the path, the schema of a refused creation is that of the stores
of the next mount point there, whatever schema its broker has. -/
theorem schema_of_refused_creation {model : Yang.Model}
    (h : m.create now node = (m', .error (.alreadyRegistered node.nodeId.mountPath)))
    (hmodel : (m.resolution node).result = .ok model)
    (habsent : ∀ kind, m.pool.lookup? node.nodeId.mountPath kind = none)
    {later m'' : Manager} {now' : Instant} {next : TopologyNode} (hpool : later.pool = m'.pool)
    (hnode : next.nodeId = node.nodeId) (hnext : later.create now' next = (m'', .ok .created)) :
    ∃ b, m''.broker? node.nodeId = some b ∧ (later.resolution next).result = .ok b.model ∧
      ∀ kind, (b.store m''.pool kind).model = model := by
  have heffect := effect_create m now node
  have heffect' := effect_create later now' next
  rw [h] at heffect
  rw [hnext] at heffect'
  cases heffect with
  | refused model' result =>
    cases hmodel.symm.trans result
    cases heffect' with
    | created model' result' free =>
      have hsupplied := Broker.supplied_ofPool m.pool node.nodeId model
      rw [show (Broker.ofPool m.pool node.nodeId model).1 = later.pool from hpool.symm]
        at hsupplied
      rw [← hnode] at hsupplied habsent ⊢
      refine ⟨_, bringUp_broker?, result', fun kind => ?_⟩
      obtain ⟨n, hn, hs⟩ := hsupplied.built kind (habsent kind)
      exact model_bringUp (m := { later with
        library := (later.resolution next).library
        files := (later.resolution next).files }) hn hs model'

/-- A schema of the module that the manager has to offer. -/
def typesModel : Yang.Model :=
  ⟨[(⟨"t", none⟩, Resolution.types)], [⟨"t", none⟩], [⟨"v", none, "t"⟩]⟩

theorem resolution_refused :
    (refused.resolution ⟨⟨"a"⟩, ["v?module=t"], "a"⟩).result = .ok typesModel := by
  have hdir : Resolution.directoryFor refused.cacheRoot "a" = .ok "/c/a" := rfl
  have hmade : refused.files.createDirectories "/c/a" = (refused.files, none) := rfl
  have hlist : refused.files.list "/c/a" = .ok [] := rfl
  have hwanted : (CapabilityReport.ofList ["v?module=t"]).modules = [⟨"v", none, "t"⟩] := rfl
  have found : Resolution.fetch "/c/a" ⟨"t", none⟩ ⟨refused.library, refused.files, [], []⟩ =
      .ok (Resolution.typesSource, .library) := rfl
  have checked : Resolution.check ⟨"t", none⟩ Resolution.typesSource = .ok Resolution.types := rfl
  have hcompiling : Resolution.Compiling "/c/a" []
      ([Capability.mk "v" none "t"].map (·.sourceId))
      ⟨refused.library, refused.files, [], []⟩ (.ok [⟨"t", none⟩]) _ :=
    .built rfl (by decide) (Resolution.acquire_of_fetch found checked) (.done ..) (.done ..)
  unfold resolution
  rw [hwanted, Resolution.resolve_eq _ _ hdir hmade hlist]
  exact congrArg Resolution.Outcome.result (Resolution.resolveIn_eq hcompiling)

/-- What was refused left two stores in the pool, and decides on the schema of the stores of the
mount point that comes up once the path is free. -/
theorem stores_of_refused_creation :
    let free := { refused with endpoints := {} }
    occupied.create .epoch ⟨⟨"a"⟩, ["x"], "a"⟩ =
        (refused, .error (.alreadyRegistered (NodeId.mountPath ⟨"a"⟩))) ∧
      occupied.pool.size = 0 ∧ refused.pool.size = 2 ∧
      ∃ m b, free.create .epoch ⟨⟨"a"⟩, ["v?module=t"], "a"⟩ = (m, .ok .created) ∧
        m.broker? ⟨"a"⟩ = some b ∧ b.model = typesModel ∧
        ∀ kind, (b.store m.pool kind).model = ⟨[], [], []⟩ := by
  intro free
  have hcreate : free.create .epoch ⟨⟨"a"⟩, ["v?module=t"], "a"⟩ = (_, .ok .created) :=
    create_of_resolved rfl rfl rfl resolution_refused
  have hpool : free.pool = refused.pool := rfl
  have hnode : (TopologyNode.mk ⟨"a"⟩ ["v?module=t"] "a").nodeId = ⟨"a"⟩ := rfl
  obtain ⟨b, hb, hmodel, hstores⟩ :=
    schema_of_refused_creation create_occupied rfl (fun _ => rfl) hpool hnode hcreate
  refine ⟨create_occupied, rfl, rfl, _, b, hcreate, hb, ?_, hstores⟩
  exact (Except.ok.inj (hmodel.symm.trans resolution_refused))

end Manager

end MountRegistry
