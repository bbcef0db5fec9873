import MountRegistry.Proofs.Broker.Deed
import MountRegistry.Proofs.Mount.Alike
import MountRegistry.Proofs.Mount.Lifecycle

/-
  Creations and removals on a manager, mixed with all that is done through the brokers that it ever
  handed out, those of mount points long gone among them. Each mount point that comes up has stores
  of its own for good: the incarnation of number `k` has the stores of numbers `2k` and `2k + 1`
  (`Sound.numbered`). So whatever is done through the brokers of other incarnations may be left out
  without a difference to this one (`Alike.answers`).
-/

namespace MountRegistry

/-- A manager, the brokers of all mount points that ever came up, oldest first, and what is open on
each. -/
structure Usage where
  manager : Manager
  brokers : List Broker := []
  dealing? : Nat → Nat → Option Dealing := fun _ _ => none

namespace Usage

/-- What happens to the manager, or to a transaction that somebody has on one of its brokers. -/
inductive Move where
  | create (x : Surroundings) (node : TopologyNode)
  | delete (x : Surroundings) (node : NodeId)
  | closeAll (x : Surroundings)
  /-- Does something to a transaction of an incarnation. -/
  | deal (k i : Nat) (deed : Deed)

/-- A manager that nothing was asked of. -/
def start (cacheRoot : String) (files : Files) : Usage := { manager := { cacheRoot, files } }

/-- A creation; if it succeeds, the broker that it made is one incarnation more. -/
def create (s : Usage) (x : Surroundings) (node : TopologyNode) : Usage :=
  match (s.manager.within x).create x.now node with
  | (m, .ok .created) =>
    { s with manager := m, brokers := s.brokers ++ (m.broker? node.nodeId).toList }
  | (m, _) => { s with manager := m }

/-- The transaction of this incarnation and number has come so far. -/
def setDealing (s : Usage) (k i : Nat) (d : Option Dealing) : Usage :=
  { s with dealing? := fun k' i' => if k' = k ∧ i' = i then d else s.dealing? k' i' }

/-- Does something to a transaction of an incarnation, which may be over by then. -/
def deal (s : Usage) (k i : Nat) (deed : Deed) : Usage × Deed.Answer :=
  match s.brokers[k]? with
  | none => (s, .refused)
  | some b =>
    let (pool, d, a) := deed.perform b s.manager.pool (s.dealing? k i)
    ({ s.setDealing k i d with manager := { s.manager with pool } }, a)

/-- A move, which may find the schema files other than the move before left them. -/
def step (s : Usage) : Move → Usage
  | .create x node => s.create x node
  | .delete x node => { s with manager := ((s.manager.within x).delete x.now node).1 }
  | .closeAll x => { s with manager := (s.manager.within x).closeAll x.now }
  | .deal k i deed => (s.deal k i deed).1

/-- The moves one after the other. -/
def after (s : Usage) : List Move → Usage
  | [] => s
  | move :: rest => (s.step move).after rest

/-- What is answered through an incarnation. -/
def answer? (k : Nat) (s : Usage) : Move → Option Deed.Answer
  | .deal j i deed => if j = k then some (s.deal j i deed).2 else none
  | _ => none

/-- What the deeds on one incarnation were answered, in their order. -/
def answers (k : Nat) (s : Usage) : List Move → List Deed.Answer
  | [] => []
  | move :: rest => (s.answer? k move).toList ++ (s.step move).answers k rest

/-- Whether a move is a call of the manager, or done through the incarnation. -/
def Move.concerns (k : Nat) : Move → Bool
  | deal j _ _ => j = k
  | _ => true

/-! ## The stores of an incarnation -/

/-- What holds between any two moves. -/
structure Sound (s : Usage) : Prop where
  settled : s.manager.Settled fun _ _ => True
  built : s.manager.pool.created = 2 * s.brokers.length
  numbered : ∀ k b, s.brokers[k]? = some b → ∀ kind, b.storeNumber kind / 2 = k
  handed : ∀ node r, s.manager.record? node = some r → r.broker ∈ s.brokers
  dealing : ∀ k i d, s.dealing? k i = some d → ∃ b, s.brokers[k]? = some b ∧ d.On b

variable {s : Usage}

theorem sound_start (cacheRoot : String) (files : Files) : (start cacheRoot files).Sound where
  settled := Manager.settled_start cacheRoot files _
  built := rfl
  numbered := fun k b h => by cases h
  handed := fun node r h => by cases h
  dealing := fun k i d h => by cases h

theorem create_of_other {x : Surroundings} {node : TopologyNode} {m : Manager}
    {o : Except MountFailure CreateOutcome} (ho : o ≠ .ok .created)
    (h : (s.manager.within x).create x.now node = (m, o)) :
    s.create x node = { s with manager := m } := by
  unfold create
  rw [h]
  cases o with
  | error failure => rfl
  | ok o =>
    cases o with
    | created => exact absurd rfl ho
    | alreadyActive => rfl

theorem create_of_created {x : Surroundings} {node : TopologyNode} {m : Manager} {b : Broker}
    (h : (s.manager.within x).create x.now node = (m, .ok .created))
    (hb : m.broker? node.nodeId = some b) :
    s.create x node = { s with manager := m, brokers := s.brokers ++ [b] } := by
  unfold create
  simp only [h, hb]
  rfl

/-- Nothing comes up, and at most a mount point goes. -/
theorem Sound.withManager (h : s.Sound) {m : Manager} (hm : m.Settled fun _ _ => True)
    (hc : m.pool.created = s.manager.pool.created)
    (hr : ∀ node r, m.record? node = some r → s.manager.record? node = some r) :
    Sound { s with manager := m } where
  settled := hm
  built := hc.trans h.built
  numbered := h.numbered
  handed := fun node r hnode => h.handed node r (hr node r hnode)
  dealing := h.dealing

theorem Sound.within (h : s.Sound) (library : SourceLibrary) (files : Files) :
    Sound { s with manager := { s.manager with library, files } } :=
  h.withManager (h.settled.within library files) rfl fun _ _ hr => hr

theorem Sound.absent (h : s.Sound) {node : NodeId} (hnode : s.manager.isActive node = false)
    (kind : StoreKind) : s.manager.pool.lookup? node.mountPath kind = none := by
  rw [h.settled.keeps.pooled, Manager.isActive_eq_false_iff.1 hnode]
  rfl

/-- A mount point that comes up has the next two stores. -/
theorem Sound.bringUp (h : s.Sound) (now : Instant) {node : TopologyNode}
    (hnode : s.manager.isActive node.nodeId = false) (model : Yang.Model) :
    Sound { s with
      manager := s.manager.bringUp now node model
      brokers := s.brokers ++ [(Broker.ofPool s.manager.pool node.nodeId model).2] } where
  settled := h.settled.bringUp hnode model
  built := by
    have hbuilt := h.built
    rw [Manager.bringUp_created (h.absent hnode), List.length_append, List.length_singleton]
    omega
  numbered := by
    intro k b hb kind
    rcases Nat.lt_trichotomy k s.brokers.length with hlt | rfl | hgt
    · rw [List.getElem?_append_left hlt] at hb
      exact h.numbered k b hb kind
    · rw [List.getElem?_concat_length] at hb
      cases hb
      have hbuilt := h.built
      rw [Broker.ofPool_of_absent (h.absent hnode)]
      cases kind <;> simp only [Broker.storeNumber] <;> omega
    · rw [List.getElem?_eq_none (by rw [List.length_append]; exact hgt)] at hb
      cases hb
  handed := by
    intro q r hr
    rw [Manager.bringUp_record?] at hr
    split at hr
    · cases hr
      exact List.mem_append_right _ List.mem_cons_self
    · exact List.mem_append_left _ (h.handed q r hr)
  dealing := by
    intro k i d hd
    obtain ⟨b, hb, hon⟩ := h.dealing k i d hd
    obtain ⟨hlt, _⟩ := List.getElem?_eq_some_iff.1 hb
    exact ⟨b, (List.getElem?_append_left hlt).trans hb, hon⟩

/-- What a creation comes to, here and wherever the pools differ in stores only. -/
theorem Sound.create_cases (h : s.Sound) (x : Surroundings) (node : TopologyNode) :
    (∃ library files o, o ≠ .ok .created ∧ ∀ pool,
      { s.manager.within x with pool }.create x.now node =
        ({ s.manager with pool, library, files }, o)) ∨
    (s.manager.isActive node.nodeId = false ∧ ∃ library files model, ∀ pool,
      { s.manager.within x with pool }.create x.now node =
        ({ s.manager with pool, library, files }.bringUp x.now node model, .ok .created)) := by
  have hx : (s.manager.within x).Settled fun _ _ => True := h.settled.within x.library x.files
  rcases (s.manager.within x).create_cases x.now node hx.find?_of_absent with
    ⟨_, heq⟩ | ⟨_, library, files, failure, heq⟩ | ⟨hnode, library, files, model, heq⟩
  · exact .inl ⟨x.library, x.files, _, fun hc => (by cases hc), heq⟩
  · exact .inl ⟨library, files, _, fun hc => (by cases hc), heq⟩
  · exact .inr ⟨hnode, library, files, model, heq⟩

theorem Sound.create (h : s.Sound) (x : Surroundings) (node : TopologyNode) :
    (s.create x node).Sound := by
  rcases h.create_cases x node with
    ⟨library, files, o, ho, heq⟩ | ⟨hnode, library, files, model, heq⟩
  · rw [create_of_other ho (heq s.manager.pool)]
    exact h.within library files
  · rw [create_of_created (heq s.manager.pool) Manager.bringUp_broker?]
    exact (h.within library files).bringUp x.now hnode model

theorem Sound.delete (h : s.Sound) (x : Surroundings) (node : NodeId) :
    Sound { s with manager := ((s.manager.within x).delete x.now node).1 } := by
  have hx := h.settled.within x.library x.files
  exact h.withManager (hx.delete x.now node) (Manager.created_delete ..) fun _ _ hr =>
    Manager.record?_of_delete (m := s.manager.within x) hr

theorem Sound.closeAll (h : s.Sound) (x : Surroundings) :
    Sound { s with manager := (s.manager.within x).closeAll x.now } := by
  have hx := h.settled.within x.library x.files
  obtain ⟨hcreated, hrecords⟩ := Manager.foldl_finish_ofRecord
    { s.manager.within x with records := [] } x.now (s.manager.within x).recordList
  refine h.withManager (hx.closeAll x.now) hcreated fun node r hr => ?_
  have hnone : ((s.manager.within x).closeAll x.now).record? node = none :=
    congrArg (Keyed.find? · node) hrecords
  rw [hnone] at hr
  cases hr

/-- What is done through an incarnation writes a store of it at most. -/
theorem Sound.deal_writes (h : s.Sound) {k i : Nat} {b : Broker} (hb : s.brokers[k]? = some b)
    {pool : StorePool} (hsame : b.SameIn s.manager.pool pool) (deed : Deed) :
    ∃ d a, (∀ x, d = some x → x.On b) ∧
      b.Writes s.manager.pool pool (deed.perform b · (s.dealing? k i)) (d, a) := by
  refine Deed.perform_writes hsame (fun x hx => ?_) deed
  obtain ⟨b', hb', hon⟩ := h.dealing k i x hx
  rw [hb] at hb'
  exact Option.some.inj hb' ▸ hon

theorem deal_eq {k i : Nat} {deed : Deed} {b : Broker} (hb : s.brokers[k]? = some b)
    {pool : StorePool} {d : Option Dealing} {a : Deed.Answer}
    (h : deed.perform b s.manager.pool (s.dealing? k i) = (pool, d, a)) :
    s.deal k i deed = ({ s.setDealing k i d with manager := { s.manager with pool } }, a) := by
  simp only [deal, hb, h]

theorem deal_of_none {k i : Nat} {deed : Deed} (hb : s.brokers[k]? = none) :
    s.deal k i deed = (s, .refused) := by
  simp only [deal, hb]

/-- One store is written, and one thing more or less is open. -/
theorem Sound.setStore (h : s.Sound) {k i : Nat} {b : Broker} (hb : s.brokers[k]? = some b)
    {d : Option Dealing} (hd : ∀ x, d = some x → x.On b) {kind : StoreKind} {store : Store}
    (hfollows : (b.store s.manager.pool kind).Follows store) :
    Sound { s.setDealing k i d with
      manager := { s.manager with
        pool := s.manager.pool.setStore (b.storeNumber kind) store } } where
  settled := by
    obtain ⟨hname, hkind, hmodel⟩ := hfollows
    have hl := s.manager.pool.later_setStore (b.storeNumber kind) hname hkind hmodel
    exact ⟨h.settled.keeps.withPool hl rfl, h.settled.ascending, h.settled.told⟩
  built := (StorePool.created_setStore ..).trans h.built
  numbered := h.numbered
  handed := h.handed
  dealing := by
    intro k' i' x hx
    change (if k' = k ∧ i' = i then d else s.dealing? k' i') = some x at hx
    split at hx
    · rename_i hki
      obtain ⟨rfl, rfl⟩ := hki
      exact ⟨b, hb, hd x hx⟩
    · exact h.dealing k' i' x hx

theorem Sound.deal (h : s.Sound) (k i : Nat) (deed : Deed) : (s.deal k i deed).1.Sound := by
  cases hb : s.brokers[k]? with
  | none =>
    rw [deal_of_none hb]
    exact h
  | some b =>
    obtain ⟨d, a, hd, kind, store, hfollows, hp, _⟩ :=
      h.deal_writes (i := i) hb (fun _ => rfl) deed
    rw [deal_eq hb hp]
    exact h.setStore hb hd hfollows

theorem Sound.step (h : s.Sound) (move : Move) : (s.step move).Sound := by
  cases move with
  | create x node => exact h.create x node
  | delete x node => exact h.delete x node
  | closeAll x => exact h.closeAll x
  | deal k i deed => exact h.deal k i deed

theorem Sound.after (h : s.Sound) (moves : List Move) : (s.after moves).Sound := by
  induction moves generalizing s with
  | nil => exact h
  | cons move moves ih => exact ih (h.step move)

/-! ## Leaving out what is done through the others -/

/-- Two usages that are the same for the incarnation of a number. -/
structure Alike (k : Nat) (s s' : Usage) : Prop where
  manager : s.manager.Alike (· / 2 = k) s'.manager
  brokers : s'.brokers = s.brokers
  dealing : ∀ i, s'.dealing? k i = s.dealing? k i

variable {s' : Usage} {k : Nat}

theorem Alike.sameIn (h : s.Alike k s') (hs : s.Sound) {b : Broker} (hb : s.brokers[k]? = some b) :
    b.SameIn s.manager.pool s'.manager.pool :=
  fun kind => (h.manager.pool.store _ (hs.numbered k b hb kind)).symm

theorem Alike.deal (h : s.Alike k s') (hs : s.Sound) (i : Nat) (deed : Deed) :
    (s'.deal k i deed).2 = (s.deal k i deed).2 ∧
      (s.deal k i deed).1.Alike k (s'.deal k i deed).1 := by
  cases hb : s.brokers[k]? with
  | none =>
    rw [deal_of_none hb, deal_of_none (h.brokers ▸ hb)]
    exact ⟨rfl, h⟩
  | some b =>
    have hdealing : ∀ d j,
        (s'.setDealing k i d).dealing? k j = (s.setDealing k i d).dealing? k j := by
      intro d j
      unfold setDealing
      dsimp only
      rw [h.dealing j]
    have hb' : s'.brokers[k]? = some b := h.brokers ▸ hb
    obtain ⟨d, a, _, kind, store, _, hp, hp'⟩ :=
      hs.deal_writes (i := i) hb (h.sameIn hs hb) deed
    rw [← h.dealing i] at hp'
    rw [deal_eq hb hp, deal_eq hb' hp']
    refine ⟨rfl, ⟨?_, ?_⟩, h.brokers, hdealing d⟩
    · rw [h.manager.rest]
    · exact h.manager.pool.update (b.storeNumber kind) (f := fun _ => store)

theorem Alike.deal_left (h : s.Alike k s') (hs : s.Sound) {j : Nat} (hj : j ≠ k) (i : Nat)
    (deed : Deed) : (s.deal j i deed).1.Alike k s' := by
  cases hb : s.brokers[j]? with
  | none =>
    rw [deal_of_none hb]
    exact h
  | some b =>
    have hdealing : ∀ d i', s'.dealing? k i' = (s.setDealing j i d).dealing? k i' := by
      intro d i'
      exact (h.dealing i').trans (if_neg fun hki => hj hki.1.symm).symm
    obtain ⟨d, a, _, kind, store, _, hp, _⟩ :=
      hs.deal_writes (i := i) hb (fun _ => rfl) deed
    rw [deal_eq hb hp]
    refine ⟨⟨h.manager.rest, ?_⟩, h.brokers, hdealing d⟩
    -- the store that is written is one of incarnation `j`
    refine h.manager.pool.setStore_left ?_ store
    rw [hs.numbered j b hb kind]
    exact hj

theorem Alike.create (h : s.Alike k s') (hs : s.Sound) (x : Surroundings) (node : TopologyNode) :
    (s.create x node).Alike k (s'.create x node) := by
  have hx : s'.manager.within x = { s.manager.within x with pool := s'.manager.pool } := by
    rw [h.manager.rest]
    rfl
  rcases hs.create_cases x node with
    ⟨library, files, o, ho, heq⟩ | ⟨hnode, library, files, model, heq⟩
  · rw [create_of_other ho (heq s.manager.pool),
      create_of_other ho ((congrArg (·.create x.now node) hx).trans (heq s'.manager.pool))]
    exact ⟨⟨rfl, h.manager.pool⟩, h.brokers, h.dealing⟩
  · rw [create_of_created (heq s.manager.pool) Manager.bringUp_broker?,
      create_of_created ((congrArg (·.create x.now node) hx).trans (heq s'.manager.pool))
        Manager.bringUp_broker?]
    have hmanager : Manager.Alike (· / 2 = k) { s.manager with library, files }
        { s.manager with pool := s'.manager.pool, library, files } := ⟨rfl, h.manager.pool⟩
    refine ⟨hmanager.bringUp (hs.absent hnode) model, ?_, h.dealing⟩
    rw [h.brokers]
    exact congrArg (s.brokers ++ [·]) (h.manager.pool.ofPool (hs.absent hnode) model).1

/-- The same move in both. -/
theorem Alike.step (h : s.Alike k s') (hs : s.Sound) {move : Move}
    (hc : move.concerns k = true) :
    s'.answer? k move = s.answer? k move ∧ (s.step move).Alike k (s'.step move) := by
  have hwithin : ∀ x, (s.manager.within x).Alike (· / 2 = k) (s'.manager.within x) := by
    intro x
    refine ⟨?_, h.manager.pool⟩
    rw [h.manager.rest]
    rfl
  cases move with
  | create x node => exact ⟨rfl, h.create hs x node⟩
  | delete x node => exact ⟨rfl, (hwithin x).delete node, h.brokers, h.dealing⟩
  | closeAll x => exact ⟨rfl, (hwithin x).closeAll, h.brokers, h.dealing⟩
  | deal j i deed =>
    obtain rfl : j = k := of_decide_eq_true hc
    obtain ⟨hanswer, hnext⟩ := h.deal hs i deed
    have hmine : ∀ t : Usage, t.answer? j (.deal j i deed) = some (t.deal j i deed).2 :=
      fun t => if_pos rfl
    exact ⟨by rw [hmine, hmine, hanswer], hnext⟩

/-- A move that one of them leaves out. -/
theorem Alike.step_left (h : s.Alike k s') (hs : s.Sound) {move : Move}
    (hc : move.concerns k = false) : s.answer? k move = none ∧ (s.step move).Alike k s' := by
  cases move with
  | deal j i deed =>
    have hj : j ≠ k := of_decide_eq_false hc
    exact ⟨if_neg hj, h.deal_left hs hj i deed⟩
  | _ => cases hc

/-- The answers through an incarnation are what they are without all that is done through the
others. -/
theorem Alike.answers (h : s.Alike k s') (hs : s.Sound) (moves : List Move) :
    s'.answers k (moves.filter (Move.concerns k)) = s.answers k moves := by
  induction moves generalizing s s' with
  | nil => rfl
  | cons move moves ih =>
    cases hc : move.concerns k with
    | true =>
      obtain ⟨hanswer, hnext⟩ := h.step hs hc
      rw [List.filter_cons_of_pos hc]
      unfold Usage.answers
      rw [hanswer, ih hnext (hs.step move)]
    | false =>
      obtain ⟨hanswer, hnext⟩ := h.step_left hs hc
      rw [List.filter_cons_of_neg (by rw [hc]; decide), ih hnext (hs.step move)]
      conv => rhs; unfold Usage.answers
      rw [hanswer]
      rfl

theorem Alike.refl (k : Nat) (s : Usage) : s.Alike k s :=
  ⟨Manager.Alike.refl _ s.manager, rfl, fun _ => rfl⟩

/-! ## New mount points -/

/-- Listening to a store changes nothing of what is read. -/
theorem read_listened (pool : StorePool) (b : Broker) (kind : StoreKind) (fails : Bool) (n : Nat)
    (path : DataPath) :
    ((Listener.create pool b kind fails).1.store n).read path = (pool.store n).read path := by
  by_cases hn : n = b.storeNumber kind
  · subst hn
    rcases Nat.lt_or_ge (b.storeNumber kind) pool.created with hlt | hge
    · have hstore : (Listener.create pool b kind fails).1.store (b.storeNumber kind) =
          (pool.store (b.storeNumber kind)).subscribe.1 := by
        refine (StorePool.store_setStore hlt _ _).trans ?_
        rw [if_pos rfl]
        rfl
      rw [hstore]
      rfl
    · refine congrArg (Store.read · path) ?_
      unfold Listener.create StorePool.setStore
      dsimp only
      rw [List.set_eq_of_length_le hge]
  · exact congrArg (Store.read · path) (StorePool.store_setStore_of_ne pool hn _)

theorem Sound.created_empty (h : s.Sound) {x : Surroundings} {node : TopologyNode} {m : Manager}
    (hm : (s.manager.within x).create x.now node = (m, .ok .created)) :
    ∃ b, m.broker? node.nodeId = some b ∧ (s.create x node).brokers = s.brokers ++ [b] ∧
      ∀ kind, m.pool.lookup? node.nodeId.mountPath kind = some (b.storeNumber kind) ∧
        b.readCommitted m.pool kind .root = .ok (some .emptyObject) := by
  rcases h.create_cases x node with
    ⟨library, files, o, ho, heq⟩ | ⟨hnode, library, files, model, heq⟩
  · exact absurd (Prod.mk.inj ((heq s.manager.pool).symm.trans hm)).2 ho
  · obtain rfl := (Prod.mk.inj ((heq s.manager.pool).symm.trans hm)).1
    refine ⟨_, Manager.bringUp_broker?, ?_, fun kind => ⟨?_, ?_⟩⟩
    · rw [create_of_created (heq s.manager.pool) Manager.bringUp_broker?]
    · rw [Manager.bringUp_lookup?, if_pos rfl]
    · have hnew := Broker.store?_ofPool (h.absent hnode) model kind
      obtain ⟨_, hstore⟩ := StorePool.store?_eq_some_iff.1 hnew
      refine (read_listened (Broker.ofPool s.manager.pool node.nodeId model).1 _ .configuration
        false _ .root).trans ?_
      rw [hstore]
      rfl

/-- What is done through a broker adds no store to the pool and removes none. -/
theorem Sound.deal_pool (h : s.Sound) (k i : Nat) (deed : Deed) :
    (s.deal k i deed).1.manager.pool.keys = s.manager.pool.keys ∧
      (s.deal k i deed).1.manager.pool.created = s.manager.pool.created := by
  cases hb : s.brokers[k]? with
  | none =>
    rw [deal_of_none hb]
    exact ⟨rfl, rfl⟩
  | some b =>
    obtain ⟨d, a, _, kind, store, _, hp, _⟩ := h.deal_writes (i := i) hb (fun _ => rfl) deed
    rw [deal_eq hb hp]
    exact ⟨rfl, StorePool.created_setStore ..⟩

/-- After any moves: the broker of a record is that of an incarnation. A creation that ends well
makes a new incarnation, and the pool has its two stores, which read empty. Nothing that is done
through a broker adds a store to the pool or removes one. And what is answered through an
incarnation is the same in all runs with the same calls of the manager and the same things done
through the incarnation. -/
theorem incarnations_apart (cacheRoot : String) (files : Files) (moves : List Move) :
    let s := (start cacheRoot files).after moves
    (∀ node b, s.manager.broker? node = some b → b ∈ s.brokers) ∧
    (∀ x node m, (s.manager.within x).create x.now node = (m, .ok .created) →
      ∃ b, m.broker? node.nodeId = some b ∧
        (s.step (.create x node)).brokers = s.brokers ++ [b] ∧
        ∀ kind, m.pool.lookup? node.nodeId.mountPath kind = some (b.storeNumber kind) ∧
          b.readCommitted m.pool kind .root = .ok (some .emptyObject)) ∧
    (∀ k i deed, (s.step (.deal k i deed)).manager.pool.keys = s.manager.pool.keys ∧
      (s.step (.deal k i deed)).manager.pool.created = s.manager.pool.created) ∧
    ∀ k moves', moves'.filter (Move.concerns k) = moves.filter (Move.concerns k) →
      (start cacheRoot files).answers k moves' = (start cacheRoot files).answers k moves := by
  intro s
  have hstart := sound_start cacheRoot files
  have h : s.Sound := hstart.after moves
  refine ⟨?_, fun x node m hm => h.created_empty hm, fun k i deed => h.deal_pool k i deed, ?_⟩
  · intro node b hb
    obtain ⟨r, hr, rfl⟩ := Option.map_eq_some_iff.1 hb
    exact h.handed node r hr
  · intro k moves' hsame
    rw [← (Alike.refl k _).answers hstart moves, ← (Alike.refl k _).answers hstart moves', hsame]

/-- Node `a` comes up, and later again. Through the broker of its first time somebody goes on
writing, which makes no difference to who reads through the broker of its second time. -/
theorem incarnations_apart_stale_writer :
    (∃ m b, (Manager.bare.within .bare).create .epoch ⟨⟨"a"⟩, ["x"], "a"⟩ = (m, .ok .created) ∧
      m.broker? ⟨"a"⟩ = some b ∧
      ∀ kind, b.readCommitted m.pool kind .root = .ok (some .emptyObject)) ∧
    (start "/c" ⟨"", .directory []⟩).answers 1
        [.create .bare ⟨⟨"a"⟩, ["x"], "a"⟩, .delete .bare ⟨"a"⟩,
          .create .bare ⟨⟨"a"⟩, ["x"], "a"⟩, .deal 0 0 (.begin .writeOnly "old"),
          .deal 1 0 (.begin .readOnly "new"), .deal 0 0 (.stage .configuration (.delete ⟨["n"]⟩)),
          .deal 0 0 .submit, .deal 0 0 (.call 0), .deal 1 0 (.read .configuration .root)] =
      (start "/c" ⟨"", .directory []⟩).answers 1
        [.create .bare ⟨⟨"a"⟩, ["x"], "a"⟩, .delete .bare ⟨"a"⟩,
          .create .bare ⟨⟨"a"⟩, ["x"], "a"⟩, .deal 1 0 (.begin .readOnly "new"),
          .deal 1 0 (.read .configuration .root)] := by
  obtain ⟨b, hb, _, hempty⟩ :=
    (incarnations_apart "/c" ⟨"", .directory []⟩ []).2.1 .bare _ _ Manager.create_bare
  obtain ⟨_, _, _, hsame⟩ := incarnations_apart "/c" ⟨"", .directory []⟩
    [.create .bare ⟨⟨"a"⟩, ["x"], "a"⟩, .delete .bare ⟨"a"⟩,
      .create .bare ⟨⟨"a"⟩, ["x"], "a"⟩, .deal 1 0 (.begin .readOnly "new"),
      .deal 1 0 (.read .configuration .root)]
  exact ⟨⟨_, b, Manager.create_bare, hb, fun kind => (hempty kind).2⟩, hsame 1 _ rfl⟩

end Usage

end MountRegistry
