import MountRegistry.Proofs.Mount.Lifecycle
import MountRegistry.Proofs.Replaced

/-
  Any number of creations and removals of one node on one manager, each taking its steps between
  those of the others. A path is published once at a time, so whoever holds the endpoint of the node
  is alone in that: the record of the node, a creation that is about to insert its record, or a
  removal that is about to withdraw the endpoint (`Consistent.endpoint`). In the end the record and
  the endpoint agree, and without a record nothing is left of the node.

  The stores are another matter. A removal withdraws the endpoint first and drops the stores last,
  and in between a creation may take these stores. So the drops are counted, and every runner keeps
  the count that it found when it asked for its first store: the pool still holds that store just if
  the count has not moved since (`StorePool.Holds`). A record may be left without its stores.
-/

namespace MountRegistry

/-- A creation or a removal, as far as it has come. -/
inductive Errand where
  | creation (c : Creation)
  | removal (r : Removal)

namespace Errand

/-- The next step of an errand. -/
def step (m : Manager) (now : Instant) : Errand → Manager × Errand
  | creation c => let (m, c) := c.step m now; (m, .creation c)
  | removal r => let (m, r) := r.step m now; (m, .removal r)

/-- Whether the call has returned. -/
def hasEnded : Errand → Bool
  | creation c => c.outcome?.isSome
  | removal r => r.outcome?.isSome

/-- Whether the next step asks for the configuration store. -/
def isAsking : Errand → Bool
  | creation (.takingConfiguration ..) => true
  | _ => false

/-- Whether the next step inserts the record. -/
def isRecording : Errand → Bool
  | creation (.recording _) => true
  | _ => false

/-- Whether the next step drops the stores of the node. -/
def isDropping : Errand → Bool
  | removal (.releasing _ [] _) => true
  | _ => false

end Errand

/-- An errand on its way, and how often the stores of the node had been dropped when it last asked
for the configuration store. -/
structure Runner where
  errand : Errand
  asked : Nat := 0

/-- A manager, and the runners for one node on it. -/
structure Race where
  manager : Manager
  runners : List Runner
  /-- How often the stores of the node were dropped. -/
  drops : Nat := 0
  /-- The drops that the creation of the last record had seen. -/
  recordAsked : Nat := 0

namespace Race

/-- What is asked of a node. -/
inductive Request where
  | create (capabilities : List String) (cacheDirectory : String)
  | delete

/-- The errand at its beginning. -/
def Request.errand (node : NodeId) : Request → Errand
  | create capabilities cacheDirectory =>
    .creation (.checking ⟨node, capabilities, cacheDirectory⟩)
  | delete => .removal (.taking node)

/-- All errands are about to take their first step. -/
def start (m : Manager) (node : NodeId) (requests : List Request) : Race :=
  { manager := m, runners := requests.map fun r => ⟨r.errand node, 0⟩ }

/-- A runner takes the next step of its errand; `place` puts it back among the others. -/
def turn (s : Race) (e : Runner) (place : Runner → List Runner) (x : Surroundings) : Race :=
  let (m, errand) := e.errand.step (s.manager.within x) x.now
  { manager := m
    runners := place ⟨errand, if e.errand.isAsking then s.drops else e.asked⟩
    drops := if e.errand.isDropping then s.drops + 1 else s.drops
    recordAsked := if e.errand.isRecording then e.asked else s.recordAsked }

/-- It is the turn of the runner of this number, if there is one. -/
def step (s : Race) (i : Nat) (x : Surroundings) : Race :=
  match s.runners[i]? with
  | none => s
  | some e => s.turn e (s.runners.set i) x

/-- The runners take turns in this order. -/
def run (s : Race) : List (Nat × Surroundings) → Race
  | [] => s
  | (i, x) :: rest => (s.step i x).run rest

end Race

/-! ## What an errand holds -/

/-- The record has the endpoint and the listener of a mount point of the node. -/
def MountRecord.IsFor (r : MountRecord) (node : NodeId) : Prop :=
  r.node = node ∧ ∃ l, r.registrations = [.endpoint node.mountPath, .listener l]

namespace Errand

/-- The errand is one for this node. No creation has anything to discard. -/
def IsFor (node : NodeId) : Errand → Prop
  | creation (.checking n) | creation (.resolving n) | creation (.takingConfiguration n ..)
  | creation (.takingOperational n ..) => n.nodeId = node
  | creation (.registering _ b) => b.node = node
  | creation (.recording r) => r.IsFor node
  | creation (.discarding _) => False
  | removal (.taking n) => n = node
  | removal (.releasing r held _) =>
    r.node = node ∧ ∃ l, held <:+ [.endpoint node.mountPath, .listener l]
  | creation (.ended _) | removal (.ended _) => True

/-- The broker whose endpoint the errand has in hand. -/
def endpoint? : Errand → Option Broker
  | creation (.recording r) | removal (.releasing r (.endpoint _ :: _) _) => some r.broker
  | _ => none

/-- The stores that a creation has taken: that of the configuration, and the other if it has. -/
def taken? : Errand → Option (Nat × Option Nat)
  | creation (.takingOperational _ _ n _) => some (n, none)
  | creation (.registering _ b) => some (b.configuration, some b.operational)
  | creation (.recording r) => some (r.broker.configuration, some r.broker.operational)
  | _ => none

/-- Whether the errand answers for what the pool holds of the node. -/
def answers : Errand → Bool
  | creation (.takingOperational ..) | creation (.registering ..) | creation (.recording _)
  | removal (.releasing ..) => true
  | _ => false

theorem answers_of_endpoint? {c : Errand} {b : Broker} (h : c.endpoint? = some b) :
    c.answers = true := by
  unfold endpoint? at h
  split at h
  · rfl
  · rfl
  · cases h

end Errand

/-- The broker whose endpoint the runner has in hand. -/
def Runner.endpoint? (e : Runner) : Option Broker := e.errand.endpoint?

namespace StorePool

/-- Of the keys of a mount path none is lost, and what is new is a store that was built since. -/
structure Extends (p p' : StorePool) (path : MountPath) : Prop where
  created : p.created ≤ p'.created
  keeps : ∀ kind n, p.lookup? path kind = some n → p'.lookup? path kind = some n
  fresh : ∀ kind n, p'.lookup? path kind = some n →
    p.lookup? path kind = some n ∨ (p.created ≤ n ∧ n < p'.created)

theorem extends_of_keys {p p' : StorePool} (path : MountPath) (hk : p'.keys = p.keys)
    (hc : p'.created = p.created) : p.Extends p' path := by
  have hlookup : ∀ kind, p'.lookup? path kind = p.lookup? path kind := by
    intro kind
    unfold lookup?
    rw [hk]
  refine ⟨Nat.le_of_eq hc.symm, fun kind n h => (hlookup kind).trans h, fun kind n h => ?_⟩
  exact .inl ((hlookup kind).symm.trans h)

theorem extends_insertIfAbsent (p : StorePool) (path : MountPath) (kind : StoreKind)
    (model : Yang.Model) : p.Extends (p.insertIfAbsent path kind model).1 path := by
  cases h : p.lookup? path kind with
  | some n =>
    rw [insertIfAbsent_of_lookup? h]
    exact extends_of_keys path rfl rfl
  | none =>
    have hcreated : (p.insertIfAbsent path kind model).1.created = p.created + 1 := by
      rw [insertIfAbsent_of_lookup?_eq_none h]
      exact List.length_append
    have hnew : (p.insertIfAbsent path kind model).2 = p.created := by
      rw [insertIfAbsent_of_lookup?_eq_none h]
      rfl
    refine ⟨by omega, fun k n hn => ?_, fun k n hn => ?_⟩
    · have hk : k ≠ kind := by
        rintro rfl
        rw [h] at hn
        cases hn
      rw [lookup?_insertIfAbsent, if_neg fun hkey => hk hkey.2, hn]
    · rw [lookup?_insertIfAbsent] at hn
      split at hn
      · have : p.created = n := by rw [← hnew]; exact Option.some.inj hn
        right
        omega
      · exact .inl hn

/-- What is known of the stores that were taken when the stores of the node had been dropped `asked`
times, now that they were dropped `drops` times. -/
structure Holds (p : StorePool) (path : MountPath) (drops asked : Nat) (t : Nat × Option Nat) :
    Prop where
  built : t.1 < p.created
  asked_le : asked ≤ drops
  configuration : p.lookup? path .configuration = some t.1 ↔ asked = drops
  operational : asked = drops → ∀ n, t.2 = some n → p.lookup? path .operational = some n

variable {p p' : StorePool} {path : MountPath} {drops asked : Nat} {t : Nat × Option Nat}

/-- A key that was dropped never comes back to an old store, since what is new was built since. -/
theorem Holds.extend (h : p.Holds path drops asked t) (hp : p.Extends p' path) :
    p'.Holds path drops asked t where
  built := Nat.lt_of_lt_of_le h.built hp.created
  asked_le := h.asked_le
  configuration := by
    constructor
    · intro hn
      rcases hp.fresh .configuration t.1 hn with hn | ⟨hge, _⟩
      · exact h.configuration.1 hn
      · exact absurd h.built (Nat.not_lt.2 hge)
    · intro ha
      exact hp.keeps .configuration t.1 (h.configuration.2 ha)
  operational := fun ha n hn => hp.keeps .operational n (h.operational ha n hn)

/-- Whatever was taken before is not pooled after a drop, and the count tells. -/
theorem Holds.drop (h : p.Holds path drops asked t) :
    (p.removeMount path).1.Holds path (drops + 1) asked t where
  built := h.built
  asked_le := Nat.le_succ_of_le h.asked_le
  configuration := by
    have hle := h.asked_le
    rw [lookup?_removeMount, if_pos rfl]
    constructor
    · intro hn
      cases hn
    · intro ha
      omega
  operational := by
    intro ha
    have hle := h.asked_le
    omega

end StorePool

namespace Creation

theorem check_cases (m : Manager) (node : TopologyNode) :
    (∃ o, check m node = .ended o) ∨ check m node = .resolving node := by
  unfold check
  split
  · exact .inl ⟨_, rfl⟩
  · split
    · exact .inl ⟨_, rfl⟩
    · exact .inr rfl

theorem resolve_cases (m : Manager) (node : TopologyNode) :
    ∃ library files c, resolve m node = ({ m with library, files }, c) ∧
      ((∃ o, c = .ended o) ∨ ∃ model, c = .takingConfiguration node model false) := by
  unfold resolve
  dsimp only
  split
  · exact ⟨_, _, _, rfl, .inr ⟨_, rfl⟩⟩
  · exact ⟨_, _, _, rfl, .inl ⟨_, rfl⟩⟩

/-- A look-up may miss, and else the pool holds what was taken. -/
theorem take_cases (m : Manager) (path : MountPath) (kind : StoreKind) (model : Yang.Model)
    (missed : Bool) :
    take m path kind model missed = (m, none) ∨
      ∃ pool n, take m path kind model missed = ({ m with pool }, some n) ∧
        m.pool.Extends pool path ∧ pool.lookup? path kind = some n := by
  cases missed with
  | true =>
    have hin := m.pool.lookup?_insertIfAbsent path kind model path kind
    rw [if_pos ⟨rfl, rfl⟩] at hin
    exact .inr ⟨_, _, rfl, m.pool.extends_insertIfAbsent path kind model, hin⟩
  | false =>
    cases hn : m.pool.lookup? path kind with
    | none => exact .inl (congrArg (Prod.mk m) hn)
    | some n =>
      exact .inr ⟨m.pool, n, congrArg (Prod.mk m) hn, StorePool.extends_of_keys path rfl rfl, hn⟩

end Creation

namespace Race

/-- What holds between any two steps of a race for the node. -/
structure Consistent (s : Race) (node : NodeId) : Prop where
  shaped : ∀ e ∈ s.runners, e.errand.IsFor node
  record : ∀ r, s.manager.record? node = some r → r.IsFor node
  /-- The endpoint is in one hand at most, and published just if it is in one. -/
  endpoint : ((s.manager.record? node).map (·.broker)).toList ++
      s.runners.filterMap Runner.endpoint? =
    (s.manager.endpoints.find? node.mountPath).toList
  built : ∀ kind n, s.manager.pool.lookup? node.mountPath kind = some n →
    n < s.manager.pool.created
  taken : ∀ e ∈ s.runners, ∀ t, e.errand.taken? = some t →
    s.manager.pool.Holds node.mountPath s.drops e.asked t
  recorded : ∀ r, s.manager.record? node = some r →
    s.manager.pool.Holds node.mountPath s.drops s.recordAsked
      (r.broker.configuration, some r.broker.operational)
  /-- What the pool holds of the node somebody answers for. -/
  answered : ∀ kind n, s.manager.pool.lookup? node.mountPath kind = some n →
    (∃ r, s.manager.record? node = some r) ∨ ∃ e ∈ s.runners, e.errand.answers = true

/-! ## One step -/

/-- Nobody has the endpoint in hand but one at most. -/
theorem endpoints_of_idle {before after : List Runner}
    (hbefore : before.filterMap Runner.endpoint? = [])
    (hafter : after.filterMap Runner.endpoint? = []) (e : Runner) :
    (before ++ e :: after).filterMap Runner.endpoint? = e.endpoint?.toList := by
  rw [List.filterMap_append, hbefore, List.filterMap_cons, hafter]
  cases e.endpoint? <;> rfl

theorem idle_of_endpoints {before after : List Runner} {e : Runner}
    (h : (before ++ e :: after).filterMap Runner.endpoint? = []) :
    before.filterMap Runner.endpoint? = [] ∧ after.filterMap Runner.endpoint? = [] := by
  simp only [List.filterMap_eq_nil_iff, List.forall_mem_append, List.forall_mem_cons] at h ⊢
  exact ⟨h.1, h.2.2⟩

/-- One entry is all that an option has room for. -/
theorem append_cons_eq_toList {α : Type} {xs ys : List α} {a : α} {o : Option α}
    (h : xs ++ a :: ys = o.toList) : xs = [] ∧ ys = [] ∧ o = some a := by
  cases o with
  | none => simp at h
  | some b =>
    rcases List.append_eq_singleton_iff.1 h with ⟨hxs, hys⟩ | ⟨_, hys⟩
    · obtain ⟨rfl, rfl⟩ := List.cons_eq_cons.1 hys
      exact ⟨hxs, rfl, rfl⟩
    · cases hys

section
variable {s : Race} {node : NodeId} {before after : List Runner} {e : Runner} {b : Broker}

/-- Whoever has the endpoint in hand is the only one, and it is published. -/
theorem Consistent.alone (h : s.Consistent node) (hs : s.runners = before ++ e :: after)
    (he : e.endpoint? = some b) :
    s.manager.record? node = none ∧ before.filterMap Runner.endpoint? = [] ∧
      after.filterMap Runner.endpoint? = [] ∧
      s.manager.endpoints.find? node.mountPath = some b := by
  have heq := h.endpoint
  rw [hs, List.filterMap_append, List.filterMap_cons_some he, ← List.append_assoc] at heq
  obtain ⟨hbefore, hafter, hfind⟩ := append_cons_eq_toList heq
  obtain ⟨hrecord, hbefore⟩ := List.append_eq_nil_iff.1 hbefore
  exact ⟨by simpa using hrecord, hbefore, hafter, hfind⟩

/-- With a record nobody else has the endpoint in hand. -/
theorem Consistent.of_record (h : s.Consistent node) {r : MountRecord}
    (hr : s.manager.record? node = some r) :
    s.runners.filterMap Runner.endpoint? = [] ∧
      s.manager.endpoints.find? node.mountPath = some r.broker := by
  have heq := h.endpoint
  rw [hr] at heq
  have hlist : [] ++ r.broker :: s.runners.filterMap Runner.endpoint? =
      (s.manager.endpoints.find? node.mountPath).toList := heq
  exact (append_cons_eq_toList hlist).2

/-- While the endpoint is not published nobody has it in hand. -/
theorem Consistent.of_free (h : s.Consistent node)
    (hb : s.manager.endpoints.find? node.mountPath = none) :
    s.manager.record? node = none ∧ s.runners.filterMap Runner.endpoint? = [] := by
  have heq := h.endpoint
  rw [hb] at heq
  cases hr : s.manager.record? node <;> simp_all

/-- A published endpoint is in somebody's hand. -/
theorem Consistent.of_published (h : s.Consistent node)
    (hb : s.manager.endpoints.find? node.mountPath = some b) :
    (∃ r, s.manager.record? node = some r) ∨ ∃ e ∈ s.runners, e.endpoint? = some b := by
  have heq := h.endpoint
  rw [hb] at heq
  cases hr : s.manager.record? node with
  | some r => exact .inl ⟨r, rfl⟩
  | none =>
    have hmem : b ∈ s.runners.filterMap Runner.endpoint? := by
      rw [hr, Option.map_none, Option.toList_none, List.nil_append] at heq
      rw [heq]
      exact List.mem_singleton_self b
    exact .inr (List.mem_filterMap.1 hmem)

/-- A step that leaves the record as it is and drops no store. -/
theorem Consistent.advance (h : s.Consistent node) (hs : s.runners = before ++ e :: after)
    {m : Manager} {e' : Runner} (hrecord : m.record? node = s.manager.record? node)
    (hpool : s.manager.pool.Extends m.pool node.mountPath) (hfor : e'.errand.IsFor node)
    (hendpoint : ((s.manager.record? node).map (·.broker)).toList ++
      (before ++ e' :: after).filterMap Runner.endpoint? =
        (m.endpoints.find? node.mountPath).toList)
    (htaken : ∀ t, e'.errand.taken? = some t →
      m.pool.Holds node.mountPath s.drops e'.asked t)
    (hanswered : ∀ kind n, m.pool.lookup? node.mountPath kind = some n →
      (∃ r, s.manager.record? node = some r) ∨
        ∃ x ∈ before ++ e' :: after, x.errand.answers = true) :
    Consistent { s with manager := m, runners := before ++ e' :: after } node where
  shaped := Replaced.forall_mem (hs ▸ h.shaped) hfor
  record := fun r hr => h.record r (hrecord.symm.trans hr)
  endpoint := by
    rw [hrecord]
    exact hendpoint
  built := by
    intro kind n hn
    rcases hpool.fresh kind n hn with hn | ⟨_, hlt⟩
    · exact Nat.lt_of_lt_of_le (h.built kind n hn) hpool.created
    · exact hlt
  taken := Replaced.forall_mem
    (hs ▸ fun x hx t ht => (h.taken x hx t ht).extend hpool) htaken
  recorded := fun r hr => (h.recorded r (hrecord.symm.trans hr)).extend hpool
  answered := by
    rw [hrecord]
    exact hanswered

theorem Consistent.endpoint_replaced (h : s.Consistent node)
    (hs : s.runners = before ++ e :: after) {e' : Runner} (he : e'.endpoint? = e.endpoint?) :
    ((s.manager.record? node).map (·.broker)).toList ++
        (before ++ e' :: after).filterMap Runner.endpoint? =
      (s.manager.endpoints.find? node.mountPath).toList := by
  rw [← h.endpoint, hs]
  simp only [List.filterMap_append, List.filterMap_cons, he]

/-- A step that changes nothing of the node, and after which the errand holds what it held. -/
theorem Consistent.quiet (h : s.Consistent node) (hs : s.runners = before ++ e :: after)
    {m : Manager} {e' : Runner} (hrecord : m.record? node = s.manager.record? node)
    (hkeys : m.pool.keys = s.manager.pool.keys)
    (hcreated : m.pool.created = s.manager.pool.created)
    (hfind : m.endpoints.find? node.mountPath = s.manager.endpoints.find? node.mountPath)
    (hfor : e'.errand.IsFor node) (hendpoint : e'.endpoint? = e.endpoint?)
    (htaken : ∀ t, e'.errand.taken? = some t → e.errand.taken? = some t ∧ e'.asked = e.asked)
    (hanswers : e.errand.answers = true → e'.errand.answers = true) :
    Consistent { s with manager := m, runners := before ++ e' :: after } node := by
  have hpool := StorePool.extends_of_keys node.mountPath hkeys hcreated
  refine h.advance hs hrecord hpool hfor ?_ ?_ ?_
  · rw [hfind]
    exact h.endpoint_replaced hs hendpoint
  · intro t ht
    obtain ⟨ht, hasked⟩ := htaken t ht
    rw [hasked]
    exact (h.taken e (by rw [hs]; exact List.mem_append_right _ List.mem_cons_self) t ht).extend
      hpool
  · intro kind n hn
    have hold : s.manager.pool.lookup? node.mountPath kind = some n := by
      unfold StorePool.lookup? at hn ⊢
      rwa [← hkeys]
    refine (h.answered kind n hold).imp_right fun hx => ?_
    exact Replaced.exists_mem (hs ▸ hx) hanswers

/-- A step of an errand that holds nothing and takes nothing. -/
theorem Consistent.unladen (h : s.Consistent node) (hs : s.runners = before ++ e :: after)
    {m : Manager} {e' : Runner} (hrecords : m.records = s.manager.records)
    (hpool : m.pool = s.manager.pool) (hendpoints : m.endpoints = s.manager.endpoints)
    (hfor : e'.errand.IsFor node) (hendpoint : e'.endpoint? = e.endpoint?)
    (htaken : e'.errand.taken? = none) (hanswers : e.errand.answers = false) :
    Consistent { s with manager := m, runners := before ++ e' :: after } node := by
  refine h.quiet hs ?_ (congrArg _ hpool) (congrArg _ hpool) ?_ hfor hendpoint ?_ ?_
  · exact congrArg (Keyed.find? · node) hrecords
  · exact congrArg (Endpoints.find? · node.mountPath) hendpoints
  · intro t ht
    rw [htaken] at ht
    cases ht
  · intro ha
    rw [hanswers] at ha
    cases ha

/-- A creation has a store, which the pool holds. -/
theorem Consistent.take (h : s.Consistent node) (hs : s.runners = before ++ e :: after)
    {pool : StorePool} {x : Surroundings} {e' : Runner} {t : Nat × Option Nat}
    (hpool : s.manager.pool.Extends pool node.mountPath)
    (hfor : e'.errand.IsFor node) (hold : e.endpoint? = none) (hnew : e'.endpoint? = none)
    (htaken : e'.errand.taken? = some t) (ht : pool.Holds node.mountPath s.drops e'.asked t)
    (hanswers : e'.errand.answers = true) :
    Consistent { s with
      manager := { s.manager.within x with pool }, runners := before ++ e' :: after } node := by
  refine h.advance hs rfl hpool hfor ?_ ?_ ?_
  · exact h.endpoint_replaced hs (hnew.trans hold.symm)
  · intro t' ht'
    rw [htaken] at ht'
    exact Option.some.inj ht' ▸ ht
  · intro kind n _
    exact .inr ⟨e', List.mem_append_right _ List.mem_cons_self, hanswers⟩

theorem Consistent.isFor (h : s.Consistent node) (hs : s.runners = before ++ e :: after) :
    e.errand.IsFor node :=
  h.shaped e (by rw [hs]; exact List.mem_append_right _ List.mem_cons_self)

theorem Consistent.holds (h : s.Consistent node) (hs : s.runners = before ++ e :: after)
    {t : Nat × Option Nat} (ht : e.errand.taken? = some t) :
    s.manager.pool.Holds node.mountPath s.drops e.asked t :=
  h.taken e (by rw [hs]; exact List.mem_append_right _ List.mem_cons_self) t ht

/-- The first store of a creation. -/
theorem Consistent.holds_first (h : s.Consistent node) {pool : StorePool} {n : Nat}
    (hpool : s.manager.pool.Extends pool node.mountPath)
    (hn : pool.lookup? node.mountPath .configuration = some n) :
    pool.Holds node.mountPath s.drops s.drops (n, none) where
  built := by
    rcases hpool.fresh .configuration n hn with hold | ⟨_, hlt⟩
    · exact Nat.lt_of_lt_of_le (h.built .configuration n hold) hpool.created
    · exact hlt
  asked_le := Nat.le_refl _
  configuration := ⟨fun _ => rfl, fun _ => hn⟩
  operational := fun _ _ hk => by cases hk

end

end Race

end MountRegistry
