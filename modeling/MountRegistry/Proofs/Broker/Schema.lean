import MountRegistry.Broker.Session
import MountRegistry.Proofs.Broker.Deed

/-
  Brokers that are all made with one schema. No operation changes the schema of a store or of a
  draft, and a store that was built keeps its number, so all stores and drafts of a session have the
  one schema for good (`Session.Under`). The operations on the pool are taken together in `Leads`:
  what goes on at the stores of one broker leaves those of the others what they were to them.
-/

namespace MountRegistry

variable {model : Yang.Model}

theorem StoreDraft.model_stage {d d' : StoreDraft} {e : Edit} (h : d.stage e = .ok d') :
    d'.model = d.model := by
  obtain ⟨_, _, rfl⟩ := stage_eq_ok h
  rfl

/-! ## Stores under one schema -/

namespace StorePool

/-- Every store ever built has this schema, and the pool has none but these. -/
structure Under (model : Yang.Model) (p : StorePool) : Prop where
  models : ∀ s ∈ p.stores, s.model = model
  pooled : ∀ path kind n, p.lookup? path kind = some n → n < p.created

/-- The pool `q` comes after `p`: no store is lost, and all have the schema if those of `p` do. -/
structure Leads (model : Yang.Model) (p q : StorePool) : Prop where
  created : p.created ≤ q.created
  under : p.Under model → q.Under model

variable {p q r : StorePool}

theorem Leads.refl (model : Yang.Model) (p : StorePool) : p.Leads model p :=
  ⟨Nat.le_refl _, id⟩

theorem Leads.trans (h : p.Leads model q) (h' : q.Leads model r) : p.Leads model r :=
  ⟨Nat.le_trans h.created h'.created, fun hp => h'.under (h.under hp)⟩

theorem leads_foldl {α β : Type} (f : StorePool × β → α → StorePool × β)
    (hf : ∀ (x : StorePool × β) (a : α), x.1.Leads model (f x a).1) (l : List α)
    (x : StorePool × β) : x.1.Leads model (l.foldl f x).1 := by
  induction l generalizing x with
  | nil => exact Leads.refl model x.1
  | cons a rest ih => exact (hf x a).trans (ih (f x a))

theorem Under.store (h : p.Under model) {n : Nat} (hn : n < p.created) :
    (p.store n).model = model := by
  refine h.models _ ?_
  unfold StorePool.store
  rw [List.getD_eq_getElem?_getD, List.getElem?_eq_getElem hn, Option.getD_some]
  exact List.getElem_mem hn

/-- A store is written that keeps its schema; a number that names no store takes nothing. -/
theorem leads_setStore {n : Nat} {s : Store} (hs : s.model = (p.store n).model) :
    p.Leads model (p.setStore n s) := by
  refine ⟨Nat.le_of_eq (created_setStore p n s).symm, fun h => ⟨?_, fun path kind m hm => ?_⟩⟩
  · unfold StorePool.setStore
    rcases Nat.lt_or_ge n p.created with hlt | hge
    · intro x hx
      rcases List.mem_or_eq_of_mem_set hx with hx | rfl
      · exact h.models x hx
      · exact hs.trans (h.store hlt)
    · rw [List.set_eq_of_length_le hge]
      exact h.models
  · rw [created_setStore]
    exact h.pooled path kind m hm

theorem setStore_setStore (p : StorePool) (n : Nat) (s t : Store) :
    (p.setStore n s).setStore n t = p.setStore n t := by
  unfold StorePool.setStore
  rw [List.set_set]

theorem leads_removeMount (p : StorePool) (path : MountPath) :
    p.Leads model (p.removeMount path).1 := by
  refine ⟨Nat.le_refl _, fun h => ⟨h.models, fun q kind n hn => ?_⟩⟩
  rw [lookup?_removeMount] at hn
  split at hn
  · cases hn
  · exact h.pooled q kind n hn

theorem leads_getOrCreate (p : StorePool) (path : MountPath) (kind : StoreKind)
    (model : Yang.Model) : p.Leads model (p.getOrCreate path kind model).1 := by
  cases hn : p.lookup? path kind with
  | some n => simpa only [StorePool.getOrCreate, hn] using Leads.refl model p
  | none =>
    rw [getOrCreate_of_lookup?_eq_none hn]
    have hlt :
        p.created < (p.stores ++ [Store.create (path.storeName kind) kind model]).length := by
      rw [List.length_append]
      exact Nat.lt_succ_self _
    refine ⟨Nat.le_of_lt hlt, fun h => ⟨fun s hs => ?_, fun q k m hm => ?_⟩⟩
    · rcases List.mem_append.1 hs with hs | hs
      · exact h.models s hs
      · rw [List.mem_singleton.1 hs]
        rfl
    · rw [lookup?, Keyed.find?_insert] at hm
      split at hm
      · exact Option.some.inj hm ▸ hlt
      · exact Nat.lt_trans (h.pooled q k m hm) hlt

/-- What is taken is a store that was built. -/
theorem Under.getOrCreate_lt (h : p.Under model) (path : MountPath) (kind : StoreKind)
    (m : Yang.Model) : (p.getOrCreate path kind m).2 < (p.getOrCreate path kind m).1.created := by
  cases hn : p.lookup? path kind with
  | some n => simpa only [StorePool.getOrCreate, hn] using h.pooled path kind n hn
  | none =>
    rw [getOrCreate_of_lookup?_eq_none hn]
    simp [created]

end StorePool

/-! ## What reads and writes under one schema -/

/-- The broker has its stores in the pool. -/
def Broker.Within (p : StorePool) (b : Broker) : Prop := ∀ kind, b.storeNumber kind < p.created

theorem Broker.Within.later {p p' : StorePool} {b : Broker} (h : b.Within p)
    (hp : p.created ≤ p'.created) : b.Within p' :=
  fun kind => Nat.lt_of_lt_of_le (h kind) hp

theorem Broker.Within.store {p : StorePool} {b : Broker} (h : b.Within p) (hp : p.Under model)
    (kind : StoreKind) : (b.store p kind).model = model :=
  hp.store (h kind)

/-- The writer has its stores in the pool, and its drafts have the schema. -/
structure Writer.Under (model : Yang.Model) (p : StorePool) (w : Writer) : Prop where
  within : w.broker.Within p
  drafts : ∀ x ∈ w.drafts, x.2.model = model

/-- Whatever sides the transaction has, they have their stores in the pool, and the schema. -/
def Transaction.Under (model : Yang.Model) (p : StorePool) (t : Transaction) : Prop :=
  t.Each (·.broker.Within p) (·.Under model p)

variable {p p' : StorePool}

namespace Writer

variable {w : Writer}

theorem Under.later (h : w.Under model p) (hp : p.created ≤ p'.created) : w.Under model p' :=
  ⟨h.within.later hp, h.drafts⟩

theorem Under.draft? (h : w.Under model p) {kind : StoreKind} {d : StoreDraft}
    (hd : w.draft? kind = some d) : d.model = model :=
  h.drafts (kind, d) (Keyed.mem_of_find? hd)

theorem Under.draft (h : w.Under model p) (hp : p.Under model) (kind : StoreKind) :
    (w.draft p kind).model = model := by
  unfold Writer.draft
  cases hd : w.draft? kind with
  | some d => exact h.draft? hd
  | none => exact h.within.store hp kind

theorem Under.setDraft (h : w.Under model p) (kind : StoreKind) {d : StoreDraft}
    (hd : d.model = model) : (w.setDraft kind d).Under model p := by
  refine ⟨h.within, fun x hx => ?_⟩
  rcases Keyed.mem_insert hx with rfl | hx
  · exact hd
  · exact h.drafts x hx

theorem Under.stage (h : w.Under model p) (hp : p.Under model) (kind : StoreKind) (e : Edit) :
    (w.stage p kind e).1.Under model p := by
  have hd := h.draft hp kind
  unfold Writer.stage
  split
  · exact h
  · dsimp only
    cases hs : (w.draft p kind).stage e with
    | ok d => exact h.setDraft kind ((StoreDraft.model_stage hs).trans hd)
    | error => exact h.setDraft kind hd

end Writer

namespace Transaction

variable {t : Transaction}

theorem Under.later (h : t.Under model p) (hp : p.created ≤ p'.created) : t.Under model p' :=
  ⟨fun r hr => (h.1 r hr).later hp, fun w hw => (h.2 w hw).later hp⟩

theorem under_begin {b : Broker} (hb : b.Within p) (access : Broker.Access) (id : String) :
    (Broker.Session.begin b access id).Under model p :=
  each_begin hb ⟨hb, fun _ hx => by cases hx⟩ access

theorem Under.read? (h : t.Under model p) {kind : StoreKind} {path : DataPath} {t' : Transaction}
    {found : Except TransactionFailure (Option Json)}
    (hr : t.read? p kind path = some (t', found)) : t'.Under model p := by
  unfold Transaction.read? at hr
  obtain ⟨r, hreader, heq⟩ := Option.map_eq_some_iff.1 hr
  have hread : (r.read p (t.writer?.bind (·.draft? kind)) kind path).1.broker.Within p := by
    rw [Reader.read_broker]
    exact h.1 r hreader
  rw [← (Prod.mk.inj heq).1]
  exact Each.withReader h hread

theorem Under.stage? (h : t.Under model p) (hp : p.Under model) {kind : StoreKind} {e : Edit}
    {t' : Transaction} {result : Except TransactionFailure Unit}
    (hs : t.stage? p kind e = some (t', result)) : t'.Under model p := by
  unfold Transaction.stage? at hs
  obtain ⟨w, hw, heq⟩ := Option.map_eq_some_iff.1 hs
  rw [← (Prod.mk.inj heq).1]
  exact Each.withWriter h ((h.2 w hw).stage hp kind e)

end Transaction

/-! ## Commits and listeners -/

namespace StorePool

theorem leads_step (p : StorePool) (s : Submission) (j : Nat) :
    p.Leads model (s.step p j).1 := by
  by_cases hdue : ∃ n c call, Broker.Traffic.Due s j n c call
  · obtain ⟨n, c, call, due⟩ := hdue
    obtain ⟨_, _, hmodel⟩ := Submission.follows_perform (p.store n) c call
    rw [due.step rfl]
    exact leads_setStore hmodel
  · rw [Broker.Traffic.step_of_not_due fun n c call due => hdue ⟨n, c, call, due⟩]
    exact Leads.refl model p

theorem leads_runIn (fuel : Nat) (p : StorePool) (s : Submission) :
    p.Leads model (Submission.runIn fuel p s).1 := by
  induction fuel generalizing p s with
  | zero => exact Leads.refl model p
  | succ fuel ih =>
    unfold Submission.runIn
    cases s.coordinator.waiting with
    | nil => exact Leads.refl model p
    | cons j rest => exact (leads_step p s j).trans (ih _ _)

theorem leads_listen (p : StorePool) (b : Broker) (kind : StoreKind) (fails : Bool) :
    p.Leads model (Listener.create p b kind fails).1 :=
  leads_setStore rfl

theorem leads_hear (p : StorePool) (l : Listener) : p.Leads model (l.hear p).1 := by
  have hcollect :
      p.Leads model (p.setStore l.store ((p.store l.store).collect l.receiver).2) :=
    leads_setStore rfl
  unfold Listener.hear
  split
  · dsimp only
    split
    · split
      · exact hcollect
      · rw [setStore_setStore]
        exact leads_setStore rfl
    · exact hcollect
  · exact Leads.refl model p

theorem leads_close (p : StorePool) (l : Listener) : p.Leads model (l.close p).1 := by
  unfold Listener.close
  split
  · exact Leads.refl model p
  · exact leads_setStore rfl

end StorePool

namespace Broker

namespace Session

/-- All stores and drafts have the one schema. -/
structure Under (model : Yang.Model) (s : Session) : Prop where
  pool : s.pool.Under model
  brokers : ∀ b ∈ s.brokers, b.Within s.pool
  transactions : ∀ x ∈ s.transactions, x.2.Under model s.pool

variable {s : Session}

theorem Under.transaction? (h : s.Under model) {name : String} {t : Transaction}
    (ht : s.transaction? name = some t) : t.Under model s.pool :=
  h.transactions (name, t) (Keyed.mem_of_find? ht)

theorem Under.broker? (h : s.Under model) {n : Nat} {b : Broker} (hb : s.broker? n = some b) :
    b.Within s.pool :=
  h.brokers b (List.mem_of_getElem? hb)

/-- The pool goes on, and transactions are set and forgotten. -/
theorem Under.next (h : s.Under model) {t : Session} (hp : s.pool.Leads model t.pool)
    (hb : ∀ b ∈ t.brokers, b ∈ s.brokers ∨ b.Within t.pool)
    (ht : ∀ x ∈ t.transactions, x ∈ s.transactions ∨ x.2.Under model s.pool) :
    t.Under model where
  pool := hp.under h.pool
  brokers := by
    intro b hmem
    rcases hb b hmem with hold | hnew
    · exact (h.brokers b hold).later hp.created
    · exact hnew
  transactions := by
    intro x hmem
    rcases ht x hmem with hold | hnew
    · exact (h.transactions x hold).later hp.created
    · exact hnew.later hp.created

theorem Under.withPool (h : s.Under model) {t : Session} (hp : s.pool.Leads model t.pool)
    (hb : t.brokers = s.brokers) (ht : t.transactions = s.transactions) : t.Under model :=
  h.next hp (fun _ hmem => .inl (hb ▸ hmem)) fun _ hmem => .inl (ht ▸ hmem)

theorem Under.setTransaction (h : s.Under model) (name : String) {t : Transaction}
    (ht : t.Under model s.pool) : (s.setTransaction name t).Under model := by
  refine h.next (.refl model s.pool) (fun _ hmem => .inl hmem) fun x hmem => ?_
  rcases Keyed.mem_insert hmem with rfl | hmem
  · exact .inr ht
  · exact .inl hmem

theorem Under.forget (h : s.Under model) (name : String) {t : Session}
    (hp : s.pool.Leads model t.pool) (hb : t.brokers = s.brokers)
    (ht : t.transactions = (s.forget name).transactions) : t.Under model := by
  refine h.next hp (fun _ hmem => .inl (hb ▸ hmem)) fun x hmem => .inl ?_
  rw [ht] at hmem
  exact (List.mem_filter.1 hmem).1

theorem Under.read (h : s.Under model) (name : String) (kind : StoreKind) (path : DataPath)
    (f : Option Json → Answer) : (s.read name kind path f).1.Under model := by
  unfold Session.read
  split
  · rename_i t found hr
    obtain ⟨t', ht', hr⟩ := Option.bind_eq_some_iff.1 hr
    exact h.setTransaction name ((h.transaction? ht').read? hr)
  · rename_i t e hr
    obtain ⟨t', ht', hr⟩ := Option.bind_eq_some_iff.1 hr
    exact h.setTransaction name ((h.transaction? ht').read? hr)
  · exact h

theorem Under.stage (h : s.Under model) (name : String) (kind : StoreKind) (e : Edit) :
    (s.stage name kind e).1.Under model := by
  unfold Session.stage
  split
  · rename_i t hs
    obtain ⟨t', ht', hs⟩ := Option.bind_eq_some_iff.1 hs
    exact h.setTransaction name ((h.transaction? ht').stage? h.pool hs)
  · rename_i t e hs
    obtain ⟨t', ht', hs⟩ := Option.bind_eq_some_iff.1 hs
    exact h.setTransaction name ((h.transaction? ht').stage? h.pool hs)
  · exact h

theorem Under.submit? (h : s.Under model) {name : String} {t : Session} {r : CommitResult}
    (hs : s.submit? name = some (t, r)) : t.Under model := by
  unfold Session.submit? at hs
  obtain ⟨w, _, heq⟩ := Option.map_eq_some_iff.1 hs
  rw [← (Prod.mk.inj heq).1]
  exact h.forget name (StorePool.leads_runIn _ _ _) rfl rfl

theorem Under.submitAll (h : s.Under model) (names : List String) :
    (s.submitAll names).1.Under model := by
  induction names generalizing s with
  | nil => exact h
  | cons name rest ih =>
    unfold Session.submitAll
    cases hs : s.submit? name with
    | none => exact ih h
    | some x => exact ih (h.submit? hs)

theorem Under.hearAll (h : s.Under model) : s.hearAll.Under model := by
  have hears : s.pool.Leads model s.hearAll.pool := by
    unfold Session.hearAll
    refine StorePool.leads_foldl _ ?_ s.listeners (s.pool, [])
    exact fun x l => StorePool.leads_hear x.1 l.2
  exact h.withPool hears rfl rfl

end Session

/-! ## Actions -/

/-- A broker is only made with this schema. -/
def Action.IsUnder (model : Yang.Model) : Action → Prop
  | createBroker _ m => m = model
  | _ => True

namespace Session

variable {s : Session}

theorem Under.createBroker (h : s.Under model) (node : NodeId) :
    (s.act (.createBroker node model)).1.Under model := by
  have hfirst := StorePool.leads_getOrCreate s.pool node.mountPath .configuration model
  have hsecond := StorePool.leads_getOrCreate (s.pool.getOrCreate node.mountPath .configuration
    model).1 node.mountPath .operational model
  have hconfiguration := h.pool.getOrCreate_lt node.mountPath .configuration model
  have hoperational := (hfirst.under h.pool).getOrCreate_lt node.mountPath .operational model
  refine h.next (hfirst.trans hsecond) (fun b hb => ?_) fun x hx => .inl hx
  rcases List.mem_append.1 hb with hb | hb
  · exact .inl hb
  · rw [List.mem_singleton.1 hb]
    refine .inr fun kind => ?_
    cases kind with
    | configuration => exact Nat.lt_of_lt_of_le hconfiguration hsecond.created
    | operational => exact hoperational

theorem Under.withBroker (h : s.Under model) (n : Nat) {f : Broker → Session × Answer}
    (hf : ∀ b, b.Within s.pool → (f b).1.Under model) : (s.withBroker n f).1.Under model := by
  unfold Session.withBroker
  cases hb : s.broker? n with
  | none => exact h
  | some b => exact hf b (h.broker? hb)

theorem Under.withListener (h : s.Under model) (name : String)
    {f : Listener → Session × Answer} (hf : ∀ l, (f l).1.Under model) :
    (s.withListener name f).1.Under model := by
  unfold Session.withListener
  split
  · exact hf _
  · exact h

theorem Under.act (h : s.Under model) {a : Action} (ha : a.IsUnder model) :
    (s.act a).1.Under model := by
  cases a with
  | createBroker node m =>
    obtain rfl : m = model := ha
    exact h.createBroker node
  | removeMount node => exact h.withPool (StorePool.leads_removeMount _ _) rfl rfl
  | openTransaction name n access id =>
    exact h.withBroker n fun b hb => h.setTransaction name (Transaction.under_begin hb access id)
  | readRoot n kind id =>
    refine h.withBroker n fun b _ => ?_
    split <;> exact h
  | read name kind path => exact h.read name kind path _
  | hasNode name kind path => exact h.read name kind path _
  | close name =>
    simp only [Session.act]
    cases ht : s.transaction? name with
    | none => exact h
    | some t =>
      have hunder := h.transaction? ht
      refine h.setTransaction name ?_
      cases hr : t.reader? with
      | none => exact hunder
      | some r => exact hunder.withReader (hunder.1 r hr)
  | stage name kind e => exact h.stage name kind e
  | cancel name =>
    simp only [Session.act]
    split
    · exact h.forget name (.refl model s.pool) rfl rfl
    · exact h
  | submit name =>
    simp only [Session.act]
    cases hs : s.submit? name with
    | none => exact h
    | some x => exact h.submit? hs
  | submitAll names => exact h.submitAll names
  | listen name n kind fails =>
    exact h.withBroker n fun b _ => h.withPool (StorePool.leads_listen _ b kind fails) rfl rfl
  | heard name => exact h.withListener name fun l => h.withPool (.refl model s.pool) rfl rfl
  | unlisten name =>
    exact h.withListener name fun l => h.withPool (StorePool.leads_close _ l) rfl rfl
  | dropBrokers =>
    exact h.next (.refl model s.pool) (fun _ hb => by cases hb) fun _ hx => .inl hx

end Session

end Broker

end MountRegistry
