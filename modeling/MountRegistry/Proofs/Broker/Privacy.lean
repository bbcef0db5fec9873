import MountRegistry.Proofs.Broker.Schema

/-
  What the actions of a session have to do with one transaction. The transaction stays what it is
  unless an action names it, and once it is gone only an opening brings another one under its name
  (`transaction?_act`, `transaction?_act_eq_none`). An action that names it, short of a commit,
  writes to no store (`act_pool`); all that happens to the pool then is that listeners take what
  waits for them, which disturbs nothing (`StorePool.Undisturbed`).
-/

namespace MountRegistry

/-! ## Stores that nobody writes to -/

namespace StorePool

/-- The pool `q` has the stores of `p` with all that is in them; only their subscribers may have
heard something, or have left. -/
structure Undisturbed (p q : StorePool) : Prop where
  keys : q.keys = p.keys
  created : q.created = p.created
  stores : ∀ n, ∃ changes, q.store n = { p.store n with changes }

variable {p q : StorePool}

theorem Undisturbed.refl (p : StorePool) : p.Undisturbed p := ⟨rfl, rfl, fun _ => ⟨_, rfl⟩⟩

theorem Undisturbed.trans {z : StorePool} (h : p.Undisturbed q) (h' : q.Undisturbed z) :
    p.Undisturbed z := by
  refine ⟨h'.keys.trans h.keys, h'.created.trans h.created, fun n => ?_⟩
  obtain ⟨_, hq⟩ := h.stores n
  obtain ⟨changes, hz⟩ := h'.stores n
  exact ⟨changes, by rw [hz, hq]⟩

theorem undisturbed_foldl {α β : Type} (f : StorePool × β → α → StorePool × β)
    (hf : ∀ (x : StorePool × β) (a : α), x.1.Undisturbed (f x a).1) (l : List α)
    (x : StorePool × β) : x.1.Undisturbed (l.foldl f x).1 := by
  induction l generalizing x with
  | nil => exact .refl x.1
  | cons a l ih => exact (hf x a).trans (ih (f x a))

theorem undisturbed_setStore (p : StorePool) (n : Nat) (changes : Broadcast Change) :
    p.Undisturbed (p.setStore n { p.store n with changes }) := by
  refine ⟨rfl, created_setStore .., fun k => ?_⟩
  rcases Nat.lt_or_ge n p.created with hlt | hge
  · rw [store_setStore hlt]
    split
    · rename_i hk
      rw [hk]
      exact ⟨changes, rfl⟩
    · exact ⟨_, rfl⟩
  · unfold setStore
    rw [List.set_eq_of_length_le hge]
    exact ⟨_, rfl⟩

theorem undisturbed_hear (p : StorePool) (l : Listener) : p.Undisturbed (l.hear p).1 := by
  unfold Listener.hear
  split
  · dsimp only
    split
    · split
      · exact undisturbed_setStore ..
      · rw [setStore_setStore]
        exact undisturbed_setStore ..
    · exact undisturbed_setStore ..
  · exact .refl p

end StorePool

/-! ## Who has to do with a transaction -/

namespace Broker

/-- The action names this transaction. -/
def Action.concerns (name : String) : Action → Bool
  | openTransaction n _ _ _ | read n _ _ | hasNode n _ _ | close n | stage n _ _ | cancel n
  | submit n => name = n
  | submitAll names => name ∈ names
  | _ => false

/-- The transaction of this name is over with the action, or another one begins. -/
def Action.ends (name : String) : Action → Bool
  | openTransaction n _ _ _ | cancel n | submit n => name = n
  | submitAll names => name ∈ names
  | _ => false

/-- The action commits something. -/
def Action.commits : Action → Bool
  | submit _ | submitAll _ => true
  | _ => false

namespace Session

variable {s : Session} {name n : String} {t : Transaction}

theorem undisturbed_hearAll (s : Session) : s.pool.Undisturbed s.hearAll.pool := by
  unfold hearAll
  refine StorePool.undisturbed_foldl _ ?_ s.listeners (s.pool, [])
  exact fun x l => StorePool.undisturbed_hear x.1 l.2

/-- What a transaction is asked to do has no effect on the pool until it commits. -/
theorem act_pool {a : Action} (hname : a.concerns name = true) (ha : a.commits = false) :
    (s.act a).1.pool = s.pool := by
  cases a with
  | openTransaction n k access id =>
    simp only [Session.act, Session.withBroker]
    split <;> rfl
  | read n kind path =>
    simp only [Session.act, Session.read]
    split <;> rfl
  | hasNode n kind path =>
    simp only [Session.act, Session.read]
    split <;> rfl
  | close n =>
    simp only [Session.act]
    split <;> rfl
  | stage n kind e =>
    simp only [Session.act, Session.stage]
    split <;> rfl
  | cancel n =>
    simp only [Session.act]
    split <;> rfl
  | submit => cases ha
  | submitAll => cases ha
  | _ => cases hname

@[simp] theorem transaction?_setTransaction (s : Session) (n : String) (t : Transaction) :
    (s.setTransaction n t).transaction? name =
      if name = n then some t else s.transaction? name :=
  Keyed.find?_insert ..

@[simp] theorem transaction?_forget (s : Session) (n : String) :
    (s.forget n).transaction? name = if name = n then none else s.transaction? name :=
  Keyed.find?_erase ..

theorem transaction?_read_of_ne (h : name ≠ n) (kind : StoreKind) (path : DataPath)
    (f : Option Json → Answer) :
    (s.read n kind path f).1.transaction? name = s.transaction? name := by
  unfold Session.read
  split
  · rw [transaction?_setTransaction, if_neg h]
  · rw [transaction?_setTransaction, if_neg h]
  · rfl

theorem transaction?_stage_of_ne (h : name ≠ n) (kind : StoreKind) (e : Edit) :
    (s.stage n kind e).1.transaction? name = s.transaction? name := by
  unfold Session.stage
  split
  · rw [transaction?_setTransaction, if_neg h]
  · rw [transaction?_setTransaction, if_neg h]
  · rfl

theorem transaction?_submit? {t : Session} {r : CommitResult} (h : s.submit? n = some (t, r)) :
    t.transaction? name = if name = n then none else s.transaction? name := by
  unfold submit? at h
  obtain ⟨w, _, heq⟩ := Option.map_eq_some_iff.1 h
  rw [← (Prod.mk.inj heq).1]
  exact transaction?_forget s n

theorem transaction?_submitAll_of_not_mem {names : List String} (h : name ∉ names) :
    (s.submitAll names).1.transaction? name = s.transaction? name := by
  induction names generalizing s with
  | nil => rfl
  | cons n rest ih =>
    have hrest := List.not_mem_of_not_mem_cons h
    unfold submitAll
    cases hn : s.submit? n with
    | none => exact ih hrest
    | some x =>
      refine (ih hrest).trans ?_
      rw [transaction?_submit? hn, if_neg (List.ne_of_not_mem_cons h)]

theorem transaction?_submitAll_eq_none (h : s.transaction? name = none) (names : List String) :
    (s.submitAll names).1.transaction? name = none := by
  induction names generalizing s with
  | nil => exact h
  | cons n rest ih =>
    unfold submitAll
    cases hn : s.submit? n with
    | none => exact ih h
    | some x =>
      refine ih ?_
      rw [transaction?_submit? hn, h, ite_self]

/-- An action leaves the transactions that it does not name. -/
theorem transaction?_act {a : Action} (h : a.concerns name = false) :
    (s.act a).1.transaction? name = s.transaction? name := by
  have withBroker : ∀ {k : Nat} {f : Broker → Session × Answer},
      (∀ b, (f b).1.transaction? name = s.transaction? name) →
      (s.withBroker k f).1.transaction? name = s.transaction? name := by
    intro k f hf
    unfold Session.withBroker
    split
    · exact hf _
    · rfl
  have withListener : ∀ {n : String} {f : Listener → Session × Answer},
      (∀ l, (f l).1.transaction? name = s.transaction? name) →
      (s.withListener n f).1.transaction? name = s.transaction? name := by
    intro n f hf
    unfold Session.withListener
    split
    · exact hf _
    · rfl
  cases a with
  | createBroker node model => rfl
  | removeMount node => rfl
  | openTransaction n k access id =>
    refine withBroker fun b => ?_
    rw [transaction?_setTransaction, if_neg (of_decide_eq_false h)]
  | readRoot k kind id =>
    refine withBroker fun b => ?_
    split <;> rfl
  | read n kind path => exact transaction?_read_of_ne (of_decide_eq_false h) kind path _
  | hasNode n kind path => exact transaction?_read_of_ne (of_decide_eq_false h) kind path _
  | close n =>
    simp only [Session.act]
    split
    · rw [transaction?_setTransaction, if_neg (of_decide_eq_false h)]
    · rfl
  | stage n kind e => exact transaction?_stage_of_ne (of_decide_eq_false h) kind e
  | cancel n =>
    simp only [Session.act]
    split
    · rw [transaction?_forget, if_neg (of_decide_eq_false h)]
    · rfl
  | submit n =>
    simp only [Session.act]
    cases hn : s.submit? n with
    | none => rfl
    | some x => exact (transaction?_submit? hn).trans (if_neg (of_decide_eq_false h))
  | submitAll names => exact transaction?_submitAll_of_not_mem (of_decide_eq_false h)
  | listen n k kind fails => exact withBroker fun b => rfl
  | heard n => exact withListener fun l => rfl
  | unlisten n => exact withListener fun l => rfl
  | dropBrokers => rfl

/-- What is not open does not come to be by anything but an opening. -/
theorem transaction?_act_eq_none {a : Action} (h : s.transaction? name = none)
    (ha : ∀ k access id, a ≠ .openTransaction name k access id) :
    (s.act a).1.transaction? name = none := by
  cases hc : a.concerns name with
  | false => exact (transaction?_act hc).trans h
  | true =>
    have hread : ∀ kind path f, s.read name kind path f = (s, .unknown) := by
      intro kind path f
      simp only [Session.read, h, Option.bind_none]
    cases a with
    | openTransaction n k access id =>
      obtain rfl := of_decide_eq_true hc
      exact absurd rfl (ha k access id)
    | read n kind path =>
      obtain rfl := of_decide_eq_true hc
      simp only [Session.act, hread, h]
    | hasNode n kind path =>
      obtain rfl := of_decide_eq_true hc
      simp only [Session.act, hread, h]
    | close n =>
      obtain rfl := of_decide_eq_true hc
      simp only [Session.act, h]
    | stage n kind e =>
      obtain rfl := of_decide_eq_true hc
      simp only [Session.act, Session.stage, h, Option.bind_none]
    | cancel n =>
      obtain rfl := of_decide_eq_true hc
      simp only [Session.act, h]
    | submit n =>
      obtain rfl := of_decide_eq_true hc
      simp only [Session.act, submit?, h, Option.bind_none, Option.map_none]
    | submitAll names => exact transaction?_submitAll_eq_none h names
    | _ => cases hc

/-! ## The calls of a transaction that reads and writes -/

variable {r : Reader} {w : Writer}

theorem read_of_readWrite (h : s.transaction? name = some (.readWrite r w)) (kind : StoreKind)
    (path : DataPath) (f : Option Json → Answer) :
    s.read name kind path f =
      (s.setTransaction name (.readWrite (r.read s.pool (w.draft? kind) kind path).1 w),
        match (r.read s.pool (w.draft? kind) kind path).2 with
        | .ok found => f found
        | .error e => .failed e) := by
  have hread : Transaction.read? (.readWrite r w) s.pool kind path =
      some (.readWrite (r.read s.pool (w.draft? kind) kind path).1 w,
        (r.read s.pool (w.draft? kind) kind path).2) := rfl
  simp only [Session.read, h, Option.bind_some, hread]
  split
  · rename_i t found heq
    obtain ⟨rfl, hfound⟩ := Prod.mk.inj (Option.some.inj heq)
    rw [hfound]
  · rename_i t e heq
    obtain ⟨rfl, hfound⟩ := Prod.mk.inj (Option.some.inj heq)
    rw [hfound]
  · rename_i heq
    cases heq

theorem transaction?_read (h : s.transaction? name = some (.readWrite r w)) (kind : StoreKind)
    (path : DataPath) (f : Option Json → Answer) :
    (s.read name kind path f).1.transaction? name =
      some (.readWrite (r.read s.pool (w.draft? kind) kind path).1 w) := by
  rw [read_of_readWrite h, transaction?_setTransaction, if_pos rfl]

theorem stage_of_readWrite (h : s.transaction? name = some (.readWrite r w)) (kind : StoreKind)
    (e : Edit) :
    s.stage name kind e =
      (s.setTransaction name (.readWrite r (w.stage s.pool kind e).1),
        match (w.stage s.pool kind e).2 with
        | .ok () => .done
        | .error e => .failed e) := by
  have hstage : Transaction.stage? (.readWrite r w) s.pool kind e =
      some (.readWrite r (w.stage s.pool kind e).1, (w.stage s.pool kind e).2) := rfl
  simp only [Session.stage, h, Option.bind_some, hstage]
  split
  · rename_i t heq
    obtain ⟨rfl, hdone⟩ := Prod.mk.inj (Option.some.inj heq)
    rw [hdone]
  · rename_i t e heq
    obtain ⟨rfl, hfailed⟩ := Prod.mk.inj (Option.some.inj heq)
    rw [hfailed]
  · rename_i heq
    cases heq

end Session

end Broker

end MountRegistry
