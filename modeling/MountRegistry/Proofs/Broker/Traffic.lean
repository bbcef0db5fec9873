import MountRegistry.Broker.Transaction
import MountRegistry.Proofs.Keyed
import MountRegistry.Proofs.Store.Commit
import MountRegistry.Proofs.Store.Pool

/-
  All that the writers of one broker can do. Any number of deals, known by numbers, each stage edits
  in a writer of their own and submit it, and the calls of their coordinators come in whatever
  order, one at a time on the stores as they are then. The stores do not know for whom they commit;
  the traffic keeps which deal installed what in which store.
-/

namespace MountRegistry

/-- The edits that the call due on a cohort installs, and the number of the store. -/
def Submission.installed? (pool : StorePool) (s : Submission) (j : Nat) :
    Option (Nat × List Edit) :=
  match s.coordinator.state.call?, s.cohorts[j]? with
  | some (.phase .commit), some (n, c) =>
    if j ∈ s.coordinator.waiting then
      match c.commit (pool.store n) with
      | .ok _ => some (n, c.edits)
      | .error _ => none
    else none
  | _, _ => none

namespace Broker

/-- A write transaction of the broker. -/
inductive Deal where
  | staging (w : Writer)
  /-- The writer as it was submitted, and its submission. -/
  | submitted (w : Writer) (s : Submission)

/-- A commit call that succeeded: who made it, in which store, and what it wrote there. -/
structure Install where
  deal : Nat
  /-- The number of the store. -/
  store : Nat
  edits : List Edit
  deriving Repr

/-- A broker, the deals that are made through it, and all that they have installed. -/
structure Traffic where
  broker : Broker
  pool : StorePool
  deal? : Nat → Option Deal
  /-- Every install, oldest first. -/
  installs : List Install

/-- What happens to a deal. -/
inductive Move where
  | begin (i : Nat)
  | stage (i : Nat) (kind : StoreKind) (edit : Edit)
  | submit (i : Nat)
  /-- The call that is due on a cohort. -/
  | call (i : Nat) (cohort : Nat)
  deriving Repr

namespace Traffic

/-- A broker over two new stores. -/
def start (node : NodeId) (model : Yang.Model) : Traffic :=
  let (pool, broker) := Broker.ofPool {} node model
  ⟨broker, pool, fun _ => none, []⟩

/-- The store of a kind, as it is now. -/
def store (s : Traffic) (kind : StoreKind) : Store := s.broker.store s.pool kind

/-- The deal of this number has come so far. -/
def setDeal (s : Traffic) (i : Nat) (d : Deal) : Traffic :=
  { s with deal? := fun j => if j = i then some d else s.deal? j }

/-- A move, which changes nothing if the deal is not there or not that far. -/
def step (s : Traffic) : Move → Traffic
  | .begin i =>
    match s.deal? i with
    | none => s.setDeal i (.staging { broker := s.broker })
    | some _ => s
  | .stage i kind e =>
    match s.deal? i with
    | some (.staging w) => s.setDeal i (.staging (w.stage s.pool kind e).1)
    | _ => s
  | .submit i =>
    match s.deal? i with
    | some (.staging w) => s.setDeal i (.submitted w (Submission.create (w.cohorts s.pool)))
    | _ => s
  | .call i j =>
    match s.deal? i with
    | some (.submitted w sub) =>
      let (pool, sub') := sub.step s.pool j
      let installs := (sub.installed? s.pool j).toList.map fun x => ⟨i, x.1, x.2⟩
      { s.setDeal i (.submitted w sub') with pool, installs := s.installs ++ installs }
    | _ => s

/-- The state after a run. -/
def after (s : Traffic) : List Move → Traffic
  | [] => s
  | m :: ms => (s.step m).after ms

/-! ## What was installed -/

/-- The edit lists that a deal installed in the store of a number. -/
def made (s : Traffic) (i n : Nat) : List (List Edit) :=
  (s.installs.filter fun x => x.deal = i && x.store = n).map (·.edits)

/-- All that was installed in the store of a number. -/
def installsIn (s : Traffic) (n : Nat) : List Install := s.installs.filter (·.store = n)

/-- The store of number `n` becomes `store`, by the edits of a deal. -/
def install (s : Traffic) (i n : Nat) (store : Store) (es : List Edit) : Traffic :=
  { s with pool := s.pool.setStore n store, installs := s.installs ++ [⟨i, n, es⟩] }

theorem made_install (s : Traffic) (i n : Nat) (store : Store) (es : List Edit) (j m : Nat) :
    (s.install i n store es).made j m = s.made j m ++ if j = i ∧ m = n then [es] else [] := by
  unfold made install
  rw [List.filter_append, List.map_append]
  by_cases hj : j = i ∧ m = n
  · obtain ⟨rfl, rfl⟩ := hj
    simp
  · have hn : ¬ (i = j ∧ n = m) := fun hji => hj ⟨hji.1.symm, hji.2.symm⟩
    simp [hj, hn]

theorem installsIn_install (s : Traffic) (i n : Nat) (store : Store) (es : List Edit) (m : Nat) :
    (s.install i n store es).installsIn m =
      s.installsIn m ++ if m = n then [⟨i, n, es⟩] else [] := by
  unfold installsIn install
  rw [List.filter_append]
  by_cases hm : m = n
  · subst hm
    simp
  · simp [hm, Ne.symm hm]

/-! ## What a move can do -/

/-- The call `call` is due on the cohort `c`, in place `j` of the submission. -/
structure Due (sub : Submission) (j n : Nat) (c : Cohort) (call : Call) : Prop where
  cohort : sub.cohorts[j]? = some (n, c)
  awaited : j ∈ sub.coordinator.waiting
  call : sub.coordinator.state.call? = some call

/-- The submission after a cohort has answered. -/
def answered (sub : Submission) (j n : Nat) (c : Cohort) (a : CallAnswer) : Submission :=
  ⟨sub.cohorts.set j (n, c), sub.coordinator.report j a⟩

/-- The effects of a move, with what had to hold for them. -/
inductive Effect (s : Traffic) : Move → Traffic → Prop where
  | idle (m : Move) : Effect s m s
  | begun (i : Nat) (free : s.deal? i = none) :
    Effect s (.begin i) (s.setDeal i (.staging { broker := s.broker }))
  | staged (i : Nat) (kind : StoreKind) (e : Edit) (w : Writer)
    (deal : s.deal? i = some (.staging w)) :
    Effect s (.stage i kind e) (s.setDeal i (.staging (w.stage s.pool kind e).1))
  | submitted (i : Nat) (w : Writer) (deal : s.deal? i = some (.staging w)) :
    Effect s (.submit i) (s.setDeal i (.submitted w (Submission.create (w.cohorts s.pool))))
  /-- A vote, a preparation or an abort leaves the stores as they are. -/
  | asked (i j : Nat) (w : Writer) (sub : Submission) (n : Nat) (c c' : Cohort) (call : Call)
    (a : CallAnswer) (deal : s.deal? i = some (.submitted w sub)) (due : Due sub j n c call)
    (other : call ≠ .phase .commit) (edits : c'.edits = c.edits)
    (prepared : ∀ p, c'.prepared = some p →
      c.prepared = some p ∨ (s.pool.store n).prepare c.base c.edits = .ok p)
    (primed : call = .phase .preCommit → c'.prepared.isSome ∨ ∃ e, a = .error e) :
    Effect s (.call i j) (s.setDeal i (.submitted w (answered sub j n c' a)))
  | committed (i j : Nat) (w : Writer) (sub : Submission) (n : Nat) (c : Cohort) (store : Store)
    (deal : s.deal? i = some (.submitted w sub)) (due : Due sub j n c (.phase .commit))
    (commit : c.commit (s.pool.store n) = .ok store) :
    Effect s (.call i j)
      ((s.setDeal i (.submitted w (answered sub j n c.release (.ok true)))).install i n store
        c.edits)
  | failed (i j : Nat) (w : Writer) (sub : Submission) (n : Nat) (c : Cohort) (e : StoreFailure)
    (deal : s.deal? i = some (.submitted w sub)) (due : Due sub j n c (.phase .commit))
    (commit : c.commit (s.pool.store n) = .error e) :
    Effect s (.call i j) (s.setDeal i (.submitted w (answered sub j n c.release (.error e))))

/-- What a call that is not a commit makes of the cohort. -/
theorem perform_of_ne_commit (store : Store) (c : Cohort) {call : Call}
    (h : call ≠ .phase .commit) :
    ∃ c' a, Submission.perform store c call = (store, c', a) ∧ c'.edits = c.edits ∧
      (∀ p, c'.prepared = some p →
        c.prepared = some p ∨ store.prepare c.base c.edits = .ok p) ∧
      (call = .phase .preCommit → c'.prepared.isSome ∨ ∃ e, a = .error e) := by
  cases call with
  | abort =>
    exact ⟨c.release, .ok true, rfl, rfl, fun p hp => (by cases hp), fun hcall => by cases hcall⟩
  | phase phase =>
    cases phase with
    | canCommit =>
      exact ⟨c, c.vote store, rfl, rfl, fun p hp => .inl hp, fun hcall => by cases hcall⟩
    | commit => exact absurd rfl h
    | preCommit =>
      simp only [Submission.perform]
      cases hc : c.prepare store with
      | error e => exact ⟨c, .error e, rfl, rfl, fun p hp => .inl hp, fun _ => .inr ⟨e, rfl⟩⟩
      | ok c' =>
        obtain ⟨q, hq, rfl⟩ := Cohort.prepare_eq_ok hc
        refine ⟨_, .ok true, rfl, rfl, fun p hp => .inr ?_, fun _ => .inl rfl⟩
        cases hp
        exact hq

section
variable {pool : StorePool} {sub : Submission} {j n : Nat} {c : Cohort} {call : Call}

theorem Due.step (due : Due sub j n c call) {store : Store} {c' : Cohort} {a : CallAnswer}
    (h : Submission.perform (pool.store n) c call = (store, c', a)) :
    sub.step pool j = (pool.setStore n store, answered sub j n c' a) := by
  simp only [Submission.step, due.call, due.cohort, if_pos due.awaited, h]
  rfl

theorem Due.installed? (due : Due sub j n c (.phase .commit)) :
    sub.installed? pool j = (c.commit (pool.store n)).toOption.map fun _ => (n, c.edits) := by
  simp only [Submission.installed?, due.call, due.cohort, if_pos due.awaited]
  cases c.commit (pool.store n) <;> rfl

theorem Due.installed?_eq_none (due : Due sub j n c call) (h : call ≠ .phase .commit) :
    sub.installed? pool j = none := by
  unfold Submission.installed?
  rw [due.call, due.cohort]
  split
  · rename_i hcall _
    exact absurd (Option.some.inj hcall) h
  · rfl

theorem step_of_not_due (h : ∀ n c call, ¬ Due sub j n c call) : sub.step pool j = (pool, sub) := by
  unfold Submission.step
  split
  · rename_i call n c hcall hc
    exact if_neg fun hj => h n c call ⟨hc, hj, hcall⟩
  · rfl

theorem installed?_of_not_due (h : ∀ n c call, ¬ Due sub j n c call) :
    sub.installed? pool j = none := by
  unfold Submission.installed?
  split
  · rename_i n c hcall hc
    exact if_neg fun hj => h n c _ ⟨hc, hj, hcall⟩
  · rfl

end

/-- Setting a deal to what it is changes nothing. -/
theorem setDeal_of_deal? {s : Traffic} {i : Nat} {d : Deal} (h : s.deal? i = some d) :
    s.setDeal i d = s := by
  unfold setDeal
  rw [Keyed.set_eq_self h]

theorem step_call {s : Traffic} {i : Nat} {w : Writer} {sub sub' : Submission} {j : Nat}
    {pool : StorePool} {installed : Option (Nat × List Edit)}
    (deal : s.deal? i = some (.submitted w sub)) (hstep : sub.step s.pool j = (pool, sub'))
    (hin : sub.installed? s.pool j = installed) :
    s.step (.call i j) = { s.setDeal i (.submitted w sub') with
      pool, installs := s.installs ++ installed.toList.map fun x => ⟨i, x.1, x.2⟩ } := by
  simp only [step, deal, hstep, hin]

theorem effect_call (s : Traffic) {i j : Nat} {w : Writer} {sub : Submission}
    (deal : s.deal? i = some (.submitted w sub)) : Effect s (.call i j) (s.step (.call i j)) := by
  have same : ∀ d : Deal, ({ s.setDeal i d with pool := s.pool, installs := s.installs ++ [] } :
      Traffic) = s.setDeal i d := by
    intro d
    rw [List.append_nil]
    rfl
  by_cases hdue : ∃ n c call, Due sub j n c call
  · obtain ⟨n, c, call, due⟩ := hdue
    by_cases hcall : call = .phase .commit
    · subst hcall
      cases hc : c.commit (s.pool.store n) with
      | ok store =>
        have hp : Submission.perform (s.pool.store n) c (.phase .commit) =
            (store, c.release, .ok true) := by
          simp only [Submission.perform, hc]
        rw [step_call deal (due.step hp) (due.installed?.trans (by rw [hc]))]
        exact .committed i j w sub n c store deal due hc
      | error e =>
        have hp : Submission.perform (s.pool.store n) c (.phase .commit) =
            (s.pool.store n, c.release, .error e) := by
          simp only [Submission.perform, hc]
        have hnone : sub.installed? s.pool j = none := by
          rw [due.installed?, hc]
          rfl
        rw [step_call deal (due.step hp) hnone, StorePool.setStore_store]
        exact same _ ▸ .failed i j w sub n c e deal due hc
    · obtain ⟨c', a, hp, hedits, hprepared, hprimed⟩ :=
        perform_of_ne_commit (s.pool.store n) c hcall
      rw [step_call deal (due.step hp) (due.installed?_eq_none hcall), StorePool.setStore_store]
      exact same _ ▸ .asked i j w sub n c c' call a deal due hcall hedits hprepared hprimed
  · have hnot : ∀ n c call, ¬ Due sub j n c call := fun n c call h => hdue ⟨n, c, call, h⟩
    have hs : s.step (.call i j) = s :=
      (step_call deal (step_of_not_due hnot) (installed?_of_not_due hnot)).trans
        ((same _).trans (setDeal_of_deal? deal))
    rw [hs]
    exact .idle _

theorem effect_step (s : Traffic) (m : Move) : Effect s m (s.step m) := by
  cases m with
  | begin i =>
    simp only [step]
    cases h : s.deal? i with
    | none => exact .begun i h
    | some d => exact .idle _
  | stage i kind e =>
    simp only [step]
    split
    · rename_i w h
      exact .staged i kind e w h
    · exact .idle _
  | submit i =>
    simp only [step]
    split
    · rename_i w h
      exact .submitted i w h
    · exact .idle _
  | call i j =>
    cases h : s.deal? i with
    | none =>
      simp only [step, h]
      exact .idle _
    | some d =>
      cases d with
      | staging w =>
        simp only [step, h]
        exact .idle _
      | submitted w sub => exact effect_call s h

/-! ## A submission driven to its end -/

/-- Driving a submission is a run of calls of its deal alone. -/
theorem exists_calls_of_runIn (fuel : Nat) {s : Traffic} {i : Nat} {w : Writer} {sub : Submission}
    (deal : s.deal? i = some (.submitted w sub)) :
    ∃ js : List Nat, let t := s.after (js.map (.call i))
      t.pool = (Submission.runIn fuel s.pool sub).1 ∧
        t.deal? i = some (.submitted w (Submission.runIn fuel s.pool sub).2) := by
  induction fuel generalizing s sub with
  | zero => exact ⟨[], rfl, deal⟩
  | succ fuel ih =>
    unfold Submission.runIn
    cases hw : sub.coordinator.waiting with
    | nil => exact ⟨[], rfl, deal⟩
    | cons j rest =>
      have hstep := step_call deal rfl (rfl : sub.installed? s.pool j = _)
      have hnext : (s.step (.call i j)).deal? i = some (.submitted w (sub.step s.pool j).2) := by
        rw [hstep]
        exact if_pos rfl
      obtain ⟨js, hpool, hdeal⟩ := ih hnext
      rw [hstep] at hpool hdeal
      refine ⟨j :: js, ?_, ?_⟩
      · change ((s.step (.call i j)).after _).pool = _
        rw [hstep]
        exact hpool
      · change ((s.step (.call i j)).after _).deal? i = _
        rw [hstep]
        exact hdeal

/-- What a writer submits at once is a run: its submission, and calls of its cohorts. -/
theorem exists_run_of_submit {s : Traffic} {i : Nat} {w : Writer}
    (deal : s.deal? i = some (.staging w)) :
    ∃ ms sub, (s.after ms).pool = (w.submit s.pool).1 ∧
      (s.after ms).deal? i = some (.submitted w sub) ∧ sub.result = (w.submit s.pool).2 := by
  have hstep : s.step (.submit i) =
      s.setDeal i (.submitted w (Submission.create (w.cohorts s.pool))) := by
    simp only [step, deal]
  have hnext : (s.step (.submit i)).deal? i =
      some (.submitted w (Submission.create (w.cohorts s.pool))) := by
    rw [hstep]
    exact if_pos rfl
  obtain ⟨js, hpool, hdeal⟩ :=
    exists_calls_of_runIn (4 * (Submission.create (w.cohorts s.pool)).cohorts.length) hnext
  refine ⟨.submit i :: js.map (.call i), _, ?_, hdeal, ?_⟩
  · refine hpool.trans ?_
    rw [hstep]
    rfl
  · rw [hstep]
    rfl

end Traffic

end Broker

end MountRegistry
