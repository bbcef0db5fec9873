import MountRegistry.Broker.Session
import MountRegistry.Proofs.Broker.Installs

/-
  What is done through a broker, one thing at a time: a transaction begins, reads, stages edits and
  is submitted, and the calls of its commit come one by one. All of it looks at the two stores of
  the broker only, and writes at most one of them (`Deed.perform_writes`). It does not matter
  whether the pool still has the stores of the broker under its mount path.
-/

namespace MountRegistry

/-- A transaction of a broker, or the commit of one that was submitted. -/
inductive Dealing where
  | opened (t : Transaction)
  | submitted (s : Submission)

/-- What is done to a transaction. -/
inductive Deed where
  | begin (access : Broker.Access) (id : String)
  | read (kind : StoreKind) (path : DataPath)
  /-- Closes the open read. -/
  | close
  | stage (kind : StoreKind) (edit : Edit)
  | submit
  /-- Makes the call that is due on a cohort. -/
  | call (cohort : Nat)

namespace Deed

/-- What is told of a deed. -/
inductive Answer where
  | done
  | found (result : Except TransactionFailure (Option Json))
  | staged (result : Except TransactionFailure Unit)
  /-- The result of the commit, once there is one. -/
  | outcome (result : Option CommitResult)
  /-- Nothing is there that this could be done to. -/
  | refused

/-- What a deed does to the pool and to the transaction, and its answer. The listeners of the
stores are left out: they hear of a commit and do not answer. -/
def perform (b : Broker) (pool : StorePool) :
    Option Dealing → Deed → StorePool × Option Dealing × Answer
  | none, begin access id => (pool, some (.opened (Broker.Session.begin b access id)), .done)
  | some (.opened t), read kind path =>
    match t.read? pool kind path with
    | some (t, result) => (pool, some (.opened t), .found result)
    | none => (pool, some (.opened t), .refused)
  | some (.opened t), close =>
    (pool, some (.opened ((t.reader?.map fun r => t.withReader r.close).getD t)), .done)
  | some (.opened t), stage kind e =>
    match t.stage? pool kind e with
    | some (t, result) => (pool, some (.opened t), .staged result)
    | none => (pool, some (.opened t), .refused)
  | some (.opened t), submit =>
    match t.writer? with
    | some w =>
      let s := Submission.create (w.cohorts pool)
      (pool, some (.submitted s), .outcome s.coordinator.state.result?)
    | none => (pool, some (.opened t), .refused)
  | some (.submitted s), call j =>
    let (pool, s) := s.step pool j
    (pool, some (.submitted s), .outcome s.coordinator.state.result?)
  | d, _ => (pool, d, .refused)

end Deed

/-! ## Of which broker -/

namespace Transaction

/-- The reader of the transaction and its writer, as far as it has them, are like this. -/
def Each (R : Reader → Prop) (W : Writer → Prop) (t : Transaction) : Prop :=
  (∀ r, t.reader? = some r → R r) ∧ ∀ w, t.writer? = some w → W w

variable {R : Reader → Prop} {W : Writer → Prop}

theorem each_begin {b : Broker} {id : String} (hr : R { id, broker := b })
    (hw : W { broker := b }) (access : Broker.Access) :
    (Broker.Session.begin b access id).Each R W := by
  have hreader : ∀ r, some (⟨id, b, false⟩ : Reader) = some r → R r :=
    fun _ h => Option.some.inj h ▸ hr
  have hwriter : ∀ w, some (⟨b, []⟩ : Writer) = some w → W w :=
    fun _ h => Option.some.inj h ▸ hw
  cases access with
  | readOnly => exact ⟨hreader, fun _ h => by cases h⟩
  | writeOnly => exact ⟨fun _ h => (by cases h), hwriter⟩
  | readWrite => exact ⟨hreader, hwriter⟩

theorem Each.withReader {t : Transaction} (h : t.Each R W) {r : Reader} (hr : R r) :
    (t.withReader r).Each R W := by
  cases t with
  | readOnly _ => exact ⟨fun _ h' => Option.some.inj h' ▸ hr, fun _ hw => by cases hw⟩
  | writeOnly w => exact h
  | readWrite _ w => exact ⟨fun _ h' => Option.some.inj h' ▸ hr, h.2⟩

theorem Each.withWriter {t : Transaction} (h : t.Each R W) {w : Writer} (hw : W w) :
    (t.withWriter w).Each R W := by
  cases t with
  | readOnly _ => exact h
  | writeOnly _ => exact ⟨fun _ hr => (by cases hr), fun _ h' => Option.some.inj h' ▸ hw⟩
  | readWrite r _ => exact ⟨h.1, fun _ h' => Option.some.inj h' ▸ hw⟩

/-- The transaction is one of this broker. -/
def On (b : Broker) (t : Transaction) : Prop :=
  (∀ r, t.reader? = some r → r.broker = b) ∧ ∀ w, t.writer? = some w → w.broker = b

end Transaction

/-- The cohorts are of stores of this broker. -/
def Submission.On (b : Broker) (s : Submission) : Prop :=
  ∀ x ∈ s.cohorts, ∃ kind, x.1 = b.storeNumber kind

/-- The transaction is one of this broker. -/
def Dealing.On (b : Broker) : Dealing → Prop
  | opened t => t.On b
  | submitted s => s.On b

/-- The broker finds the same stores in both pools. -/
def Broker.SameIn (b : Broker) (p p' : StorePool) : Prop := ∀ kind, b.store p kind = b.store p' kind

/-- The store has the name, kind and schema of another. -/
def Store.Follows (s s' : Store) : Prop :=
  s'.name = s.name ∧ s'.kind = s.kind ∧ s'.model = s.model

/-- On either pool one store of the broker is written, with the same in it, and `r` comes of it. It
may be what the store holds anyway. -/
def Broker.Writes (b : Broker) {α : Type} (p p' : StorePool) (act : StorePool → StorePool × α)
    (r : α) : Prop :=
  ∃ kind store, (b.store p kind).Follows store ∧
    act p = (p.setStore (b.storeNumber kind) store, r) ∧
    act p' = (p'.setStore (b.storeNumber kind) store, r)

/-- What leaves the pools alone writes back what a store holds. -/
theorem Broker.SameIn.writes_nothing {b : Broker} {α : Type} {p p' : StorePool}
    {act : StorePool → StorePool × α} {r : α} (h : b.SameIn p p') (hp : act p = (p, r))
    (hp' : act p' = (p', r)) : b.Writes p p' act r := by
  refine ⟨.configuration, b.store p .configuration, ⟨rfl, rfl, rfl⟩, ?_, ?_⟩
  · rw [hp]
    exact congrArg (·, r) (p.setStore_store _).symm
  · rw [hp', h .configuration]
    exact congrArg (·, r) (p'.setStore_store _).symm

theorem Reader.read_broker (r : Reader) (pool : StorePool) (draft : Option StoreDraft)
    (kind : StoreKind) (path : DataPath) : (r.read pool draft kind path).1.broker = r.broker := by
  unfold Reader.read
  split
  · rfl
  · dsimp only
    split <;> rfl

namespace Transaction

variable {b : Broker} {p p' : StorePool} {t : Transaction}

theorem on_begin (b : Broker) (access : Broker.Access) (id : String) :
    (Broker.Session.begin b access id).On b :=
  each_begin (R := (·.broker = b)) (W := (·.broker = b)) rfl rfl access

theorem on_withReader (h : t.On b) {r : Reader} (hr : r.broker = b) : (t.withReader r).On b :=
  Each.withReader h hr

theorem on_withWriter (h : t.On b) {w : Writer} (hw : w.broker = b) : (t.withWriter w).On b :=
  Each.withWriter h hw

theorem read?_same (h : b.SameIn p p') (ht : t.On b) (kind : StoreKind) (path : DataPath) :
    t.read? p kind path = t.read? p' kind path := by
  unfold read?
  cases hr : t.reader? with
  | none => rfl
  | some r =>
    have hread : ∀ draft, r.read p draft kind path = r.read p' draft kind path := by
      intro draft
      unfold Reader.read Broker.readCommitted
      rw [ht.1 r hr, h kind]
    rw [Option.map_some, Option.map_some, hread]

theorem on_read? (ht : t.On b) {t' : Transaction} {kind : StoreKind} {path : DataPath}
    {result : Except TransactionFailure (Option Json)}
    (h : t.read? p kind path = some (t', result)) : t'.On b := by
  unfold read? at h
  obtain ⟨r, hr, heq⟩ := Option.map_eq_some_iff.1 h
  rw [← (Prod.mk.inj heq).1]
  exact on_withReader ht ((Reader.read_broker ..).trans (ht.1 r hr))

theorem stage?_same (h : b.SameIn p p') (ht : t.On b) (kind : StoreKind) (e : Edit) :
    t.stage? p kind e = t.stage? p' kind e := by
  unfold stage?
  cases hw : t.writer? with
  | none => rfl
  | some w =>
    have hdraft : w.draft p kind = w.draft p' kind := by
      unfold Writer.draft
      rw [ht.2 w hw, h kind]
    rw [Option.map_some, Option.map_some]
    unfold Writer.stage
    rw [hdraft]

theorem on_stage? (ht : t.On b) {t' : Transaction} {kind : StoreKind} {e : Edit}
    {result : Except TransactionFailure Unit} (h : t.stage? p kind e = some (t', result)) :
    t'.On b := by
  unfold stage? at h
  obtain ⟨w, hw, heq⟩ := Option.map_eq_some_iff.1 h
  rw [← (Prod.mk.inj heq).1]
  exact on_withWriter ht ((Writer.stage_broker ..).trans (ht.2 w hw))

end Transaction

theorem Writer.cohorts_same {b : Broker} {p p' : StorePool} (h : b.SameIn p p') {w : Writer}
    (hw : w.broker = b) : w.cohorts p = w.cohorts p' := by
  unfold Writer.cohorts
  rw [hw]
  simp only [h _]

namespace Submission

variable {b : Broker} {p p' : StorePool} {s : Submission}

theorem on_create (w : Writer) (pool : StorePool) :
    (Submission.create (w.cohorts pool)).On w.broker := by
  intro x hx
  obtain ⟨d, _, rfl⟩ := List.mem_map.1 hx
  exact ⟨d.1, rfl⟩

theorem follows_perform (s : Store) (c : Cohort) (call : Call) :
    s.Follows (perform s c call).1 := by
  cases call with
  | abort => exact ⟨rfl, rfl, rfl⟩
  | phase phase =>
    cases phase with
    | canCommit => exact ⟨rfl, rfl, rfl⟩
    | preCommit =>
      unfold perform
      cases c.prepare s <;> exact ⟨rfl, rfl, rfl⟩
    | commit =>
      unfold perform
      cases hc : c.commit s with
      | error e => exact ⟨rfl, rfl, rfl⟩
      | ok s' =>
        obtain ⟨_, _, _, hto⟩ := Cohort.commit_eq_ok hc
        exact ⟨hto.name, hto.kind, hto.model⟩

/-- One call, on two pools with the same stores of the broker. -/
theorem step_writes (h : b.SameIn p p') (hs : s.On b) (j : Nat) :
    ∃ s' : Submission, s'.On b ∧ b.Writes p p' (s.step · j) s' := by
  by_cases hdue : ∃ n c call, Broker.Traffic.Due s j n c call
  · obtain ⟨n, c, call, due⟩ := hdue
    obtain ⟨kind, rfl⟩ : ∃ kind, n = b.storeNumber kind := hs _ (List.mem_of_getElem? due.cohort)
    have hstore : p'.store (b.storeNumber kind) = b.store p kind := (h kind).symm
    have hcall : perform (p'.store (b.storeNumber kind)) c call =
        perform (b.store p kind) c call := by rw [hstore]
    refine ⟨_, ?_, kind, _, follows_perform _ c call, due.step rfl, due.step hcall⟩
    intro x hx
    rcases List.mem_or_eq_of_mem_set hx with hx | rfl
    · exact hs x hx
    · exact ⟨kind, rfl⟩
  · have hstep : ∀ pool, s.step pool j = (pool, s) := fun pool =>
      Broker.Traffic.step_of_not_due fun n c call due => hdue ⟨n, c, call, due⟩
    exact ⟨s, hs, h.writes_nothing (hstep p) (hstep p')⟩

end Submission

namespace Deed

variable {b : Broker} {p p' : StorePool}

/-- An open transaction leaves the pool as it is. -/
theorem perform_opened (h : b.SameIn p p') {t : Transaction} (ht : t.On b) (deed : Deed) :
    ∃ x a, Dealing.On b x ∧ deed.perform b p (some (.opened t)) = (p, some x, a) ∧
      deed.perform b p' (some (.opened t)) = (p', some x, a) := by
  cases deed with
  | begin access id => exact ⟨.opened t, _, ht, rfl, rfl⟩
  | read kind path =>
    have hsame := Transaction.read?_same h ht kind path
    cases hr : t.read? p kind path with
    | none =>
      refine ⟨.opened t, .refused, ht, ?_, ?_⟩
      · simp only [perform, hr]
      · simp only [perform, ← hsame, hr]
    | some found =>
      obtain ⟨t', result⟩ := found
      refine ⟨.opened t', .found result, Transaction.on_read? ht hr, ?_, ?_⟩
      · simp only [perform, hr]
      · simp only [perform, ← hsame, hr]
  | close =>
    refine ⟨_, _, ?_, rfl, rfl⟩
    cases hr : t.reader? with
    | none => exact ht
    | some r => exact Transaction.on_withReader ht (ht.1 r hr)
  | stage kind e =>
    have hsame := Transaction.stage?_same h ht kind e
    cases hr : t.stage? p kind e with
    | none =>
      refine ⟨.opened t, .refused, ht, ?_, ?_⟩
      · simp only [perform, hr]
      · simp only [perform, ← hsame, hr]
    | some staged =>
      obtain ⟨t', result⟩ := staged
      refine ⟨.opened t', .staged result, Transaction.on_stage? ht hr, ?_, ?_⟩
      · simp only [perform, hr]
      · simp only [perform, ← hsame, hr]
  | submit =>
    cases hw : t.writer? with
    | none =>
      refine ⟨.opened t, .refused, ht, ?_, ?_⟩ <;> simp only [perform, hw]
    | some w =>
      have hb : w.broker = b := ht.2 w hw
      let s := Submission.create (w.cohorts p)
      have hon : s.On b := hb ▸ Submission.on_create w p
      refine ⟨.submitted s, .outcome s.coordinator.state.result?, hon, ?_, ?_⟩
      · simp only [perform, hw]
        rfl
      · simp only [perform, hw, ← Writer.cohorts_same h hb]
        rfl
  | call j => exact ⟨.opened t, _, ht, rfl, rfl⟩

/-- A deed on two pools with the same stores of the broker has the same answer, and writes the same
to the same store of the broker at most. -/
theorem perform_writes (h : b.SameIn p p') {d : Option Dealing} (hd : ∀ x, d = some x → x.On b)
    (deed : Deed) :
    ∃ d' a, (∀ x, d' = some x → x.On b) ∧ b.Writes p p' (deed.perform b · d) (d', a) := by
  cases d with
  | none =>
    cases deed with
    | begin access id =>
      have hon : Dealing.On b (.opened (Broker.Session.begin b access id)) :=
        Transaction.on_begin b access id
      exact ⟨_, _, fun x hx => Option.some.inj hx ▸ hon, h.writes_nothing rfl rfl⟩
    | _ => exact ⟨none, _, hd, h.writes_nothing rfl rfl⟩
  | some x =>
    cases x with
    | opened t =>
      obtain ⟨x, a, hx, hp, hp'⟩ := perform_opened h (hd _ rfl) deed
      exact ⟨some x, a, fun y hy => Option.some.inj hy ▸ hx, h.writes_nothing hp hp'⟩
    | submitted s =>
      cases deed with
      | call j =>
        obtain ⟨s', hs', kind, store, hfollows, hp, hp'⟩ := Submission.step_writes h (hd _ rfl) j
        have hon : Dealing.On b (.submitted s') := hs'
        refine ⟨some (.submitted s'), .outcome s'.coordinator.state.result?,
          fun y hy => Option.some.inj hy ▸ hon, kind, store, hfollows, ?_, ?_⟩
        · simp only [perform, hp]
        · simp only [perform, hp']
      | _ => exact ⟨_, _, hd, h.writes_nothing rfl rfl⟩

end Deed

end MountRegistry
