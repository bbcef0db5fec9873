import Mathlib.Data.List.Forall2
import MountRegistry.Proofs.Broker.Schema

/-
  A data node at the top can be spelled bare, or qualified by the name or the short name of its
  module. Drafts, reads of drafts and reads of what is committed each spell the node bare for
  themselves; the rest, from the check of the schema to the announcement of a commit, sees the edits
  of the drafts only. So it makes no difference to anything how the nodes are spelled
  (`Bustle.trace_of_respelt`), as long as all stores and drafts have the one schema.
-/

namespace MountRegistry

/-! ## Spellings -/

/-- Two paths that differ at most in how they spell the data node at the top. -/
inductive DataPath.Respelt (model : Yang.Model) : DataPath → DataPath → Prop where
  | same (p : DataPath) : Respelt model p p
  | top {a b name : String} (first : model.canonical? a = some name)
    (second : model.canonical? b = some name) (rest : List String) :
    Respelt model ⟨a :: rest⟩ ⟨b :: rest⟩

/-- Two edits that do the same at paths that differ at most in their spelling. -/
inductive Edit.Respelt (model : Yang.Model) : Edit → Edit → Prop where
  | put {p q : DataPath} (path : p.Respelt model q) (value : Json) :
    Respelt model (.put p value) (.put q value)
  | merge {p q : DataPath} (path : p.Respelt model q) (value : Json) :
    Respelt model (.merge p value) (.merge q value)
  | delete {p q : DataPath} (path : p.Respelt model q) : Respelt model (.delete p) (.delete q)

variable {model : Yang.Model}

theorem DataPath.Respelt.isRoot_eq {p q : DataPath} (h : p.Respelt model q) :
    p.isRoot = q.isRoot := by
  cases h <;> rfl

theorem Edit.Respelt.isRoot_eq {e f : Edit} (h : e.Respelt model f) :
    e.path.isRoot = f.path.isRoot := by
  cases h with
  | put path value => exact path.isRoot_eq
  | merge path value => exact path.isRoot_eq
  | delete path => exact path.isRoot_eq

namespace Store

theorem canonicalPath_of_canonical? {top name : String} (h : model.canonical? top = some name)
    (rest : List String) : canonicalPath model ⟨top :: rest⟩ = ⟨name :: rest⟩ := by
  unfold canonicalPath DataPath.top?
  rw [List.head?_cons, Option.bind_some, h]
  rfl

theorem canonicalPath_of_respelt {p q : DataPath} (h : p.Respelt model q) :
    canonicalPath model p = canonicalPath model q := by
  cases h with
  | same => rfl
  | top first second rest =>
    rw [canonicalPath_of_canonical? first, canonicalPath_of_canonical? second]

theorem canonicalEdit_of_respelt {e f : Edit} (h : e.Respelt model f) :
    canonicalEdit model e = canonicalEdit model f := by
  cases h with
  | put path value =>
    simp only [canonicalEdit, ← path.isRoot_eq, canonicalPath_of_respelt path]
    cases path <;> rfl
  | merge path value =>
    simp only [canonicalEdit, ← path.isRoot_eq, canonicalPath_of_respelt path]
    cases path <;> rfl
  | delete path => simp only [canonicalEdit, canonicalPath_of_respelt path]

theorem read_of_respelt {s : Store} (hs : s.model = model) {p q : DataPath}
    (h : p.Respelt model q) : s.read p = s.read q := by
  unfold read
  rw [hs, canonicalPath_of_respelt h]

end Store

namespace StoreDraft

variable {d : StoreDraft}

theorem read_of_respelt (hd : d.model = model) {p q : DataPath} (h : p.Respelt model q) :
    d.read p = d.read q := by
  unfold read
  rw [hd, Store.canonicalPath_of_respelt h]

theorem stage_of_respelt (hd : d.model = model) {e f : Edit} (h : e.Respelt model f) :
    d.stage e = d.stage f := by
  unfold stage
  rw [hd, Store.canonicalEdit_of_respelt h]

end StoreDraft

/-! ## Transactions -/

section
variable {p : StorePool}

theorem Reader.read_of_respelt {r : Reader} (hr : r.broker.Within p) (hp : p.Under model)
    {draft : Option StoreDraft} (hd : ∀ d, draft = some d → d.model = model) (kind : StoreKind)
    {path path' : DataPath} (h : path.Respelt model path') :
    r.read p draft kind path = r.read p draft kind path' := by
  unfold read Broker.readCommitted
  cases draft with
  | some d => simp only [StoreDraft.read_of_respelt (hd d rfl) h]
  | none => simp only [Store.read_of_respelt (hr.store hp kind) h]

theorem Writer.stage_of_respelt {w : Writer} (hw : w.Under model p) (hp : p.Under model)
    (kind : StoreKind) {e f : Edit} (h : e.Respelt model f) :
    w.stage p kind e = w.stage p kind f := by
  simp only [stage, h.isRoot_eq, StoreDraft.stage_of_respelt (hw.draft hp kind) h]

namespace Transaction

variable {t : Transaction}

theorem read?_of_respelt (ht : t.Under model p) (hp : p.Under model) (kind : StoreKind)
    {path path' : DataPath} (h : path.Respelt model path') :
    t.read? p kind path = t.read? p kind path' := by
  unfold read?
  cases hr : t.reader? with
  | none => rfl
  | some r =>
    have hd : ∀ d, t.writer?.bind (·.draft? kind) = some d → d.model = model := by
      intro d hd
      obtain ⟨w, hw, hd⟩ := Option.bind_eq_some_iff.1 hd
      exact (ht.2 w hw).draft? hd
    rw [Option.map_some, Option.map_some, Reader.read_of_respelt (ht.1 r hr) hp hd kind h]

theorem stage?_of_respelt (ht : t.Under model p) (hp : p.Under model) (kind : StoreKind)
    {e f : Edit} (h : e.Respelt model f) : t.stage? p kind e = t.stage? p kind f := by
  unfold stage?
  cases hw : t.writer? with
  | none => rfl
  | some w =>
    rw [Option.map_some, Option.map_some, Writer.stage_of_respelt (ht.2 w hw) hp kind h]

end Transaction

end

namespace Broker

namespace Session

variable {s : Session}

theorem read_of_respelt (h : s.Under model) (name : String) (kind : StoreKind)
    {path path' : DataPath} (hpath : path.Respelt model path') (f : Option Json → Answer) :
    s.read name kind path f = s.read name kind path' f := by
  unfold read
  cases ht : s.transaction? name with
  | none => rfl
  | some t =>
    rw [Option.bind_some, Option.bind_some,
      Transaction.read?_of_respelt (h.transaction? ht) h.pool kind hpath]

theorem stage_of_respelt (h : s.Under model) (name : String) (kind : StoreKind) {e f : Edit}
    (he : e.Respelt model f) : s.stage name kind e = s.stage name kind f := by
  unfold stage
  cases ht : s.transaction? name with
  | none => rfl
  | some t =>
    rw [Option.bind_some, Option.bind_some,
      Transaction.stage?_of_respelt (h.transaction? ht) h.pool kind he]

end Session

/-! ## Actions -/

/-- Two actions that differ at most in how they spell a data node. -/
inductive Action.Respelt (model : Yang.Model) : Action → Action → Prop where
  | same (a : Action) : Respelt model a a
  | read (name : String) (kind : StoreKind) {p q : DataPath} (path : p.Respelt model q) :
    Respelt model (.read name kind p) (.read name kind q)
  | hasNode (name : String) (kind : StoreKind) {p q : DataPath} (path : p.Respelt model q) :
    Respelt model (.hasNode name kind p) (.hasNode name kind q)
  | stage (name : String) (kind : StoreKind) {e f : Edit} (edit : e.Respelt model f) :
    Respelt model (.stage name kind e) (.stage name kind f)

theorem Session.act_of_respelt {s : Session} (h : s.Under model) {a a' : Action}
    (ha : a.Respelt model a') : s.act a = s.act a' := by
  cases ha with
  | same => rfl
  | read name kind path => exact read_of_respelt h name kind path _
  | hasNode name kind path => exact read_of_respelt h name kind path _
  | stage name kind edit => exact stage_of_respelt h name kind edit

/-! ## Commits under way -/

/-- All that goes on at the brokers of one pool. A commit runs to its end within the action that
submits it, or it is under way under a number, and its calls come one by one. -/
structure Bustle where
  session : Session
  commit? : Nat → Option Submission := fun _ => none

namespace Bustle

/-- What happens at the brokers. -/
inductive Move where
  | act (a : Action)
  /-- Submits a transaction; the calls of its commit are to come. -/
  | submit (name : String) (i : Nat)
  /-- Makes the call that is due on a cohort. -/
  | call (i : Nat) (cohort : Nat)

/-- What a move answers to whoever made it. -/
inductive Answer where
  | acted (a : Broker.Answer)
  /-- What the cohort answered to a call, and the result of the commit, once there is one. -/
  | called (answer : Option CallAnswer) (result : Option CommitResult)
  /-- Nothing is there that this could be done to. -/
  | refused

/-- What a cohort answers to the call that is due on it. -/
def reply? (pool : StorePool) (s : Submission) (j : Nat) : Option CallAnswer :=
  match s.coordinator.state.call?, s.cohorts[j]? with
  | some call, some (n, c) =>
    if j ∈ s.coordinator.waiting then some (Submission.perform (pool.store n) c call).2.2 else none
  | _, _ => none

/-- The commit under this number has come so far. -/
def setCommit (s : Bustle) (i : Nat) (c : Submission) : Bustle :=
  { s with commit? := fun j => if j = i then some c else s.commit? j }

/-- A move, which changes nothing where there is nothing for it to be done to. -/
def step (s : Bustle) : Move → Bustle × Answer
  | .act a =>
    let (session, answer) := s.session.step a
    ({ s with session }, .acted answer)
  | .submit name i =>
    match (s.session.transaction? name).bind (·.writer?), s.commit? i with
    | some w, none =>
      let c := Submission.create (w.cohorts s.session.pool)
      ({ s with session := s.session.forget name }.setCommit i c,
        .called none c.coordinator.state.result?)
    | _, _ => (s, .refused)
  | .call i j =>
    match s.commit? i with
    | some c =>
      let (pool, c') := c.step s.session.pool j
      ({ s with session := { s.session with pool }.hearAll }.setCommit i c',
        .called (reply? s.session.pool c j) c'.coordinator.state.result?)
    | none => (s, .refused)

/-- The answers to the moves of a run, each with the state after the move. -/
def trace (s : Bustle) : List Move → List (Answer × Bustle)
  | [] => []
  | m :: ms => ((s.step m).2, (s.step m).1) :: (s.step m).1.trace ms

/-- No broker and no store. -/
def start (slots : Slots) : Bustle := { session := { slots } }

/-- The brokers that the move makes have the schema. -/
def Move.IsUnder (model : Yang.Model) : Move → Prop
  | act a => a.IsUnder model
  | _ => True

/-- Two moves that differ at most in how they spell a data node. -/
inductive Move.Respelt (model : Yang.Model) : Move → Move → Prop where
  | same (m : Move) : Respelt model m m
  | act {a a' : Action} (action : a.Respelt model a') : Respelt model (.act a) (.act a')

variable {s : Bustle}

theorem step_of_respelt (h : s.session.Under model) {m m' : Move} (hm : m.Respelt model m') :
    s.step m = s.step m' := by
  cases hm with
  | same => rfl
  | act action => simp only [step, Session.step, Session.act_of_respelt h action]

theorem under_start (model : Yang.Model) (slots : Slots) : (start slots).session.Under model where
  pool := ⟨fun _ hs => (by cases hs), fun _ _ _ hn => (by cases hn)⟩
  brokers := fun _ hb => by cases hb
  transactions := fun _ hx => by cases hx

theorem under_step (h : s.session.Under model) {m : Move} (hm : m.IsUnder model) :
    (s.step m).1.session.Under model := by
  cases m with
  | act a => exact (h.act hm).hearAll
  | submit name i =>
    simp only [step]
    split
    · exact h.forget name (.refl model s.session.pool) rfl rfl
    · exact h
  | call i j =>
    simp only [step]
    cases s.commit? i with
    | none => exact h
    | some c =>
      have hnext : { s.session with pool := (c.step s.session.pool j).1 }.Under model :=
        h.withPool (StorePool.leads_step _ c j) rfl rfl
      exact hnext.hearAll

/-- Under one schema, whatever transactions of whatever brokers do, in whatever order, and however
the calls of their commits alternate: two runs that differ only in how they spell the data nodes at
the top of the paths have the same answers, failures and votes included, and go through the same
states, with the trees, versions and logs of all stores and the changes that their subscribers
hear. -/
theorem trace_of_respelt (model : Yang.Model) (slots : Slots) (ms ms' : List Move)
    (under : ∀ m ∈ ms, m.IsUnder model) (respelt : List.Forall₂ (Move.Respelt model) ms ms') :
    (start slots).trace ms = (start slots).trace ms' := by
  suffices hall : ∀ s : Bustle, s.session.Under model → s.trace ms = s.trace ms' from
    hall _ (under_start model slots)
  induction respelt with
  | nil => exact fun _ _ => rfl
  | cons hm _ ih =>
    intro s hs
    obtain ⟨hfirst, hrest⟩ := List.forall_mem_cons.1 under
    unfold trace
    rw [← step_of_respelt hs hm, ih hrest _ (under_step hs hfirst)]

/-- One node in three spellings. Two commits alternate, of which the later one finds a conflict, and
somebody reads meanwhile. -/
theorem trace_of_respelt_conflict :
    let model := Yang.Model.ofModules [{
      name := "m", namespaceUri := "urn:m", shortName := "p", revision := none, imports := []
      dataNodes := ["a"] }]
    let run (first second third : String) : List Move :=
      [.act (.createBroker ⟨"n"⟩ model), .act (.openTransaction "w" 0 .writeOnly "w"),
        .act (.openTransaction "v" 0 .readWrite "v"), .act (.openTransaction "r" 0 .readOnly "r"),
        .act (.stage "w" .configuration (.put ⟨[first]⟩ .null)),
        .act (.stage "v" .configuration (.merge ⟨[second, "x"]⟩ .null)),
        .submit "w" 0, .call 0 0, .call 0 0, .act (.hasNode "v" .configuration ⟨[third]⟩),
        .call 0 0, .act (.read "r" .configuration ⟨[second]⟩), .submit "v" 1, .call 1 0]
    (∀ spelling ∈ ["a", "m:a", "p:a"], model.canonical? spelling = some "a") ∧
      (start (Slots.create 1 0)).trace (run "a" "a" "a") =
        (start (Slots.create 1 0)).trace (run "m:a" "a" "p:a") := by
  intro model run
  have spelling : ∀ x ∈ ["a", "m:a", "p:a"], model.canonical? x = some "a" := by decide
  have top : ∀ x ∈ ["a", "m:a", "p:a"], ∀ rest,
      DataPath.Respelt model ⟨"a" :: rest⟩ ⟨x :: rest⟩ :=
    fun x hx => .top (spelling "a" (by decide)) (spelling x hx)
  refine ⟨spelling, trace_of_respelt model _ _ _ (by simp [run, Move.IsUnder, Action.IsUnder]) ?_⟩
  refine .cons (.same _) <| .cons (.same _) <| .cons (.same _) <| .cons (.same _) <|
    .cons (.act (.stage _ _ (.put (top "m:a" (by decide) _) _))) <|
    .cons (.same _) <| .cons (.same _) <| .cons (.same _) <| .cons (.same _) <|
    .cons (.act (.hasNode _ _ (top "p:a" (by decide) _))) <|
    .cons (.same _) <| .cons (.same _) <| .cons (.same _) <| .cons (.same _) .nil

end Bustle

end Broker

end MountRegistry
