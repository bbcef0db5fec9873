import MountRegistry.Store.Cohort

/-
  A store with everything that is open on it: drafts, cohorts, snapshots and subscribers, each under
  a name. `step` takes one action and gives its answer, so a list of actions is a run, in whatever
  order the drafts and cohorts take their turns.
-/

namespace MountRegistry.Store

/-- A tree as it was at a version. -/
structure Snapshot where
  tree : Json
  version : Nat
  deriving Repr

/-- A store, and the drafts, cohorts, snapshots and subscribers that are open on it, by name. -/
structure Session where
  store : Store
  drafts : List (String × StoreDraft) := []
  cohorts : List (String × Cohort) := []
  snapshots : List (String × Snapshot) := []
  subscribers : List (String × Nat) := []
  deriving Repr

/-- What can be asked of a session. -/
inductive Action where
  | openDraft (name : String)
  | stage (name : String) (edit : Edit)
  | readDraft (name : String) (path : DataPath)
  | edits (name : String)
  | sealDraft (name : String)
  | vote (name : String)
  | prepare (name : String)
  | commit (name : String)
  | abort (name : String)
  | cohortStore (name : String)
  | snapshot (name : String)
  | readSnapshot (name : String) (path : DataPath)
  | readCurrent (path : DataPath)
  | subscribe (name : String)
  | collect (name : String)
  /-- Commits that put 0, 1, … below a path, or at it. -/
  | putMany (path : DataPath) (count : Nat) (atPath : Bool)
  deriving Repr

/-- What a session answers. -/
inductive Answer where
  | done
  | flag (b : Bool)
  | number (n : Nat)
  | text (s : String)
  | node (found : Option Json)
  | edits (es : List Edit)
  | changes (m : Mailbox Change)
  | failed (e : StoreFailure)
  /-- The action names nothing that is open. -/
  | unknown
  deriving Repr

namespace Session

/-- Goes on with a result, or answers with the failure. -/
def ofExcept {α : Type} (s : Session) (r : Except StoreFailure α) (f : α → Session × Answer) :
    Session × Answer :=
  match r with
  | .ok a => f a
  | .error e => (s, .failed e)

/-- Does something with a draft, if there is one of the name. -/
def withDraft (s : Session) (name : String) (f : StoreDraft → Session × Answer) :
    Session × Answer :=
  match Keyed.find? s.drafts name with
  | some d => f d
  | none => (s, .unknown)

/-- Does something with a cohort, if there is one of the name. -/
def withCohort (s : Session) (name : String) (f : Cohort → Session × Answer) : Session × Answer :=
  match Keyed.find? s.cohorts name with
  | some c => f c
  | none => (s, .unknown)

/-- Opens a draft, or puts it in the place of the one that was there. -/
def setDraft (s : Session) (name : String) (d : StoreDraft) : Session :=
  { s with drafts := Keyed.insert s.drafts name d }

/-- Puts a cohort in the place of the one that was there. -/
def setCohort (s : Session) (name : String) (c : Cohort) : Session :=
  { s with cohorts := Keyed.insert s.cohorts name c }

/-- Opens a draft of the store as it is. -/
def openDraft (s : Session) (name : String) : Session × Answer :=
  (s.setDraft name s.store.openDraft, .done)

/-- Stages an edit in a draft. What it did to the draft stays, also if it fails. -/
def stage (s : Session) (name : String) (e : Edit) : Session × Answer :=
  s.withDraft name fun d =>
    match d.stageInPlace e with
    | (d, none) => (s.setDraft name d, .done)
    | (d, some failure) => (s.setDraft name d, .failed failure)

/-- Turns a draft into a cohort of the same name. -/
def sealDraft (s : Session) (name : String) : Session × Answer :=
  s.withDraft name fun d =>
    ({ s with
        drafts := Keyed.erase s.drafts name
        cohorts := Keyed.insert s.cohorts name (d.toCohort s.store.name) },
      .edits d.edits)

/-- Asks whether a cohort could commit now. -/
def vote (s : Session) (name : String) : Session × Answer :=
  s.withCohort name fun c => s.ofExcept (c.vote s.store) fun b => (s, .flag b)

/-- Prepares a cohort to commit. -/
def prepare (s : Session) (name : String) : Session × Answer :=
  s.withCohort name fun c => s.ofExcept (c.prepare s.store) fun c => (s.setCohort name c, .done)

/-- Commits a prepared cohort. It is prepared no more, also if that fails. -/
def commit (s : Session) (name : String) : Session × Answer :=
  s.withCohort name fun c =>
    let released := s.setCohort name c.release
    released.ofExcept (c.commit s.store) fun store => ({ released with store }, .done)

/-- Gives up what a cohort has prepared. -/
def abort (s : Session) (name : String) : Session × Answer :=
  s.withCohort name fun c => (s.setCohort name c.release, .done)

/-- One transaction that puts a value, from its opening to its commit; the vote is not looked at. -/
def putAlone (store : Store) (path : DataPath) (value : Json) : Except StoreFailure Store := do
  let d ← store.openDraft.stage (.put path value)
  let c := d.toCohort store.name
  let _ ← c.vote store
  let c ← c.prepare store
  c.commit store

/-- `count` transactions from number `i` on, up to the first that fails. -/
def putMany (path : DataPath) (atPath : Bool) (i : Nat) : Nat → Store → Store × Answer
  | 0, store => (store, .done)
  | count + 1, store =>
    let target := if atPath then path else ⟨path.segments ++ ["k" ++ ToString.toString i]⟩
    match putAlone store target (Json.ofNat i) with
    | .ok store => putMany path atPath (i + 1) count store
    | .error e => (store, .failed e)

/-- What the session does for each action. -/
def step (s : Session) : Action → Session × Answer
  | .openDraft name => s.openDraft name
  | .stage name e => s.stage name e
  | .readDraft name path =>
    s.withDraft name fun d => s.ofExcept (d.read path) fun found => (s, .node found)
  | .edits name =>
    match Keyed.find? s.drafts name, Keyed.find? s.cohorts name with
    | some d, _ => (s, .edits d.edits)
    | none, some c => (s, .edits c.edits)
    | none, none => (s, .unknown)
  | .sealDraft name => s.sealDraft name
  | .vote name => s.vote name
  | .prepare name => s.prepare name
  | .commit name => s.commit name
  | .abort name => s.abort name
  | .cohortStore name => s.withCohort name fun c => (s, .text c.store)
  | .snapshot name =>
    ({ s with snapshots := Keyed.insert s.snapshots name ⟨s.store.tree, s.store.version⟩ },
      .number s.store.version)
  | .readSnapshot name path =>
    match Keyed.find? s.snapshots name with
    | some view => s.ofExcept (view.tree.readAt path) fun found => (s, .node found)
    | none => (s, .unknown)
  | .readCurrent path => s.ofExcept (s.store.tree.readAt path) fun found => (s, .node found)
  | .subscribe name =>
    let (store, receiver) := s.store.subscribe
    ({ s with store, subscribers := Keyed.insert s.subscribers name receiver }, .done)
  | .collect name =>
    match Keyed.find? s.subscribers name with
    | some receiver =>
      let (mailbox, store) := s.store.collect receiver
      ({ s with store }, .changes mailbox)
    | none => (s, .unknown)
  | .putMany path count atPath =>
    let (store, answer) := putMany path atPath 0 count s.store
    ({ s with store }, answer)

/-- The state after a run and the answer to each action. -/
def run (s : Session) : List Action → Session × List Answer
  | [] => (s, [])
  | a :: rest =>
    let (s, answer) := s.step a
    let (s, answers) := s.run rest
    (s, answer :: answers)

end Session

end MountRegistry.Store
