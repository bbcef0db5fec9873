import MountRegistry.Broker.Listener
import MountRegistry.Broker.Transaction
import MountRegistry.Commit.Slots

/-
  Brokers over one pool with all that is open on them: transactions and listeners, each under a
  name. `step` takes one action and gives its answer; commits run to their end within the action
  that submits them, and their results are delivered through the slots for notifications.
-/

namespace MountRegistry.Broker

/-- What a transaction may do. -/
inductive Access where
  | readOnly
  | writeOnly
  | readWrite
  deriving DecidableEq, Repr

/-- The brokers over one pool, and the transactions and listeners that are open, by name. -/
structure Session where
  pool : StorePool := {}
  slots : Slots
  brokers : List Broker := []
  transactions : List (String × Transaction) := []
  listeners : List (String × Listener) := []
  deriving Repr

/-- What can be asked of a session. -/
inductive Action where
  | createBroker (node : NodeId) (model : Yang.Model)
  | removeMount (node : NodeId)
  /-- Opens a transaction of a broker, with the identifier it goes by. -/
  | openTransaction (name : String) (broker : Nat) (access : Access) (id : String)
  | readRoot (broker : Nat) (kind : StoreKind) (id : String)
  | read (name : String) (kind : StoreKind) (path : DataPath)
  | hasNode (name : String) (kind : StoreKind) (path : DataPath)
  | close (name : String)
  | stage (name : String) (kind : StoreKind) (edit : Edit)
  | cancel (name : String)
  | submit (name : String)
  | submitAll (names : List String)
  | listen (name : String) (broker : Nat) (kind : StoreKind) (fails : Bool)
  | heard (name : String)
  | unlisten (name : String)
  | dropBrokers
  deriving Repr

/-- What a session answers. -/
inductive Answer where
  | done
  | flag (b : Bool)
  | number (n : Nat)
  | text (s : String)
  | node (found : Option Json)
  | result (r : CommitResult)
  | results (rs : List CommitResult)
  | changes (cs : List Change)
  | failed (e : TransactionFailure)
  | notReleased (e : ReleaseFailure)
  /-- The action names nothing that is open, or nothing that can do it. -/
  | unknown
  deriving Repr

namespace Session

/-- The broker of a number. Brokers are numbered as they are made. -/
def broker? (s : Session) (n : Nat) : Option Broker := s.brokers[n]?

/-- The open transaction of a name. -/
def transaction? (s : Session) (name : String) : Option Transaction :=
  Keyed.find? s.transactions name

/-- Opens a transaction, or puts it in the place of the one that was there. -/
def setTransaction (s : Session) (name : String) (t : Transaction) : Session :=
  { s with transactions := Keyed.insert s.transactions name t }

/-- A transaction that was closed or submitted is no longer known. -/
def forget (s : Session) (name : String) : Session :=
  { s with transactions := Keyed.erase s.transactions name }

/-- A transaction of a broker with access of this kind. It has no draft and no open read. -/
def begin (b : Broker) (access : Access) (id : String) : Transaction :=
  let r : Reader := { id, broker := b }
  let w : Writer := { broker := b }
  match access with
  | .readOnly => .readOnly r
  | .writeOnly => .writeOnly w
  | .readWrite => .readWrite r w

/-- Reads through a named transaction. -/
def read (s : Session) (name : String) (kind : StoreKind) (path : DataPath)
    (f : Option Json → Answer) : Session × Answer :=
  match (s.transaction? name).bind (·.read? s.pool kind path) with
  | some (t, .ok found) => (s.setTransaction name t, f found)
  | some (t, .error e) => (s.setTransaction name t, .failed e)
  | none => (s, .unknown)

/-- Stages an edit in a transaction. What it did to the transaction stays, also if it fails. -/
def stage (s : Session) (name : String) (kind : StoreKind) (e : Edit) : Session × Answer :=
  match (s.transaction? name).bind (·.stage? s.pool kind e) with
  | some (t, .ok ()) => (s.setTransaction name t, .done)
  | some (t, .error e) => (s.setTransaction name t, .failed e)
  | none => (s, .unknown)

/-- Commits what a transaction staged; the transaction is no more. -/
def submit? (s : Session) (name : String) : Option (Session × CommitResult) :=
  ((s.transaction? name).bind (·.writer?)).map fun w =>
    let (pool, result) := w.submit s.pool
    ({ s.forget name with pool, slots := s.slots.runJob name }, result)

/-- Submits the transactions one after the other, each with its whole commit; names that are not
open for writing are passed over. -/
def submitAll (s : Session) : List String → Session × List CommitResult
  | [] => (s, [])
  | name :: rest =>
    match s.submit? name with
    | some (s, r) => let (s, rs) := s.submitAll rest; (s, r :: rs)
    | none => s.submitAll rest

/-- Every listener takes what waits for it. -/
def hearAll (s : Session) : Session :=
  let (pool, listeners) := s.listeners.foldl (fun (pool, out) (name, l) =>
    let (pool, l) := Listener.hear pool l
    (pool, out ++ [(name, l)])) (s.pool, [])
  { s with pool, listeners }

/-- Does something with a broker, if there is one of the number. -/
def withBroker (s : Session) (n : Nat) (f : Broker → Session × Answer) : Session × Answer :=
  match s.broker? n with
  | some b => f b
  | none => (s, .unknown)

/-- Does something with a listener, if there is one of the name. -/
def withListener (s : Session) (name : String) (f : Listener → Session × Answer) :
    Session × Answer :=
  match Keyed.find? s.listeners name with
  | some l => f l
  | none => (s, .unknown)

/-- What the session does for each action. -/
def act (s : Session) : Action → Session × Answer
  | .createBroker node model =>
    let (pool, b) := Broker.ofPool s.pool node model
    ({ s with pool, brokers := s.brokers ++ [b] }, .number s.brokers.length)
  | .removeMount node =>
    let (pool, n) := s.pool.removeMount node.mountPath
    ({ s with pool }, .number n)
  | .openTransaction name n access id =>
    s.withBroker n fun b => (s.setTransaction name (begin b access id), .done)
  | .readRoot n kind id =>
    s.withBroker n fun b =>
      match (Reader.read { id, broker := b } s.pool none kind .root).2 with
      | .ok found => (s, .node found)
      | .error e => (s, .failed e)
  | .read name kind path => s.read name kind path .node
  | .hasNode name kind path => s.read name kind path fun found => .flag found.isSome
  | .close name =>
    match s.transaction? name with
    | some t =>
      (s.setTransaction name ((t.reader?.map fun r => t.withReader r.close).getD t), .done)
    | none => (s, .unknown)
  | .stage name kind e => s.stage name kind e
  | .cancel name =>
    match s.transaction? name with
    | some _ => (s.forget name, .flag true)
    | none => (s, .unknown)
  | .submit name =>
    match s.submit? name with
    | some (s, r) => (s, .result r)
    | none => (s, .unknown)
  | .submitAll names => let (s, rs) := s.submitAll names; (s, .results rs)
  | .listen name n kind fails =>
    s.withBroker n fun b =>
      let (pool, l) := Listener.create s.pool b kind fails
      ({ s with pool, listeners := Keyed.insert s.listeners name l }, .text l.name)
  | .heard name =>
    s.withListener name fun l =>
      ({ s with listeners := Keyed.insert s.listeners name { l with heard := [] } },
        .changes l.heard)
  | .unlisten name =>
    s.withListener name fun l =>
      let (pool, l, result) := Listener.close s.pool l
      ({ s with pool, listeners := Keyed.insert s.listeners name l },
        match result with
        | .ok () => .done
        | .error e => .notReleased e)
  | .dropBrokers => ({ s with brokers := [] }, .done)

/-- One action, after which the listeners take what waits for them. -/
def step (s : Session) (a : Action) : Session × Answer :=
  let (s, answer) := s.act a
  (s.hearAll, answer)

/-- The state after a run and the answer to each action. -/
def run (s : Session) : List Action → Session × List Answer
  | [] => (s, [])
  | a :: rest =>
    let (s, answer) := s.step a
    let (s, answers) := s.run rest
    (s, answer :: answers)

end Session

end MountRegistry.Broker
