import MountRegistry.Api.Answer

/-
  A service with everything that others hold of it: endpoints that they published, and brokers that
  they keep beyond the life of a mount point. `step` takes one action, gives its answer, and lets
  everything that was published reach the sockets.
-/

namespace MountRegistry.Service

/-- A service, and what others hold of it, by name. -/
structure Session where
  service : Service
  /-- The endpoints that others published, by the names of their handles. -/
  occupied : List (String × MountPath) := []
  held : List (String × Broker) := []

/-- What can be asked of a session. -/
inductive Action where
  | request (r : Request)
  /-- The manager follows every batch that waits. -/
  | pump
  | follow (batch : List TopologyChange)
  | create (node : TopologyNode)
  | delete (node : NodeId)
  | closeAll
  | find (node : NodeId)
  /-- Publishes an endpoint that no mount point of the manager has. -/
  | occupy (name : String) (node : NodeId) (model : Yang.Model)
  | vacate (name : String)
  | hold (name : String) (node : NodeId)
  | editHeld (name : String) (kind : StoreKind) (e : Edit)
  | readHeld (name : String) (kind : StoreKind) (path : DataPath)
  | openSocket (name : String)
  | closeSocket (name : String)
  | receive (name text : String)
  | registerSource (source : Source)
  /-- The files change, whoever changes them. -/
  | setFiles (files : Files)

/-- What a session answers. -/
inductive Answer where
  | done
  | response (r : Response)
  | number (n : Nat)
  | flag (b : Bool)
  | created (result : Except MountFailure CreateOutcome)
  | found (broker : Option Broker)
  | result (r : CommitResult)
  | node (found : Option Json)
  | message (m : Message)
  | failed (e : TransactionFailure)
  | refused (e : MountFailure)
  | notReleased (e : ReleaseFailure)
  /-- The action names nothing that is there. -/
  | unknown

namespace Session

/-- The manager of the service. -/
def manager (s : Session) : Manager := s.service.manager

/-- The session with another manager in its service. -/
def withManager (s : Session) (m : Manager) : Session :=
  { s with service := { s.service with manager := m } }

/-- Someone else publishes a broker over the pooled stores of a node. -/
def occupy (s : Session) (name : String) (node : NodeId) (model : Yang.Model) : Session × Answer :=
  let (pool, b) := Broker.ofPool s.manager.pool node model
  let s := s.withManager { s.manager with pool }
  match s.manager.endpoints.register b with
  | .ok endpoints =>
    ({ s.withManager { s.manager with endpoints } with
        occupied := Keyed.insert s.occupied name node.mountPath }, .done)
  | .error e => (s, .refused e)

/-- Withdraws an endpoint that was published by others. -/
def vacate (s : Session) (name : String) : Session × Answer :=
  match Keyed.find? s.occupied name with
  | none => (s, .unknown)
  | some path =>
    let s := { s with occupied := Keyed.erase s.occupied name }
    match s.manager.endpoints.unregister path with
    | .ok endpoints => (s.withManager { s.manager with endpoints }, .done)
    | .error e => (s, .notReleased e)

/-- Keeps the broker of a node under a name, for as long as somebody likes. -/
def hold (s : Session) (name : String) (node : NodeId) : Session × Answer :=
  match s.manager.broker? node with
  | some b => ({ s with held := Keyed.insert s.held name b }, .done)
  | none => (s, .unknown)

/-- Does something with a broker that is kept, if there is one of the name. -/
def withHeld (s : Session) (name : String) (f : Broker → Session × Answer) : Session × Answer :=
  match Keyed.find? s.held name with
  | some b => f b
  | none => (s, .unknown)

/-- What an action does, before what was published is carried on. -/
def act (o : Occasion) (s : Session) : Action → Session × Answer
  | .request r => let (service, r) := s.service.answer o r; ({ s with service }, .response r)
  | .pump => let (service, n) := s.service.pump o; ({ s with service }, .number n)
  | .follow batch => ({ s with service := s.service.followAll o batch }, .done)
  | .create node => let (m, r) := s.manager.create o.now node; (s.withManager m, .created r)
  | .delete node => let (m, b) := s.manager.delete o.now node; (s.withManager m, .flag b)
  | .closeAll => (s.withManager (s.manager.closeAll o.now), .done)
  | .find node => (s, .found (s.manager.endpoints.find? node.mountPath))
  | .occupy name node model => s.occupy name node model
  | .vacate name => s.vacate name
  | .hold name node => s.hold name node
  | .editHeld name kind e =>
    s.withHeld name fun b =>
      let (service, r) := s.service.edit b kind e
      ({ s with service }, .result r)
  | .readHeld name kind path =>
    s.withHeld name fun b =>
      match (Reader.read { id := o.freshId, broker := b } s.manager.pool none kind path).2 with
      | .ok found => (s, .node found)
      | .error e => (s, .failed e)
  | .openSocket name => ({ s with service := s.service.openSocket name }, .done)
  | .closeSocket name => ({ s with service := s.service.closeSocket name }, .done)
  | .receive name text =>
    match s.service.receive o.now name text with
    | (service, some m) => ({ s with service }, .message m)
    | (service, none) => ({ s with service }, .unknown)
  | .registerSource source =>
    (s.withManager { s.manager with library := (s.manager.library.register source).1 }, .done)
  | .setFiles files => (s.withManager { s.manager with files }, .done)

/-- One action, its answer, and what the sockets send to their clients afterwards. -/
def step (o : Occasion) (s : Session) (a : Action) :
    Session × Answer × List (String × List Message) :=
  let (s, answer) := s.act o a
  let (service, messages) := s.service.settle o
  ({ s with service }, answer, messages)

end Session

end MountRegistry.Service
