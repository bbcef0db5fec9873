import MountRegistry.Mount.Record

/-
  Endpoints with everything that is open on them: handles of published endpoints and records of
  mount points, each under a name. `step` takes one action and gives its answer. Whoever takes a
  handle into a record, or releases it, has it no more.
-/

namespace MountRegistry.Endpoints

/-- Something to be owned: an endpoint by the name of its handle, or another resource. -/
inductive Owned where
  | handle (name : String)
  | resource (name : String) (releasable : Bool)
  deriving DecidableEq, Repr

/-- Endpoints over a pool, and the handles and records that are open, by name. -/
structure Session where
  endpoints : Endpoints := {}
  pool : StorePool := {}
  handles : List (String × MountPath) := []
  records : List (String × MountRecord) := []
  deriving Repr

/-- What can be asked of a session. -/
inductive Action where
  /-- Publishes a broker over the pooled stores of a node. -/
  | register (name : String) (node : NodeId) (model : Yang.Model)
  | find (node : NodeId)
  | close (name : String)
  | forget (name : String)
  /-- Makes a record that owns something, and listens to a store if asked to. -/
  | record (name : String) (node : NodeId) (model : Yang.Model) (cacheDirectory : String)
      (owns : List Owned) (listensTo : Option StoreKind)
  | release (name : String)
  | releaseAll (owns : List Owned)
  deriving Repr

/-- What a session answers. -/
inductive Answer where
  | done
  | registered (path : MountPath)
  | found (broker : Option Broker)
  | recorded (record : MountRecord)
  /-- The number of releases that failed. -/
  | failures (n : Nat)
  | refused (e : MountFailure)
  | notReleased (e : ReleaseFailure)
  /-- The action names nothing that is open. -/
  | unknown
  deriving Repr

namespace Session

/-- Takes what is owned; a name without a handle owns nothing. -/
def own (s : Session) : List Owned → Session × List Registration
  | [] => (s, [])
  | .resource name releasable :: rest =>
    let (s, held) := s.own rest
    (s, .resource name releasable :: held)
  | .handle name :: rest =>
    match Keyed.find? s.handles name with
    | some path =>
      let (s, held) := { s with handles := Keyed.erase s.handles name }.own rest
      (s, .endpoint path :: held)
    | none => s.own rest

/-- Releases everything that is held, whether or not some of it fails. -/
def releaseAll (s : Session) (held : List Registration) : Session × Answer :=
  let (endpoints, pool, failures) := Registration.releaseAll s.endpoints s.pool held
  ({ s with endpoints, pool }, .failures failures)

/-- What a record holds in order to listen to a store. -/
def listener (s : Session) (b : Broker) : Option StoreKind → Session × List Registration
  | some kind =>
    let (pool, l) := Listener.create s.pool b kind false
    ({ s with pool }, [.listener l])
  | none => (s, [])

/-- Publishes a broker, and keeps the handle under a name. -/
def register (s : Session) (name : String) (b : Broker) : Session × Answer :=
  match s.endpoints.register b with
  | .ok endpoints =>
    ({ s with endpoints, handles := Keyed.insert s.handles name b.mountPath },
      .registered b.mountPath)
  | .error e => (s, .refused e)

/-- Withdraws the endpoint of a handle. The handle is gone, also if that fails. -/
def close (s : Session) (name : String) : Session × Answer :=
  match Keyed.find? s.handles name with
  | none => (s, .unknown)
  | some path =>
    let s := { s with handles := Keyed.erase s.handles name }
    match s.endpoints.unregister path with
    | .ok endpoints => ({ s with endpoints }, .done)
    | .error e => (s, .notReleased e)

/-- What the session does for each action. -/
def step (now : Instant) (s : Session) : Action → Session × Answer
  | .register name node model =>
    let (pool, b) := Broker.ofPool s.pool node model
    { s with pool }.register name b
  | .find node => (s, .found (s.endpoints.find? node.mountPath))
  | .close name => s.close name
  | .forget name => ({ s with handles := Keyed.erase s.handles name }, .done)
  | .record name node model cacheDirectory owns listensTo =>
    let (pool, b) := Broker.ofPool s.pool node model
    let (s, held) := { s with pool }.own owns
    let (s, listening) := s.listener b listensTo
    let r : MountRecord := ⟨b, cacheDirectory, now, held ++ listening⟩
    ({ s with records := Keyed.insert s.records name r }, .recorded r)
  | .release name =>
    match Keyed.find? s.records name with
    | some r => { s with records := Keyed.erase s.records name }.releaseAll r.registrations
    | none => (s, .unknown)
  | .releaseAll owns => let (s, held) := s.own owns; s.releaseAll held

end Session

end MountRegistry.Endpoints
