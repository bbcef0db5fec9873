import MountRegistry.Broker.Transaction
import MountRegistry.Mount.Removal
import MountRegistry.Source.Seeding
import MountRegistry.Socket.Message
import MountRegistry.Socket.Subscription

/-
  The whole service: the manager, the topology that it follows, the bus that carries its events, and
  the sockets of the clients that listen. What a socket hears is filtered by its subscription. The
  sockets take their mail whenever the manager waits for files, and after every action.
-/

namespace MountRegistry

/-- What a call takes from outside: the time, and an identifier that nothing else has. -/
structure Occasion where
  now : Instant
  freshId : String
  deriving DecidableEq, Repr

/-- A connection of a client that listens to events and sends commands. -/
structure Socket where
  /-- The receiver on the bus. -/
  receiver : Nat
  subscription : Subscription := {}
  /-- What it has sent to its client since that was last collected. -/
  sent : List Message := []
  deriving Repr

/-- The whole service: the mount points, the topology that they follow, and who listens to what
happens. -/
structure Service where
  manager : Manager
  topology : Topology := {}
  bus : Broadcast MountEvent
  sockets : List (String × Socket) := []

namespace Service

/-- A service that nothing has happened to. -/
def create (cacheRoot : String) (files : Files) (eventCapacity : Nat) : Service where
  manager := { cacheRoot, files }
  bus := .ofCapacity eventCapacity

/-- Fills a cache directory. -/
def loadModels (s : Service) (name source : String) : Service × SeedingOutcome :=
  let (files, outcome) := Seeding.loadModels s.manager.files s.manager.cacheRoot name source
  ({ s with manager := { s.manager with files } }, outcome)

/-- A transaction of one edit. -/
def edit (s : Service) (b : Broker) (kind : StoreKind) (e : Edit) : Service × CommitResult :=
  let w : Writer := { broker := b }
  match w.stage s.manager.pool kind e with
  | (_, .error failure) => (s, .error failure)
  | (w, .ok ()) =>
    let (pool, result) := w.submit s.manager.pool
    ({ s with manager := { s.manager with pool } }, result)

/-- The client is gone, with its subscriptions and all that waits for it. -/
def closeSocket (s : Service) (name : String) : Service :=
  match Keyed.find? s.sockets name with
  | some socket =>
    { s with bus := s.bus.unsubscribe socket.receiver, sockets := Keyed.erase s.sockets name }
  | none => s

/-- Opens a socket in the place of the one that had its name. -/
def openSocket (s : Service) (name : String) : Service :=
  let s := s.closeSocket name
  let (bus, receiver) := s.bus.subscribe
  { s with bus, sockets := Keyed.insert s.sockets name { receiver } }

end Service

namespace Socket

/-- The answer to a subscription or its end. -/
def targetsJson (verb counted : String) (t : Targets) (s : Subscription) : Json :=
  .ofMembers [(verb, .ofTexts (t.nodes.map (·.text))), (counted, .ofNat s.count),
    ("wildcard", .bool s.all)]

/-- The message that answers a command about a node that is not up. -/
def mountPointNotFound (id node : String) (now : Instant) : Message :=
  .error id 404 ("mount point not found: " ++ node) now

/-- What a command does to a subscription, and the answer to the message with this identifier. -/
def perform (m : Manager) (now : Instant) (id : String) (s : Subscription) :
    Command → Subscription × Message
  | .subscribe targets =>
    let t := Targets.ofTexts targets
    let s := s.subscribe t
    (s, ⟨id, .response, some now, targetsJson "subscribed" "count" t s⟩)
  | .unsubscribe targets =>
    let t := Targets.ofTexts targets
    let s := s.unsubscribe t
    (s, ⟨id, .response, some now, targetsJson "unsubscribed" "remaining_count" t s⟩)
  | .listMountPoints =>
    let list := Json.array (m.recordList.map (·.toJson))
    (s, ⟨id, .response, some now, .ofMembers [("mount_points", list)]⟩)
  | .getMountPoint node =>
    match m.record? ⟨node⟩ with
    | some r => (s, ⟨id, .response, some now, r.toJson⟩)
    | none => (s, mountPointNotFound id node now)

/-- The answer to a text from a client. -/
def answer (m : Manager) (now : Instant) (s : Subscription) (text : String) :
    Subscription × Message :=
  match Message.parse? text with
  | none => (s, .error "" 400 "malformed JSON" now)
  | some message =>
    match Command.ofJson? message.payload with
    | none => (s, .error message.id 404 "unknown command" now)
    | some command => perform m now message.id s command

/-- What a socket passes on of its mail: the events that its client wants to hear of. -/
def heard (o : Occasion) (s : Subscription) (mail : Mailbox MountEvent) : List Message :=
  (mail.pending.filter fun e => s.hears e.node).map fun e =>
    ⟨o.freshId, .event, some o.now, e.toJson⟩

end Socket

namespace Service

/-- A client sends a text. -/
def receive (s : Service) (now : Instant) (name text : String) : Service × Option Message :=
  match Keyed.find? s.sockets name with
  | none => (s, none)
  | some socket =>
    let (subscription, message) := Socket.answer s.manager now socket.subscription text
    ({ s with sockets := Keyed.insert s.sockets name { socket with subscription } }, some message)

/-- The bus carries everything that was published, changes of the stores included. -/
def carry (s : Service) (now : Instant) : Service :=
  let (events, manager) := (s.manager.hearAll now).takeOutbox
  { s with manager, bus := events.foldl (·.send ·) s.bus }

/-- A socket takes its mail, and tells its client what that wants to hear. -/
def takeMail (o : Occasion) (acc : Broadcast MountEvent × List (String × Socket))
    (entry : String × Socket) : Broadcast MountEvent × List (String × Socket) :=
  let (name, socket) := entry
  let (mail, bus) := acc.1.collect socket.receiver
  let sent := socket.sent ++ Socket.heard o socket.subscription mail
  (bus, acc.2 ++ [(name, { socket with sent })])

/-- Everything published reaches the sockets. -/
def deliver (s : Service) (o : Occasion) : Service :=
  let s := s.carry o.now
  let (bus, sockets) := s.sockets.foldl (takeMail o) (s.bus, [])
  { s with bus, sockets }

/-- Everything published reaches the sockets; what each has sent to its client is the answer. -/
def settle (s : Service) (o : Occasion) : Service × List (String × List Message) :=
  let s := s.deliver o
  ({ s with sockets := s.sockets.map fun (name, socket) => (name, { socket with sent := [] }) },
    s.sockets.map fun (name, socket) => (name, socket.sent))

/-- The manager follows a change of the topology. If it has to wait, everything published before
reaches the sockets in the meantime. -/
def follow (o : Occasion) (s : Service) (c : TopologyChange) : Service :=
  let s := if s.manager.waitsFor c then s.deliver o else s
  { s with manager := s.manager.follow o.now c }

/-- The manager follows a batch of changes in order. -/
def followAll (s : Service) (o : Occasion) (batch : List TopologyChange) : Service :=
  batch.foldl (follow o) s

/-- The manager follows every batch of changes that waits; their number is the answer. -/
def pump (s : Service) (o : Occasion) : Service × Nat :=
  let (batches, topology) := s.topology.takeFeed
  (batches.foldl (·.followAll o ·) { s with topology }, batches.length)

end Service

end MountRegistry
