import MountRegistry.Api.Operation
import MountRegistry.Service.Basic
import MountRegistry.Text.Blank

/-
  How the service answers requests. A body is read before anything else is looked at. Writes of data
  are committed before the answer; a change of the topology is only accepted, and followed later.
-/

namespace MountRegistry.Service

/-- The version that the health answer names. -/
def version : String := "0.1.0"

/-- Answers whenever it is asked, with the time and the number of active mount points. -/
def health (s : Service) (now : Instant) : Response :=
  .ok <| .ofMembers [("status", .text "healthy"), ("timestamp", .text now.toString),
    ("version", .text version), ("active_mount_points", .ofNat s.manager.active)]

/-- A list and its length. -/
def listed (items : List Json) : Response :=
  .ok <| .ofMembers [("data", .array items), ("total", .ofNat items.length)]

/-- A node as answers show it, with whether it has a mount point. -/
def nodeJson (m : Manager) (n : TopologyNode) : Json :=
  .ofMembers [("node_id", .text n.nodeId.text), ("capabilities", .ofTexts n.capabilities),
    ("schema_cache_directory", .text n.cacheDirectory), ("mounted", .bool (m.isActive n.nodeId))]

/-- All nodes of the topology, in the order of their identifiers. -/
def listNodes (s : Service) : Response := listed (s.topology.nodeList.map (nodeJson s.manager))

/-- A change of the topology was taken on. What comes of it shows later, when the manager follows
it. -/
def accepted (id : String) (kind : ChangeKind) : Response :=
  ⟨202, some (.ofMembers [("node_id", .text id), ("modification", .text kind.name)])⟩

/-- A node is set in the topology unless its identifier is blank; its capabilities are not looked
at. -/
def putNode (s : Service) (id : String) (request : NodeRequest) : Service × Response :=
  if (Text.trim id.toList).isEmpty then
    (s, .ofFailure (.invalidRequest "node_id must not be blank"))
  else
    let (topology, kind) := s.topology.put (request.toNode ⟨id⟩)
    ({ s with topology }, accepted id kind)

/-- A node that the topology has is removed; any other is not found. -/
def deleteNode (s : Service) (id : String) : Service × Response :=
  match s.topology.remove ⟨id⟩ with
  | (topology, true) => ({ s with topology }, accepted id .delete)
  | (_, false) => (s, .ofFailure (.topologyNodeNotFound id))

/-- The records of all active mount points. -/
def listMountPoints (s : Service) : Response := listed (s.manager.recordList.map (·.toJson))

/-- The record of one mount point. -/
def showMountPoint (s : Service) (id : String) : Response :=
  match s.manager.record? ⟨id⟩ with
  | some r => .ok r.toJson
  | none => .ofFailure (.mountPointNotFound id)

/-- The broker, the store and the path of a target. -/
def resolveTarget (s : Service) (t : DataTarget) :
    Except ApiFailure (Broker × StoreKind × DataPath) :=
  match StoreKind.parse? t.store, s.manager.broker? ⟨t.node⟩ with
  | none, _ => .error (.invalidStoreKind t.store)
  | _, none => .error (.mountPointNotFound t.node)
  | some kind, some b => .ok (b, kind, .parse t.path)

/-- What every answer about data says of the place that it is about. -/
def placeMembers (b : Broker) (kind : StoreKind) (path : DataPath) : List (String × Json) :=
  [("node_id", .text b.node.text), ("store", .text kind.name), ("path", .text path.toString)]

/-- Reads the committed data at a place. Where there is none, the place is not found. -/
def readData (s : Service) (o : Occasion) (t : DataTarget) : Except ApiFailure Json := do
  let (b, kind, path) ← s.resolveTarget t
  let reader : Reader := { id := o.freshId, broker := b }
  match (reader.read s.manager.pool none kind path).2 with
  | .error cause => .error (.transaction cause)
  | .ok none => .error (.dataNotFound path.toString)
  | .ok (some data) => .ok (.ofMembers (("data", data) :: placeMembers b kind path))

/-- The name of an edit in answers. -/
def editName : Edit → String
  | .put _ _ => "put"
  | .merge _ _ => "merge"
  | .delete _ => "delete"

/-- Makes one edit in a transaction of its own and commits it before it answers. -/
def writeData (s : Service) (o : Occasion) (t : DataTarget) (edit : DataPath → Edit) :
    Service × Response :=
  match s.resolveTarget t with
  | .error e => (s, .ofFailure e)
  | .ok (b, kind, path) =>
    match s.edit b kind (edit path) with
    | (s, .error cause) => (s, .ofFailure (.transaction cause))
    | (s, .ok ()) =>
      (s, .ok (.ofMembers ([("tx_id", .text o.freshId), ("operation", .text (editName (edit path))),
        ("status", .text "committed")] ++ placeMembers b kind path)))

/-- What a client sends to have a cache directory filled. -/
structure SeedingRequest where
  directory : String
  source : String
  deriving DecidableEq, Repr

namespace SeedingRequest

/-- The members that a request to fill a directory has to have. -/
def fields : List Field :=
  [⟨"schema_cache_directory", .text, false⟩, ⟨"source_path", .text, false⟩]

/-- The request, from the members that were read. -/
def ofFields? (found : List (String × Json)) : Option SeedingRequest := do
  let .text directory ← Keyed.find? found "schema_cache_directory" | none
  let .text source ← Keyed.find? found "source_path" | none
  return ⟨directory, source⟩

/-- Reads the body of a request to fill a directory. -/
def read (r : Reading) : Except Fault SeedingRequest := do
  match ofFields? (← Field.readRecord fields r) with
  | some request => .ok request
  | none => .error .mismatched

end SeedingRequest

/-- Fills a cache directory. Of the three outcomes only a failure is a client error. -/
def answerSeeding (s : Service) (r : SeedingRequest) : Service × Response :=
  let (s, outcome) := s.loadModels r.directory r.source
  (s, match outcome with
    | .created => ⟨201, some (.ofMembers [("status", .text "created")])⟩
    | .alreadyExists => .ok (.ofMembers [("status", .text "already_exists")])
    | .failed cause =>
      ⟨400, some (.ofMembers [("status", .text "error"), ("message", .text cause.message)])⟩)

/-- Answers with what was read from the body, or says that it cannot be read. -/
def withBody {α : Type} (s : Service) (r : Request) (read : Reading → Except Fault α)
    (f : α → Service × Response) : Service × Response :=
  match r.readBody read with
  | .ok a => f a
  | .error status => (s, .bare status)

/-- Reads a body as a value of any shape. -/
def readJson (r : Reading) : Except Fault Json := r.toJson Reading.maxNesting

/-- What the service does for each operation, and what it answers. -/
def perform (s : Service) (o : Occasion) (r : Request) : Operation → Service × Response
  | .health => (s, s.health o.now)
  | .openSocket => (s, .bare 400)
  | .listNodes => (s, s.listNodes)
  | .putNode id => s.withBody r NodeRequest.read (s.putNode id)
  | .deleteNode id => s.deleteNode id
  | .listMountPoints => (s, s.listMountPoints)
  | .showMountPoint id => (s, s.showMountPoint id)
  | .readData t =>
    (s, match s.readData o t with
      | .ok data => .ok data
      | .error e => .ofFailure e)
  | .putData t => s.withBody r readJson fun value => s.writeData o t (.put · value)
  | .mergeData t => s.withBody r readJson fun value => s.writeData o t (.merge · value)
  | .deleteData t => s.writeData o t .delete
  | .loadModels => s.withBody r SeedingRequest.read s.answerSeeding

/-- The answer to a request for an operation by its own method. -/
def answerAs (s : Service) (o : Occasion) (r : Request) (method : Method) : Service × Response :=
  match Operation.ofRequest r.path method with
  | .ok op => s.perform o r op
  | .error status => (s, .bare status)

/--
  The answer to a request. One that only asks for options is answered anywhere, and one for the head
  of an answer as a request to read, without the value; a socket cannot be opened in either way.
-/
def answer (s : Service) (o : Occasion) (r : Request) : Service × Response :=
  match r.method with
  | .options => (s, .bare 200)
  | .head =>
    if Operation.ofRequest r.path .get matches .ok .openSocket then (s, .bare 405)
    else let (s, response) := s.answerAs o r .get; (s, .bare response.status)
  | method => s.answerAs o r method

end MountRegistry.Service
