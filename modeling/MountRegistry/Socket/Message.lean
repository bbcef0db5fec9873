import MountRegistry.Instant
import MountRegistry.Json.Shape
import MountRegistry.Node.Path

/-
  Messages on a WebSocket: an envelope with an identifier, a type, a time and a payload. The payload
  of a command names the command under `command` beside its arguments, or is an array of the two.
-/

namespace MountRegistry

/-- What a message is for. -/
inductive MessageType where
  | command
  | response
  | event
  | error
  deriving DecidableEq, Repr

namespace MessageType

/-- The types that a message can have. -/
def all : List MessageType := [.command, .response, .event, .error]

/-- The name of the type in a message. -/
def name : MessageType → String
  | .command => "command"
  | .response => "response"
  | .event => "event"
  | .error => "error"

end MessageType

/-- A message of either side. -/
structure Message where
  id : String
  type : MessageType
  /-- The time, if the message carries one. -/
  time : Option Instant
  payload : Json
  deriving Repr

/-- What a client can ask for over a socket. -/
inductive Command where
  | subscribe (targets : List String)
  | unsubscribe (targets : List String)
  | listMountPoints
  | getMountPoint (nodeId : String)
  deriving DecidableEq, Repr

namespace Message

/-- The members of a message; the identifier and the time may be left out. -/
def fields : List Field :=
  [⟨"id", .text, true⟩, ⟨"type", .word (MessageType.all.map (·.name)), false⟩,
    ⟨"timestamp", .text, true⟩, ⟨"payload", .any, false⟩]

/-- The message, from the members that were read. -/
def ofFields? (found : List (String × Json)) : Option Message := do
  let id ← match Keyed.find? found "id" with
    | some (.text id) => some id
    | some _ => none
    | none => some ""
  let .text typeName ← Keyed.find? found "type" | none
  let type ← MessageType.all.find? (·.name == typeName)
  let time ← match Keyed.find? found "timestamp" with
    | some (.text t) => (Instant.parse? t).map some
    | some _ => none
    | none => some none
  let payload ← Keyed.find? found "payload"
  return ⟨id, type, time, payload⟩

/-- Reads a message. -/
def read (r : Reading) : Except Fault Message := do
  match ofFields? (← Field.readRecord fields r) with
  | some message => .ok message
  | none => .error .mismatched

/-- The message that a text holds. -/
def parse? (text : String) : Option Message := (Reading.whole read text).toOption

/-- The message that says what was wrong with the one of this identifier. -/
def error (id : String) (code : Nat) (text : String) (now : Instant) : Message :=
  ⟨id, .error, some now, .ofMembers [("code", .ofNat code), ("message", .text text)]⟩

/-- The message as it is sent. One without a time carries the time of sending. -/
def toJson (m : Message) (now : Instant) : Json :=
  .ofMembers [("id", .text m.id), ("type", .text m.type.name),
    ("timestamp", .text (m.time.getD now).toString), ("payload", m.payload)]

end Message

namespace Command

/-- A command by its name and the value of its one argument. -/
def ofParts? (name : String) (argument : Option Json) : Option Command :=
  match name, argument with
  | "subscribe", some targets => targets.texts?.map .subscribe
  | "unsubscribe", some targets => targets.texts?.map .unsubscribe
  | "get_mount_point", some (.text nodeId) => some (.getMountPoint nodeId)
  | _, _ => none

/-- The name of the argument of a command. -/
def argumentName (name : String) : String :=
  if name = "get_mount_point" then "node_id" else "node_ids"

/-- The command that a payload gives, if it gives one. -/
def ofJson? : Json → Option Command
  | .object members =>
    match Keyed.find? members "command" with
    | some (.text "list_mount_points") => some .listMountPoints
    | some (.text name) => ofParts? name (Keyed.find? members (argumentName name))
    | _ => none
  | .array [.text "list_mount_points"] => some .listMountPoints
  | .array [.text name, argument] => ofParts? name (some argument)
  | _ => none

end Command

end MountRegistry
