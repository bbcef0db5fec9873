import MountRegistry.Settings.SocketAddress
import MountRegistry.Text.Quoted

/-
  The settings of a service, read from variables. A number that cannot be read counts as not set; an
  address that cannot be read is an error.
-/

namespace MountRegistry

/-- How the log is written. -/
inductive LogFormat where
  | text
  | json
  deriving DecidableEq, Repr

/-- What can be set from outside, with what holds where nothing is set. -/
structure Settings where
  listenAddress : SocketAddress := .v4 ⟨0, 0, 0, 0⟩ 8181
  cacheRoot : String := "cache/cached-mountpoint"
  notificationWorkers : Nat := 20
  notificationQueue : Nat := 1000
  eventCapacity : Nat := 10000
  topologyCapacity : Nat := 256
  requestTimeoutSeconds : Nat := 30
  logFormat : LogFormat := .text
  deriving DecidableEq, Repr

/-- Why settings are refused. Only the listen address is; other illegible values count as not
set. -/
inductive SettingsFailure where
  | invalidListenAddress (text : String)
  deriving DecidableEq, Repr

/-- The text of the failure. -/
def SettingsFailure.message : SettingsFailure → String
  | invalidListenAddress text =>
    "invalid LISTEN_ADDR " ++ Text.quote text ++ ": invalid socket address syntax"

namespace Settings

/-- A number of at most 64 bits, in decimal digits after an optional plus sign. -/
def number? (text : String) : Option Nat :=
  let text := match text.toList with
    | '+' :: rest => rest
    | cs => cs
  let (ds, rest) := NumberForm.digits 10 text
  let n := NumberForm.value 10 ds
  if ds.isEmpty || !rest.isEmpty || Nat.pow 2 64 ≤ n then none else some n

/-- The settings that the variables give. -/
def read (lookup : String → Option String) : Except SettingsFailure Settings := do
  let defaults : Settings := {}
  let number (name : String) (default : Nat) : Nat :=
    ((lookup name).bind number?).getD default
  let listenAddress ← match lookup "LISTEN_ADDR" with
    | none => pure defaults.listenAddress
    | some text =>
      match SocketAddress.ofString? text with
      | some address => pure address
      | none => throw (.invalidListenAddress text)
  return {
    listenAddress
    cacheRoot := ((lookup "SCHEMA_CACHE_ROOT").filter (· ≠ "")).getD defaults.cacheRoot
    notificationWorkers := number "NOTIFICATION_WORKERS" defaults.notificationWorkers
    notificationQueue := number "NOTIFICATION_QUEUE_CAPACITY" defaults.notificationQueue
    eventCapacity := number "EVENT_BUS_CAPACITY" defaults.eventCapacity
    topologyCapacity := number "TOPOLOGY_CHANNEL_CAPACITY" defaults.topologyCapacity
    requestTimeoutSeconds := number "REQUEST_TIMEOUT_SECS" defaults.requestTimeoutSeconds
    logFormat := if lookup "LOG_FORMAT" ∈ [some "json", some "JSON"] then .json else .text }

end Settings

end MountRegistry
