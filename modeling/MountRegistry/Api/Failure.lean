import MountRegistry.Commit.Phase
import MountRegistry.Json.Value

/-
  What a request is answered when it cannot be done: a code, an HTTP status and a text. Codes from
  1000 are faults of the request, from 2000 things that are not there or not ready, from 3000 faults
  of the service, from 4000 failed commits.
-/

namespace MountRegistry

/-- Why a request is not answered as it asks. -/
inductive ApiFailure where
  | mountPointNotFound (node : String)
  | topologyNodeNotFound (node : String)
  | dataNotFound (path : String)
  | invalidRequest (text : String)
  | invalidStoreKind (text : String)
  | transaction (cause : TransactionFailure)
  | internal (text : String)
  deriving DecidableEq, Repr

namespace ApiFailure

/-- The text that a client is shown. -/
def message : ApiFailure → String
  | mountPointNotFound node => "mount point not found: " ++ node
  | topologyNodeNotFound node => "topology node not found: " ++ node
  | dataNotFound path => "no data at " ++ path
  | invalidRequest text => "invalid request: " ++ text
  | invalidStoreKind text => "invalid store kind: " ++ text
  | transaction cause => "transaction error: " ++ cause.message
  | internal text => "internal error: " ++ text

/-- The number of the failure for programs. The thousands tell its kind. -/
def code : ApiFailure → Nat
  | invalidRequest _ => 1001
  | invalidStoreKind _ => 1002
  | transaction (.invalidPath _) => 1003
  | mountPointNotFound _ => 2001
  | topologyNodeNotFound _ => 2002
  | dataNotFound _ => 2003
  | transaction (.illegalState _) => 2004
  | internal _ => 3000
  | transaction .abandoned => 3001
  | transaction (.store _) => 3002
  | transaction (.phaseFailure .canCommit _) => 4001
  | transaction (.phaseFailure .preCommit _) => 4002
  | transaction (.phaseFailure .commit _) => 4003

/-- The status of a failed commit. Edits that fit neither schema nor tree cannot be processed. -/
def commitStatus : StoreFailure → Nat
  | .validation _ _ | .notTraversable _ => 422
  | _ => 409

/-- The HTTP status of the failure, which the cause decides if a transaction failed. -/
def status : ApiFailure → Nat
  | invalidRequest _ | invalidStoreKind _ | transaction (.invalidPath _) => 400
  | mountPointNotFound _ | topologyNodeNotFound _ | dataNotFound _ => 404
  | transaction (.illegalState _) => 409
  | transaction (.phaseFailure _ cause) => commitStatus cause
  | internal _ | transaction .abandoned | transaction (.store _) => 500

/-- What is said of a failed commit beside its message. -/
def details? : ApiFailure → Option String
  | transaction (.phaseFailure phase _) => some ("phase=" ++ phase.name)
  | _ => none

/-- The body of the answer: code and message, and details where there are any. -/
def toJson (e : ApiFailure) : Json :=
  let details := e.details?.toList.map fun text => ("details", Json.text text)
  .ofMembers [("error", .ofMembers
    ([("code", .ofNat e.code), ("message", .text e.message)] ++ details))]

end ApiFailure

end MountRegistry
