import MountRegistry.Api.Failure
import MountRegistry.Api.MediaType
import MountRegistry.Json.Shape

/-
  Requests and what they are answered: a status, and mostly a JSON value.
-/

namespace MountRegistry

/-- The methods that some route knows, and all others by name. -/
inductive Method where
  | get
  | head
  | put
  | patch
  | post
  | delete
  | options
  | other (name : String)
  deriving DecidableEq, Repr

/-- The method of a name. Names are told apart by case. -/
def Method.ofName : String → Method
  | "GET" => get
  | "HEAD" => head
  | "PUT" => put
  | "PATCH" => patch
  | "POST" => post
  | "DELETE" => delete
  | "OPTIONS" => options
  | name => other name

/-- A request as it comes in. -/
structure Request where
  method : Method
  /-- The path, with or without a query after it, and with or without a scheme and an authority
  before it. -/
  target : String
  contentType : Option String := none
  body : String := ""
  deriving Repr

/-- An answer: a status, and a body unless there is nothing to say. -/
structure Response where
  status : Nat
  body : Option Json := none
  deriving Repr

namespace Response

/-- The answer of an operation that succeeded and has something to show. -/
def ok (body : Json) : Response := ⟨200, some body⟩

/-- An answer without a value. -/
def bare (status : Nat) : Response := ⟨status, none⟩

/-- The answer that says why an operation failed. -/
def ofFailure (e : ApiFailure) : Response := ⟨e.status, some e.toJson⟩

end Response

namespace Request

/-- A path ends where a query or a fragment begins. -/
def endsPath (c : Char) : Bool := c == '?' || c == '#'

/-- What stands after the scheme, if the target names one. -/
def afterScheme? : List Char → Option (List Char)
  | ':' :: '/' :: '/' :: rest => some rest
  | c :: rest => if c = '/' ∨ endsPath c then none else afterScheme? rest
  | [] => none

/-- The path of the target: all of it before a query, or what follows the authority. -/
def path (r : Request) : List Char :=
  let target := r.target.toList
  match afterScheme? target with
  | some rest => (rest.dropWhile fun c => c != '/' && !endsPath c).takeWhile (!endsPath ·)
  | none => target.takeWhile (!endsPath ·)

/-- Whether the content type of the body, if it has a legible one, is one of JSON. -/
def saysJson (r : Request) : Bool :=
  ((r.contentType.bind MediaType.ofString?).map (·.isJson)).getD false

/-- The bytes that a body may have. -/
def maxBody : Nat := 2 * 1024 * 1024

/-- The body as `read` reads it, or the status of the answer to one that cannot be read. -/
def readBody {α : Type} (r : Request) (read : Reading → Except Fault α) : Except Nat α :=
  if !r.saysJson then .error 415
  else if maxBody < r.body.utf8ByteSize then .error 413
  else
    match Reading.whole read r.body with
    | .ok a => .ok a
    | .error .malformed => .error 400
    | .error .mismatched => .error 422

end Request

end MountRegistry
