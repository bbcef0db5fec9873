import MountRegistry.Api.Request
import MountRegistry.Text.Cut
import MountRegistry.Text.Percent

/-
  What a request asks for, by its path and method. The path is cut at the slashes first, and its
  variable parts are decoded afterwards, so a coded slash is part of a name. A variable part at the
  end of the path is not empty; one before the end may be.
-/

namespace MountRegistry

/-- The node, the store and the path in it that a request for data names. -/
structure DataTarget where
  node : String
  store : String
  path : String
  deriving DecidableEq, Repr

/-- The resources that paths lead to. -/
inductive Route where
  | health
  | socket
  | nodes
  | node (id : String)
  | mountPoints
  | mountPoint (id : String)
  | store (node kind : String)
  | data (target : DataTarget)
  | loadModels
  deriving DecidableEq, Repr

namespace Route

/-- The route below the root of the resources. -/
def ofResource? : List String → Option Route
  | ["topology", "nodes"] => some .nodes
  | ["topology", "nodes", id] => if id = "" then none else some (.node id)
  | ["mount-points"] => some .mountPoints
  | ["mount-points", id] => if id = "" then none else some (.mountPoint id)
  | ["mount-points", id, "data", kind] => if kind = "" then none else some (.store id kind)
  | "mount-points" :: id :: "data" :: kind :: rest =>
    let path := "/".intercalate rest
    if path = "" then none else some (.data ⟨id, kind, path⟩)
  | ["operations", "load-models"] => some .loadModels
  | _ => none

/-- The resource of a path, if the service has one there. -/
def ofPath? (path : List Char) : Option Route :=
  match (Text.fields '/' path).map String.ofList with
  | ["", "health"] => some .health
  | ["", "ws"] => some .socket
  | "" :: "api" :: "v1" :: rest => ofResource? rest
  | _ => none

/-- The route with its variable parts decoded. -/
def decode? : Route → Option Route
  | node id => do return node (← Text.percentDecoded? id)
  | mountPoint id => do return mountPoint (← Text.percentDecoded? id)
  | store id kind => do return store (← Text.percentDecoded? id) (← Text.percentDecoded? kind)
  | data t => do
    return data ⟨← Text.percentDecoded? t.node, ← Text.percentDecoded? t.store,
      ← Text.percentDecoded? t.path⟩
  | r => some r

end Route

/-- What a request asks for, once its path and its method are known. -/
inductive Operation where
  | health
  | openSocket
  | listNodes
  | putNode (id : String)
  | deleteNode (id : String)
  | listMountPoints
  | showMountPoint (id : String)
  | readData (target : DataTarget)
  | putData (target : DataTarget)
  | mergeData (target : DataTarget)
  | deleteData (target : DataTarget)
  | loadModels
  deriving DecidableEq, Repr

namespace Operation

/-- What a method does on a route, if anything. -/
def of? : Route → Method → Option Operation
  | .health, .get => some health
  | .socket, .get => some openSocket
  | .nodes, .get => some listNodes
  | .node id, .put => some (putNode id)
  | .node id, .delete => some (deleteNode id)
  | .mountPoints, .get => some listMountPoints
  | .mountPoint id, .get => some (showMountPoint id)
  | .store id kind, .get => some (readData ⟨id, kind, ""⟩)
  | .data t, .get => some (readData t)
  | .data t, .put => some (putData t)
  | .data t, .patch => some (mergeData t)
  | .data t, .delete => some (deleteData t)
  | .loadModels, .post => some loadModels
  | _, _ => none

/-- The operation of a request, or the status of the answer to one that asks for none. -/
def ofRequest (path : List Char) (method : Method) : Except Nat Operation :=
  match Route.ofPath? path with
  | none => .error 404
  | some route =>
    if (of? route method).isNone then .error 405
    else match route.decode?.bind (of? · method) with
      | some op => .ok op
      | none => .error 400

end Operation

end MountRegistry
