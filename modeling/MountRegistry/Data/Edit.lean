import MountRegistry.Data.Path
import MountRegistry.Data.Tree
import MountRegistry.Store.Failure

/-
  Edits of a data tree: replace, merge or remove the node at a path. An edit whose path runs through
  a leaf fails and yields no tree.
-/

namespace MountRegistry

/-- The failure of a path that runs through a leaf. -/
def notTraversable (path : DataPath) : StoreFailure := .notTraversable path.toString

/-- The node of a tree at a path, if there is one. -/
def Json.readAt (tree : Json) (path : DataPath) : Except StoreFailure (Option Json) :=
  match Json.read? path.segments tree with
  | some found => .ok found
  | none => .error (notTraversable path)

/-- A change at one place of a tree. -/
inductive Edit where
  | put (path : DataPath) (value : Json)
  | merge (path : DataPath) (value : Json)
  | delete (path : DataPath)
  deriving Repr

namespace Edit

/-- The place of the edit. -/
def path : Edit → DataPath
  | put path _ | merge path _ | delete path => path

/-- The tree after the edit, unless the path runs through a leaf. -/
def applied? (tree : Json) : Edit → Option Json
  | put path value => Json.put? value path.segments tree
  | merge path value => Json.merge? value path.segments tree
  | delete path => Json.remove? path.segments tree

/-- The tree after the edit, or the failure that names its path. -/
def apply (tree : Json) (e : Edit) : Except StoreFailure Json :=
  match e.applied? tree with
  | some tree => .ok tree
  | none => .error (notTraversable e.path)

/-- The edits one after the other, up to the first that fails. -/
def applyAll (tree : Json) (edits : List Edit) : Except StoreFailure Json := edits.foldlM apply tree

end Edit

end MountRegistry
