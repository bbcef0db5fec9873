import MountRegistry.Json.Value

/-
  Operations at a path of a data tree. Objects are containers and anything else is a leaf; a path
  that runs through a leaf addresses nothing, and each operation answers `none`. Writing creates the
  containers that are missing, removing a node that is not there changes nothing.
-/

namespace MountRegistry

namespace Json

mutual

/-- Objects are merged member by member; any other value takes the place of the old one. -/
def merge (old : Json) : Json → Json
  | .object members =>
    match old with
    | .object existing => .object (mergeMembers existing members)
    | _ => .object members
  | new => new

/-- Merges members into others one by one. A key that both have is merged in its turn. -/
def mergeMembers (existing : List (String × Json)) : List (String × Json) → List (String × Json)
  | [] => existing
  | (key, new) :: rest =>
    mergeMembers
      (Keyed.insert existing key
        (match Keyed.find? existing key with
          | some old => merge old new
          | none => new))
      rest

end

/-- The node at a path, if there is one. -/
def read? : List String → Json → Option (Option Json)
  | [], j => some (some j)
  | s :: rest, .object members =>
    match Keyed.find? members s with
    | some child => read? rest child
    | none => some none
  | _ :: _, _ => none

/-- The tree with the node at a path changed by `f`; a missing node counts as an empty container. -/
def update? (f : Json → Json) : List String → Json → Option Json
  | [], j => some (f j)
  | s :: rest, .object members =>
    (update? f rest ((Keyed.find? members s).getD emptyObject)).map fun child =>
      .object (Keyed.insert members s child)
  | _ :: _, _ => none

/-- The tree with a value at a path in place of what was there. -/
def put? (value : Json) : List String → Json → Option Json := update? fun _ => value

/-- The tree with a value merged into what is at a path. -/
def merge? (value : Json) : List String → Json → Option Json := update? fun old => old.merge value

/-- The tree without the node at a path; without its root a tree is empty. -/
def remove? : List String → Json → Option Json
  | [], _ => some emptyObject
  | [s], .object members => some (.object (Keyed.erase members s))
  | s :: rest, .object members =>
    match Keyed.find? members s with
    | some child => (remove? rest child).map fun c => .object (Keyed.insert members s c)
    | none => some (.object members)
  | _ :: _, _ => none

end Json

end MountRegistry
