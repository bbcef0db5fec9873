import MountRegistry.Data.Edit

/-
  Edits made in place. The tree is changed while the path of the edit is walked: a container that is
  missing is put in before the walk goes on, and a walk that ends at a leaf leaves behind what it
  has put in.
-/

namespace MountRegistry

namespace Json

/-- Changes the node at a path by `f`. Answers the tree that is left and whether the path led to a
node. -/
def updateInPlace (f : Json → Json) : List String → Json → Json × Bool
  | [], j => (f j, true)
  | s :: rest, .object members =>
    let (child, done) := updateInPlace f rest ((Keyed.find? members s).getD emptyObject)
    (.object (Keyed.insert members s child), done)
  | _ :: _, leaf => (leaf, false)

/-- Takes out the node at a path, if there is one. Answers the tree that is left and whether the
path led anywhere. -/
def removeInPlace : List String → Json → Json × Bool
  | [], _ => (emptyObject, true)
  | [s], .object members => (.object (Keyed.erase members s), true)
  | s :: rest, .object members =>
    match Keyed.find? members s with
    | some child =>
      let (child, done) := removeInPlace rest child
      (.object (Keyed.insert members s child), done)
    | none => (.object members, true)
  | _ :: _, leaf => (leaf, false)

end Json

/-- Makes an edit on a tree. Answers the tree that is left, and what was wrong with the path. -/
def Edit.applyInPlace (tree : Json) (e : Edit) : Json × Option StoreFailure :=
  let (tree, done) := match e with
    | .put path value => Json.updateInPlace (fun _ => value) path.segments tree
    | .merge path value => Json.updateInPlace (fun old => old.merge value) path.segments tree
    | .delete path => Json.removeInPlace path.segments tree
  (tree, if done then none else some (notTraversable e.path))

end MountRegistry
