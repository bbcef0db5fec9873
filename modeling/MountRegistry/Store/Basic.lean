import MountRegistry.Broadcast
import MountRegistry.Data.Edit
import MountRegistry.Store.Kind
import MountRegistry.Yang.Model

/-
  A store: a data tree under a schema, with a version that counts its commits. The log keeps the
  paths of the latest commits, so that a transaction is told apart from one whose base is too old:
  `conflict?` names the first path that a commit after the base may have touched.

  A commit takes three steps. `prepare` builds the new tree, `install` makes it the tree of the
  store, replaying the edits if other commits came in between, and `announce` tells the
  subscribers.
-/

namespace MountRegistry

/-- What subscribers hear of a commit. -/
structure Change where
  store : String
  kind : StoreKind
  version : Nat
  paths : List DataPath
  deriving DecidableEq, Repr

/-- A commit as the log keeps it: the version that it made and the paths that it touched. -/
structure LogEntry where
  version : Nat
  paths : List DataPath
  deriving DecidableEq, Repr

/-- A tree of data with its version, the schema that it is checked against, and the log of the
latest commits. -/
structure Store where
  name : String
  kind : StoreKind
  model : Yang.Model
  logCapacity : Nat
  tree : Json
  version : Nat
  /-- The latest commits, oldest first. -/
  log : List LogEntry
  changes : Broadcast Change
  deriving Repr

/-- A tree that is ready to be installed, and the version it was built on. -/
structure Prepared where
  tree : Json
  version : Nat
  deriving Repr

namespace Store

/-- The commits that a log keeps unless told otherwise. -/
def defaultLogCapacity : Nat := 1024

/-- The changes that wait for a subscriber. -/
def changeCapacity : Nat := 256

/-- A store that holds an empty object. Its log has room for one commit at least. -/
def create (name : String) (kind : StoreKind) (model : Yang.Model)
    (logCapacity : Nat := defaultLogCapacity) : Store where
  name := name
  kind := kind
  model := model
  logCapacity := max logCapacity 1
  tree := Json.emptyObject
  version := 0
  log := []
  changes := Broadcast.ofCapacity changeCapacity

/-- The path with its data node spelled bare; an unknown spelling stays. -/
def canonicalPath (model : Yang.Model) (path : DataPath) : DataPath :=
  match path.top?.bind model.canonical? with
  | some name => path.withTop name
  | none => path

/-- A value for the root with its data nodes spelled bare. -/
def canonicalRoot (model : Yang.Model) : Json → Json
  | .object members => .ofMembers (members.map fun (key, v) => ((model.canonical? key).getD key, v))
  | j => j

/-- The edit in the canonical spelling of its path, or of the members that it writes at the root. -/
def canonicalEdit (model : Yang.Model) : Edit → Edit
  | .put path value =>
    if path.isRoot then .put path (canonicalRoot model value)
    else .put (canonicalPath model path) value
  | .merge path value =>
    if path.isRoot then .merge path (canonicalRoot model value)
    else .merge (canonicalPath model path) value
  | .delete path => .delete (canonicalPath model path)

/-- The failure of an edit of a data node that the schema has not. -/
def unknownNode (path : DataPath) (node : String) : StoreFailure :=
  .validation path.toString (node ++ " is not a top-level data node of the mount point schema")

/-- What the schema has against a value for the root. -/
def validateRoot (model : Yang.Model) (path : DataPath) : Json → Except StoreFailure Unit
  | .object members =>
    match members.find? fun m => !model.hasDataNode m.1 with
    | some (key, _) => .error (unknownNode path key)
    | none => .ok ()
  | _ => .error (.validation path.toString "root value must be an object")

/-- Whether the schema allows an edit. It looks at the topmost names only. -/
def validateEdit (model : Yang.Model) (e : Edit) : Except StoreFailure Unit :=
  match e.path.top?, e with
  | some top, e => if model.hasDataNode top then .ok () else .error (unknownNode e.path top)
  | none, .delete _ => .ok ()
  | none, .put path value | none, .merge path value => validateRoot model path value

/-- Whether the schema allows all edits, or the failure of the first that it does not. -/
def validate (model : Yang.Model) (edits : List Edit) : Except StoreFailure Unit :=
  edits.forM (validateEdit model)

/-- Whether the log still holds every commit after this version. -/
def covers (s : Store) (base : Nat) : Bool :=
  match s.log with
  | [] => false
  | oldest :: _ => oldest.version ≤ base + 1

/-- Whether a commit later than a version touched a path that overlaps this one. Commits that the
log has dropped are not looked at. -/
def touchedSince (s : Store) (base : Nat) (path : DataPath) : Bool :=
  s.log.any fun entry => base < entry.version && entry.paths.any (·.overlaps path)

/-- The first of the paths that a commit after `base` touched; if the log does not reach back to
`base`, the first of all. -/
def conflict? (s : Store) (base : Nat) (paths : List DataPath) : Option DataPath :=
  if s.version = base then none
  else if s.covers base then paths.find? (s.touchedSince base)
  else paths.head?

/-- Whether edits based on a version can be committed now. -/
def vote (s : Store) (base : Nat) (edits : List Edit) : Except StoreFailure Bool := do
  validate s.model edits
  return (s.conflict? base (edits.map (·.path))).isNone

/-- The failure that names the first path in conflict, if there is one. -/
def checkConflict (s : Store) (base : Nat) (edits : List Edit) : Except StoreFailure Unit :=
  match s.conflict? base (edits.map (·.path)) with
  | some path => .error (.conflict path.toString)
  | none => .ok ()

/-- The tree with the edits made, unless the schema or a later commit forbids them. -/
def prepare (s : Store) (base : Nat) (edits : List Edit) : Except StoreFailure Prepared := do
  s.checkConflict base edits
  let tree ← Edit.applyAll s.tree edits
  validate s.model edits
  return ⟨tree, s.version⟩

/-- The paths of the edits, each once, in the order of their first mention. -/
def touchedPaths (edits : List Edit) : List DataPath :=
  edits.foldl (fun paths e => if e.path ∈ paths then paths else paths ++ [e.path]) []

/-- The tree that a commit makes: the prepared one if nothing came in between. -/
def committedTree (s : Store) (p : Prepared) (edits : List Edit) : Except StoreFailure Json := do
  if s.version = p.version then return p.tree
  else
    s.checkConflict p.version edits
    Edit.applyAll s.tree edits

/-- The commit itself, and what is to be announced of it. -/
def install (s : Store) (p : Prepared) (edits : List Edit) :
    Except StoreFailure (Store × Change) := do
  let tree ← s.committedTree p edits
  let version := s.version + 1
  let paths := touchedPaths edits
  let log := s.log ++ [⟨version, paths⟩]
  return ({ s with tree, version, log := log.drop (log.length - s.logCapacity) },
    ⟨s.name, s.kind, version, paths⟩)

/-- Tells every subscriber of a commit. -/
def announce (s : Store) (change : Change) : Store := { s with changes := s.changes.send change }

/-- A new subscriber, and the number it is known by. -/
def subscribe (s : Store) : Store × Nat :=
  let (changes, receiver) := s.changes.subscribe
  ({ s with changes }, receiver)

/-- The subscriber goes, with all that it has not collected. -/
def unsubscribe (s : Store) (receiver : Nat) : Store :=
  { s with changes := s.changes.unsubscribe receiver }

/-- The changes that wait for a subscriber. -/
def collect (s : Store) (receiver : Nat) : Mailbox Change × Store :=
  let (mailbox, changes) := s.changes.collect receiver
  (mailbox, { s with changes })

/-- The committed node at a path, in any spelling. -/
def read (s : Store) (path : DataPath) : Except StoreFailure (Option Json) :=
  s.tree.readAt (canonicalPath s.model path)

end Store

end MountRegistry
