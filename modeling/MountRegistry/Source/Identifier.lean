import MountRegistry.Text.Cut

/-
  Identifiers of schema sources: a module name and, unless left open, a revision. A source is kept
  in a file `name@revision.yang`, or `name.yang` without a revision.
-/

namespace MountRegistry

/-- What a schema source is known by: the name of its module, and the revision if it is known. -/
structure SourceId where
  name : String
  revision : Option String
  deriving DecidableEq, Repr, Ord

namespace SourceId

/-- `name@revision`, or the name alone. -/
def toString (id : SourceId) : String :=
  match id.revision with
  | some revision => id.name ++ "@" ++ revision
  | none => id.name

/-- How the name of a source file ends. -/
def fileEnding : String := ".yang"

/-- The name of the file that holds a source. -/
def fileName (id : SourceId) : String := id.toString ++ fileEnding

/-- The file name without its ending. -/
def fileStem? (file : String) : Option (List Char) :=
  fileEnding.toList.isSuffixOf? file.toList

/-- The identifier that a file name gives, if it is one of a source. -/
def ofFileName? (file : String) : Option SourceId := do
  let stem ← fileStem? file
  match Text.cut? '@' stem with
  | none => if stem.isEmpty then none else some ⟨String.ofList stem, none⟩
  | some (name, revision) =>
    if name.isEmpty || revision.isEmpty then none
    else some ⟨String.ofList name, some (String.ofList revision)⟩

/-- A source meets a request of its name that asks for no revision or for its own. -/
def satisfies (id wanted : SourceId) : Bool :=
  id.name == wanted.name && (wanted.revision.isNone || id.revision == wanted.revision)

/-- Whether `a` is the same revision as `b` or an older one; no revision is the oldest. -/
def revisionLE (a b : SourceId) : Bool := (compare a.revision b.revision).isLE

/-- The newest of the identifiers that satisfy the request, the last of several. -/
def newest? (candidates : List SourceId) (wanted : SourceId) : Option SourceId :=
  (candidates.filter (·.satisfies wanted)).foldl
    (fun best id =>
      match best with
      | none => some id
      | some b => if b.revisionLE id then some id else some b)
    none

end SourceId

end MountRegistry
