import MountRegistry.Data.InPlace
import MountRegistry.Store.Basic

/-
  Transactions of one store. A `StoreDraft` stages edits on a copy of the tree that was current
  when it was opened, so that it reads its own edits. Sealed, it becomes a `Cohort`, the part of
  one store in a commit: it votes, prepares, and commits what it prepared, once for each
  preparation.
-/

namespace MountRegistry

/-- A transaction on one store while it is open: the version that it started from, and the tree
with its edits made. -/
structure StoreDraft where
  model : Yang.Model
  base : Nat
  working : Json
  edits : List Edit
  deriving Repr

/-- A sealed draft on its way through the commit. Of the tree only the edits are left. -/
structure Cohort where
  store : String
  base : Nat
  edits : List Edit
  prepared : Option Prepared := none
  deriving Repr

/-- A draft of the store as it is. -/
def Store.openDraft (s : Store) : StoreDraft := ⟨s.model, s.version, s.tree, []⟩

namespace StoreDraft

/-- Makes an edit on the copy; one that fails is not staged. -/
def stage (d : StoreDraft) (e : Edit) : Except StoreFailure StoreDraft := do
  let e := Store.canonicalEdit d.model e
  let working ← e.apply d.working
  return { d with working, edits := d.edits ++ [e] }

/-- Makes an edit on the copy as it stands. Answers the draft that is left, and why the edit was not
staged. -/
def stageInPlace (d : StoreDraft) (e : Edit) : StoreDraft × Option StoreFailure :=
  let e := Store.canonicalEdit d.model e
  match e.applyInPlace d.working with
  | (working, none) => ({ d with working, edits := d.edits ++ [e] }, none)
  | (working, some failure) => ({ d with working }, some failure)

/-- What the draft shows at a path, its own edits included. -/
def read (d : StoreDraft) (path : DataPath) : Except StoreFailure (Option Json) :=
  d.working.readAt (Store.canonicalPath d.model path)

/-- Seals the draft, for the store of this name. -/
def toCohort (d : StoreDraft) (store : String) : Cohort := ⟨store, d.base, d.edits, none⟩

end StoreDraft

namespace Cohort

/-- Whether the store could take the edits now. -/
def vote (c : Cohort) (s : Store) : Except StoreFailure Bool := s.vote c.base c.edits

/-- A new preparation takes the place of an earlier one; a failed one leaves it. -/
def prepare (c : Cohort) (s : Store) : Except StoreFailure Cohort := do
  let p ← s.prepare c.base c.edits
  return { c with prepared := some p }

/-- The cohort without its preparation. -/
def release (c : Cohort) : Cohort := { c with prepared := none }

/-- Installs what was prepared. Whatever comes of it, the preparation is used up (`release`). -/
def install (c : Cohort) (s : Store) : Except StoreFailure (Store × Change) :=
  match c.prepared with
  | none => .error (.notPrepared c.store)
  | some p => s.install p c.edits

/-- Installs what was prepared and announces it. -/
def commit (c : Cohort) (s : Store) : Except StoreFailure Store := do
  let (s, change) ← c.install s
  return s.announce change

end Cohort

end MountRegistry
