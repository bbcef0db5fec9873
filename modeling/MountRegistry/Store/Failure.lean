/-
  What can go wrong in a store or while a store takes part in a commit, and how it is told.
-/

namespace MountRegistry

/-- Paths and stores are given as they are shown. -/
inductive StoreFailure where
  | poisoned (store : String)
  /-- A change committed since the transaction's base touches this path. -/
  | conflict (path : String)
  /-- The schema does not allow the modification. -/
  | validation (path : String) (reason : String)
  /-- The path runs through a leaf. -/
  | notTraversable (path : String)
  /-- The store voted against the commit. -/
  | rejected (store : String)
  /-- Commit was asked of a store that had prepared nothing. -/
  | notPrepared (store : String)
  | internal (text : String)
  deriving DecidableEq, Repr

/-- The text of the failure, which names the place or the store that it is about. -/
def StoreFailure.message : StoreFailure → String
  | .poisoned store => "store " ++ store ++ " state lock poisoned"
  | .conflict path => "optimistic lock failure on " ++ path
  | .validation path reason => "schema validation failed for " ++ path ++ ": " ++ reason
  | .notTraversable path => "path " ++ path ++ " traverses a leaf value"
  | .rejected store =>
    "can-commit rejected for store " ++ store ++ ", no detailed cause available"
  | .notPrepared store => "cohort for store " ++ store ++ " is not prepared for commit"
  | .internal text => "store failure: " ++ text

end MountRegistry
