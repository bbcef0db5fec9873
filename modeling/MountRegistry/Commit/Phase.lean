import MountRegistry.Store.Failure

/-
  The phases of a commit, and what can come of a transaction other than its success.
-/

namespace MountRegistry

/-- The phases of a commit, in their order. -/
inductive Phase where
  | canCommit
  | preCommit
  | commit
  deriving DecidableEq, Repr

namespace Phase

/-- The phases, first to last. -/
def all : List Phase := [.canCommit, .preCommit, .commit]

/-- The name of the phase, as failures write it. -/
def name : Phase → String
  | .canCommit => "CAN_COMMIT"
  | .preCommit => "PRE_COMMIT"
  | .commit => "COMMIT"

/-- The phase after this one. -/
def next? : Phase → Option Phase
  | .canCommit => some .preCommit
  | .preCommit => some .commit
  | .commit => none

/-- The phase of a name. -/
def ofName? (text : String) : Option Phase := all.find? (·.name == text)

end Phase

/-- Why a transaction does not do what it is asked, or its commit does not succeed. -/
inductive TransactionFailure where
  | illegalState (text : String)
  | invalidPath (text : String)
  /-- A phase of the commit failed, for the cause that came first. -/
  | phaseFailure (phase : Phase) (cause : StoreFailure)
  /-- A read or an edit failed in the store. -/
  | store (cause : StoreFailure)
  | abandoned
  deriving DecidableEq, Repr

/-- The text that a client is shown. -/
def TransactionFailure.message : TransactionFailure → String
  | .illegalState text => "illegal transaction state: " ++ text
  | .invalidPath text => "invalid data path: " ++ text
  | .phaseFailure phase cause => phase.name ++ " failed: " ++ cause.message
  | .store cause => cause.message
  | .abandoned => "commit result was never delivered"

/-- What came of a commit. -/
abbrev CommitResult := Except TransactionFailure Unit

end MountRegistry
