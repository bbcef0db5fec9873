import MountRegistry.Commit.Phase

/-
  The coordinator of a commit over several stores. In each phase every store is asked, all at once,
  and the next phase begins when all have answered. After a phase in which one refused or failed
  every store is told to abort, and the first failure is the result; what the aborts answer does not
  matter. `report` takes one answer, in whatever order they come.
-/

namespace MountRegistry

/-- What a store is asked. -/
inductive Call where
  | phase (p : Phase)
  | abort
  deriving DecidableEq, Repr

/-- How far a commit has come. -/
inductive CommitState where
  | opened
  /-- The stores are being asked; `first` is the first failure so far. -/
  | running (phase : Phase) (first : Option StoreFailure)
  | aborting (phase : Phase) (cause : StoreFailure)
  | done
  | failed (phase : Phase) (cause : StoreFailure)
  deriving DecidableEq, Repr

namespace CommitState

/-- The name of the state, as it is logged. -/
def name : CommitState → String
  | .opened => "Open"
  | .running .canCommit _ => "CanCommit"
  | .running .preCommit _ => "PreCommit"
  | .running .commit _ => "Commit"
  | .aborting _ _ => "Aborting"
  | .done => "Done"
  | .failed _ _ => "Failed"

/-- What the stores are being asked. -/
def call? : CommitState → Option Call
  | .running phase _ => some (.phase phase)
  | .aborting _ _ => some .abort
  | _ => none

/-- The result, once there is one. -/
def result? : CommitState → Option CommitResult
  | .done => some (.ok ())
  | .failed phase cause => some (.error (.phaseFailure phase cause))
  | _ => none

end CommitState

/-- The answer of a store: a failure, or its vote. Only the first phase asks for a vote. -/
abbrev CallAnswer := Except StoreFailure Bool

/-- Drives the stores of one transaction through the phases of its commit. -/
structure Coordinator where
  /-- The stores that take part, by name. -/
  stores : List String
  state : CommitState := .opened
  /-- The stores whose answer is awaited, by their place in the list. -/
  waiting : List Nat := []
  deriving Repr

namespace Coordinator

/-- Asks every store, and waits for all their answers. -/
def ask (c : Coordinator) (state : CommitState) : Coordinator :=
  { c with state, waiting := List.range c.stores.length }

/-- The commit begins; with no store to ask it is done at once. -/
def begin (c : Coordinator) : Coordinator :=
  if c.stores.isEmpty then { c with state := .done, waiting := [] }
  else c.ask (.running .canCommit none)

/-- The failure in an answer; a vote against counts as one. -/
def failureIn (c : Coordinator) (phase : Phase) (store : Nat) : CallAnswer → Option StoreFailure
  | .error cause => some cause
  | .ok vote =>
    if phase = .canCommit ∧ vote = false then some (.rejected (c.stores.getD store "")) else none

/-- What follows when all stores have answered. -/
def conclude (c : Coordinator) (phase : Phase) (first : Option StoreFailure) : Coordinator :=
  match first, phase.next? with
  | some cause, _ => c.ask (.aborting phase cause)
  | none, some next => c.ask (.running next none)
  | none, none => { c with state := .done, waiting := [] }

/-- Takes the answer of a store that is awaited. -/
def report (c : Coordinator) (store : Nat) (answer : CallAnswer) : Coordinator :=
  if store ∈ c.waiting then
    let waiting := c.waiting.erase store
    match c.state with
    | .running phase first =>
      let first := first.orElse fun _ => c.failureIn phase store answer
      if waiting.isEmpty then c.conclude phase first
      else { c with state := .running phase first, waiting }
    | .aborting phase cause =>
      { c with state := if waiting.isEmpty then .failed phase cause else c.state, waiting }
    | _ => c
  else c

end Coordinator

end MountRegistry
