import MountRegistry.Broker.Basic
import MountRegistry.Commit.Coordinator

/-
  A submitted transaction: its cohorts and the coordinator that drives them. `step` makes one call
  of one cohort on the stores as they are then, so the steps of several submissions can alternate;
  `run` makes the calls of one submission in the order of its cohorts, up to its result.
-/

namespace MountRegistry

/-- A transaction that was submitted: its cohorts, and the coordinator that drives them. -/
structure Submission where
  /-- The cohorts, each with the number of its store. -/
  cohorts : List (Nat × Cohort)
  coordinator : Coordinator
  deriving Repr

namespace Submission

/-- A submission whose coordinator has begun. -/
def create (cohorts : List (Nat × Cohort)) : Submission :=
  ⟨cohorts, Coordinator.begin { stores := cohorts.map (·.2.store) }⟩

/-- What a call does to a store and a cohort, and what the cohort answers. -/
def perform (s : Store) (c : Cohort) : Call → Store × Cohort × CallAnswer
  | .phase .canCommit => (s, c, c.vote s)
  | .phase .preCommit =>
    match c.prepare s with
    | .ok c => (s, c, .ok true)
    | .error e => (s, c, .error e)
  | .phase .commit =>
    match c.commit s with
    | .ok s => (s, c.release, .ok true)
    | .error e => (s, c.release, .error e)
  | .abort => (s, c.release, .ok true)

/-- Makes the call that is due on one cohort. -/
def step (pool : StorePool) (s : Submission) (i : Nat) : StorePool × Submission :=
  match s.coordinator.state.call?, s.cohorts[i]? with
  | some call, some (n, c) =>
    if i ∈ s.coordinator.waiting then
      let (store, c, answer) := perform (pool.store n) c call
      (pool.setStore n store, ⟨s.cohorts.set i (n, c), s.coordinator.report i answer⟩)
    else (pool, s)
  | _, _ => (pool, s)

/-- Lets the first store that is waited for answer, until none is or so many have answered. -/
def runIn : Nat → StorePool → Submission → StorePool × Submission
  | 0, pool, s => (pool, s)
  | n + 1, pool, s =>
    match s.coordinator.waiting with
    | [] => (pool, s)
    | i :: _ =>
      let (pool, s) := step pool s i
      runIn n pool s

/-- Drives a submission to its end: every cohort is called four times at most. -/
def run (pool : StorePool) (s : Submission) : StorePool × Submission :=
  runIn (4 * s.cohorts.length) pool s

/-- The result of a submission that was driven to its end. -/
def result (s : Submission) : CommitResult :=
  (s.coordinator.state.result?).getD (.error .abandoned)

end Submission

end MountRegistry
