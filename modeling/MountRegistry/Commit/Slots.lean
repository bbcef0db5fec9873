/-
  A bounded pool of jobs. At most `workers` jobs run at once and at most `workers + queue` are
  admitted; a job beyond that waits for admission. Admission and start are first come, first
  served. `dispatch`, `admitNext?`, `startNext?` and `finish` are single steps; `settle` takes
  whatever steps can be taken. A job is known by its ticket, so two jobs may have one name; a
  name stands for the last job dispatched under it.
-/

namespace MountRegistry

/-- A job: the count of those dispatched before it, and a name. -/
structure Job where
  ticket : Nat
  name : String
  deriving Repr, DecidableEq

/-- A pool of workers with a bounded queue before it. Who finds the queue full waits for
admission. -/
structure Slots where
  workers : Nat
  queue : Nat
  /-- Every job that ever asked for admission, in order. -/
  dispatched : List Job := []
  /-- Jobs that wait for admission, the first first. -/
  waiting : List Job := []
  /-- Admitted jobs that wait for a worker, the first first. -/
  queued : List Job := []
  running : List Job := []
  /-- Jobs that end as soon as they start. -/
  released : List Job := []
  /-- Every job that was ever admitted, started or finished, in order. -/
  admitted : List Job := []
  started : List Job := []
  finished : List Job := []
  deriving Repr

namespace Slots

/-- A pool with at least one worker. -/
def create (workers queue : Nat) : Slots := { workers := max workers 1, queue }

/-- How many jobs are admitted at most: those that run and those in the queue. -/
def capacity (s : Slots) : Nat := s.workers + s.queue

/-- The places for further jobs. -/
def available (s : Slots) : Nat := s.capacity - (s.queued.length + s.running.length)

/-- The last job dispatched under a name. -/
def lastNamed? (s : Slots) (name : String) : Option Job :=
  s.dispatched.reverse.find? (·.name = name)

/-- A new job asks for admission. -/
def dispatch (s : Slots) (name : String) : Slots :=
  let job : Job := ⟨s.dispatched.length, name⟩
  { s with dispatched := s.dispatched ++ [job], waiting := s.waiting ++ [job] }

/-- Admits the first that waits, if there is a place. -/
def admitNext? (s : Slots) : Option Slots :=
  match s.waiting with
  | [] => none
  | job :: rest =>
    if 0 < s.available then
      some { s with waiting := rest, queued := s.queued ++ [job], admitted := s.admitted ++ [job] }
    else none

/-- Starts the first admitted job, if a worker is free. -/
def startNext? (s : Slots) : Option Slots :=
  match s.queued with
  | [] => none
  | job :: rest =>
    if s.running.length < s.workers then
      some { s with queued := rest, running := s.running ++ [job], started := s.started ++ [job] }
    else none

/-- A running job ends. -/
def finish (s : Slots) (job : Job) : Slots :=
  if job ∈ s.running then
    { s with running := s.running.erase job, finished := s.finished ++ [job] }
  else s

/-- Ends the first running job that has been released. -/
def finishReleased? (s : Slots) : Option Slots :=
  (s.running.find? (· ∈ s.released)).map fun job =>
    { s.finish job with released := s.released.erase job }

/-- One step that does not wait for anything outside. -/
def step? (s : Slots) : Option Slots :=
  match s.finishReleased? with
  | some s => some s
  | none => match s.startNext? with
    | some s => some s
    | none => s.admitNext?

/-- Lets every step happen that can, so many at most. -/
def settleIn : Nat → Slots → Slots
  | 0, s => s
  | n + 1, s =>
    match s.step? with
    | some s => settleIn n s
    | none => s

/-- Takes steps until none is left; each job takes part in three at most. -/
def settle (s : Slots) : Slots :=
  settleIn (3 * (s.waiting.length + s.queued.length + s.running.length)) s

/-- A job that has not ended may end as soon as it runs. -/
def releaseJob (s : Slots) (job : Job) : Slots :=
  if job ∈ s.waiting ++ s.queued ++ s.running then { s with released := s.released ++ [job] }
  else s

/-- A job that still waits for admission leaves, and its release with it. -/
def withdraw (s : Slots) (job : Job) : Slots :=
  if job ∈ s.waiting then
    { s with waiting := s.waiting.erase job, released := s.released.erase job }
  else s

/-- Releases the last job of a name. -/
def release (s : Slots) (name : String) : Slots :=
  (s.lastNamed? name).elim s s.releaseJob

/-- The caller of the last job of a name no longer waits for its admission. -/
def giveUp (s : Slots) (name : String) : Slots :=
  (s.lastNamed? name).elim s s.withdraw

/-- Runs a job that ends by itself. -/
def runJob (s : Slots) (name : String) : Slots := ((s.dispatch name).release name).settle

end Slots

end MountRegistry
