import MountRegistry.Commit.Phase

/-
  The delivery of a result to whoever waits for it. The handle delivers once; if it is dropped
  first, the one who waits learns that no result will come.
-/

namespace MountRegistry

/-- The writing end of a completion. -/
inductive Handle where
  | ready
  | used
  | dropped
  deriving DecidableEq, Repr

/-- The reading end of a completion. -/
inductive Awaited where
  | pending
  | resolved (result : CommitResult)
  /-- The result was taken, or nobody waits any more. -/
  | gone
  deriving Repr

/-- A result that is handed over once, from who makes it to who waits for it. -/
structure Completion where
  handle : Handle := .ready
  awaited : Awaited := .pending
  deriving Repr

namespace Completion

/-- The result reaches who waits, unless there is one already or nobody waits. -/
def resolve (c : Completion) (result : CommitResult) : Awaited :=
  match c.awaited with
  | .pending => .resolved result
  | a => a

/-- Delivers a result, and answers whether it was the first; a dropped handle delivers nothing. -/
def complete (c : Completion) (result : CommitResult) : Completion × Option Bool :=
  match c.handle with
  | .ready => ({ handle := .used, awaited := c.resolve result }, some true)
  | .used => (c, some false)
  | .dropped => (c, none)

/-- Dropping the writing end unused tells who waits that no result will come. -/
def dropHandle (c : Completion) : Completion :=
  match c.handle with
  | .ready => { handle := .dropped, awaited := c.resolve (.error .abandoned) }
  | _ => { c with handle := .dropped }

/-- Nobody waits any more. -/
def dropAwaited (c : Completion) : Completion := { c with awaited := .gone }

/-- Looks for the result; one that is there is taken. -/
def poll (c : Completion) : Completion × Awaited :=
  match c.awaited with
  | .resolved _ => ({ c with awaited := .gone }, c.awaited)
  | a => (c, a)

end Completion

end MountRegistry
