import MountRegistry.Commit.Coordinator

/-
  A commit over stores that answer as a script says. Each takes a number of rounds for every call:
  all are called in their order, those that take none answer as they are called, and the others
  answer in the order of their rounds.
-/

namespace MountRegistry

/-- A store whose answers to every call are laid down beforehand. It answers a call after so many
rounds. -/
structure ScriptedStore where
  name : String
  rounds : Nat
  answer : Call → CallAnswer

/-- A call of a store, at its beginning or at its end. -/
structure CallEvent where
  store : String
  call : Call
  ended : Bool
  deriving DecidableEq, Repr

namespace Script

/-- The beginning of a store's call, and the end if it takes no rounds. -/
def start (call : Call) (c : Coordinator × List CallEvent) (s : ScriptedStore × Nat) :
    Coordinator × List CallEvent :=
  let (c, log) := c
  let log := log ++ [⟨s.1.name, call, false⟩]
  if s.1.rounds = 0 then (c.report s.2 (s.1.answer call), log ++ [⟨s.1.name, call, true⟩])
  else (c, log)

/-- The end of a store's call. -/
def finish (call : Call) (c : Coordinator × List CallEvent) (s : ScriptedStore × Nat) :
    Coordinator × List CallEvent :=
  (c.1.report s.2 (s.1.answer call), c.2 ++ [⟨s.1.name, call, true⟩])

/-- One call of every store. -/
def round (stores : List ScriptedStore) (call : Call) (c : Coordinator × List CallEvent) :
    Coordinator × List CallEvent :=
  let numbered := stores.zipIdx
  let slow := (numbered.filter (·.1.rounds != 0)).mergeSort fun a b => a.1.rounds ≤ b.1.rounds
  slow.foldl (finish call) (numbered.foldl (start call) c)

/-- At most `n` calls of every store. -/
def rounds (stores : List ScriptedStore) : Nat → Coordinator × List CallEvent →
    Coordinator × List CallEvent
  | 0, c => c
  | n + 1, c =>
    match c.1.state.call? with
    | some call => rounds stores n (round stores call c)
    | none => c

/-- The commit from its beginning to its end: three phases at most, and an abort. -/
def run (stores : List ScriptedStore) (c : Coordinator) : Coordinator × List CallEvent :=
  rounds stores 4 (c.begin, [])

end Script

end MountRegistry
