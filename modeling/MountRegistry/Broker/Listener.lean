import MountRegistry.Broker.Basic

/-
  Those who listen to the changes of a store. A listener takes what waits in its mailbox until it is
  closed; one that fails dies at its first change and cannot be closed in order any more.
-/

namespace MountRegistry

/-- Why something that a mount point holds could not be given back. -/
inductive ReleaseFailure where
  | notRegistered (path : String)
  | listenerTerminated (name : String)
  deriving DecidableEq, Repr

/-- The text that is logged for it. -/
def ReleaseFailure.message : ReleaseFailure → String
  | notRegistered path => "mount point " ++ path ++ " is not registered"
  | listenerTerminated name => "listener " ++ name ++ " terminated abnormally"

/-- Whether a listener still listens. A dead one has ended by itself, a closed one was closed. -/
inductive ListenerState where
  | listening
  | dead
  | closed
  deriving DecidableEq, Repr

/-- Something that hears the changes of one store, by a receiver of its own there. -/
structure Listener where
  name : String
  /-- The number of the store. -/
  store : Nat
  receiver : Nat
  fails : Bool := false
  state : ListenerState := .listening
  /-- The changes heard and not yet looked at, oldest first. -/
  heard : List Change := []
  deriving Repr

namespace Listener

/-- A new listener to a store of a broker. -/
def create (pool : StorePool) (b : Broker) (kind : StoreKind) (fails : Bool) :
    StorePool × Listener :=
  let n := b.storeNumber kind
  let (s, receiver) := (pool.store n).subscribe
  (pool.setStore n s, { name := b.listenerName pool kind, store := n, receiver, fails })

/-- Takes what waits. -/
def hear (pool : StorePool) (l : Listener) : StorePool × Listener :=
  match l.state with
  | .listening =>
    let (mailbox, s) := (pool.store l.store).collect l.receiver
    let pool := pool.setStore l.store s
    if l.fails then
      if mailbox.pending.isEmpty then (pool, l)
      else (pool.setStore l.store (s.unsubscribe l.receiver), { l with state := .dead })
    else (pool, { l with heard := l.heard ++ mailbox.pending })
  | _ => (pool, l)

/-- Ends a listener. -/
def close (pool : StorePool) (l : Listener) : StorePool × Listener × Except ReleaseFailure Unit :=
  match l.state with
  | .dead => (pool, l, .error (.listenerTerminated l.name))
  | _ =>
    (pool.setStore l.store ((pool.store l.store).unsubscribe l.receiver),
      { l with state := .closed }, .ok ())

end Listener

end MountRegistry
