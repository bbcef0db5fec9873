/-
  A channel on which every receiver gets every item sent after it joined. Each receiver has a
  mailbox of bounded size; an item that finds it full takes the place of the oldest, which counts
  as missed.
-/

namespace MountRegistry

/-- What is kept for one receiver: items to collect, and how many of them were lost. -/
structure Mailbox (α : Type) where
  /-- Items lost since the mailbox was last emptied. -/
  missed : Nat := 0
  /-- The items waiting, oldest first. -/
  pending : List α := []
  deriving Repr

/-- Adds an item. A full mailbox loses its oldest one for it. -/
def Mailbox.push {α : Type} (capacity : Nat) (m : Mailbox α) (a : α) : Mailbox α :=
  if m.pending.length < capacity then { m with pending := m.pending ++ [a] }
  else { missed := m.missed + 1, pending := m.pending.tail ++ [a] }

/-- A channel with any number of receivers, each with a mailbox of its own. -/
structure Broadcast (α : Type) where
  /-- The size of every mailbox. -/
  capacity : Nat
  /-- The number that the next receiver gets. -/
  nextReceiver : Nat := 0
  mailboxes : List (Nat × Mailbox α) := []
  deriving Repr

namespace Broadcast

variable {α : Type}

/-- A channel whose mailboxes hold the given number of items, rounded up to a power of two. -/
def ofCapacity (n : Nat) : Broadcast α := { capacity := (max n 1).nextPowerOfTwo }

/-- The number of receivers. -/
def receivers (b : Broadcast α) : Nat := b.mailboxes.length

/-- A new receiver with an empty mailbox. -/
def subscribe (b : Broadcast α) : Broadcast α × Nat :=
  ({ b with
      nextReceiver := b.nextReceiver + 1
      mailboxes := b.mailboxes ++ [(b.nextReceiver, {})] },
    b.nextReceiver)

/-- The receiver goes, with all that waits for it. -/
def unsubscribe (b : Broadcast α) (receiver : Nat) : Broadcast α :=
  { b with mailboxes := b.mailboxes.filter (·.1 != receiver) }

/-- Puts the item into every mailbox there is. -/
def send (b : Broadcast α) (a : α) : Broadcast α :=
  { b with mailboxes := b.mailboxes.map fun (r, m) => (r, m.push b.capacity a) }

/-- What waits for a receiver, whose mailbox is emptied. -/
def collect (b : Broadcast α) (receiver : Nat) : Mailbox α × Broadcast α :=
  ((b.mailboxes.lookup receiver).getD {},
    { b with mailboxes := b.mailboxes.map fun (r, m) => if r = receiver then (r, {}) else (r, m) })

end Broadcast

end MountRegistry
