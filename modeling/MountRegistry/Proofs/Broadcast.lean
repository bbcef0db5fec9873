import MountRegistry.Broadcast

/-
  The mailbox of a receiver after each thing that can happen to a channel. Sending puts the item
  into every mailbox, collecting empties one, and receivers that come or go leave the others what
  they have; a receiver that comes has a number that none had before (`mailbox?_subscribe`).
-/

namespace MountRegistry.Broadcast

variable {α : Type} (b : Broadcast α)

/-- The mailbox of a receiver, as long as it is there. -/
def mailbox? (receiver : Nat) : Option (Mailbox α) := b.mailboxes.lookup receiver

/-- Every receiver has a number that was given out. -/
def Numbered : Prop := ∀ x ∈ b.mailboxes, x.1 < b.nextReceiver

theorem lookup_cons_eq (r : Nat) (m : Mailbox α) (rest : List (Nat × Mailbox α)) (receiver : Nat) :
    ((r, m) :: rest).lookup receiver = if receiver = r then some m else rest.lookup receiver := by
  rw [List.lookup_cons]
  by_cases h : receiver = r
  · rw [if_pos h, beq_iff_eq.2 h]
  · rw [if_neg h, beq_eq_false_iff_ne.2 h]

theorem mailbox?_send (a : α) (receiver : Nat) :
    (b.send a).mailbox? receiver = (b.mailbox? receiver).map (·.push b.capacity a) := by
  unfold mailbox? send
  dsimp only
  induction b.mailboxes with
  | nil => rfl
  | cons x xs ih =>
    rw [List.map_cons, lookup_cons_eq, lookup_cons_eq x.1 x.2, ih]
    split <;> rfl

theorem mailbox?_collect (r receiver : Nat) :
    (b.collect r).2.mailbox? receiver =
      (b.mailbox? receiver).map fun m => if receiver = r then {} else m := by
  unfold mailbox? collect
  dsimp only
  induction b.mailboxes with
  | nil => rfl
  | cons x xs ih =>
    obtain ⟨k, m⟩ := x
    have hhead : (if k = r then (k, ({} : Mailbox α)) else (k, m)) =
        (k, if k = r then {} else m) := by split <;> rfl
    rw [List.map_cons, hhead, lookup_cons_eq, lookup_cons_eq k m, ih]
    by_cases hk : receiver = k
    · simp [hk]
    · simp [hk]

theorem mailbox?_unsubscribe (r receiver : Nat) :
    (b.unsubscribe r).mailbox? receiver = if receiver = r then none else b.mailbox? receiver := by
  unfold mailbox? unsubscribe
  dsimp only
  induction b.mailboxes with
  | nil => simp
  | cons x xs ih =>
    obtain ⟨k, m⟩ := x
    rw [lookup_cons_eq]
    by_cases hk : k = r
    · have hgone : ((k, m) :: xs).filter (·.1 != r) = xs.filter (·.1 != r) := by simp [hk]
      rw [hgone, ih, hk]
      split <;> rfl
    · have hstays : ((k, m) :: xs).filter (·.1 != r) = (k, m) :: xs.filter (·.1 != r) := by
        simp [hk]
      rw [hstays, lookup_cons_eq, ih]
      by_cases hr : receiver = k
      · have hne : receiver ≠ r := fun heq => hk (hr.symm.trans heq)
        rw [if_pos hr, if_neg hne, if_pos hr]
      · rw [if_neg hr, if_neg hr]

variable {b}

theorem Numbered.mailbox?_eq_none (h : b.Numbered) {receiver : Nat}
    (hr : b.nextReceiver ≤ receiver) : b.mailbox? receiver = none := by
  refine List.lookup_eq_none_iff.2 fun x hx => bne_iff_ne.2 ?_
  have := h x hx
  omega

theorem mailbox?_subscribe (h : b.Numbered) (receiver : Nat) :
    b.subscribe.1.mailbox? receiver =
      if receiver = b.nextReceiver then some {} else b.mailbox? receiver := by
  have happend : b.subscribe.1.mailbox? receiver =
      (b.mailbox? receiver).or ([(b.nextReceiver, ({} : Mailbox α))].lookup receiver) :=
    List.lookup_append
  rw [happend, lookup_cons_eq]
  split
  · rename_i hr
    rw [h.mailbox?_eq_none (Nat.le_of_eq hr.symm)]
    rfl
  · rw [List.lookup_nil, Option.or_none]

theorem Numbered.subscribe (h : b.Numbered) : b.subscribe.1.Numbered := by
  intro x hx
  show x.1 < b.nextReceiver + 1
  rcases List.mem_append.1 hx with hx | hx
  · exact Nat.lt_succ_of_lt (h x hx)
  · rw [List.mem_singleton.1 hx]
    exact Nat.lt_succ_self _

theorem Numbered.unsubscribe (h : b.Numbered) (r : Nat) : (b.unsubscribe r).Numbered :=
  fun x hx => h x (List.mem_filter.1 hx).1

theorem Numbered.send (h : b.Numbered) (a : α) : (b.send a).Numbered := by
  intro x hx
  obtain ⟨y, hy, rfl⟩ := List.mem_map.1 hx
  exact h y hy

theorem Numbered.collect (h : b.Numbered) (r : Nat) : (b.collect r).2.Numbered := by
  intro x hx
  obtain ⟨y, hy, rfl⟩ := List.mem_map.1 hx
  have hy := h y hy
  dsimp only
  split <;> exact hy

end MountRegistry.Broadcast
