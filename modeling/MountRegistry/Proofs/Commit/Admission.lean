import Mathlib.Data.List.Nodup
import MountRegistry.Commit.Slots

/-
  The jobs of a bounded pool, when any job that waits may be the next to be admitted and any
  admitted one the next to start. Every job goes from the waiting to the queued, the running and the
  finished and is in one of these places only (`Sound`). The running are never more than the
  workers, and the admitted never more than the places; a job waits only while the places are taken.
-/

namespace MountRegistry.Slots

/-- Admits a job that waits, if there is a place. -/
def admit? (s : Slots) (job : Job) : Option Slots :=
  if job ∈ s.waiting ∧ 0 < s.available then
    some { s with
      waiting := s.waiting.erase job
      queued := s.queued ++ [job]
      admitted := s.admitted ++ [job] }
  else none

/-- Starts an admitted job, if a worker is free. -/
def start? (s : Slots) (job : Job) : Option Slots :=
  if job ∈ s.queued ∧ s.running.length < s.workers then
    some { s with
      queued := s.queued.erase job
      running := s.running ++ [job]
      started := s.started ++ [job] }
  else none

/-- First come, first served is one of the orders. -/
theorem admitNext?_eq (s : Slots) : s.admitNext? = s.waiting.head?.bind s.admit? := by
  unfold admitNext?
  cases hw : s.waiting with
  | nil => rfl
  | cons job rest => simp [admit?, hw]

theorem startNext?_eq (s : Slots) : s.startNext? = s.queued.head?.bind s.start? := by
  unfold startNext?
  cases hq : s.queued with
  | nil => rfl
  | cons job rest => simp [start?, hq]

/-- What holds of a pool that was made for so many workers and so long a queue. -/
structure Sound (workers queue : Nat) (s : Slots) : Prop where
  workers : s.workers = max workers 1
  queue : s.queue = queue
  tickets : s.dispatched.map Job.ticket = List.range s.dispatched.length
  dispatched : s.dispatched.Perm (s.waiting ++ s.admitted)
  admitted : s.admitted.Perm (s.queued ++ s.started)
  started : s.started.Perm (s.running ++ s.finished)
  running_le : s.running.length ≤ s.workers
  room : s.queued.length + s.running.length ≤ s.capacity

/-- One of the first goes to the end of the others. -/
theorem perm_moved {l m n : List Job} {job : Job} (h : l.Perm (m ++ n)) (hmem : job ∈ m) :
    l.Perm (m.erase job ++ (n ++ [job])) := by
  have hback : (m ++ n).Perm (m.erase job ++ (n ++ [job])) :=
    calc (m ++ n).Perm (job :: m.erase job ++ n) := (List.perm_cons_erase hmem).append_right n
      _ = job :: (m.erase job ++ n) := List.cons_append
      _ |>.Perm (m.erase job ++ n ++ [job]) := (List.perm_append_singleton job _).symm
      _ = m.erase job ++ (n ++ [job]) := List.append_assoc ..
  exact h.trans hback

/-- One that comes to all comes to the first. -/
theorem perm_entered {l m n : List Job} (h : l.Perm (m ++ n)) (job : Job) :
    (l ++ [job]).Perm (m ++ [job] ++ n) :=
  calc (l ++ [job]).Perm (m ++ n ++ [job]) := h.append_right [job]
    _ = m ++ (n ++ [job]) := List.append_assoc ..
    _ |>.Perm (m ++ ([job] ++ n)) := List.perm_append_comm.append_left m
    _ = m ++ [job] ++ n := (List.append_assoc ..).symm

variable {workers queue : Nat} {s s' : Slots} {job : Job}

theorem sound_create (workers queue : Nat) : Sound workers queue (create workers queue) where
  workers := rfl
  queue := rfl
  tickets := rfl
  dispatched := .refl _
  admitted := .refl _
  started := .refl _
  running_le := Nat.zero_le _
  room := Nat.zero_le _

theorem admit?_keeps (h : s.admit? job = some s') :
    s'.dispatched = s.dispatched ∧ s'.finished = s.finished := by
  unfold admit? at h
  split at h
  · cases h
    exact ⟨rfl, rfl⟩
  · cases h

theorem start?_keeps (h : s.start? job = some s') :
    s'.dispatched = s.dispatched ∧ s'.finished = s.finished := by
  unfold start? at h
  split at h
  · cases h
    exact ⟨rfl, rfl⟩
  · cases h

theorem finish_dispatched (s : Slots) (job : Job) : (s.finish job).dispatched = s.dispatched := by
  unfold finish
  split <;> rfl

theorem mem_finished_finish {x : Job} (h : x ∈ (s.finish job).finished) :
    x = job ∨ x ∈ s.finished := by
  unfold finish at h
  split at h
  · rw [List.mem_append, List.mem_singleton] at h
    exact h.symm
  · exact .inr h

namespace Sound

/-! ## The steps of a job -/

theorem dispatch (h : Sound workers queue s) (name : String) :
    Sound workers queue (s.dispatch name) where
  workers := h.workers
  queue := h.queue
  tickets := by
    simp only [Slots.dispatch, List.map_append, List.map_singleton, List.length_append,
      List.length_singleton, List.range_succ, h.tickets]
  dispatched := perm_entered h.dispatched _
  admitted := h.admitted
  started := h.started
  running_le := h.running_le
  room := h.room

theorem admit? (h : Sound workers queue s) (hs : s.admit? job = some s') :
    Sound workers queue s' := by
  unfold Slots.admit? at hs
  split at hs
  · rename_i hcan
    obtain ⟨hmem, hfree⟩ := hcan
    cases hs
    refine ⟨h.workers, h.queue, h.tickets, perm_moved h.dispatched hmem,
      perm_entered h.admitted job, h.started, h.running_le, ?_⟩
    unfold available at hfree
    simp only [List.length_append, List.length_singleton, capacity] at hfree ⊢
    omega
  · cases hs

theorem start? (h : Sound workers queue s) (hs : s.start? job = some s') :
    Sound workers queue s' := by
  unfold Slots.start? at hs
  split at hs
  · rename_i hcan
    obtain ⟨hmem, hfree⟩ := hcan
    cases hs
    have hroom := h.room
    have hlength := List.length_erase_of_mem hmem
    have hpos : 0 < s.queued.length := List.length_pos_of_mem hmem
    refine ⟨h.workers, h.queue, h.tickets, h.dispatched, perm_moved h.admitted hmem,
      perm_entered h.started job, ?_, ?_⟩
    · simp only [List.length_append, List.length_singleton]
      omega
    · simp only [List.length_append, List.length_singleton, capacity] at hroom ⊢
      omega
  · cases hs

theorem finish (h : Sound workers queue s) (job : Job) : Sound workers queue (s.finish job) := by
  unfold Slots.finish
  split
  · rename_i hmem
    have hle : (s.running.erase job).length ≤ s.running.length := List.length_erase_le
    refine ⟨h.workers, h.queue, h.tickets, h.dispatched, h.admitted, perm_moved h.started hmem,
      Nat.le_trans hle h.running_le, Nat.le_trans (Nat.add_le_add_left hle _) h.room⟩
  · exact h

/-! ## What follows for a pool in between -/

theorem dispatched_nodup (h : Sound workers queue s) : s.dispatched.Nodup := by
  refine List.Nodup.of_map Job.ticket ?_
  rw [h.tickets]
  exact List.nodup_range

/-- Every job that asked for admission is in one of four places. -/
theorem perm_places (h : Sound workers queue s) :
    s.dispatched.Perm (s.waiting ++ (s.queued ++ (s.running ++ s.finished))) :=
  h.dispatched.trans ((h.admitted.trans (h.started.append_left _)).append_left _)

/-- The next ticket is that of no job so far. -/
theorem not_finished_next (h : Sound workers queue s) (name : String) :
    ⟨s.dispatched.length, name⟩ ∉ s.finished := by
  intro hmem
  have hdispatched : ⟨s.dispatched.length, name⟩ ∈ s.dispatched :=
    h.perm_places.mem_iff.2 (by simp [hmem])
  have hticket : s.dispatched.length ∈ s.dispatched.map Job.ticket :=
    List.mem_map.2 ⟨_, hdispatched, rfl⟩
  rw [h.tickets, List.mem_range] at hticket
  exact Nat.lt_irrefl _ hticket

/-- No job is started twice. -/
theorem started_nodup (h : Sound workers queue s) : s.started.Nodup := by
  have hclosedted : s.admitted.Nodup := (List.nodup_append'.1
    (h.dispatched.nodup_iff.1 h.dispatched_nodup)).2.1
  exact (List.nodup_append'.1 (h.admitted.nodup_iff.1 hclosedted)).2.1

theorem running_le_workers (h : Sound workers queue s) : s.running.length ≤ max workers 1 :=
  h.workers ▸ h.running_le

/-- The places are those of the jobs that were admitted and have not ended, and the free ones. -/
theorem places (h : Sound workers queue s) :
    s.queued.length + s.running.length + s.available = max workers 1 + queue := by
  have hroom := h.room
  unfold available
  unfold capacity at hroom ⊢
  rw [h.workers, h.queue] at hroom ⊢
  omega

/-- A job that waits is kept waiting by nothing but the others in their places. -/
theorem admit?_eq_none_iff (h : Sound workers queue s) (hjob : job ∈ s.waiting) :
    s.admit? job = none ↔ s.queued.length + s.running.length = max workers 1 + queue := by
  have hplaces := h.places
  unfold Slots.admit?
  split
  · rename_i hcan
    simp only [reduceCtorEq, false_iff]
    omega
  · rename_i hcannot
    simp only [true_iff]
    have hfull : ¬ 0 < s.available := fun hfree => hcannot ⟨hjob, hfree⟩
    omega

/-- With nothing running, and nothing that could be admitted or started, all jobs have ended. -/
theorem idle (h : Sound workers queue s) (hclosed : ∀ job, s.admit? job = none)
    (hstart : ∀ job, s.start? job = none) (hrunning : s.running = []) :
    s.waiting = [] ∧ s.queued = [] := by
  have hworkers := h.workers
  have hqueued : s.queued = [] := by
    refine List.eq_nil_iff_forall_not_mem.2 fun job hmem => ?_
    have hfree : s.running.length < s.workers := by
      rw [hrunning, hworkers, List.length_nil]
      omega
    have hnone := hstart job
    unfold Slots.start? at hnone
    rw [if_pos ⟨hmem, hfree⟩] at hnone
    cases hnone
  refine ⟨List.eq_nil_iff_forall_not_mem.2 fun job hmem => ?_, hqueued⟩
  have hfull := (h.admit?_eq_none_iff hmem).1 (hclosed job)
  rw [hqueued, hrunning] at hfull
  simp only [List.length_nil] at hfull
  omega

end Sound

end MountRegistry.Slots
