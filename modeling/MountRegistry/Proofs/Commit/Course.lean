import MountRegistry.Commit.Coordinator

/-
  The course of a commit. The coordinator asks all stores at once; each call begins after that when
  it likes and ends with whatever answer, before or after the calls of other stores. The coordinator
  forgets what is past; the course keeps every beginning and end of a call, in order.

  What the log tells is how often a call of a store has begun and ended, and which failure of a
  phase came first; the last is read off the answers alone, not off the state of the coordinator.
-/

namespace MountRegistry

namespace Coordinator

/-! ## Who is awaited -/

theorem begin_stores (c : Coordinator) : c.begin.stores = c.stores := by
  unfold Coordinator.begin
  split <;> rfl

theorem begin_waiting_nodup (c : Coordinator) : c.begin.waiting.Nodup := by
  unfold Coordinator.begin
  split
  · exact List.nodup_nil
  · exact List.nodup_range

theorem conclude_stores (c : Coordinator) (phase : Phase) (first : Option StoreFailure) :
    (c.conclude phase first).stores = c.stores := by
  unfold conclude
  split <;> rfl

theorem report_stores (c : Coordinator) (j : Nat) (a : CallAnswer) :
    (c.report j a).stores = c.stores := by
  unfold report
  split
  · cases c.state with
    | running phase first =>
      dsimp only
      split
      · exact conclude_stores c phase _
      · rfl
    | _ => rfl
  · rfl

theorem conclude_waiting_nodup (c : Coordinator) (phase : Phase) (first : Option StoreFailure) :
    (c.conclude phase first).waiting.Nodup := by
  unfold conclude
  split
  · exact List.nodup_range
  · exact List.nodup_range
  · exact List.nodup_nil

theorem report_waiting_nodup {c : Coordinator} (h : c.waiting.Nodup) (j : Nat) (a : CallAnswer) :
    (c.report j a).waiting.Nodup := by
  unfold report
  split
  · cases c.state with
    | running phase first =>
      dsimp only
      split
      · exact conclude_waiting_nodup c phase _
      · exact h.erase j
    | aborting phase cause => exact h.erase j
    | _ => exact h
  · exact h

theorem conclude_waiting_lt (c : Coordinator) (phase : Phase) (first : Option StoreFailure) :
    ∀ i ∈ (c.conclude phase first).waiting, i < c.stores.length := by
  unfold conclude
  split
  · exact fun i => List.mem_range.1
  · exact fun i => List.mem_range.1
  · exact fun i hi => nomatch hi

theorem report_waiting_lt {c : Coordinator} (h : ∀ i ∈ c.waiting, i < c.stores.length) (j : Nat)
    (a : CallAnswer) : ∀ i ∈ (c.report j a).waiting, i < c.stores.length := by
  have herase : ∀ i ∈ c.waiting.erase j, i < c.stores.length := fun i hi =>
    h i (List.mem_of_mem_erase hi)
  unfold report
  split
  · cases c.state with
    | running phase first =>
      dsimp only
      split
      · exact conclude_waiting_lt c phase _
      · exact herase
    | aborting phase cause => exact herase
    | _ => exact h
  · exact h

end Coordinator

/-- The place of a phase among the phases. -/
def Phase.place : Phase → Nat
  | .canCommit => 0
  | .preCommit => 1
  | .commit => 2

theorem Phase.place_inj {p q : Phase} (h : p.place = q.place) : p = q := by
  cases p <;> cases q <;> first | rfl | cases h

theorem Phase.place_lt_of_next? {p q : Phase} (h : p.next? = some q) (r : Phase) :
    r.place < q.place ↔ r = p ∨ r.place < p.place := by
  cases p <;> cases h <;> cases r <;> decide

theorem Phase.eq_commit_of_next? {p : Phase} (h : p.next? = none) : p = .commit := by
  cases p <;> first | rfl | cases h

theorem Phase.place_le_commit (p : Phase) : p.place ≤ Phase.commit.place := by
  cases p <;> decide

/-! ## Courses -/

namespace Course

/-- A call of a store, known by its place, begins or ends. -/
inductive Event where
  | begins (call : Call) (store : Nat)
  | ends (call : Call) (store : Nat) (answer : CallAnswer)

/-- What a store does next, by its place: it takes the call that is due, or answers it. -/
inductive Move where
  | call (store : Nat)
  | answer (store : Nat) (answer : CallAnswer)

end Course

/-- A commit on its way, with the calls in between and all that has happened. -/
structure Course where
  coordinator : Coordinator
  /-- The stores whose call has begun and not ended. -/
  busy : List Nat
  log : List Course.Event

namespace Course

/-- The course of a commit over these stores, before any call. -/
def start (stores : List String) : Course := ⟨Coordinator.begin { stores }, [], []⟩

/-- A call that is asked for begins, once; one that has begun ends. -/
def step (s : Course) (m : Move) : Course :=
  match s.coordinator.state.call?, m with
  | some call, .call j =>
    if j ∈ s.coordinator.waiting ∧ j ∉ s.busy then
      { s with busy := j :: s.busy, log := s.log ++ [.begins call j] }
    else s
  | some call, .answer j a =>
    if j ∈ s.busy then ⟨s.coordinator.report j a, s.busy.erase j, s.log ++ [.ends call j a]⟩ else s
  | none, _ => s

/-- The course after these moves. -/
def after (s : Course) : List Move → Course
  | [] => s
  | m :: ms => (s.step m).after ms

/-! ## What the log tells -/

/-- A call of this store begins. -/
def Event.isBegin (call : Call) (j : Nat) : Event → Bool
  | .begins c i => c = call && i = j
  | .ends _ _ _ => false

/-- A call of this store ends. -/
def Event.isEnd (call : Call) (j : Nat) : Event → Bool
  | .begins _ _ => false
  | .ends c i _ => c = call && i = j

/-- How often the call of a store has begun. -/
def begun (log : List Event) (call : Call) (j : Nat) : Nat := log.countP (·.isBegin call j)

/-- How often the call of a store has ended. -/
def ended (log : List Event) (call : Call) (j : Nat) : Nat := log.countP (·.isEnd call j)

/-- The failure that an event is in a phase: an answer that is one, or a vote against. -/
def Event.failure? (stores : List String) (phase : Phase) : Event → Option StoreFailure
  | .ends (.phase p) _ (.error cause) => if p = phase then some cause else none
  | .ends (.phase .canCommit) j (.ok false) =>
    if phase = .canCommit then some (.rejected (stores.getD j "")) else none
  | _ => none

/-- The failure of a phase that came first. -/
def firstFailure? (stores : List String) (phase : Phase) (log : List Event) : Option StoreFailure :=
  log.findSome? (·.failure? stores phase)

/-- The call that begins or ends. -/
def Event.call : Event → Call
  | .begins call _ => call
  | .ends call _ _ => call

section
variable (log : List Event) (call : Call) (i j : Nat) (a : CallAnswer) (stores : List String)
  (p : Phase)

theorem begun_begins :
    begun (log ++ [.begins call i]) call j = begun log call j + if i = j then 1 else 0 := by
  simp [begun, List.countP_append, List.countP_singleton, Event.isBegin]

theorem begun_ends : begun (log ++ [.ends call i a]) call j = begun log call j := by
  simp [begun, List.countP_append, Event.isBegin]

theorem ended_begins : ended (log ++ [.begins call i]) call j = ended log call j := by
  simp [ended, List.countP_append, Event.isEnd]

theorem ended_ends :
    ended (log ++ [.ends call i a]) call j = ended log call j + if i = j then 1 else 0 := by
  simp [ended, List.countP_append, List.countP_singleton, Event.isEnd]

theorem firstFailure?_concat (e : Event) :
    firstFailure? stores p (log ++ [e]) =
      (firstFailure? stores p log).orElse fun _ => e.failure? stores p := by
  unfold firstFailure?
  rw [List.findSome?_append, List.findSome?_singleton]
  cases log.findSome? (·.failure? stores p) <;> rfl

end

section
variable {log : List Event} {e : Event} {call : Call} {stores : List String} {p : Phase}

theorem begun_concat_of_ne (h : e.call ≠ call) (j : Nat) :
    begun (log ++ [e]) call j = begun log call j := by
  cases e with
  | begins c i =>
    have hc : c ≠ call := h
    simp [begun, List.countP_append, Event.isBegin, hc]
  | ends c i a => simp [begun, List.countP_append, Event.isBegin]

theorem ended_concat_of_ne (h : e.call ≠ call) (j : Nat) :
    ended (log ++ [e]) call j = ended log call j := by
  cases e with
  | begins c i => simp [ended, List.countP_append, Event.isEnd]
  | ends c i a =>
    have hc : c ≠ call := h
    simp [ended, List.countP_append, Event.isEnd, hc]

theorem failure?_of_ne (h : e.call ≠ .phase p) : e.failure? stores p = none := by
  unfold Event.failure?
  split
  · rename_i q _ _
    exact if_neg fun hq => h (congrArg Call.phase hq)
  · exact if_neg fun hp => h (congrArg Call.phase hp.symm)
  · rfl

theorem firstFailure?_concat_of_ne (h : e.call ≠ .phase p) :
    firstFailure? stores p (log ++ [e]) = firstFailure? stores p log := by
  rw [firstFailure?_concat, failure?_of_ne h]
  cases firstFailure? stores p log <;> rfl

/-- The failure of an answer is the one that the coordinator sees in it. -/
theorem failure?_ends (c : Coordinator) (p : Phase) (j : Nat) (a : CallAnswer) :
    (Event.ends (.phase p) j a).failure? c.stores p = c.failureIn p j a := by
  cases a with
  | error cause => exact if_pos rfl
  | ok vote =>
    cases p <;> cases vote <;> rfl

end

/-! ## What a move can do -/

/-- The effects of a move, with what had to hold for them. -/
inductive Effect (s : Course) : Course → Prop
  | idle : Effect s s
  | begins (call : Call) (j : Nat) (asked : s.coordinator.state.call? = some call)
    (waits : j ∈ s.coordinator.waiting) (free : j ∉ s.busy) :
    Effect s { s with busy := j :: s.busy, log := s.log ++ [.begins call j] }
  | ends (call : Call) (j : Nat) (a : CallAnswer) (asked : s.coordinator.state.call? = some call)
    (busy : j ∈ s.busy) :
    Effect s ⟨s.coordinator.report j a, s.busy.erase j, s.log ++ [.ends call j a]⟩

theorem effect_step (s : Course) (m : Move) : Effect s (s.step m) := by
  unfold step
  split
  · rename_i call j asked
    split
    · rename_i h
      exact .begins call j asked h.1 h.2
    · exact .idle
  · rename_i call j a asked
    split
    · rename_i h
      exact .ends call j a asked h
    · exact .idle
  · exact .idle

end Course

end MountRegistry
