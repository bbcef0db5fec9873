import MountRegistry.Proofs.Broker.Traffic
import MountRegistry.Proofs.Commit.Stage

/-
  Every submission comes to an end, whatever its stores answer and whatever else is done to them
  between its calls. A call is a step of the course of the coordinator that begins and ends at once,
  so what holds of courses holds here: as long as there is no result a call is due, and no cohort
  has more than four. So a writer that submits always learns of a result; it is never abandoned.
-/

namespace MountRegistry

/-- What is not a success is the failure of a phase. -/
theorem CommitState.result?_eq_error {state : CommitState} {f : TransactionFailure}
    (h : state.result? = some (.error f)) : ∃ phase cause, f = .phaseFailure phase cause := by
  cases state with
  | failed phase cause =>
    cases h
    exact ⟨phase, cause, rfl⟩
  | _ => cases h

namespace Submission

/-- So many calls were made, and the coordinator is where they led the course of its commit. -/
structure Called (s : Submission) (calls : Nat) : Prop where
  course : ∃ log, Course.Sound s.coordinator.stores ⟨s.coordinator, [], log⟩ ∧
    log.length = 2 * calls
  cohorts : s.cohorts.length = s.coordinator.stores.length

/-- Makes the first call that is due, if one is. -/
def advance (pool : StorePool) (s : Submission) : StorePool × Submission :=
  match s.coordinator.waiting with
  | [] => (pool, s)
  | j :: _ => step pool s j

variable {s : Submission} {pool : StorePool} {calls : Nat}

theorem called_create (cohorts : List (Nat × Cohort)) : (create cohorts).Called 0 := by
  have hstores : (create cohorts).coordinator.stores = cohorts.map (·.2.store) :=
    Coordinator.begin_stores _
  refine ⟨⟨[], ?_, rfl⟩, ?_⟩
  · rw [hstores]
    exact Course.sound_start _
  · rw [hstores, List.length_map]
    rfl

/-- No cohort has more than four calls. -/
theorem Called.le (h : s.Called calls) : calls ≤ 4 * s.cohorts.length := by
  obtain ⟨log, hsound, hlen⟩ := h.course
  have hroom : log.length ≤ 8 * s.coordinator.stores.length := by
    have hroom := hsound.room
    dsimp only [List.length_nil] at hroom
    omega
  have := h.cohorts
  omega

/-- Without a result there is a call that is due on someone who is waited for. -/
theorem Called.asks (h : s.Called calls) (hr : s.coordinator.state.result? = none) :
    s.coordinator.waiting ≠ [] ∧ ∃ call, s.coordinator.state.call? = some call := by
  obtain ⟨log, hsound, _⟩ := h.course
  have hstage : Course.Stage _ log s.coordinator.waiting [] s.coordinator.state := hsound.stage
  cases hstate : s.coordinator.state with
  | opened =>
    rw [hstate] at hstage
    exact hstage.elim
  | running phase first =>
    rw [hstate] at hstage
    exact ⟨hstage.1, _, rfl⟩
  | aborting phase cause =>
    rw [hstate] at hstage
    exact ⟨hstage.1, _, rfl⟩
  | _ =>
    rw [hstate] at hr
    cases hr

/-- An answer is one more call, which the course takes as begun and ended. -/
theorem Called.answered (h : s.Called calls) {j n : Nat} {c : Cohort} {call : Call}
    (due : Broker.Traffic.Due s j n c call) (c' : Cohort) (a : CallAnswer) :
    (Broker.Traffic.answered s j n c' a).Called (calls + 1) := by
  obtain ⟨log, hsound, hlen⟩ := h.course
  have hbegun := hsound.begins due.call due.awaited List.not_mem_nil
  have hended := hbegun.ends (a := a) due.call List.mem_cons_self
  have hstores := Coordinator.report_stores s.coordinator j a
  refine ⟨⟨log ++ [.begins call j] ++ [.ends call j a], ?_, ?_⟩, ?_⟩
  · rw [List.erase_cons_head] at hended
    exact hstores.symm ▸ hended
  · rw [List.length_append, List.length_append, hlen]
    rfl
  · exact (List.length_set.trans h.cohorts).trans (congrArg List.length hstores.symm)

/-- Without a result, advancing makes one more call. -/
theorem Called.advance (h : s.Called calls) (hr : s.coordinator.state.result? = none)
    (pool : StorePool) :
    (s.advance pool).2.Called (calls + 1) ∧
      (s.advance pool).2.cohorts.length = s.cohorts.length := by
  obtain ⟨hw, call, hcall⟩ := h.asks hr
  obtain ⟨j, rest, hj⟩ := List.exists_cons_of_ne_nil hw
  obtain ⟨log, hsound, _⟩ := h.course
  have hin : j ∈ s.coordinator.waiting := hj ▸ List.mem_cons_self
  have hlt : j < s.cohorts.length := h.cohorts ▸ hsound.bound j hin
  have due : Broker.Traffic.Due s j s.cohorts[j].1 s.cohorts[j].2 call :=
    ⟨List.getElem?_eq_getElem hlt, hin, hcall⟩
  have hstep : s.advance pool = s.step pool j := by
    unfold Submission.advance
    rw [hj]
  rw [hstep, due.step rfl]
  exact ⟨h.answered due _ _, List.length_set⟩

/-- With a result there is nothing to advance. -/
theorem advance_of_result? {r : CommitResult} (hr : s.coordinator.state.result? = some r) :
    s.advance pool = (pool, s) := by
  have hcall : s.coordinator.state.call? = none := by
    cases hstate : s.coordinator.state with
    | done => rfl
    | failed phase cause => rfl
    | _ =>
      rw [hstate] at hr
      cases hr
  unfold advance
  split
  · rfl
  · unfold step
    rw [hcall]

/-! ## Driven to the end -/

/-- Driving a submission is advancing it again and again. -/
theorem runIn_succ (fuel : Nat) (pool : StorePool) (s : Submission) :
    runIn (fuel + 1) pool s = runIn fuel (s.advance pool).1 (s.advance pool).2 := by
  rw [runIn, advance]
  cases hw : s.coordinator.waiting with
  | nil =>
    cases fuel with
    | zero => rfl
    | succ fuel => rw [runIn, hw]
  | cons j rest => rfl

theorem runIn_of_result? (fuel : Nat) {r : CommitResult}
    (hr : s.coordinator.state.result? = some r) : runIn fuel pool s = (pool, s) := by
  induction fuel with
  | zero => rfl
  | succ fuel ih => rw [runIn_succ, advance_of_result? hr, ih]

/-- With fuel for the calls that may be left, driving ends with a result. -/
theorem Called.exists_result (h : s.Called calls) (pool : StorePool) {fuel : Nat}
    (hfuel : 4 * s.cohorts.length ≤ calls + fuel) :
    ∃ r, (Submission.runIn fuel pool s).2.coordinator.state.result? = some r := by
  induction fuel generalizing pool s calls with
  | zero =>
    cases hr : s.coordinator.state.result? with
    | some r => exact ⟨r, hr⟩
    | none =>
      obtain ⟨hnext, hlen⟩ := h.advance hr pool
      have := hnext.le
      omega
  | succ fuel ih =>
    cases hr : s.coordinator.state.result? with
    | some r =>
      exact ⟨r, (congrArg (·.2.coordinator.state.result?) (runIn_of_result? _ hr)).trans hr⟩
    | none =>
      obtain ⟨hnext, hlen⟩ := h.advance hr pool
      rw [runIn_succ]
      exact ih hnext _ (by omega)

theorem result_of_result? {r : CommitResult} (hr : s.coordinator.state.result? = some r) :
    s.result = r := by
  unfold result
  rw [hr]
  rfl

end Submission

/-- Whoever submits learns of a result. -/
theorem Writer.submit_ne_abandoned (w : Writer) (pool : StorePool) :
    (w.submit pool).2 ≠ .error .abandoned := by
  have hcalled := Submission.called_create (w.cohorts pool)
  obtain ⟨r, hr⟩ := hcalled.exists_result pool (Nat.le_of_eq (Nat.zero_add _).symm)
  have hresult : (w.submit pool).2 = r := Submission.result_of_result? hr
  rw [hresult]
  rintro rfl
  obtain ⟨phase, cause, hf⟩ := CommitState.result?_eq_error hr
  cases hf

end MountRegistry
