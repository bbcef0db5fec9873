import MountRegistry.Broker.Submission
import MountRegistry.Proofs.Commit.Course

/-
  How far a submission has come, told by what it has installed. `parts` is what it is to install:
  the edits for each store, by the number of the store, in the order of the cohorts. `made` is what
  it has installed in each store. Before the commit phase that is nothing; in the commit phase each
  part is installed by the call of its cohort or not at all, and a part that was asked for and is
  not there stands for a failure (`Underway`). So a submission that is done has installed every
  part, and one that failed in the commit phase lacks one (`Partial`).
-/

namespace MountRegistry

namespace Broker

variable {made made' : Nat → List (List Edit)} {parts : List (Nat × List Edit)}

/-- The commit phase, with the parts asked for that are not awaited any more. -/
structure Underway (made : Nat → List (List Edit)) (parts : List (Nat × List Edit))
    (waiting : List Nat) (first : Option StoreFailure) : Prop where
  each : ∀ j n es, parts[j]? = some (n, es) → made n = [] ∨ (j ∉ waiting ∧ made n = [es])
  whole : first = none → ∀ j n es, parts[j]? = some (n, es) → j ∉ waiting → made n = [es]
  lacking : first ≠ none → ∃ j n es, parts[j]? = some (n, es) ∧ j ∉ waiting ∧ made n = []

/-- Every part is installed as a whole or not at all, and one is not. -/
structure Partial (made : Nat → List (List Edit)) (parts : List (Nat × List Edit)) : Prop where
  each : ∀ n es, (n, es) ∈ parts → made n = [] ∨ made n = [es]
  lacking : ∃ n es, (n, es) ∈ parts ∧ made n = []

/-- What a submission in this state has installed. -/
def Progress (made : Nat → List (List Edit)) (parts : List (Nat × List Edit))
    (waiting : List Nat) : CommitState → Prop
  | .opened => False
  | .running .commit first => Underway made parts waiting first
  | .running _ _ => ∀ n, made n = []
  | .aborting phase _ | .failed phase _ =>
    Partial made parts ∧ (phase ≠ .commit → ∀ n, made n = [])
  | .done => ∀ n es, (n, es) ∈ parts → made n = [es]

/-! ## The commit phase -/

theorem underway_begin (h : ∀ n, made n = []) (first : Option StoreFailure) (hf : first = none) :
    Underway made parts (List.range parts.length) first where
  each := fun _ n _ _ => .inl (h n)
  whole := fun _ _ _ _ hj hout =>
    absurd (List.mem_range.2 (List.getElem?_eq_some_iff.1 hj).1) hout
  lacking := fun hne => absurd hf hne

/-- Two places of one store are one place. -/
theorem place_unique (hn : (parts.map (·.1)).Nodup) {j k n : Nat} {es fs : List Edit}
    (hj : parts[j]? = some (n, es)) (hk : parts[k]? = some (n, fs)) : j = k := by
  have hlt : j < (parts.map (·.1)).length := by
    rw [List.length_map]
    exact (List.getElem?_eq_some_iff.1 hj).1
  refine (List.getElem?_inj hlt hn).1 ?_
  rw [List.getElem?_map, List.getElem?_map, hj, hk]
  rfl

/-- A call of the commit phase installs its part, or is a failure. -/
theorem Underway.answer {waiting : List Nat} {first first' : Option StoreFailure}
    (h : Underway made parts waiting first) (hw : waiting.Nodup)
    (hn : (parts.map (·.1)).Nodup) {j n : Nat} {es : List Edit} (hj : j ∈ waiting)
    (hp : parts[j]? = some (n, es)) (others : ∀ m, m ≠ n → made' m = made m)
    (mine : (made' n = [es] ∧ first' = first) ∨ (made' n = [] ∧ first' ≠ none)) :
    Underway made' parts (waiting.erase j) first' := by
  have gone : j ∉ waiting.erase j := fun hin => (hw.mem_erase_iff.1 hin).1 rfl
  have apart : ∀ {k m fs}, parts[k]? = some (m, fs) → k ≠ j → m ≠ n := by
    rintro k m fs hk hkj rfl
    exact hkj (place_unique hn hk hp)
  refine ⟨?_, ?_, ?_⟩
  · intro k m fs hk
    by_cases hkj : k = j
    · subst hkj
      rw [hp] at hk
      cases hk
      rcases mine with ⟨hm, _⟩ | ⟨hm, _⟩
      · exact .inr ⟨gone, hm⟩
      · exact .inl hm
    · rw [others m (apart hk hkj)]
      exact (h.each k m fs hk).imp_right fun ⟨hout, hm⟩ =>
        ⟨fun hin => hout (List.mem_of_mem_erase hin), hm⟩
  · intro hf k m fs hk hout
    rcases mine with ⟨hm, hfirst⟩ | ⟨_, hfirst⟩
    · by_cases hkj : k = j
      · subst hkj
        rw [hp] at hk
        cases hk
        exact hm
      · rw [others m (apart hk hkj)]
        exact h.whole (hfirst ▸ hf) k m fs hk fun hin => hout (hw.mem_erase_iff.2 ⟨hkj, hin⟩)
    · exact absurd hf hfirst
  · intro hf
    rcases mine with ⟨_, hfirst⟩ | ⟨hm, _⟩
    · obtain ⟨k, m, fs, hk, hout, hmk⟩ := h.lacking (hfirst ▸ hf)
      have hkj : k ≠ j := by
        rintro rfl
        exact hout hj
      refine ⟨k, m, fs, hk, fun hin => hout (List.mem_of_mem_erase hin), ?_⟩
      rw [others m (apart hk hkj), hmk]
    · exact ⟨j, n, es, hp, gone, hm⟩

theorem Underway.conclude {c : Coordinator} {first : Option StoreFailure}
    (h : Underway made parts [] first) :
    Progress made parts (c.conclude .commit first).waiting (c.conclude .commit first).state := by
  cases first with
  | none =>
    intro n es hin
    obtain ⟨j, hj⟩ := List.getElem?_of_mem hin
    exact h.whole rfl j n es hj List.not_mem_nil
  | some cause =>
    refine ⟨⟨?_, ?_⟩, fun hne => absurd rfl hne⟩
    · intro n es hin
      obtain ⟨j, hj⟩ := List.getElem?_of_mem hin
      exact (h.each j n es hj).imp_right And.right
    · obtain ⟨j, n, es, hj, _, hm⟩ := h.lacking (Option.some_ne_none cause)
      exact ⟨n, es, List.mem_of_getElem? hj, hm⟩

/-! ## One answer -/

theorem Progress.begin (h : ∀ n, made n = []) {c : Coordinator}
    (hl : c.stores.length = parts.length) :
    Progress made parts c.begin.waiting c.begin.state := by
  unfold Coordinator.begin
  split
  · rename_i hempty
    rw [List.isEmpty_iff.1 hempty] at hl
    rw [List.length_eq_zero_iff.1 hl.symm]
    intro n es hin
    cases hin
  · exact h

theorem running_of_call? {state : CommitState} (h : state.call? = some (.phase .commit)) :
    ∃ first, state = .running .commit first := by
  unfold CommitState.call? at h
  split at h
  · rename_i phase first
    cases h
    exact ⟨first, rfl⟩
  · cases h
  · cases h

/-- Whatever the state, a part is installed as a whole or not at all. -/
theorem Progress.each {waiting : List Nat} {state : CommitState}
    (h : Progress made parts waiting state) {n : Nat} {es : List Edit} (hp : (n, es) ∈ parts) :
    made n = [] ∨ made n = [es] := by
  cases state with
  | opened => exact h.elim
  | running phase first =>
    cases phase with
    | commit =>
      obtain ⟨j, hj⟩ := List.getElem?_of_mem hp
      exact (Underway.each h j n es hj).imp_right And.right
    | _ => exact .inl (h n)
  | aborting phase cause => exact h.1.each n es hp
  | done => exact .inr (h n es hp)
  | failed phase cause => exact h.1.each n es hp

/-- A part that the commit phase still waits for is not installed. -/
theorem Progress.awaited {waiting : List Nat} {state : CommitState}
    (h : Progress made parts waiting state) (hs : state.call? = some (.phase .commit)) {j n : Nat}
    {es : List Edit} (hj : j ∈ waiting) (hp : parts[j]? = some (n, es)) : made n = [] := by
  obtain ⟨first, rfl⟩ := running_of_call? hs
  rcases Underway.each h j n es hp with hm | ⟨hout, _⟩
  · exact hm
  · exact absurd hj hout

theorem Progress.report_commit {c : Coordinator} (h : Progress made parts c.waiting c.state)
    (hw : c.waiting.Nodup) (hn : (parts.map (·.1)).Nodup) {j n : Nat} {es : List Edit}
    (hj : j ∈ c.waiting) (hp : parts[j]? = some (n, es))
    (hc : c.state.call? = some (.phase .commit)) (others : ∀ m, m ≠ n → made' m = made m)
    {a : CallAnswer} (mine : (made' n = [es] ∧ a = .ok true) ∨ (made' n = [] ∧ ∃ e, a = .error e)) :
    Progress made' parts (c.report j a).waiting (c.report j a).state := by
  obtain ⟨first, hstate⟩ := running_of_call? hc
  rw [hstate] at h
  have hu : Underway made' parts (c.waiting.erase j)
      (first.orElse fun _ => c.failureIn .commit j a) := by
    refine Underway.answer h hw hn hj hp others ?_
    rcases mine with ⟨hm, rfl⟩ | ⟨hm, e, rfl⟩
    · refine .inl ⟨hm, ?_⟩
      cases first <;> rfl
    · refine .inr ⟨hm, ?_⟩
      cases first <;> exact Option.some_ne_none _
  unfold Coordinator.report
  rw [if_pos hj, hstate]
  dsimp only
  split
  · rename_i hempty
    rw [List.isEmpty_iff.1 hempty] at hu
    exact hu.conclude
  · exact hu

theorem Progress.report_other {c : Coordinator} (h : Progress made parts c.waiting c.state)
    (hl : c.stores.length = parts.length) {j n : Nat} {es : List Edit} (hj : j ∈ c.waiting)
    (hp : parts[j]? = some (n, es)) (hc : c.state.call? ≠ some (.phase .commit)) (a : CallAnswer) :
    Progress made parts (c.report j a).waiting (c.report j a).state := by
  unfold Coordinator.report
  rw [if_pos hj]
  cases hstate : c.state with
  | running phase first =>
    rw [hstate] at h hc
    have hphase : phase ≠ .commit := by
      rintro rfl
      exact hc rfl
    have hnone : ∀ m, made m = [] := by
      cases phase with
      | commit => exact absurd rfl hphase
      | _ => exact h
    dsimp only
    split
    · cases first.orElse fun _ => c.failureIn phase j a with
      | some cause =>
        exact ⟨⟨fun m fs _ => .inl (hnone m), n, es, List.mem_of_getElem? hp, hnone n⟩,
          fun _ => hnone⟩
      | none =>
        cases phase with
        | canCommit => exact hnone
        | preCommit =>
          change Underway made parts (List.range c.stores.length) none
          rw [hl]
          exact underway_begin hnone none rfl
        | commit => exact absurd rfl hphase
    · cases phase with
      | commit => exact absurd rfl hphase
      | _ => exact hnone
  | aborting phase cause =>
    rw [hstate] at h
    dsimp only
    split <;> exact h
  | _ => exact h

/-! ## Preparations -/

/-- Whom the commit phase waits for has prepared: a cohort that answered in the phase before, with
no failure so far, holds a preparation, and keeps it until its commit. -/
def Primed (cohorts : List (Nat × Cohort)) (waiting : List Nat) : CommitState → Prop
  | .running .preCommit none =>
    ∀ j n c, cohorts[j]? = some (n, c) → j ∉ waiting → c.prepared.isSome
  | .running .commit _ => ∀ j n c, cohorts[j]? = some (n, c) → j ∈ waiting → c.prepared.isSome
  | _ => True

theorem primed_begin (cohorts : List (Nat × Cohort)) (c : Coordinator) :
    Primed cohorts c.begin.waiting c.begin.state := by
  unfold Coordinator.begin
  split <;> trivial

/-- Without a failure so far, all that answered have prepared, the last one among them. -/
theorem Primed.answered {c : Coordinator} {cohorts : List (Nat × Cohort)} {waiting : List Nat}
    {first : Option StoreFailure} (h : Primed cohorts waiting (.running .preCommit first))
    (hw : waiting.Nodup) {j n : Nat} {co : Cohort} {a : CallAnswer}
    (answer : co.prepared.isSome ∨ ∃ e, a = .error e)
    (hf : (first.orElse fun _ => c.failureIn .preCommit j a) = none) {k m : Nat} {d : Cohort}
    (hk : (cohorts.set j (n, co))[k]? = some (m, d)) (hout : k ∉ waiting.erase j) :
    d.prepared.isSome := by
  cases first with
  | some cause => cases hf
  | none =>
    rw [List.getElem?_set] at hk
    split at hk
    · split at hk
      · cases hk
        rcases answer with hs | ⟨e, rfl⟩
        · exact hs
        · cases hf
      · cases hk
    · rename_i hjk
      exact h k m d hk fun hin => hout (hw.mem_erase_iff.2 ⟨Ne.symm hjk, hin⟩)

theorem Primed.report {c : Coordinator} {cohorts : List (Nat × Cohort)}
    (h : Primed cohorts c.waiting c.state) (hw : c.waiting.Nodup)
    (hl : c.stores.length = cohorts.length) {j n : Nat} {co : Cohort} {a : CallAnswer}
    (hj : j ∈ c.waiting)
    (answer : c.state.call? = some (.phase .preCommit) → co.prepared.isSome ∨ ∃ e, a = .error e) :
    Primed (cohorts.set j (n, co)) (c.report j a).waiting (c.report j a).state := by
  unfold Coordinator.report
  rw [if_pos hj]
  cases hstate : c.state with
  | running phase first =>
    rw [hstate] at h answer
    cases phase with
    | canCommit =>
      dsimp only
      split
      · cases first.orElse fun _ => c.failureIn .canCommit j a with
        | some cause => trivial
        | none =>
          intro k m d hk hout
          have hlt := (List.getElem?_eq_some_iff.1 hk).1
          rw [List.length_set, ← hl] at hlt
          exact absurd (List.mem_range.2 hlt) hout
      · trivial
    | preCommit =>
      dsimp only
      split
      · rename_i hempty
        cases hf : first.orElse fun _ => c.failureIn .preCommit j a with
        | some cause => trivial
        | none =>
          intro k m d hk _
          refine h.answered hw (answer rfl) hf hk ?_
          rw [List.isEmpty_iff.1 hempty]
          exact List.not_mem_nil
      · cases hf : first.orElse fun _ => c.failureIn .preCommit j a with
        | some cause => trivial
        | none => exact fun k m d hk hout => h.answered hw (answer rfl) hf hk hout
    | commit =>
      dsimp only
      split
      · cases first.orElse fun _ => c.failureIn .commit j a <;> trivial
      · intro k m d hk hin
        obtain ⟨hkj, hin⟩ := hw.mem_erase_iff.1 hin
        rw [List.getElem?_set_ne (Ne.symm hkj)] at hk
        exact h k m d hk hin
  | aborting phase cause =>
    dsimp only
    split <;> trivial
  | _ =>
    change Primed _ c.waiting c.state
    rw [hstate]
    trivial

end Broker

end MountRegistry
