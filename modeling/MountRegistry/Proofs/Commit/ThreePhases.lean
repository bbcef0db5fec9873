import Mathlib.Data.List.Perm.Subperm
import MountRegistry.Proofs.Commit.Stage

/-
  A commit runs in three phases. A call of a phase begins only after every store has answered in
  every earlier phase, and well; a phase in which something failed is gone through to the end, and
  then every store is told to abort and nothing else. This is read off the moment at which each
  event was added to the log (`Due`), and off the stage that a course ends in.
-/

namespace MountRegistry.Course

variable {stores : List String} {s t : Course}

/-- What has happened before an event may. -/
def Due (stores : List String) (before : List Event) : Event → Prop
  | .begins (.phase p) _ =>
    (∀ q, q.place < p.place → Passed stores before q) ∧ Untold before .abort
  | .begins .abort _ => ∃ p cause, Told stores before p (some cause) [] []
  | .ends call j _ => begun before call j = 1 ∧ ended before call j = 0

theorem Stage.due_begins {log : List Event} {waiting busy : List Nat} {state : CommitState}
    {call : Call} (h : Stage stores log waiting busy state) (asked : state.call? = some call)
    (j : Nat) : Due stores log (.begins call j) := by
  cases state with
  | running p first =>
    cases asked
    exact ⟨h.2.1.earlier, h.2.2⟩
  | aborting p cause =>
    cases asked
    exact ⟨p, cause, h.2.1⟩
  | _ => cases asked

theorem Stage.due_ends {log : List Event} {waiting busy : List Nat} {state : CommitState}
    {call : Call} (h : Stage stores log waiting busy state) (asked : state.call? = some call)
    {j : Nat} (hn : j < stores.length) (hw : j ∈ waiting) (hb : j ∈ busy) (a : CallAnswer) :
    Due stores log (.ends call j a) := by
  have hcount : Counted log call stores.length waiting busy → Due stores log (.ends call j a) := by
    intro hc
    obtain ⟨hbegun, hended⟩ := hc j
    rw [if_pos ⟨hn, fun _ => hb⟩] at hbegun
    rw [if_neg fun h => h.2 hw] at hended
    exact ⟨hbegun, hended⟩
  cases state with
  | running p first =>
    cases asked
    exact hcount h.2.1.current
  | aborting p cause =>
    cases asked
    exact hcount h.2.2
  | _ => cases asked

/-- A move adds at most one event, one that is due. -/
theorem Sound.effect (h : Sound stores s) (he : Effect s t) :
    Sound stores t ∧ (t.log = s.log ∨ ∃ e, t.log = s.log ++ [e] ∧ Due stores s.log e) := by
  cases he with
  | idle => exact ⟨h, .inl rfl⟩
  | begins call j asked waits free =>
    exact ⟨h.begins asked waits free, .inr ⟨_, rfl, h.stage.due_begins asked j⟩⟩
  | ends call j a asked busy =>
    have hw := h.busy_sub j busy
    exact ⟨h.ends asked busy, .inr ⟨_, rfl, h.stage.due_ends asked (h.bound j hw) hw busy a⟩⟩

/-- Every event of the log was due when it was added. -/
def Orderly (stores : List String) (log : List Event) : Prop :=
  ∀ before e rest, log = before ++ e :: rest → Due stores before e

theorem Orderly.concat {log : List Event} {e : Event} (h : Orderly stores log)
    (he : Due stores log e) : Orderly stores (log ++ [e]) := by
  intro before x rest hlog
  rcases List.eq_nil_or_concat rest with rfl | ⟨rest', y, rfl⟩
  · obtain ⟨rfl, hx⟩ := List.append_inj' hlog rfl
    cases hx
    exact he
  · rw [List.concat_eq_append, ← List.cons_append, ← List.append_assoc] at hlog
    exact h before x rest' (List.append_inj' hlog rfl).1

theorem Sound.after (h : Sound stores s) (ho : Orderly stores s.log) (ms : List Move) :
    Sound stores (s.after ms) ∧ Orderly stores (s.after ms).log := by
  induction ms generalizing s with
  | nil => exact ⟨h, ho⟩
  | cons m ms ih =>
    obtain ⟨hs, hlog | ⟨e, hlog, hdue⟩⟩ := h.effect (effect_step s m)
    · exact ih hs (hlog ▸ ho)
    · exact ih hs (hlog ▸ ho.concat hdue)

/-! ## Reading the log -/

theorem Over.begun_eq {log : List Event} {call : Call} {n i : Nat} (h : Over log call n)
    (hi : i < n) : begun log call i = 1 := by
  rw [(h i).1, if_pos ⟨hi, fun hin => absurd hin List.not_mem_nil⟩]

theorem Over.ended_eq {log : List Event} {call : Call} {n i : Nat} (h : Over log call n)
    (hi : i < n) : ended log call i = 1 := by
  rw [(h i).2, if_pos ⟨hi, List.not_mem_nil⟩]

/-- In a phase that passed every store has answered, and well. -/
theorem Passed.answer {log : List Event} {q : Phase} (h : Passed stores log q) {i : Nat}
    (hi : i < stores.length) :
    ∃ a, .ends (.phase q) i a ∈ log ∧ (a = .ok true ∨ q ≠ .canCommit ∧ ∃ v, a = .ok v) := by
  have hpos : 0 < ended log (.phase q) i := by
    rw [h.finished.ended_eq hi]
    exact Nat.one_pos
  obtain ⟨e, he, hend⟩ := List.countP_pos_iff.1 hpos
  have hgood := List.findSome?_eq_none_iff.1 h.good e he
  cases e with
  | begins c j => cases hend
  | ends c j a =>
    have hcj : c = .phase q ∧ j = i := by simpa [Event.isEnd] using hend
    obtain ⟨rfl, rfl⟩ := hcj
    refine ⟨a, he, ?_⟩
    cases a with
    | error cause => simp [Event.failure?] at hgood
    | ok vote =>
      cases vote with
      | true => exact .inl rfl
      | false =>
        refine .inr ⟨?_, false, rfl⟩
        rintro rfl
        simp [Event.failure?] at hgood

/-- No phase is begun after an abort. -/
theorem Orderly.no_phase_after_abort {before rest : List Event} {j : Nat}
    (h : Orderly stores (before ++ .begins .abort j :: rest)) (q : Phase) (i : Nat) :
    .begins (.phase q) i ∉ rest := by
  intro hmem
  obtain ⟨mid, last, rfl⟩ := List.append_of_mem hmem
  have hdue := h (before ++ .begins .abort j :: mid) (.begins (.phase q) i) last (by simp)
  have hpos : 0 < begun (before ++ .begins .abort j :: mid) .abort j :=
    List.countP_pos_iff.2 ⟨.begins .abort j, by simp, by simp [Event.isBegin]⟩
  rw [(hdue.2 j).1] at hpos
  exact Nat.lt_irrefl 0 hpos

theorem Counted.begun_le {log : List Event} {call : Call} {n : Nat} {waiting busy : List Nat}
    (h : Counted log call n waiting busy) (i : Nat) : begun log call i ≤ 1 := by
  rw [(h i).1]
  split <;> decide

theorem Untold.begun_le {log : List Event} {call : Call} (h : Untold log call) (i : Nat) :
    begun log call i ≤ 1 := by
  rw [(h i).1]
  exact Nat.zero_le 1

theorem Told.begun_le {log : List Event} {p : Phase} {first : Option StoreFailure}
    {waiting busy : List Nat} (h : Told stores log p first waiting busy) (q : Phase) (i : Nat) :
    begun log (.phase q) i ≤ 1 := by
  rcases Nat.lt_trichotomy q.place p.place with hlt | heq | hgt
  · exact (h.earlier q hlt).finished.begun_le i
  · cases Phase.place_inj heq
    exact h.current.begun_le i
  · exact (h.later q hgt).begun_le i

/-- No call is made twice. -/
theorem Stage.begun_le {log : List Event} {waiting busy : List Nat} {state : CommitState}
    (h : Stage stores log waiting busy state) (call : Call) (i : Nat) : begun log call i ≤ 1 := by
  have both : (∀ q, begun log (.phase q) i ≤ 1) ∧ begun log .abort i ≤ 1 := by
    cases state with
    | opened => exact h.elim
    | running p first => exact ⟨fun q => h.2.1.begun_le q i, h.2.2.begun_le i⟩
    | aborting p cause => exact ⟨fun q => h.2.1.begun_le q i, h.2.2.begun_le i⟩
    | done => exact ⟨fun q => h.2.1.begun_le q i, h.2.2.begun_le i⟩
    | failed p cause => exact ⟨fun q => h.2.1.begun_le q i, h.2.2.begun_le i⟩
  cases call with
  | phase q => exact both.1 q
  | abort => exact both.2

/-- When no answer is awaited any more, the commit is done or has failed. -/
theorem Stage.ended {log : List Event} {busy : List Nat} {state : CommitState}
    (h : Stage stores log [] busy state) :
    (state = .done ∧ Told stores log .commit none [] [] ∧ Untold log .abort) ∨
      ∃ p cause, state = .failed p cause ∧ Told stores log p (some cause) [] [] ∧
        Over log .abort stores.length := by
  cases state with
  | opened => exact h.elim
  | running p first => exact absurd rfl h.1
  | aborting p cause => exact absurd rfl h.1
  | done => exact .inl ⟨rfl, h.2⟩
  | failed p cause => exact .inr ⟨p, cause, rfl, h.2⟩

/-- Up to the phase that the phases have come to, every store had each call once. -/
theorem Told.over_of_le {log : List Event} {p : Phase} {first : Option StoreFailure}
    (h : Told stores log p first [] []) {q : Phase} (hq : q.place ≤ p.place) :
    Over log (.phase q) stores.length := by
  rcases Nat.lt_or_eq_of_le hq with hlt | heq
  · exact (h.earlier q hlt).finished
  · cases Phase.place_inj heq
    exact h.current

theorem Told.passed {log : List Event} (h : Told stores log .commit none [] []) (q : Phase) :
    Passed stores log q := by
  rcases Nat.lt_or_eq_of_le (Phase.place_le_commit q) with hlt | heq
  · exact h.earlier q hlt
  · cases Phase.place_inj heq
    exact ⟨h.current, h.first⟩

/-- While a store is awaited its call can begin, or end with any answer. -/
theorem Sound.progress (h : Sound stores s) (hw : s.coordinator.waiting ≠ []) (a : CallAnswer) :
    ∃ j, (s.step (.call j)).log.length = s.log.length + 1 ∨
      (s.step (.answer j a)).log.length = s.log.length + 1 := by
  obtain ⟨j, hj⟩ := List.exists_mem_of_ne_nil _ hw
  have hcall : ∃ call, s.coordinator.state.call? = some call := by
    have hstage := h.stage
    cases hstate : s.coordinator.state with
    | running p first => exact ⟨_, rfl⟩
    | aborting p cause => exact ⟨_, rfl⟩
    | _ =>
      rw [hstate] at hstage
      first | exact hstage.elim | exact absurd hstage.1 hw
  obtain ⟨call, hcall⟩ := hcall
  refine ⟨j, ?_⟩
  by_cases hb : j ∈ s.busy
  · right
    simp only [step, hcall, if_pos hb, List.length_append, List.length_singleton]
  · left
    simp only [step, hcall, if_pos (And.intro hj hb), List.length_append, List.length_singleton]

theorem Sound.length_le (h : Sound stores s) : s.log.length ≤ 8 * stores.length := by
  have hbusy : s.busy.length ≤ s.coordinator.waiting.length :=
    (List.subperm_of_subset h.busy_nodup h.busy_sub).length_le
  have := h.room
  omega

/-- The course of a commit, whatever the stores answer and in whatever order their calls begin and
end. A call of a phase begins only when each store has answered, and well, in each earlier phase;
an abort begins only when all calls of a phase in which something failed have ended, and no call of
a phase begins after it. No call is made twice. When nothing is awaited any more, either all phases
were gone through by every store without a failure and without an abort, and the result is a
success, or every store had one call of each phase up to the one that failed and one abort, and the
result is the failure of that phase that came first. It comes to that: a course has at most eight
events for each store, and while a store is awaited its next event can take place. -/
theorem three_phases (stores : List String) (ms : List Move) :
    let s := (start stores).after ms
    let c := s.coordinator
    let n := stores.length
    (∀ before p j rest, s.log = before ++ .begins (.phase p) j :: rest →
      ∀ q : Phase, q.place < p.place → ∀ i < n,
        ∃ a, .ends (.phase q) i a ∈ before ∧ (a = .ok true ∨ q ≠ .canCommit ∧ ∃ v, a = .ok v)) ∧
    (∀ before j rest, s.log = before ++ .begins .abort j :: rest →
      (∃ p cause, firstFailure? stores p before = some cause ∧
        ∀ i < n, ended before (.phase p) i = 1) ∧
      ∀ q i, .begins (.phase q) i ∉ rest) ∧
    (∀ call i, begun s.log call i ≤ 1) ∧
    (c.waiting = [] →
      (c.state = .done ∧ c.state.result? = some (.ok ()) ∧
        (∀ p, firstFailure? stores p s.log = none ∧
          ∀ i < n, begun s.log (.phase p) i = 1 ∧ ended s.log (.phase p) i = 1) ∧
        ∀ i, begun s.log .abort i = 0) ∨
      (∃ p cause, c.state = .failed p cause ∧
        c.state.result? = some (.error (.phaseFailure p cause)) ∧
        firstFailure? stores p s.log = some cause ∧
        (∀ q : Phase, q.place < p.place → firstFailure? stores q s.log = none) ∧
        (∀ q : Phase, q.place ≤ p.place →
          ∀ i < n, begun s.log (.phase q) i = 1 ∧ ended s.log (.phase q) i = 1) ∧
        (∀ q : Phase, p.place < q.place → ∀ i, begun s.log (.phase q) i = 0) ∧
        ∀ i < n, begun s.log .abort i = 1 ∧ ended s.log .abort i = 1)) ∧
    s.log.length ≤ 8 * n ∧
    (c.waiting ≠ [] → ∀ a, ∃ j, (s.step (.call j)).log.length = s.log.length + 1 ∨
      (s.step (.answer j a)).log.length = s.log.length + 1) := by
  intro s c n
  have hempty : Orderly stores (start stores).log :=
    fun before e rest h => by cases before <;> cases h
  obtain ⟨hs, ho⟩ := (sound_start stores).after hempty ms
  refine ⟨?_, ?_, hs.stage.begun_le, ?_, hs.length_le, hs.progress⟩
  · intro before p j rest hlog q hq i hi
    exact ((ho before _ rest hlog).1 q hq).answer hi
  · intro before j rest hlog
    obtain ⟨p, cause, htold⟩ := ho before _ rest hlog
    exact ⟨⟨p, cause, htold.first, fun i hi => Over.ended_eq htold.current hi⟩,
      Orderly.no_phase_after_abort (hlog ▸ ho)⟩
  · intro hw
    have hstage : Stage stores s.log [] s.busy c.state := hw ▸ hs.stage
    rcases hstage.ended with ⟨hdone, htold, habort⟩ | ⟨p, cause, hfailed, htold, habort⟩
    · rw [hdone]
      refine .inl ⟨rfl, rfl, fun p => ?_, fun i => (habort i).1⟩
      have hp := htold.passed p
      exact ⟨hp.good, fun i hi => ⟨hp.finished.begun_eq hi, hp.finished.ended_eq hi⟩⟩
    · rw [hfailed]
      refine .inr ⟨p, cause, rfl, rfl, htold.first, fun q hq => (htold.earlier q hq).good, ?_,
        fun q hq i => (htold.later q hq i).1, fun i hi => ⟨habort.begun_eq hi, habort.ended_eq hi⟩⟩
      intro q hq i hi
      exact ⟨(htold.over_of_le hq).begun_eq hi, (htold.over_of_le hq).ended_eq hi⟩

end MountRegistry.Course
