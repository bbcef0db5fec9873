import MountRegistry.Proofs.Commit.Course

/-
  Where a course stands, for each state of the coordinator. The phases before the current one are
  over and nothing failed in them (`Passed`), the calls of the current round are those that have
  begun or ended (`Counted`), and no other call was made (`Untold`). A move keeps this
  (`Sound.begins`, `Sound.ends`): the last answer of a round opens the next one, which nobody has
  been told of yet.
-/

namespace MountRegistry.Course

/-! ## Where a course stands -/

/-- The calls of a round: those of `waiting` have not ended, and those of them that are not in
`busy` have not begun. -/
def Counted (log : List Event) (call : Call) (n : Nat) (waiting busy : List Nat) : Prop :=
  ∀ j, begun log call j = (if j < n ∧ (j ∈ waiting → j ∈ busy) then 1 else 0) ∧
    ended log call j = (if j < n ∧ j ∉ waiting then 1 else 0)

/-- Each store has had the call once. -/
def Over (log : List Event) (call : Call) (n : Nat) : Prop := Counted log call n [] []

/-- No store has had the call. -/
def Untold (log : List Event) (call : Call) : Prop :=
  ∀ j, begun log call j = 0 ∧ ended log call j = 0

/-- The phase is over, and nothing failed in it. -/
structure Passed (stores : List String) (log : List Event) (p : Phase) : Prop where
  finished : Over log (.phase p) stores.length
  good : firstFailure? stores p log = none

/-- The phases have come to `p`, whose first failure so far is `first`. -/
structure Told (stores : List String) (log : List Event) (p : Phase) (first : Option StoreFailure)
    (waiting busy : List Nat) : Prop where
  earlier : ∀ q, q.place < p.place → Passed stores log q
  current : Counted log (.phase p) stores.length waiting busy
  first : firstFailure? stores p log = first
  later : ∀ q, p.place < q.place → Untold log (.phase q)

/-- What the calls made so far are, for each state of the coordinator. -/
def Stage (stores : List String) (log : List Event) (waiting busy : List Nat) :
    CommitState → Prop
  | .opened => False
  | .running p first =>
    waiting ≠ [] ∧ Told stores log p first waiting busy ∧ Untold log .abort
  | .aborting p cause =>
    waiting ≠ [] ∧ Told stores log p (some cause) [] [] ∧
      Counted log .abort stores.length waiting busy
  | .done => waiting = [] ∧ Told stores log .commit none [] [] ∧ Untold log .abort
  | .failed p cause =>
    waiting = [] ∧ Told stores log p (some cause) [] [] ∧ Over log .abort stores.length

section
variable {stores : List String} {log : List Event} {call : Call} {e : Event} {p : Phase}
  {first : Option StoreFailure} {waiting busy : List Nat} {n : Nat}

theorem counted_range : Untold log call ↔ Counted log call n (List.range n) [] := by
  refine forall_congr' fun j => ?_
  have hbegun : ¬ (j < n ∧ (j ∈ List.range n → j ∈ [])) := fun h =>
    List.not_mem_nil (h.2 (List.mem_range.2 h.1))
  have hended : ¬ (j < n ∧ j ∉ List.range n) := fun h => h.2 (List.mem_range.2 h.1)
  rw [if_neg hbegun, if_neg hended]

theorem Counted.over (h : Counted log call n [] busy) : Over log call n := by
  intro j
  have := h j
  simpa using this

theorem Counted.concat_of_ne (h : Counted log call n waiting busy) (he : e.call ≠ call) :
    Counted (log ++ [e]) call n waiting busy := by
  intro j
  rw [begun_concat_of_ne he, ended_concat_of_ne he]
  exact h j

theorem Untold.concat_of_ne (h : Untold log call) (he : e.call ≠ call) :
    Untold (log ++ [e]) call := by
  intro j
  rw [begun_concat_of_ne he, ended_concat_of_ne he]
  exact h j

theorem Passed.concat_of_ne (h : Passed stores log p) (he : e.call ≠ .phase p) :
    Passed stores (log ++ [e]) p :=
  ⟨h.finished.concat_of_ne he, (firstFailure?_concat_of_ne he).trans h.good⟩

/-- What no store was told cannot have failed. -/
theorem Untold.firstFailure? (h : Untold log (.phase p)) :
    Course.firstFailure? stores p log = none := by
  refine List.findSome?_eq_none_iff.2 fun e he => failure?_of_ne fun hcall => ?_
  cases e with
  | begins c j =>
    have hpos : 0 < begun log c j := List.countP_pos_iff.2 ⟨_, he, by simp [Event.isBegin]⟩
    have hc : c = .phase p := hcall
    rw [hc, (h j).1] at hpos
    exact Nat.lt_irrefl 0 hpos
  | ends c j a =>
    have hpos : 0 < ended log c j := List.countP_pos_iff.2 ⟨_, he, by simp [Event.isEnd]⟩
    have hc : c = .phase p := hcall
    rw [hc, (h j).2] at hpos
    exact Nat.lt_irrefl 0 hpos

theorem Counted.begins (h : Counted log call n waiting busy) {j : Nat} (hn : j < n)
    (hw : j ∈ waiting) (hb : j ∉ busy) :
    Counted (log ++ [.begins call j]) call n waiting (j :: busy) := by
  intro i
  obtain ⟨hbegun, hended⟩ := h i
  rw [begun_begins, ended_begins, hbegun, hended]
  refine ⟨?_, rfl⟩
  by_cases hij : j = i
  · subst hij
    simp [hn, hw, hb]
  · simp [hij, Ne.symm hij]

theorem Counted.ends (h : Counted log call n waiting busy) {j : Nat} (hn : j < n)
    (hw : waiting.Nodup) (hbw : ∀ i ∈ busy, i ∈ waiting) (hb : busy.Nodup) (hj : j ∈ busy)
    (a : CallAnswer) :
    Counted (log ++ [.ends call j a]) call n (waiting.erase j) (busy.erase j) := by
  intro i
  obtain ⟨hbegun, hended⟩ := h i
  rw [begun_ends, ended_ends, hbegun, hended]
  by_cases hij : j = i
  · subst hij
    simp [hn, hj, hbw j hj, hw.mem_erase_iff]
  · simp [hij, Ne.symm hij, hw.mem_erase_iff, hb.mem_erase_iff]

/-! ## One move -/

theorem phase_ne {p q : Phase} (h : q.place < p.place) : Call.phase p ≠ .phase q := by
  rintro ⟨⟩
  exact Nat.lt_irrefl _ h

theorem phase_ne' {p q : Phase} (h : p.place < q.place) : Call.phase p ≠ .phase q :=
  (phase_ne h).symm

/-- An abort is nothing to the phases. -/
theorem Told.abort (h : Told stores log p first waiting busy) (he : e.call = .abort) :
    Told stores (log ++ [e]) p first waiting busy := by
  have hne : ∀ q, e.call ≠ .phase q := fun q heq => by
    rw [he] at heq
    cases heq
  exact ⟨fun q hq => (h.earlier q hq).concat_of_ne (hne q), h.current.concat_of_ne (hne p),
    (firstFailure?_concat_of_ne (hne p)).trans h.first,
    fun q hq => (h.later q hq).concat_of_ne (hne q)⟩

theorem Told.begins (h : Told stores log p first waiting busy) {j : Nat} (hn : j < stores.length)
    (hw : j ∈ waiting) (hb : j ∉ busy) :
    Told stores (log ++ [.begins (.phase p) j]) p first waiting (j :: busy) where
  earlier := fun q hq => (h.earlier q hq).concat_of_ne (phase_ne hq)
  current := h.current.begins hn hw hb
  first := by
    rw [firstFailure?_concat, h.first]
    cases first <;> rfl
  later := fun q hq => (h.later q hq).concat_of_ne (phase_ne' hq)

theorem Told.ends (h : Told stores log p first waiting busy) {j : Nat} (hn : j < stores.length)
    (hw : waiting.Nodup) (hbw : ∀ i ∈ busy, i ∈ waiting) (hb : busy.Nodup) (hj : j ∈ busy)
    (c : Coordinator) (hc : c.stores = stores) (a : CallAnswer) :
    Told stores (log ++ [.ends (.phase p) j a]) p (first.orElse fun _ => c.failureIn p j a)
      (waiting.erase j) (busy.erase j) where
  earlier := fun q hq => (h.earlier q hq).concat_of_ne (phase_ne hq)
  current := h.current.ends hn hw hbw hb hj a
  first := by
    rw [firstFailure?_concat, h.first, ← hc, failure?_ends]
  later := fun q hq => (h.later q hq).concat_of_ne (phase_ne' hq)

theorem Told.over (h : Told stores log p first [] busy) : Told stores log p first [] [] :=
  ⟨h.earlier, h.current.over, h.first, h.later⟩

/-- The next phase has not begun. -/
theorem Told.next (h : Told stores log p none [] []) {q : Phase} (hq : p.next? = some q) :
    Told stores log q none (List.range stores.length) [] where
  earlier := by
    intro r hr
    rcases (Phase.place_lt_of_next? hq r).1 hr with rfl | hlt
    · exact ⟨h.current, h.first⟩
    · exact h.earlier r hlt
  current := counted_range.1 (h.later q ((Phase.place_lt_of_next? hq p).2 (.inl rfl)))
  first := (h.later q ((Phase.place_lt_of_next? hq p).2 (.inl rfl))).firstFailure?
  later := fun r hr =>
    h.later r (Nat.lt_trans ((Phase.place_lt_of_next? hq p).2 (.inl rfl)) hr)

theorem Stage.conclude (h : Told stores log p first [] []) (ha : Untold log .abort)
    {c : Coordinator} (hc : c.stores = stores) (hne : stores.length ≠ 0) :
    Stage stores log (c.conclude p first).waiting [] (c.conclude p first).state := by
  have hrange : List.range stores.length ≠ [] := fun h => hne (List.range_eq_nil.1 h)
  unfold Coordinator.conclude
  cases first with
  | some cause =>
    simp only [Coordinator.ask, hc]
    exact ⟨hrange, h, counted_range.1 ha⟩
  | none =>
    cases hp : p.next? with
    | some q =>
      simp only [Coordinator.ask, hc]
      exact ⟨hrange, h.next hp, ha⟩
    | none =>
      cases Phase.eq_commit_of_next? hp
      exact ⟨rfl, h, ha⟩

end

/-- The rounds that may come after the current one. -/
def roundsLeft : CommitState → Nat
  | .running p _ => 3 - p.place
  | _ => 0

/-- What holds between the moves of a course, whatever the stores answer. -/
structure Sound (stores : List String) (s : Course) : Prop where
  own : s.coordinator.stores = stores
  nodup : s.coordinator.waiting.Nodup
  bound : ∀ j ∈ s.coordinator.waiting, j < stores.length
  busy_nodup : s.busy.Nodup
  busy_sub : ∀ j ∈ s.busy, j ∈ s.coordinator.waiting
  stage : Stage stores s.log s.coordinator.waiting s.busy s.coordinator.state
  /-- Each call has two events; the calls to come have room for theirs. -/
  room : s.log.length + 2 * stores.length * roundsLeft s.coordinator.state +
    2 * s.coordinator.waiting.length ≤ 8 * stores.length + s.busy.length

theorem sound_start (stores : List String) : Sound stores (start stores) := by
  have htold : ∀ call, Untold [] call := fun _ _ => ⟨rfl, rfl⟩
  refine ⟨Coordinator.begin_stores _, Coordinator.begin_waiting_nodup _, ?_, List.nodup_nil,
    fun j hj => (by cases hj), ?_, ?_⟩
  · intro j hj
    unfold start Coordinator.begin at hj
    split at hj
    · cases hj
    · exact List.mem_range.1 hj
  · unfold start Coordinator.begin
    split
    · rename_i hempty
      have hn : stores.length = 0 := List.length_eq_zero_iff.2 (List.isEmpty_iff.1 hempty)
      have hover : ∀ call, Over [] call stores.length := fun call j => by
        simp [begun, ended, hn]
      exact ⟨rfl, ⟨fun q _ => ⟨hover _, rfl⟩, hover _, rfl, fun q _ => htold _⟩, htold _⟩
    · rename_i hempty
      refine ⟨?_, ⟨?_, counted_range.1 (htold _), rfl, fun q _ => htold _⟩, htold _⟩
      · intro h
        exact hempty (List.isEmpty_iff.2 (List.length_eq_zero_iff.1 (List.range_eq_nil.1 h)))
      · intro q hq
        exact absurd hq (Nat.not_lt_zero _)
  · unfold start Coordinator.begin
    split
    · simp [roundsLeft]
    · simp [roundsLeft, Coordinator.ask, Phase.place]
      omega

theorem report_running {c : Coordinator} {p : Phase} {first : Option StoreFailure}
    (h : c.state = .running p first) {j : Nat} (hj : j ∈ c.waiting) (a : CallAnswer) :
    c.report j a =
      if (c.waiting.erase j).isEmpty then c.conclude p (first.orElse fun _ => c.failureIn p j a)
      else { c with
        state := .running p (first.orElse fun _ => c.failureIn p j a)
        waiting := c.waiting.erase j } := by
  unfold Coordinator.report
  rw [if_pos hj, h]

theorem report_aborting {c : Coordinator} {p : Phase} {cause : StoreFailure}
    (h : c.state = .aborting p cause) {j : Nat} (hj : j ∈ c.waiting) (a : CallAnswer) :
    c.report j a =
      { c with
        state := if (c.waiting.erase j).isEmpty then .failed p cause else .aborting p cause
        waiting := c.waiting.erase j } := by
  unfold Coordinator.report
  rw [if_pos hj, h]

/-- A new round takes the room of one round of those that were left. -/
theorem conclude_room (c : Coordinator) (p : Phase) (first : Option StoreFailure) :
    2 * c.stores.length * roundsLeft (c.conclude p first).state +
      2 * (c.conclude p first).waiting.length ≤ 2 * c.stores.length * (3 - p.place) := by
  unfold Coordinator.conclude
  split
  · have hplace : 1 ≤ 3 - p.place := by cases p <;> decide
    have hroom := Nat.mul_le_mul_left (2 * c.stores.length) hplace
    simpa [roundsLeft, Coordinator.ask] using hroom
  · rename_i q hq
    have hplace : 3 - p.place = 3 - q.place + 1 := by cases p <;> cases hq <;> rfl
    simp [roundsLeft, Coordinator.ask, hplace, Nat.mul_add]
  · exact Nat.zero_le _

section
variable {stores : List String} {s : Course} {call : Call} {j : Nat} {a : CallAnswer}

theorem Stage.begins {log : List Event} {waiting busy : List Nat} {state : CommitState}
    (h : Stage stores log waiting busy state) (asked : state.call? = some call)
    (hn : j < stores.length) (hw : j ∈ waiting) (hb : j ∉ busy) :
    Stage stores (log ++ [.begins call j]) waiting (j :: busy) state := by
  cases state with
  | running p first =>
    cases asked
    exact ⟨h.1, h.2.1.begins hn hw hb, h.2.2.concat_of_ne Call.noConfusion⟩
  | aborting p cause =>
    cases asked
    exact ⟨h.1, h.2.1.abort rfl, h.2.2.begins hn hw hb⟩
  | _ => cases asked

theorem Sound.begins (h : Sound stores s) (asked : s.coordinator.state.call? = some call)
    (waits : j ∈ s.coordinator.waiting) (free : j ∉ s.busy) :
    Sound stores { s with busy := j :: s.busy, log := s.log ++ [.begins call j] } where
  own := h.own
  nodup := h.nodup
  bound := h.bound
  busy_nodup := List.nodup_cons.2 ⟨free, h.busy_nodup⟩
  busy_sub := by
    intro i hi
    rcases List.mem_cons.1 hi with rfl | hi
    · exact waits
    · exact h.busy_sub i hi
  stage := h.stage.begins asked (h.bound j waits) waits free
  room := by
    have := h.room
    simp only [List.length_append, List.length_cons, List.length_nil]
    omega

theorem Sound.ends (h : Sound stores s) (asked : s.coordinator.state.call? = some call)
    (busy : j ∈ s.busy) :
    Sound stores ⟨s.coordinator.report j a, s.busy.erase j, s.log ++ [.ends call j a]⟩ := by
  have hj := h.busy_sub j busy
  have hn := h.bound j hj
  have hne : stores.length ≠ 0 := by omega
  have hsub : ∀ i ∈ s.busy.erase j, i ∈ s.coordinator.waiting.erase j := by
    intro i hi
    obtain ⟨hij, hi⟩ := h.busy_nodup.mem_erase_iff.1 hi
    exact h.nodup.mem_erase_iff.2 ⟨hij, h.busy_sub i hi⟩
  have hlen := List.length_erase_of_mem hj
  have hblen := List.length_erase_of_mem busy
  have hpos := List.length_pos_of_mem hj
  have hbpos := List.length_pos_of_mem busy
  have hstage := h.stage
  have hroom := h.room
  suffices hrest : (∀ i ∈ s.busy.erase j, i ∈ (s.coordinator.report j a).waiting) ∧
      Stage stores (s.log ++ [.ends call j a]) (s.coordinator.report j a).waiting (s.busy.erase j)
        (s.coordinator.report j a).state ∧
      s.log.length + 1 + 2 * stores.length * roundsLeft (s.coordinator.report j a).state +
        2 * (s.coordinator.report j a).waiting.length ≤
          8 * stores.length + (s.busy.erase j).length by
    refine ⟨(Coordinator.report_stores _ _ _).trans h.own,
      Coordinator.report_waiting_nodup h.nodup j a, ?_, h.busy_nodup.erase j, hrest.1,
      hrest.2.1, ?_⟩
    · have := Coordinator.report_waiting_lt (h.own ▸ h.bound) j a
      rwa [h.own] at this
    · rw [List.length_append]
      exact hrest.2.2
  cases hstate : s.coordinator.state with
  | running p first =>
    rw [hstate] at asked hstage hroom
    cases asked
    have htold := hstage.2.1.ends hn h.nodup h.busy_sub h.busy_nodup busy s.coordinator h.own a
    have habort : Untold (s.log ++ [.ends (.phase p) j a]) .abort :=
      hstage.2.2.concat_of_ne Call.noConfusion
    rw [report_running hstate hj]
    by_cases hempty : s.coordinator.waiting.erase j = []
    · rw [hempty] at hsub htold hlen
      rw [if_pos (by rw [hempty]; rfl)]
      have hbusy : s.busy.erase j = [] :=
        List.eq_nil_iff_forall_not_mem.2 fun i hi => List.not_mem_nil (hsub i hi)
      rw [hbusy] at hblen ⊢
      refine ⟨fun i hi => (by cases hi), Stage.conclude htold.over habort h.own hne, ?_⟩
      have hroom' := conclude_room s.coordinator p
        (first.orElse fun _ => s.coordinator.failureIn p j a)
      rw [h.own] at hroom'
      rw [List.length_nil] at hlen hblen ⊢
      dsimp only [roundsLeft] at hroom
      omega
    · rw [if_neg (by simpa using hempty)]
      refine ⟨hsub, ⟨hempty, htold, habort⟩, ?_⟩
      dsimp only [roundsLeft] at hroom ⊢
      omega
  | aborting p cause =>
    rw [hstate] at asked hstage hroom
    cases asked
    have htold := hstage.2.1.abort (e := .ends .abort j a) rfl
    have hcount := hstage.2.2.ends hn h.nodup h.busy_sub h.busy_nodup busy a
    rw [report_aborting hstate hj]
    refine ⟨hsub, ?_, ?_⟩
    · by_cases hempty : s.coordinator.waiting.erase j = []
      · rw [hempty] at hcount
        simp only [hempty]
        exact ⟨rfl, htold, hcount.over⟩
      · rw [if_neg (by simpa using hempty)]
        exact ⟨hempty, htold, hcount⟩
    · have hzero : roundsLeft (if (s.coordinator.waiting.erase j).isEmpty then .failed p cause
          else .aborting p cause) = 0 := by
        split <;> rfl
      dsimp only
      rw [hzero]
      dsimp only [roundsLeft] at hroom
      omega
  | _ =>
    rw [hstate] at asked
    cases asked

end

end MountRegistry.Course
