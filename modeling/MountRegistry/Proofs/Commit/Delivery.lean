import MountRegistry.Commit.Completion
import MountRegistry.Commit.Coordinator
import MountRegistry.Proofs.Commit.Admission
import MountRegistry.Proofs.Replaced

/-
  Any number of commits whose results go to their submitters through one pool of jobs. A commission
  is a coordinator under way, the handle that is to deliver its result, and the future at the other
  end. When the run has returned, a job with the result asks the pool for admission; while it runs
  it delivers the result, and when it ends it drops the handle. All this and the polls of the
  futures may come in any order.

  A commission has its result still before it or it has been given it, and in the second case the
  handle has no more to say (`Commission.Stands`). What one commission does touches no other,
  because no two of them have the same job (`Delivery.Sound`).
-/

namespace MountRegistry

/-- A run that has returned returns the same whatever is still answered. -/
theorem Coordinator.report_of_result? {c : Coordinator} {r : CommitResult}
    (h : c.state.result? = some r) (store : Nat) (answer : CallAnswer) :
    c.report store answer = c := by
  unfold report
  cases hs : c.state with
  | done => exact ite_self c
  | failed phase cause => exact ite_self c
  | _ =>
    rw [hs] at h
    cases h

namespace Completion

/-- A handle that has delivered once delivers no more. -/
theorem complete_of_used {c : Completion} (h : c.handle = .used) (r : CommitResult) :
    c.complete r = (c, some false) := by
  simp only [complete, h]

theorem complete_of_ne_ready {c : Completion} (h : c.handle ≠ .ready) (r : CommitResult) :
    (c.complete r).1 = c ∧ (c.complete r).2 ≠ some true := by
  unfold complete
  cases hc : c.handle with
  | ready => exact absurd hc h
  | used => exact ⟨rfl, by simp⟩
  | dropped => exact ⟨rfl, by simp⟩

end Completion

/-- A submitted commit. -/
structure Commission where
  coordinator : Coordinator
  /-- The result that the run returned, and the job that is to deliver it. -/
  notice? : Option (CommitResult × Job) := none
  completion : Completion := {}
  /-- The results of which the handle said that it delivered them. -/
  told : List CommitResult := []
  /-- The results that the future gave when it was polled. -/
  polled : List CommitResult := []
  /-- Whether the submitter has let go of the future. -/
  left : Bool := false

namespace Commission

/-- What happens to a commission. -/
inductive Turn where
  /-- A store answers the coordinator. -/
  | report (store : Nat) (answer : CallAnswer)
  /-- The run returns, and a job of this name asks for admission. -/
  | dispatch (name : String)
  /-- The job delivers the result. -/
  | deliver
  /-- The job ends. -/
  | finish
  | poll
  | leave

/-- The job that is to deliver the result, once there is one. -/
def job? (c : Commission) : Option Job := c.notice?.map (·.2)

/-- A commission takes its turn, with the pool if it needs it. -/
def turn (slots : Slots) (c : Commission) : Turn → Slots × Commission
  | .report store answer => (slots, { c with coordinator := c.coordinator.report store answer })
  | .dispatch name =>
    match c.notice?, c.coordinator.state.result? with
    | none, some r =>
      (slots.dispatch name, { c with notice? := some (r, ⟨slots.dispatched.length, name⟩) })
    | _, _ => (slots, c)
  | .deliver =>
    match c.notice? with
    | some (r, job) =>
      if job ∈ slots.running then
        let (completion, first) := c.completion.complete r
        (slots, { c with completion, told := if first = some true then c.told ++ [r] else c.told })
      else (slots, c)
    | none => (slots, c)
  | .finish =>
    match c.notice? with
    | some (_, job) =>
      if job ∈ slots.running ∧ c.completion.handle ≠ .ready then
        (slots.finish job, { c with completion := c.completion.dropHandle })
      else (slots, c)
    | none => (slots, c)
  | .poll =>
    let (completion, found) := c.completion.poll
    let polled := match found with
      | .resolved r => c.polled ++ [r]
      | _ => c.polled
    (slots, { c with completion, polled })
  | .leave => (slots, { c with completion := c.completion.dropAwaited, left := true })

/-- No result was delivered yet. -/
structure Waits (c : Commission) : Prop where
  handle : c.completion.handle = .ready
  awaited : c.completion.awaited = if c.left then .gone else .pending
  told : c.told = []
  polled : c.polled = []

/-- The result was delivered, once: the future holds it or has given it, unless nobody has the
future any more. -/
structure Given (c : Commission) (r : CommitResult) : Prop where
  handle : c.completion.handle ≠ .ready
  told : c.told = [r]
  future : (c.completion.awaited = .resolved r ∧ c.polled = [] ∧ c.left = false) ∨
    (c.completion.awaited = .gone ∧ c.polled = [r]) ∨
    (c.completion.awaited = .gone ∧ c.polled = [] ∧ c.left = true)

/-- How a commission stands. -/
structure Stands (slots : Slots) (c : Commission) : Prop where
  /-- What is noticed is what the run returned. -/
  noticed : ∀ r job, c.notice? = some (r, job) →
    c.coordinator.state.result? = some r ∧ job ∈ slots.dispatched
  /-- The result is given before its job ends. -/
  given : (c.Waits ∧ ∀ r job, c.notice? = some (r, job) → job ∉ slots.finished) ∨
    ∃ r job, c.notice? = some (r, job) ∧ c.Given r

variable {slots slots' : Slots} {c : Commission} {r : CommitResult} {job : Job}

theorem stands_begin (slots : Slots) (stores : List String) :
    Stands slots { coordinator := Coordinator.begin { stores } } where
  noticed := fun _ _ h => by cases h
  given := .inl ⟨⟨rfl, rfl, rfl, rfl⟩, fun _ _ h => by cases h⟩

/-- What the others do with their jobs does not change how a commission stands. -/
theorem Stands.frame (h : c.Stands slots) (hdispatched : slots.dispatched ⊆ slots'.dispatched)
    (hfinished : ∀ job, c.job? = some job → job ∈ slots'.finished → job ∈ slots.finished) :
    c.Stands slots' where
  noticed := fun r job hn => ⟨(h.noticed r job hn).1, hdispatched (h.noticed r job hn).2⟩
  given := by
    refine h.given.imp_left fun ⟨hwaits, hnot⟩ => ⟨hwaits, fun r job hn hmem => ?_⟩
    exact hnot r job hn (hfinished job (by rw [job?, hn, Option.map_some]) hmem)

/-! ## The turns -/

theorem Stands.report (h : c.Stands slots) (store : Nat) (answer : CallAnswer) :
    Stands slots { c with coordinator := c.coordinator.report store answer } where
  noticed := by
    intro r job hn
    obtain ⟨hr, hmem⟩ := h.noticed r job hn
    exact ⟨by rwa [Coordinator.report_of_result? hr], hmem⟩
  given := h.given.imp (fun ⟨hw, hnot⟩ => ⟨⟨hw.handle, hw.awaited, hw.told, hw.polled⟩, hnot⟩)
    fun ⟨r, job, hn, hg⟩ => ⟨r, job, hn, hg.handle, hg.told, hg.future⟩

/-- The run has returned, and no job was there yet. -/
theorem Stands.dispatch (h : c.Stands slots) (hnone : c.notice? = none)
    (hr : c.coordinator.state.result? = some r) (name : String)
    (hnew : ⟨slots.dispatched.length, name⟩ ∉ slots.finished) :
    Stands (slots.dispatch name)
      { c with notice? := some (r, ⟨slots.dispatched.length, name⟩) } where
  noticed := by
    intro r' job hn
    cases hn
    exact ⟨hr, List.mem_append_right _ (List.mem_singleton_self _)⟩
  given := by
    rcases h.given with ⟨hw, -⟩ | ⟨r', job, hn, -⟩
    · refine .inl ⟨⟨hw.handle, hw.awaited, hw.told, hw.polled⟩, fun r' job hn => ?_⟩
      cases hn
      exact hnew
    · rw [hnone] at hn
      cases hn

/-- The first delivery resolves the future, if anybody has it. -/
theorem Waits.given (h : c.Waits) (r : CommitResult) :
    Given { c with
      completion := ⟨.used, c.completion.resolve r⟩
      told := c.told ++ [r] } r where
  handle := by simp
  told := by rw [h.told, List.nil_append]
  future := by
    have hawaited := h.awaited
    unfold Completion.resolve
    cases hl : c.left with
    | false => simp [hawaited, hl, h.polled]
    | true => simp [hawaited, hl, h.polled]

theorem Stands.deliver (h : c.Stands slots) (hn : c.notice? = some (r, job)) :
    Stands slots { c with
      completion := (c.completion.complete r).1
      told := if (c.completion.complete r).2 = some true then c.told ++ [r] else c.told } where
  noticed := h.noticed
  given := by
    refine .inr ⟨r, job, hn, ?_⟩
    rcases h.given with ⟨hw, -⟩ | ⟨r', job', hn', hg⟩
    · have hgiven := hw.given r
      simpa only [Completion.complete, hw.handle, if_true] using hgiven
    · obtain ⟨rfl, rfl⟩ : r = r' ∧ job = job' := by
        rw [hn] at hn'
        cases hn'
        exact ⟨rfl, rfl⟩
      obtain ⟨hsame, hfirst⟩ := Completion.complete_of_ne_ready hg.handle r
      rw [hsame, if_neg hfirst]
      exact hg

theorem Given.dropHandle (h : c.Given r) :
    Given { c with completion := c.completion.dropHandle } r := by
  have hhandle := h.handle
  have hdrop : c.completion.dropHandle = ⟨.dropped, c.completion.awaited⟩ := by
    unfold Completion.dropHandle
    split
    · rename_i hready
      exact absurd hready hhandle
    · rfl
  rw [hdrop]
  exact ⟨by simp, h.told, h.future⟩

/-- The job ends, which has delivered by then. -/
theorem Stands.finish (h : c.Stands slots) (hhandle : c.completion.handle ≠ .ready) (job : Job) :
    Stands (slots.finish job) { c with completion := c.completion.dropHandle } where
  noticed := by
    rw [Slots.finish_dispatched]
    exact h.noticed
  given := by
    rcases h.given with ⟨hw, -⟩ | ⟨r', job', hn', hg⟩
    · exact absurd hw.handle hhandle
    · exact .inr ⟨r', job', hn', hg.dropHandle⟩

/-- A future that has nothing gives nothing. -/
theorem Waits.poll (h : c.Waits) (slots : Slots) : (c.turn slots .poll).2.Waits := by
  have hawaited : c.completion.awaited = .pending ∨ c.completion.awaited = .gone := by
    rw [h.awaited]
    cases c.left
    · exact .inl rfl
    · exact .inr rfl
  have hpoll : c.completion.poll = (c.completion, c.completion.awaited) := by
    unfold Completion.poll
    rcases hawaited with hw | hw <;> rw [hw]
  simp only [turn, hpoll]
  rcases hawaited with hw | hw
  · rw [hw]
    exact ⟨h.handle, h.awaited, h.told, h.polled⟩
  · rw [hw]
    exact ⟨h.handle, h.awaited, h.told, h.polled⟩

/-- The future gives its result the first time. -/
theorem Given.poll (h : c.Given r) (slots : Slots) : (c.turn slots .poll).2.Given r := by
  rcases h.future with ⟨hawaited, hpolled, -⟩ | hgone
  · have hpoll : c.completion.poll = ({ c.completion with awaited := .gone }, .resolved r) := by
      simp only [Completion.poll, hawaited]
    simp only [turn, hpoll]
    refine ⟨h.handle, h.told, .inr (.inl ⟨rfl, ?_⟩)⟩
    rw [hpolled, List.nil_append]
  · have hawaited : c.completion.awaited = .gone := hgone.elim (·.1) (·.1)
    have hpoll : c.completion.poll = (c.completion, .gone) := by
      simp only [Completion.poll, hawaited]
    simp only [turn, hpoll]
    exact h

theorem Stands.poll (h : c.Stands slots) : (c.turn slots .poll).2.Stands slots where
  noticed := h.noticed
  given := h.given.imp (fun ⟨hw, hnot⟩ => ⟨hw.poll slots, hnot⟩)
    fun ⟨r, job, hn, hg⟩ => ⟨r, job, hn, hg.poll slots⟩

theorem Stands.leave (h : c.Stands slots) : (c.turn slots .leave).2.Stands slots where
  noticed := h.noticed
  given := by
    refine h.given.imp (fun ⟨hw, hnot⟩ => ⟨?_, hnot⟩) fun ⟨r, job, hn, hg⟩ => ⟨r, job, hn, ?_⟩
    · exact ⟨hw.handle, rfl, hw.told, hw.polled⟩
    · refine ⟨hg.handle, hg.told, ?_⟩
      rcases hg.future with ⟨_, hpolled, _⟩ | ⟨_, hpolled⟩ | ⟨_, hpolled, _⟩
      · exact .inr (.inr ⟨rfl, hpolled, rfl⟩)
      · exact .inr (.inl ⟨rfl, hpolled⟩)
      · exact .inr (.inr ⟨rfl, hpolled, rfl⟩)

/-- Nothing was delivered, or what the run returned was, once. -/
theorem Stands.waits_or_given (h : c.Stands slots) :
    c.Waits ∨ ∃ r, c.coordinator.state.result? = some r ∧ c.Given r := by
  refine h.given.imp (·.1) ?_
  rintro ⟨r, job, hn, hg⟩
  exact ⟨r, (h.noticed r job hn).1, hg⟩

theorem Waits.resolves_nothing (h : c.Waits) (r : CommitResult) :
    ¬ (c.completion.awaited = .resolved r ∨ r ∈ c.polled) := by
  rw [h.awaited, h.polled]
  cases c.left <;> simp

theorem Given.resolves (h : c.Given r) {r' : CommitResult}
    (hr : c.completion.awaited = .resolved r' ∨ r' ∈ c.polled) : r' = r := by
  rcases h.future with ⟨hawaited, hpolled, -⟩ | ⟨hawaited, hpolled⟩ | ⟨hawaited, hpolled, -⟩
  · rw [hawaited, hpolled] at hr
    simpa [eq_comm] using hr
  · rw [hawaited, hpolled] at hr
    simpa using hr
  · rw [hawaited, hpolled] at hr
    simp at hr

/-- A future has and gives nothing but what its own run returned. -/
theorem Stands.resolves (h : c.Stands slots)
    (hr : c.completion.awaited = .resolved r ∨ r ∈ c.polled) :
    c.coordinator.state.result? = some r := by
  rcases h.waits_or_given with hw | ⟨r', hresult, hg⟩
  · exact absurd hr (hw.resolves_nothing r)
  · rw [hresult, hg.resolves hr]

/-- What a turn asks of the pool, and the job that the commission has after it. -/
theorem turn_cases (slots : Slots) (c : Commission) (t : Turn) :
    ((c.turn slots t).1 = slots ∧ (c.turn slots t).2.job? = c.job?) ∨
      (∃ name, c.job? = none ∧ (c.turn slots t).1 = slots.dispatch name ∧
        (c.turn slots t).2.job? = some ⟨slots.dispatched.length, name⟩) ∨
      ∃ job, c.job? = some job ∧ (c.turn slots t).1 = slots.finish job ∧
        (c.turn slots t).2.job? = some job := by
  cases t with
  | dispatch name =>
    simp only [turn]
    split
    · rename_i hn hr
      exact .inr (.inl ⟨name, by rw [job?, hn, Option.map_none], rfl, rfl⟩)
    · exact .inl ⟨rfl, rfl⟩
  | finish =>
    simp only [turn]
    split
    · rename_i _ _ job hn
      split
      · have hjob : c.job? = some job := by rw [job?, hn, Option.map_some]
        exact .inr (.inr ⟨_, hjob, rfl, hjob⟩)
      · exact .inl ⟨rfl, rfl⟩
    · exact .inl ⟨rfl, rfl⟩
  | deliver =>
    simp only [turn]
    split
    · split <;> exact .inl ⟨rfl, rfl⟩
    · exact .inl ⟨rfl, rfl⟩
  | _ => exact .inl ⟨rfl, rfl⟩

theorem Stands.turn (h : c.Stands slots)
    (hnew : ∀ name, ⟨slots.dispatched.length, name⟩ ∉ slots.finished) (t : Turn) :
    (c.turn slots t).2.Stands (c.turn slots t).1 := by
  cases t with
  | report store answer => exact h.report store answer
  | dispatch name =>
    simp only [Commission.turn]
    split
    · rename_i hn hr
      exact h.dispatch hn hr name (hnew name)
    · exact h
  | deliver =>
    simp only [Commission.turn]
    split
    · rename_i hn
      split
      · exact h.deliver hn
      · exact h
    · exact h
  | finish =>
    simp only [Commission.turn]
    split
    · split
      · rename_i hcan
        exact h.finish hcan.2 _
      · exact h
    · exact h
  | poll => exact h.poll
  | leave => exact h.leave

end Commission

/-! ## All commissions on one pool -/

/-- A pool of workers, and all commissions whose results it delivers. -/
structure Delivery where
  slots : Slots
  commissions : List Commission := []

namespace Delivery

/-- What happens on the pool. -/
inductive Move where
  /-- A commit over these stores is submitted. -/
  | submit (stores : List String)
  /-- The commission of this number takes a turn, if there is one. -/
  | turn (i : Nat) (t : Commission.Turn)
  /-- A job that waits is admitted, if there is a place. -/
  | enter (job : Job)
  | start (job : Job)

/-- Nothing is submitted yet. -/
def start (workers queue : Nat) : Delivery := { slots := Slots.create workers queue }

/-- A move, which changes nothing where it cannot be made. -/
def step (s : Delivery) : Move → Delivery
  | .submit stores =>
    { s with commissions := s.commissions ++ [{ coordinator := Coordinator.begin { stores } }] }
  | .turn i t =>
    match s.commissions[i]? with
    | some c =>
      let (slots, c) := c.turn s.slots t
      { slots, commissions := s.commissions.set i c }
    | none => s
  | .enter job => { s with slots := (s.slots.admit? job).getD s.slots }
  | .start job => { s with slots := (s.slots.start? job).getD s.slots }

/-- The moves one after the other. -/
def after (s : Delivery) : List Move → Delivery
  | [] => s
  | m :: rest => (s.step m).after rest

/-- What holds between the moves. -/
structure Sound (workers queue : Nat) (s : Delivery) : Prop where
  slots : s.slots.Sound workers queue
  stands : ∀ c ∈ s.commissions, c.Stands s.slots
  /-- Every job is that of one commission. -/
  jobs : (s.commissions.filterMap Commission.job?).Perm s.slots.dispatched

variable {workers queue : Nat} {s : Delivery}

theorem sound_start (workers queue : Nat) : Sound workers queue (start workers queue) where
  slots := Slots.sound_create workers queue
  stands := fun _ h => by cases h
  jobs := .refl _

namespace Sound

theorem submit (h : Sound workers queue s) (stores : List String) :
    Sound workers queue (s.step (.submit stores)) where
  slots := h.slots
  stands := by
    intro c hc
    rcases List.mem_append.1 hc with hc | hc
    · exact h.stands c hc
    · rw [List.mem_singleton.1 hc]
      exact Commission.stands_begin s.slots stores
  jobs := by
    rw [step, List.filterMap_append]
    exact (List.append_nil _).symm ▸ h.jobs

/-- A job goes from one place to another before it ends. -/
theorem moved (h : Sound workers queue s) {slots : Slots} (hslots : slots.Sound workers queue)
    (hdispatched : slots.dispatched = s.slots.dispatched)
    (hfinished : slots.finished = s.slots.finished) :
    Sound workers queue { s with slots } where
  slots := hslots
  stands := fun c hc => (h.stands c hc).frame (hdispatched ▸ List.Subset.refl _)
    fun _ _ hmem => hfinished ▸ hmem
  jobs := hdispatched ▸ h.jobs

/-- No other commission has the job of this one. -/
theorem job_ne (h : Sound workers queue s) {before after : List Commission} {c z : Commission}
    (hl : s.commissions = before ++ c :: after) {job : Job} (hjob : c.job? = some job)
    (hz : z ∈ before ++ after) : z.job? ≠ some job := by
  intro hzjob
  have hnodup : (s.commissions.filterMap Commission.job?).Nodup :=
    h.jobs.nodup_iff.2 h.slots.dispatched_nodup
  rw [hl, List.filterMap_append, List.filterMap_cons_some hjob, List.nodup_middle,
    ← List.filterMap_append] at hnodup
  exact (List.nodup_cons.1 hnodup).1 (List.mem_filterMap.2 ⟨z, hz, hzjob⟩)

/-- A commission takes a turn in which the others stand as they stood. -/
theorem replaced {before after : List Commission} {c : Commission} {slots : Slots}
    (hslots : slots.Sound workers queue) (hc : c.Stands slots)
    (hothers : ∀ z ∈ before ++ after, z.Stands slots)
    (hjobs : ((before ++ c :: after).filterMap Commission.job?).Perm slots.dispatched) :
    Sound workers queue ⟨slots, before ++ c :: after⟩ where
  slots := hslots
  stands := by
    intro z hz
    rcases List.mem_append.1 hz with hz | hz
    · exact hothers z (List.mem_append_left _ hz)
    · rcases List.mem_cons.1 hz with rfl | hz
      · exact hc
      · exact hothers z (List.mem_append_right _ hz)
  jobs := hjobs

theorem turn (h : Sound workers queue s) (i : Nat) (t : Commission.Turn) :
    Sound workers queue (s.step (.turn i t)) := by
  simp only [step]
  cases hc : s.commissions[i]? with
  | none => exact h
  | some c =>
    dsimp only
    obtain ⟨before, after, hl, hset⟩ := Replaced.exists_split hc
    rw [hset]
    have hothers : ∀ z ∈ before ++ after, z ∈ s.commissions := by
      intro z hz
      rw [hl, List.mem_append, List.mem_cons]
      exact (List.mem_append.1 hz).imp_right .inr
    have hturn := (h.stands c (List.mem_of_getElem? hc)).turn h.slots.not_finished_next t
    have hjobs := h.jobs
    rw [hl, List.filterMap_append, List.filterMap_cons] at hjobs
    rcases c.turn_cases s.slots t with ⟨hslots, hjob⟩ | ⟨name, hnone, hslots, hjob⟩ |
      ⟨job, hsome, hslots, hjob⟩
    · rw [hslots] at hturn ⊢
      refine replaced h.slots hturn (fun z hz => h.stands z (hothers z hz)) ?_
      rwa [List.filterMap_append, List.filterMap_cons, hjob]
    · rw [hslots] at hturn ⊢
      refine replaced (h.slots.dispatch name) hturn (fun z hz => ?_) ?_
      · exact (h.stands z (hothers z hz)).frame (List.subset_append_left _ _) fun _ _ hmem => hmem
      · rw [hnone] at hjobs
        rw [List.filterMap_append, List.filterMap_cons_some hjob]
        exact List.perm_middle.trans ((List.perm_append_singleton _ _).symm.trans
          (hjobs.append_right _))
    · rw [hslots] at hturn ⊢
      have hdispatched : (s.slots.finish job).dispatched = s.slots.dispatched :=
        s.slots.finish_dispatched job
      refine replaced (h.slots.finish job) hturn (fun z hz => ?_) ?_
      · refine (h.stands z (hothers z hz)).frame (hdispatched ▸ List.Subset.refl _) ?_
        intro x hx hmem
        rcases Slots.mem_finished_finish hmem with rfl | hmem
        · exact absurd hx (h.job_ne hl hsome hz)
        · exact hmem
      · rw [hsome] at hjobs
        rwa [hdispatched, List.filterMap_append, List.filterMap_cons_some hjob]

theorem step (h : Sound workers queue s) (m : Move) : Sound workers queue (s.step m) := by
  cases m with
  | submit stores => exact h.submit stores
  | turn i t => exact h.turn i t
  | enter job =>
    simp only [Delivery.step]
    cases hs : s.slots.admit? job with
    | none => exact h
    | some slots =>
      obtain ⟨hdispatched, hfinished⟩ := Slots.admit?_keeps hs
      exact h.moved (h.slots.admit? hs) hdispatched hfinished
  | start job =>
    simp only [Delivery.step]
    cases hs : s.slots.start? job with
    | none => exact h
    | some slots =>
      obtain ⟨hdispatched, hfinished⟩ := Slots.start?_keeps hs
      exact h.moved (h.slots.start? hs) hdispatched hfinished

theorem after (h : Sound workers queue s) (moves : List Move) :
    Sound workers queue (s.after moves) := by
  induction moves generalizing s with
  | nil => exact h
  | cons m rest ih => exact ih (h.step m)

end Sound

/-- However many commits share a pool and in whatever order things happen: no more jobs run than
there are workers, no more are admitted than there are places, and `available` is the difference; a
job waits for admission only while the places are taken; no job is lost, none starts twice, and they
do not block each other for ever. A future gives nothing but what the run of its own coordinator
returned, and gives it once at most; when the job with the result has ended it was delivered once;
and a handle that has delivered says `false` to whatever else it is given, and nothing changes. -/
theorem delivered_once (workers queue : Nat) (moves : List Move) :
    let s := (start workers queue).after moves
    (s.slots.running.length ≤ max workers 1 ∧
      s.slots.queued.length + s.slots.running.length + s.slots.available =
        max workers 1 + queue) ∧
    (∀ job ∈ s.slots.waiting, s.slots.admit? job = none ↔
      s.slots.queued.length + s.slots.running.length = max workers 1 + queue) ∧
    (s.slots.dispatched.Nodup ∧ s.slots.started.Nodup ∧
      s.slots.dispatched.Perm
        (s.slots.waiting ++ (s.slots.queued ++ (s.slots.running ++ s.slots.finished)))) ∧
    ((∀ job, s.slots.admit? job = none) → (∀ job, s.slots.start? job = none) →
      s.slots.running = [] → s.slots.waiting = [] ∧ s.slots.queued = []) ∧
    ∀ c ∈ s.commissions,
      (∀ r, c.completion.poll.2 = .resolved r ∨ r ∈ c.polled →
        c.coordinator.state.result? = some r) ∧
      (c.Waits ∨ ∃ r, c.coordinator.state.result? = some r ∧ c.Given r) ∧
      (∀ r job, c.notice? = some (r, job) →
        c.coordinator.state.result? = some r ∧ job ∈ s.slots.dispatched ∧
          (job ∈ s.slots.finished → c.Given r)) ∧
      (c.told ≠ [] → c.completion.handle ≠ .dropped →
        ∀ r, c.completion.complete r = (c.completion, some false)) := by
  intro s
  have h : Sound workers queue s := (sound_start workers queue).after moves
  refine ⟨⟨h.slots.running_le_workers, h.slots.places⟩, fun job hjob =>
    h.slots.admit?_eq_none_iff hjob, ⟨h.slots.dispatched_nodup, h.slots.started_nodup,
    h.slots.perm_places⟩, h.slots.idle, fun c hc => ?_⟩
  have hstands : c.Stands s.slots := h.stands c hc
  refine ⟨?resolves, hstands.waits_or_given, ?ended, ?later⟩
  case resolves =>
    intro r hr
    refine hstands.resolves (hr.imp_left fun hpoll => ?_)
    unfold Completion.poll at hpoll
    split at hpoll <;> exact hpoll
  case ended =>
    intro r job hn
    obtain ⟨hresult, hmem⟩ := hstands.noticed r job hn
    refine ⟨hresult, hmem, fun hfinished => ?_⟩
    rcases hstands.given with ⟨-, hnot⟩ | ⟨r', job', hn', hg⟩
    · exact absurd hfinished (hnot r job hn)
    · rw [hn] at hn'
      cases hn'
      exact hg
  case later =>
    intro htold hdropped r
    have hused : c.completion.handle = .used := by
      rcases hstands.waits_or_given with hw | ⟨r', -, hg⟩
      · exact absurd hw.told htold
      · have hready := hg.handle
        cases hhandle : c.completion.handle <;> simp_all
    exact Completion.complete_of_used hused r

/-- One worker and a queue of one: the third job waits until the first has ended. -/
example :
    let turns := [.submit [], .submit [], .submit [], .turn 0 (.dispatch "a"),
      .turn 1 (.dispatch "b"), .turn 2 (.dispatch "c"), .enter ⟨0, "a"⟩, .enter ⟨1, "b"⟩]
    let s := (start 1 1).after turns
    (s.slots.available, s.slots.admit? ⟨2, "c"⟩ |>.isSome) = (0, false) ∧
      (((s.after [.start ⟨0, "a"⟩, .turn 0 .deliver, .turn 0 .finish]).slots.admit? ⟨2, "c"⟩
        |>.isSome) = true) := by
  decide

end Delivery

end MountRegistry
