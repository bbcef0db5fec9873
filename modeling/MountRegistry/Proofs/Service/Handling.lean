import MountRegistry.Api.Answer
import MountRegistry.Proofs.Broker.Ending

/-
  How a request for data is handled, one step at a time. The target is looked up; what is committed
  at the path is read, or an edit is staged on it; the edit is submitted, and the calls of its
  commit come one by one. Every step works on the service as it is then: between two of them
  anything may have happened to it. A handling takes eight steps at most (`EndsIn.step`), and if
  nothing comes in between they make the answer that `perform` gives at once (`alone_eq`).
-/

namespace MountRegistry

/-- What is wanted of the data at a path. -/
inductive DataMethod where
  | read
  | put (value : Json)
  | merge (value : Json)
  | delete
  deriving Repr

/-- The edit at a path, if one is wanted. -/
def DataMethod.edit? (path : DataPath) : DataMethod → Option Edit
  | read => none
  | put value => some (.put path value)
  | merge value => some (.merge path value)
  | delete => some (.delete path)

/-- A read or a write at a place of some mount point. -/
structure DataRequest where
  target : DataTarget
  method : DataMethod
  deriving Repr

/-- Where a target was found. -/
structure DataPlace where
  broker : Broker
  kind : StoreKind
  path : DataPath
  deriving Repr

/-- The answer of a handling that is over. -/
def Response.ofResult : Except ApiFailure Json → Response
  | .ok data => .ok data
  | .error e => .ofFailure e

namespace Handling

/-- How far a handling has come, and what it knows by then. -/
inductive Stage where
  | arrived
  | placed (p : DataPlace)
  | staged (p : DataPlace) (e : Edit) (w : Writer)
  | committing (p : DataPlace) (e : Edit) (c : Submission)
  | answered (result : Except ApiFailure Json)
  deriving Repr

end Handling

/-- The handling of one request, with the time and the identifier that it was given. -/
structure Handling where
  occasion : Occasion
  request : DataRequest
  stage : Handling.Stage := .arrived

namespace Handling

/-- The first step: the place is found, or the request ends here. -/
def find (s : Service) (t : DataTarget) : Stage :=
  match s.resolveTarget t with
  | .error e => .answered (.error e)
  | .ok (b, kind, path) => .placed ⟨b, kind, path⟩

/-- What is answered where there is data. -/
def foundJson (p : DataPlace) (data : Json) : Json :=
  .ofMembers (("data", data) :: Service.placeMembers p.broker p.kind p.path)

/-- What a read of the place answers. -/
def read (pool : StorePool) (id : String) (p : DataPlace) : Except ApiFailure Json :=
  match (Reader.read { id, broker := p.broker } pool none p.kind p.path).2 with
  | .error cause => .error (.transaction cause)
  | .ok none => .error (.dataNotFound p.path.toString)
  | .ok (some data) => .ok (foundJson p data)

/-- Stages an edit in a transaction of its own. -/
def stageEdit (pool : StorePool) (p : DataPlace) (e : Edit) : Stage :=
  match Writer.stage { broker := p.broker } pool p.kind e with
  | (_, .error cause) => .answered (.error (.transaction cause))
  | (w, .ok ()) => .staged p e w

/-- What is answered once the edit is committed. -/
def committedJson (id : String) (p : DataPlace) (e : Edit) : Json :=
  .ofMembers ([("tx_id", .text id), ("operation", .text (Service.editName e)),
    ("status", .text "committed")] ++ Service.placeMembers p.broker p.kind p.path)

/-- What the result of a commit is for the client. -/
def conclude (id : String) (p : DataPlace) (e : Edit) : CommitResult → Except ApiFailure Json
  | .ok () => .ok (committedJson id p e)
  | .error cause => .error (.transaction cause)

/-- The next step of a handling. -/
def step (s : Service) (h : Handling) : Service × Handling :=
  match h.stage with
  | .arrived => (s, { h with stage := find s h.request.target })
  | .placed p =>
    match h.request.method.edit? p.path with
    | none => (s, { h with stage := .answered (read s.manager.pool h.occasion.freshId p) })
    | some e => (s, { h with stage := stageEdit s.manager.pool p e })
  | .staged p e w =>
    (s, { h with stage := .committing p e (Submission.create (w.cohorts s.manager.pool)) })
  | .committing p e c =>
    match c.coordinator.state.result? with
    | some r => (s, { h with stage := .answered (conclude h.occasion.freshId p e r) })
    | none =>
      let (pool, c) := c.advance s.manager.pool
      ({ s with manager := { s.manager with pool } }, { h with stage := .committing p e c })
  | .answered _ => (s, h)

/-- The answer, once there is one. -/
def response? (h : Handling) : Option Response :=
  match h.stage with
  | .answered result => some (.ofResult result)
  | _ => none

theorem step_of_response? {h : Handling} {r : Response} (hr : h.response? = some r) (s : Service) :
    h.step s = (s, h) := by
  unfold response? at hr
  unfold step
  split at hr
  · rename_i hstage
    rw [hstage]
  · cases hr

/-! ## How many steps are left -/

/-- A transaction that has staged one edit has one cohort. -/
theorem length_cohorts_stage {b : Broker} {pool : StorePool} {kind : StoreKind} {e : Edit}
    {w : Writer} (h : Writer.stage { broker := b } pool kind e = (w, .ok ())) (later : StorePool) :
    (w.cohorts later).length = 1 := by
  unfold Writer.stage at h
  split at h
  · cases h
  · dsimp only at h
    split at h
    · rename_i d hd
      obtain ⟨working, _, rfl⟩ := StoreDraft.stage_eq_ok hd
      cases h
      simp [Writer.cohorts, Writer.setDraft, Keyed.insert]
    · cases h

/-- A handling is answered after so many of its steps: one to find the place, one to read or
stage, one to submit, one for each call of the commit, of which there are four at most, and one
to answer. -/
def EndsIn (h : Handling) (n : Nat) : Prop :=
  match h.stage with
  | .arrived => 8 ≤ n
  | .placed _ => 7 ≤ n
  | .staged _ _ w => (∀ pool, (w.cohorts pool).length = 1) ∧ 6 ≤ n
  | .committing _ _ c => ∃ calls, c.Called calls ∧ 4 * c.cohorts.length + 1 ≤ calls + n
  | .answered _ => True

variable {h : Handling} {n m : Nat}

theorem EndsIn.mono (hn : h.EndsIn n) (hle : n ≤ m) : h.EndsIn m := by
  obtain ⟨o, q, stage⟩ := h
  cases stage with
  | arrived => exact Nat.le_trans hn hle
  | placed p => exact Nat.le_trans hn hle
  | staged p e w => exact ⟨hn.1, Nat.le_trans hn.2 hle⟩
  | committing p e c =>
    obtain ⟨calls, hcalled, hroom⟩ := hn
    exact ⟨calls, hcalled, Nat.le_trans hroom (Nat.add_le_add_left hle calls)⟩
  | answered r => trivial

/-- One that has no step left is answered. -/
theorem EndsIn.zero (hn : h.EndsIn 0) : ∃ r, h.response? = some r := by
  obtain ⟨o, q, stage⟩ := h
  cases stage with
  | arrived => exact absurd hn (Nat.not_succ_le_zero 7)
  | placed p => exact absurd hn (Nat.not_succ_le_zero 6)
  | staged p e w => exact absurd hn.2 (Nat.not_succ_le_zero 5)
  | committing p e c =>
    obtain ⟨calls, hcalled, hroom⟩ := hn
    have := hcalled.le
    omega
  | answered r => exact ⟨_, rfl⟩

theorem endsIn_find (s : Service) (o : Occasion) (q : DataRequest) :
    EndsIn ⟨o, q, find s q.target⟩ 7 := by
  unfold find
  split
  · trivial
  · exact Nat.le_refl 7

theorem endsIn_stageEdit (pool : StorePool) (o : Occasion) (q : DataRequest) (p : DataPlace)
    (e : Edit) : EndsIn ⟨o, q, stageEdit pool p e⟩ 6 := by
  unfold stageEdit
  split
  · trivial
  · rename_i w hw
    exact ⟨length_cohorts_stage hw, Nat.le_refl 6⟩

/-- Every step of a handling leaves it one less. -/
theorem EndsIn.step (hn : h.EndsIn (n + 1)) (s : Service) : (h.step s).2.EndsIn n := by
  obtain ⟨o, q, stage⟩ := h
  cases stage with
  | arrived => exact (endsIn_find s o q).mono (Nat.le_of_succ_le_succ hn)
  | placed p =>
    unfold Handling.step
    dsimp only
    split
    · trivial
    · exact (endsIn_stageEdit ..).mono (Nat.le_of_succ_le_succ hn)
  | staged p e w =>
    obtain ⟨hone, hle⟩ := hn
    have hlen : (Submission.create (w.cohorts s.manager.pool)).cohorts.length = 1 := hone _
    exact ⟨0, Submission.called_create _, by omega⟩
  | committing p e c =>
    obtain ⟨calls, hcalled, hroom⟩ := hn
    unfold Handling.step
    dsimp only
    split
    · trivial
    · rename_i hr
      obtain ⟨hnext, hlen⟩ := hcalled.advance hr s.manager.pool
      exact ⟨calls + 1, hnext, by omega⟩
  | answered r => trivial

/-! ## Nothing in between -/

/-- So many steps, one right after the other. -/
def alone : Nat → Service → Handling → Service × Handling
  | 0, s, h => (s, h)
  | n + 1, s, h =>
    let (s, h) := h.step s
    alone n s h

theorem alone_answered (n : Nat) (s : Service) (o : Occasion) (q : DataRequest)
    (result : Except ApiFailure Json) :
    alone n s ⟨o, q, .answered result⟩ = (s, ⟨o, q, .answered result⟩) := by
  induction n with
  | zero => rfl
  | succ n ih => exact ih

section
variable {c : Submission} {calls : Nat} (s : Service) (o : Occasion) (q : DataRequest)
  (p : DataPlace) (e : Edit)

theorem alone_of_result? {r : CommitResult} (hr : c.coordinator.state.result? = some r) :
    alone (n + 1) s ⟨o, q, .committing p e c⟩ =
      (s, ⟨o, q, .answered (conclude o.freshId p e r)⟩) := by
  have hstep : step s ⟨o, q, .committing p e c⟩ =
      (s, ⟨o, q, .answered (conclude o.freshId p e r)⟩) := by
    simp only [step, hr]
  rw [alone, hstep]
  exact alone_answered ..

/-- The steps of a commit drive its submission to the end, and answer with the result. -/
theorem alone_committing (hc : c.Called calls) (hn : 4 * c.cohorts.length ≤ calls + n) :
    let driven := Submission.runIn n s.manager.pool c
    alone (n + 1) s ⟨o, q, .committing p e c⟩ =
      ({ s with manager := { s.manager with pool := driven.1 } },
        ⟨o, q, .answered (conclude o.freshId p e driven.2.result)⟩) := by
  dsimp only
  induction n generalizing s c calls with
  | zero =>
    obtain ⟨r, hr⟩ : ∃ r, c.coordinator.state.result? = some r :=
      hc.exists_result s.manager.pool hn
    rw [alone_of_result? s o q p e hr]
    exact (Submission.result_of_result? hr).symm ▸ rfl
  | succ n ih =>
    cases hr : c.coordinator.state.result? with
    | some r =>
      rw [alone_of_result? s o q p e hr, Submission.runIn_of_result? _ hr,
        Submission.result_of_result? hr]
    | none =>
      obtain ⟨hnext, hlen⟩ := hc.advance hr s.manager.pool
      have hstep : step s ⟨o, q, .committing p e c⟩ =
          ({ s with manager := { s.manager with pool := (c.advance s.manager.pool).1 } },
            ⟨o, q, .committing p e (c.advance s.manager.pool).2⟩) := by
        simp only [step, hr]
      rw [alone, hstep, Submission.runIn_succ]
      exact ih _ hnext (by omega)

end

end Handling

/-- What an operation wants of data, as soon as the body of the request is read. -/
def DataRequest.ofOperation? (r : Request) : Operation → Option DataRequest
  | .readData t => some ⟨t, .read⟩
  | .putData t => (r.readBody Service.readJson).toOption.map fun value => ⟨t, .put value⟩
  | .mergeData t => (r.readBody Service.readJson).toOption.map fun value => ⟨t, .merge value⟩
  | .deleteData t => some ⟨t, .delete⟩
  | _ => none

namespace Handling

variable {s : Service} {o : Occasion} {r : Request} {q : DataRequest} {op : Operation}

/-- What a request for data comes to that is handled at once, and the service that is left. -/
def atOnce (s : Service) (o : Occasion) (q : DataRequest) : Service × Except ApiFailure Json :=
  match s.resolveTarget q.target with
  | .error f => (s, .error f)
  | .ok (b, kind, path) =>
    match q.method.edit? path with
    | none => (s, read s.manager.pool o.freshId ⟨b, kind, path⟩)
    | some e =>
      let (s, result) := s.edit b kind e
      (s, conclude o.freshId ⟨b, kind, path⟩ e result)

theorem atOnce_read (s : Service) (o : Occasion) (t : DataTarget) :
    atOnce s o ⟨t, .read⟩ = (s, s.readData o t) := by
  unfold Service.readData atOnce
  cases s.resolveTarget t <;> rfl

theorem writeData_eq (s : Service) (o : Occasion) (t : DataTarget) {method : DataMethod}
    {edit : DataPath → Edit} (he : ∀ path, method.edit? path = some (edit path)) :
    s.writeData o t edit =
      ((atOnce s o ⟨t, method⟩).1, .ofResult (atOnce s o ⟨t, method⟩).2) := by
  unfold Service.writeData atOnce
  cases s.resolveTarget t with
  | error f => rfl
  | ok found =>
    obtain ⟨b, kind, path⟩ := found
    dsimp only
    rw [he path]
    dsimp only
    rcases s.edit b kind (edit path) with ⟨s', cause | _⟩ <;> rfl

theorem withBody_of_readBody {α : Type} {read : Reading → Except Fault α} {value : α}
    (h : (r.readBody read).toOption = some value) (f : α → Service × Response) :
    s.withBody r read f = f value := by
  unfold Service.withBody
  cases hbody : r.readBody read with
  | error status =>
    rw [hbody] at h
    cases h
  | ok a =>
    rw [hbody] at h
    cases h
    rfl

theorem perform_of_data (h : DataRequest.ofOperation? r op = some q) :
    s.perform o r op = ((atOnce s o q).1, .ofResult (atOnce s o q).2) := by
  cases op with
  | readData t =>
    cases h
    rw [atOnce_read]
    change (s, _) = (s, Response.ofResult (s.readData o t))
    cases s.readData o t <;> rfl
  | putData t =>
    obtain ⟨value, hvalue, rfl⟩ := Option.map_eq_some_iff.1 h
    exact (withBody_of_readBody hvalue _).trans (writeData_eq s o t fun _ => rfl)
  | mergeData t =>
    obtain ⟨value, hvalue, rfl⟩ := Option.map_eq_some_iff.1 h
    exact (withBody_of_readBody hvalue _).trans (writeData_eq s o t fun _ => rfl)
  | deleteData t =>
    cases h
    exact writeData_eq s o t fun _ => rfl
  | _ => cases h

/-- From its place on, a write alone is a transaction of one edit. -/
theorem alone_edit (s : Service) (o : Occasion) {p : DataPlace} {e : Edit}
    (he : q.method.edit? p.path = some e) :
    alone 7 s ⟨o, q, .placed p⟩ =
      ((s.edit p.broker p.kind e).1,
        ⟨o, q, .answered (conclude o.freshId p e (s.edit p.broker p.kind e).2)⟩) := by
  have hplaced : step s ⟨o, q, .placed p⟩ = (s, ⟨o, q, stageEdit s.manager.pool p e⟩) := by
    simp only [step, he]
  rw [alone, hplaced]
  unfold stageEdit Service.edit
  dsimp only
  rcases hw : Writer.stage { broker := p.broker } s.manager.pool p.kind e with ⟨w, cause | ⟨⟨⟩⟩⟩
  · exact alone_answered ..
  · -- one step submits, and the rest are those of the commit
    have hone : (Submission.create (w.cohorts s.manager.pool)).cohorts.length = 1 :=
      length_cohorts_stage hw _
    have hrun := alone_committing s o q p e
      (Submission.called_create (w.cohorts s.manager.pool)) (n := 4) (by omega)
    have hsubmit : w.submit s.manager.pool =
        let driven := Submission.runIn 4 s.manager.pool
          (Submission.create (w.cohorts s.manager.pool))
        (driven.1, driven.2.result) := by
      unfold Writer.submit Submission.run
      rw [hone]
    dsimp only
    rw [hsubmit]
    exact hrun

theorem alone_arrived (s : Service) (o : Occasion) (q : DataRequest) :
    alone 8 s ⟨o, q, .arrived⟩ = ((atOnce s o q).1, ⟨o, q, .answered (atOnce s o q).2⟩) := by
  have hfound : step s ⟨o, q, .arrived⟩ = (s, ⟨o, q, find s q.target⟩) := rfl
  rw [alone, hfound]
  unfold find atOnce
  dsimp only
  cases s.resolveTarget q.target with
  | error f => exact alone_answered ..
  | ok found =>
    obtain ⟨b, kind, path⟩ := found
    dsimp only
    cases he : q.method.edit? path with
    | none =>
      have hread : step s ⟨o, q, .placed ⟨b, kind, path⟩⟩ =
          (s, ⟨o, q, .answered (read s.manager.pool o.freshId ⟨b, kind, path⟩)⟩) := by
        simp only [step, he]
      rw [alone, hread]
      exact alone_answered ..
    | some e => exact alone_edit s o he

/-- If nothing comes in between, the steps of a handling make the answer to the request, and leave
the service, that performing its operation at once does. -/
theorem alone_eq (s : Service) (o : Occasion) (h : DataRequest.ofOperation? r op = some q) :
    (alone 8 s ⟨o, q, .arrived⟩).1 = (s.perform o r op).1 ∧
      (alone 8 s ⟨o, q, .arrived⟩).2.response? = some (s.perform o r op).2 := by
  rw [alone_arrived, perform_of_data h]
  exact ⟨rfl, rfl⟩

end Handling

end MountRegistry
