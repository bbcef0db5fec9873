import MountRegistry.Proofs.Broker.OwnWrites
import MountRegistry.Proofs.Data.Commuting
import MountRegistry.Proofs.Data.Merge
import MountRegistry.Proofs.Mount.FailedCreation
import MountRegistry.Proofs.Service.Desk

/-
  The statuses that requests for data are answered with, whatever happens to the service between the
  steps of their handlings. Every answer has a reason that shows in the step that brings it
  (`Reason`). Two of them are the same for a client: the path runs through a leaf, which a read and
  a staged edit find out before anything is committed, and a commit may find out in one of its
  phases. The commit is answered with 422. The read and the edit are answered with 500, and that is
  the only way in which a request for data is answered with a fault of the service
  (`data_statuses`).
-/

namespace MountRegistry

/-! ## What a place shows -/

namespace DataPlace

/-- The store of the place, as it is now. -/
def store (p : DataPlace) (pool : StorePool) : Store := p.broker.store pool p.kind

/-- The path as the store spells it. -/
def canonicalPath (p : DataPlace) (pool : StorePool) : DataPath :=
  Store.canonicalPath (p.store pool).model p.path

/-- What the store shows at the place, if the path leads anywhere. -/
def shown? (p : DataPlace) (pool : StorePool) : Option (Option Json) :=
  Json.read? (p.canonicalPath pool).segments (p.store pool).tree

/-- The path runs through a leaf. -/
def BelowLeaf (p : DataPlace) (pool : StorePool) : Prop :=
  ∃ q leaf, q <+: (p.canonicalPath pool).segments ∧ q ≠ (p.canonicalPath pool).segments ∧
    (p.store pool).tree.LeafAt q leaf

variable {p : DataPlace} {pool : StorePool}

theorem belowLeaf_iff : p.BelowLeaf pool ↔ p.shown? pool = none := Json.read?_eq_none_iff.symm

/-- The root runs through nothing. -/
theorem shown?_of_root (h : p.path.isRoot = true) :
    p.shown? pool = some (some (p.store pool).tree) := by
  obtain ⟨b, kind, ⟨segments⟩⟩ := p
  obtain rfl : segments = [] := List.isEmpty_iff.1 h
  exact Json.read?_nil _

end DataPlace

/-! ## Staging -/

/-- An edit is made at its path as the store spells it. -/
theorem Store.canonicalEdit_path (model : Yang.Model) (e : Edit) :
    (canonicalEdit model e).path = canonicalPath model e.path := by
  have hroot : ∀ path : DataPath, path.isRoot = true → canonicalPath model path = path := by
    rintro ⟨segments⟩ hroot
    obtain rfl : segments = [] := List.isEmpty_iff.1 hroot
    rfl
  cases e with
  | put path value =>
    unfold canonicalEdit
    dsimp only
    split
    · exact (hroot path ‹_›).symm
    · rfl
  | merge path value =>
    unfold canonicalEdit
    dsimp only
    split
    · exact (hroot path ‹_›).symm
    · rfl
  | delete path => rfl

/-- The only failure of an edit is that its path runs through a leaf. -/
theorem Edit.eq_of_apply_eq_error {e : Edit} {t : Json} {f : StoreFailure}
    (h : e.apply t = .error f) : f = notTraversable e.path := by
  unfold apply at h
  split at h
  · cases h
  · cases h
    rfl

/-- An edit is staged on a draft unless its path runs through a leaf there. -/
theorem StoreDraft.stage_cases (d : StoreDraft) (e : Edit) :
    let path := Store.canonicalPath d.model e.path
    (Json.read? path.segments d.working = none ∧ d.stage e = .error (notTraversable path)) ∨
      (Json.read? path.segments d.working ≠ none ∧ ∃ d', d.stage e = .ok d') := by
  intro path
  have hpath : (Store.canonicalEdit d.model e).path = path := Store.canonicalEdit_path d.model e
  unfold stage
  dsimp only
  cases happly : (Store.canonicalEdit d.model e).apply d.working with
  | error f =>
    have hnone := Edit.apply_eq_error_iff.1 ⟨f, happly⟩
    obtain rfl := Edit.eq_of_apply_eq_error happly
    rw [hpath] at hnone
    exact .inl ⟨hnone, congrArg (fun path => Except.error (notTraversable path)) hpath⟩
  | ok working =>
    refine .inr ⟨fun hnone => ?_, _, rfl⟩
    obtain ⟨f, herror⟩ := Edit.apply_eq_error_iff.2 (hpath.symm ▸ hnone)
    rw [happly] at herror
    cases herror

/-! ## Reasons -/

theorem DataMethod.path_edit? {method : DataMethod} {path : DataPath} {e : Edit}
    (h : method.edit? path = some e) : e.path = path := by
  cases method <;> cases h <;> rfl

theorem Service.resolveTarget_eq_error {s : Service} {t : DataTarget} {f : ApiFailure}
    (h : s.resolveTarget t = .error f) :
    (StoreKind.parse? t.store = none ∧ f = .invalidStoreKind t.store) ∨
      (s.manager.broker? ⟨t.node⟩ = none ∧ f = .mountPointNotFound t.node) := by
  unfold resolveTarget at h
  split at h
  · rename_i hkind
    cases h
    exact .inl ⟨hkind, rfl⟩
  · rename_i hbroker _
    cases h
    exact .inr ⟨hbroker, rfl⟩
  · cases h

namespace Handling

/-- A path that runs through a leaf is about to be read, or to have an edit staged at it. -/
def MeetsLeaf (s : Service) (h : Handling) : Prop :=
  ∃ p, h.stage = .placed p ∧ p.BelowLeaf s.manager.pool

/-- Why a request is answered, and how, by a step of its handling on the service as it is then. -/
inductive Reason (s : Service) (h : Handling) : Response → Prop where
  | noKind (stage : h.stage = .arrived) (kind : StoreKind.parse? h.request.target.store = none) :
    Reason s h (.ofFailure (.invalidStoreKind h.request.target.store))
  | noMount (stage : h.stage = .arrived)
    (broker : s.manager.broker? ⟨h.request.target.node⟩ = none) :
    Reason s h (.ofFailure (.mountPointNotFound h.request.target.node))
  | root (p : DataPlace) (stage : h.stage = .placed p) (root : p.path.isRoot = true)
    (write : h.request.method.edit? p.path ≠ none) :
    Reason s h (.ofFailure (.transaction Writer.rootRefused))
  | leaf (p : DataPlace) (stage : h.stage = .placed p) (leaf : p.BelowLeaf s.manager.pool) :
    Reason s h
      (.ofFailure (.transaction (.store (notTraversable (p.canonicalPath s.manager.pool)))))
  | absent (p : DataPlace) (stage : h.stage = .placed p)
    (read : h.request.method.edit? p.path = none) (shown : p.shown? s.manager.pool = some none) :
    Reason s h (.ofFailure (.dataNotFound p.path.toString))
  | found (p : DataPlace) (data : Json) (stage : h.stage = .placed p)
    (read : h.request.method.edit? p.path = none)
    (shown : p.shown? s.manager.pool = some (some data)) : Reason s h (.ok (foundJson p data))
  | committed (p : DataPlace) (e : Edit) (c : Submission) (stage : h.stage = .committing p e c)
    (done : c.coordinator.state = .done) :
    Reason s h (.ok (committedJson h.occasion.freshId p e))
  | failed (p : DataPlace) (e : Edit) (c : Submission) (stage : h.stage = .committing p e c)
    (phase : Phase) (cause : StoreFailure) (failed : c.coordinator.state = .failed phase cause) :
    Reason s h (.ofFailure (.transaction (.phaseFailure phase cause)))

variable {s : Service} {h : Handling} {r : Response}

/-- What comes of reading a place. -/
theorem read_cases (pool : StorePool) (id : String) (p : DataPlace) :
    (p.BelowLeaf pool ∧ read pool id p =
        .error (.transaction (.store (notTraversable (p.canonicalPath pool))))) ∨
      (p.shown? pool = some none ∧ read pool id p = .error (.dataNotFound p.path.toString)) ∨
      ∃ data, p.shown? pool = some (some data) ∧ read pool id p = .ok (foundJson p data) := by
  have hread : (Reader.read { id, broker := p.broker } pool none p.kind p.path).2 =
      ((p.store pool).tree.readAt (p.canonicalPath pool)).mapError .store :=
    Reader.read_eq rfl none
  have hshown : Json.read? (p.canonicalPath pool).segments (p.store pool).tree = p.shown? pool :=
    rfl
  unfold read
  rw [hread, Json.readAt, hshown, DataPlace.belowLeaf_iff]
  rcases p.shown? pool with _ | _ | data
  · exact .inl ⟨rfl, rfl⟩
  · exact .inr (.inl ⟨rfl, rfl⟩)
  · exact .inr (.inr ⟨data, rfl, rfl⟩)

/-- What comes of an edit at a place. -/
theorem stageEdit_cases (pool : StorePool) {p : DataPlace} {e : Edit} (he : e.path = p.path) :
    (p.path.isRoot = true ∧
        stageEdit pool p e = .answered (.error (.transaction Writer.rootRefused))) ∨
      (p.BelowLeaf pool ∧ stageEdit pool p e =
        .answered (.error (.transaction (.store (notTraversable (p.canonicalPath pool)))))) ∨
      (¬ p.BelowLeaf pool ∧ ∃ w, stageEdit pool p e = .staged p e w) := by
  unfold stageEdit Writer.stage
  rw [he, DataPlace.belowLeaf_iff]
  cases hroot : p.path.isRoot with
  | true => exact .inl ⟨rfl, rfl⟩
  | false =>
    have hdraft : Writer.draft { broker := p.broker } pool p.kind = (p.store pool).openDraft := rfl
    rw [hdraft]
    have hcases := (p.store pool).openDraft.stage_cases e
    rw [he] at hcases
    rcases hcases with ⟨hnone, hstage⟩ | ⟨hsome, d, hstage⟩
    · dsimp only
      rw [hstage]
      exact .inr (.inl ⟨hnone, rfl⟩)
    · dsimp only
      rw [hstage]
      exact .inr (.inr ⟨hsome, _, rfl⟩)

section
variable {o : Occasion} {q : DataRequest} {p : DataPlace} {e : Edit} {c : Submission}

theorem reason_arrived (hr : (step s ⟨o, q, .arrived⟩).2.response? = some r) :
    Reason s ⟨o, q, .arrived⟩ r := by
  change response? ⟨o, q, find s q.target⟩ = some r at hr
  unfold find at hr
  cases htarget : s.resolveTarget q.target with
  | ok found =>
    rw [htarget] at hr
    cases hr
  | error f =>
    rw [htarget] at hr
    cases hr
    rcases Service.resolveTarget_eq_error htarget with ⟨hkind, rfl⟩ | ⟨hbroker, rfl⟩
    · exact .noKind rfl hkind
    · exact .noMount rfl hbroker

theorem reason_placed (hr : (step s ⟨o, q, .placed p⟩).2.response? = some r) :
    Reason s ⟨o, q, .placed p⟩ r := by
  unfold step at hr
  dsimp only at hr
  cases he : q.method.edit? p.path with
  | none =>
    rw [he] at hr
    dsimp only at hr
    rcases read_cases s.manager.pool o.freshId p with
      ⟨hleaf, hread⟩ | ⟨hshown, hread⟩ | ⟨data, hshown, hread⟩
    · rw [hread] at hr
      cases hr
      exact .leaf p rfl hleaf
    · rw [hread] at hr
      cases hr
      exact .absent p rfl he hshown
    · rw [hread] at hr
      cases hr
      exact .found p data rfl he hshown
  | some e =>
    rw [he] at hr
    dsimp only at hr
    rcases stageEdit_cases s.manager.pool (DataMethod.path_edit? he) with
      ⟨hroot, hstage⟩ | ⟨hleaf, hstage⟩ | ⟨_, w, hstage⟩
    · rw [hstage] at hr
      cases hr
      exact .root p rfl hroot (by rw [he]; exact Option.some_ne_none e)
    · rw [hstage] at hr
      cases hr
      exact .leaf p rfl hleaf
    · rw [hstage] at hr
      cases hr

theorem reason_committing (hr : (step s ⟨o, q, .committing p e c⟩).2.response? = some r) :
    Reason s ⟨o, q, .committing p e c⟩ r := by
  unfold step at hr
  dsimp only at hr
  cases hresult : c.coordinator.state.result? with
  | none =>
    rw [hresult] at hr
    cases hr
  | some result =>
    rw [hresult] at hr
    cases hr
    cases hstate : c.coordinator.state with
    | done =>
      rw [hstate] at hresult
      cases hresult
      exact .committed p e c rfl hstate
    | failed phase cause =>
      rw [hstate] at hresult
      cases hresult
      exact .failed p e c rfl phase cause hstate
    | _ =>
      rw [hstate] at hresult
      cases hresult

end

/-- Every answer has its reason in the step that brings it. -/
theorem reason_of_step (hnone : h.response? = none) (hr : (h.step s).2.response? = some r) :
    h.Reason s r := by
  obtain ⟨o, q, stage⟩ := h
  cases stage with
  | arrived => exact reason_arrived hr
  | placed p => exact reason_placed hr
  | staged p e w => cases hr
  | committing p e c => exact reason_committing hr
  | answered result => cases hnone

/-! ## Statuses -/

/-- The statuses that are documented for requests for data. -/
def documented : List Nat := [200, 400, 404, 409, 422]

theorem not_meetsLeaf_of_stage (hstage : ∀ p, h.stage ≠ .placed p) : ¬ h.MeetsLeaf s :=
  fun ⟨p, hp, _⟩ => hstage p hp

theorem not_meetsLeaf_of_shown {p : DataPlace} (hp : h.stage = .placed p)
    (hshown : p.shown? s.manager.pool ≠ none) : ¬ h.MeetsLeaf s := by
  rintro ⟨p', hp', hleaf⟩
  rw [hp] at hp'
  cases hp'
  exact hshown (DataPlace.belowLeaf_iff.1 hleaf)

theorem status_phaseFailure (phase : Phase) (cause : StoreFailure) :
    (ApiFailure.transaction (.phaseFailure phase cause)).status ∈ documented := by
  have h409 : 409 ∈ documented := by decide
  have h422 : 422 ∈ documented := by decide
  cases cause with
  | validation | notTraversable => exact h422
  | _ => exact h409

/-- A path that runs through a leaf when it is read or staged is answered as a fault of the service,
and nothing else is. -/
theorem Reason.status (hr : h.Reason s r) :
    (h.MeetsLeaf s ∧ r.status = 500) ∨ (¬ h.MeetsLeaf s ∧ r.status ∈ documented) := by
  have h200 : 200 ∈ documented := by decide
  have h400 : 400 ∈ documented := by decide
  have h404 : 404 ∈ documented := by decide
  cases hr with
  | noKind stage => exact .inr ⟨not_meetsLeaf_of_stage (by simp [stage]), h400⟩
  | noMount stage => exact .inr ⟨not_meetsLeaf_of_stage (by simp [stage]), h404⟩
  | root p stage root =>
    have hshown : p.shown? s.manager.pool ≠ none := by
      rw [DataPlace.shown?_of_root root]
      exact Option.some_ne_none _
    exact .inr ⟨not_meetsLeaf_of_shown stage hshown, h400⟩
  | leaf p stage leaf => exact .inl ⟨⟨p, stage, leaf⟩, rfl⟩
  | absent p stage _ shown =>
    exact .inr ⟨not_meetsLeaf_of_shown stage (by simp [shown]), h404⟩
  | found p data stage _ shown =>
    exact .inr ⟨not_meetsLeaf_of_shown stage (by simp [shown]), h200⟩
  | committed p e c stage => exact .inr ⟨not_meetsLeaf_of_stage (by simp [stage]), h200⟩
  | failed p e c stage phase cause =>
    exact .inr ⟨not_meetsLeaf_of_stage (by simp [stage]), status_phaseFailure phase cause⟩

/-- A handling that meets a leaf is answered by its next step. -/
theorem exists_reason_of_meetsLeaf (hleaf : h.MeetsLeaf s) :
    ∃ r, (h.step s).2.response? = some r ∧ h.Reason s r := by
  obtain ⟨p, hp, hbelow⟩ := hleaf
  have hnone : h.response? = none := by
    unfold response?
    rw [hp]
  suffices hanswered : ∃ r, (h.step s).2.response? = some r by
    obtain ⟨r, hr⟩ := hanswered
    exact ⟨r, hr, reason_of_step hnone hr⟩
  unfold step
  rw [hp]
  dsimp only
  cases he : h.request.method.edit? p.path with
  | none => exact ⟨_, rfl⟩
  | some e =>
    dsimp only
    rcases stageEdit_cases s.manager.pool (DataMethod.path_edit? he) with
      ⟨_, hstage⟩ | ⟨_, hstage⟩ | ⟨hnot, _⟩
    · rw [hstage]
      exact ⟨_, rfl⟩
    · rw [hstage]
      exact ⟨_, rfl⟩
    · exact absurd hbelow hnot

end Handling

/-! ## Runs -/

namespace Service.Desk

/-- In this run the request met a leaf: its path ran through one when it was read, or when its edit
was to be staged. -/
def MetLeaf (s : Service) (ms : List Move) (i : Nat) : Prop :=
  ∃ before rest h, ms = before ++ .proceed i :: rest ∧
    ((start s).after before).handling? i = some h ∧ h.MeetsLeaf ((start s).after before).service

/-- A request that meets a leaf is answered then and there. -/
theorem MetLeaf.status {s : Service} {ms : List Move} {i : Nat} (hleaf : MetLeaf s ms i)
    {r : Response} (hr : ((start s).after ms).response? i = some r) : r.status = 500 := by
  obtain ⟨before, rest, h, rfl, hi, hmeets⟩ := hleaf
  obtain ⟨r', hstep, hreason⟩ := Handling.exists_reason_of_meetsLeaf hmeets
  have hanswered : (((start s).after before).step (.proceed i)).response? i = some r' := by
    unfold response?
    rw [handling?_step hi, if_pos (isOf_proceed i)]
    exact hstep
  rw [after_append] at hr
  obtain rfl : r' = r := Option.some.inj ((response?_after hanswered rest).symm.trans hr)
  rcases hreason.status with ⟨_, h500⟩ | ⟨hnot, _⟩
  · exact h500
  · exact absurd hmeets hnot

/-- Whatever else happens to the service meanwhile, a request for data that has taken eight steps is
answered. The answer has a reason in the step that brought it. Its status is 500 just if the path
ran through a leaf when it was read or when the edit was to be staged, and else one of those that
are documented; it is 422 if the path ran through a leaf in a phase of the commit. -/
theorem data_statuses (s : Service) (ms : List Move) :
    let d := (start s).after ms
    (∀ i h, d.handling? i = some h → ∀ later, 8 ≤ stepsOf i later →
      ∃ r, (d.after later).response? i = some r) ∧
    ∀ i r, d.response? i = some r →
      (∃ before rest h, ms = before ++ .proceed i :: rest ∧
        ((start s).after before).handling? i = some h ∧
        h.Reason ((start s).after before).service r) ∧
      (r.status = 500 ↔ MetLeaf s ms i) ∧
      (r.status ≠ 500 → r.status ∈ Handling.documented) ∧
      ∀ phase path, r = .ofFailure (.transaction (.phaseFailure phase (.notTraversable path))) →
        r.status = 422 := by
  intro d
  refine ⟨fun i h hi later hlater => answered_after s ms hi hlater, fun i r hr => ?_⟩
  obtain ⟨before, rest, h, hms, hi, hnone, hstep⟩ :=
    exists_answering (rfl : (start s).response? i = none) hr
  have hreason := Handling.reason_of_step hnone hstep
  refine ⟨⟨before, rest, h, hms, hi, hreason⟩, ⟨fun h500 => ?_, fun hleaf => hleaf.status hr⟩,
    fun hne => ?_, fun phase path hcommit => hcommit ▸ rfl⟩
  · rcases hreason.status with ⟨hmeets, _⟩ | ⟨_, hdocumented⟩
    · exact ⟨before, rest, h, hms, hi, hmeets⟩
    · rw [h500] at hdocumented
      exact absurd hdocumented (by decide)
  · rcases hreason.status with ⟨_, h500⟩ | ⟨_, hdocumented⟩
    · exact absurd h500 hne
    · exact hdocumented

/-! ## A leaf in the way -/

/-- A service that nothing has happened to. -/
def fresh : Service := Service.create "/c" ⟨"", .directory []⟩ 64

/-- A source with the one data node `y`. -/
def leafSource : Source :=
  ⟨⟨"t", none⟩, "module t \x7b namespace v; prefix t; leaf y \x7b type string; \x7d \x7d"⟩

/-- A module with one data node `y`. -/
def leafModule : Yang.Module := ⟨"t", "v", "t", none, [], ["y"]⟩

/-- The schema that has this module only. -/
def leafModel : Yang.Model :=
  ⟨[(⟨"t", none⟩, leafModule)], [⟨"t", none⟩], [⟨"v", none, "t"⟩]⟩

/-- A node that announces the module. -/
def leafNode : TopologyNode := ⟨⟨"a"⟩, ["v?module=t"], "a"⟩

/-- A source becomes known. -/
def registering (source : Source) (s : Service) : Service :=
  { s with manager := { s.manager with library := (s.manager.library.register source).1 } }

/-- The mount point of a node comes up. -/
def mounting (node : TopologyNode) (s : Service) : Service :=
  { s with manager := (s.manager.create .epoch node).1 }

/-- A manager that knows the source. -/
def offering : Manager := (registering leafSource fresh).manager

/-- The service with the mount point of the node, which holds no data. -/
def mounted : Service :=
  { fresh with manager := { offering with
      library := (offering.resolution leafNode).library
      files := (offering.resolution leafNode).files }.bringUp .epoch leafNode leafModel }

theorem resolution_offering : (offering.resolution leafNode).result = .ok leafModel := by
  let made : Files := ⟨"", .directory [("c", .directory [("a", .directory [])])]⟩
  have hdir : Resolution.directoryFor offering.cacheRoot leafNode.cacheDirectory = .ok "/c/a" := rfl
  have hmade : offering.files.createDirectories "/c/a" = (made, none) := rfl
  have hlist : made.list "/c/a" = .ok [] := rfl
  have hwanted : (CapabilityReport.ofList leafNode.capabilities).modules = [⟨"v", none, "t"⟩] := rfl
  have found : Resolution.fetch "/c/a" ⟨"t", none⟩ ⟨offering.library, made, [], []⟩ =
      .ok (leafSource, .library) := rfl
  have checked : Resolution.check ⟨"t", none⟩ leafSource = .ok leafModule := rfl
  have hcompiling : Resolution.Compiling "/c/a" [] ([Capability.mk "v" none "t"].map (·.sourceId))
      ⟨offering.library, made, [], []⟩ (.ok [⟨"t", none⟩]) _ :=
    .built rfl (by decide) (Resolution.acquire_of_fetch found checked) (.done ..) (.done ..)
  unfold Manager.resolution
  rw [hwanted, Resolution.resolve_eq _ _ hdir hmade hlist]
  exact congrArg Resolution.Outcome.result (Resolution.resolveIn_eq hcompiling)

theorem mounting_fresh : mounting leafNode (registering leafSource fresh) = mounted := by
  have hcreate : offering.create .epoch leafNode = (_, .ok .created) :=
    Manager.create_of_resolved rfl rfl rfl resolution_offering
  have hmanager : (registering leafSource fresh).manager = offering := rfl
  unfold mounting
  rw [hmanager, hcreate]
  rfl

/-- A request for the configuration of the mount point. -/
def asks (i : Nat) (path : String) (method : DataMethod) : Move :=
  .arrive i ⟨.epoch, "x"⟩ ⟨⟨"a", "config", path⟩, method⟩

/-- A leaf is written, and then the path below it read and written to: both is the client's mistake,
and both is answered as a fault of the service. -/
theorem server_error_below_leaf :
    let d := (start fresh).after
      ([.meanwhile (registering leafSource), .meanwhile (mounting leafNode)] ++
        asks 0 "y" (.put (.bool true)) :: List.replicate 8 (.proceed 0) ++
        [asks 1 "y/z" .read, asks 2 "y/z" (.put .null), .proceed 1, .proceed 2, .proceed 2,
          .proceed 1])
    (d.response? 0).map (·.status) = some 200 ∧ (d.response? 1).map (·.status) = some 500 ∧
      (d.response? 2).map (·.status) = some 500 := by
  have hup : (start fresh).after
      [.meanwhile (registering leafSource), .meanwhile (mounting leafNode)] = start mounted :=
    congrArg start mounting_fresh
  rw [List.append_assoc, after_append, hup]
  decide +kernel

end Service.Desk

end MountRegistry
