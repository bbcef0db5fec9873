import MountRegistry.Proofs.Broker.Installs
import MountRegistry.Proofs.Store.Traffic

/-
  What a submission that has come to its end has installed. With the result `ok` it is all edits, in
  every store that the writer wrote to. After a failure in the first two phases it is nothing. A
  failure in the commit phase comes too late to take back what another store has installed by then
  (`commit_failed_after_install`), but what is installed in a store is then still all of its edits.
-/

namespace MountRegistry

/-- The installs that are due in a store of a kind: one of all edits, if there are any. -/
def Writer.whole (w : Writer) (kind : StoreKind) : List (List Edit) :=
  match w.edits kind with
  | [] => []
  | es => [es]

theorem Writer.whole_of_edits_ne_nil {w : Writer} {kind : StoreKind} (h : w.edits kind ≠ []) :
    w.whole kind = [w.edits kind] := by
  unfold whole
  cases he : w.edits kind with
  | nil => exact absurd he h
  | cons e es => rfl

theorem Writer.whole_of_edits_eq_nil {w : Writer} {kind : StoreKind} (h : w.edits kind = []) :
    w.whole kind = [] := by
  unfold whole
  rw [h]

namespace Broker.Traffic

variable {s : Traffic} {i : Nat} {w : Writer} {sub : Submission}

/-- What a deal has installed in the store of a kind. -/
def madeIn (s : Traffic) (i : Nat) (kind : StoreKind) : List (List Edit) :=
  s.made i (s.broker.storeNumber kind)

theorem Sound.storeNumber_inj (h : s.Sound) {a b : StoreKind}
    (hab : s.broker.storeNumber a = s.broker.storeNumber b) : a = b := by
  cases a <;> cases b
  · rfl
  · exact absurd hab h.apart
  · exact absurd hab.symm h.apart
  · rfl

theorem Driven.madeIn_of_edits_eq_nil (hs : s.Sound) (h : s.Driven i w sub) {kind : StoreKind}
    (he : w.edits kind = []) : s.madeIn i kind = [] := by
  refine h.elsewhere _ fun es hmem => ?_
  obtain ⟨other, hn, rfl, hne⟩ := (w.mem_parts h.staging.drafts).1 hmem
  rw [h.staging.broker] at hn
  exact hne (hs.storeNumber_inj hn ▸ he)

theorem Driven.part_of_kind (h : s.Driven i w sub) {kind : StoreKind} (he : w.edits kind ≠ []) :
    (s.broker.storeNumber kind, w.edits kind) ∈ w.parts :=
  (w.mem_parts h.staging.drafts).2 ⟨kind, by rw [h.staging.broker], rfl, he⟩

theorem Driven.of_done (hs : s.Sound) (h : s.Driven i w sub) (hd : sub.coordinator.state = .done)
    (kind : StoreKind) : s.madeIn i kind = w.whole kind := by
  by_cases he : w.edits kind = []
  · rw [h.madeIn_of_edits_eq_nil hs he, w.whole_of_edits_eq_nil he]
  · have hp := h.progress
    rw [hd] at hp
    rw [w.whole_of_edits_ne_nil he]
    exact hp _ _ (h.part_of_kind he)

/-- In no state is anything but all the edits for a store installed in it. -/
theorem Driven.madeIn_eq (hs : s.Sound) (h : s.Driven i w sub) (kind : StoreKind) :
    s.madeIn i kind = [] ∨ s.madeIn i kind = w.whole kind := by
  by_cases he : w.edits kind = []
  · exact .inl (h.madeIn_of_edits_eq_nil hs he)
  · rw [w.whole_of_edits_ne_nil he]
    exact h.progress.each (h.part_of_kind he)

theorem Driven.lacking (h : s.Driven i w sub) (hp : Partial (s.made i) w.parts) :
    ∃ kind, w.edits kind ≠ [] ∧ s.madeIn i kind = [] := by
  obtain ⟨n, es, hmem, hm⟩ := hp.lacking
  obtain ⟨kind, hn, rfl, hne⟩ := (w.mem_parts h.staging.drafts).1 hmem
  rw [h.staging.broker] at hn
  subst hn
  exact ⟨kind, hne, hm⟩

/-- If one store is not written to and the other lacks its edits, nothing is installed. -/
theorem Driven.madeIn_of_one_store (hs : s.Sound) (h : s.Driven i w sub)
    (hone : ∃ kind, w.edits kind = []) (hlack : ∃ kind, w.edits kind ≠ [] ∧ s.madeIn i kind = [])
    (kind : StoreKind) : s.madeIn i kind = [] := by
  obtain ⟨a, ha⟩ := hone
  obtain ⟨b, hb, hm⟩ := hlack
  by_cases hk : kind = b
  · exact hk ▸ hm
  · have hka : kind = a := by
      cases kind <;> cases a <;> cases b <;> simp_all
    exact h.madeIn_of_edits_eq_nil hs (hka ▸ ha)

/-! ## Failures of the commit phase -/

/-- A commit that is due has been prepared, and fails only if the store has gone on since. -/
theorem Driven.commit_due (h : s.Driven i w sub) {j n : Nat} {c : Cohort}
    (due : Due sub j n c (.phase .commit)) :
    ∃ p, c.prepared = some p ∧ ∀ e, c.commit (s.pool.store n) = .error e →
      p.version < (s.pool.store n).version := by
  obtain ⟨first, hstate⟩ := running_of_call? due.call
  have hprimed := h.primed
  rw [hstate] at hprimed
  obtain ⟨p, hp⟩ := Option.isSome_iff_exists.1 (hprimed j n c due.cohort due.awaited)
  refine ⟨p, hp, fun e he => ?_⟩
  obtain ⟨hle, _⟩ := h.ready n c (List.mem_of_getElem? due.cohort) p hp
  refine Nat.lt_of_le_of_ne hle fun hv => ?_
  obtain ⟨store', hok⟩ := Cohort.commit_of_version_eq hp hv.symm
  rw [hok] at he
  cases he

/-- A store is what the installs in it make, one after the other. A deal that is not submitted has
installed nothing, and one that is has in each store installed all that it staged for it, once, or
nothing. If it ends well it is all of it in every store. If it fails there is a store written to
where it is nothing; if it fails before the commit phase, or only one store was written to, it is
nothing in both. A commit that is due fails only if something was installed in its store since its
preparation. -/
theorem submission_installs (node : NodeId) (model : Yang.Model) (ms : List Move) :
    let s := (start node model).after ms
    (∀ kind, let installs := s.installsIn (s.broker.storeNumber kind)
      (s.store kind).version = installs.length ∧
      installs.foldlM (fun tree x => Edit.applyAll tree x.edits) Json.emptyObject =
        .ok (s.store kind).tree) ∧
    (∀ i, (∀ w sub, s.deal? i ≠ some (.submitted w sub)) → ∀ kind, s.madeIn i kind = []) ∧
    ∀ i w sub, s.deal? i = some (.submitted w sub) →
      (∀ kind, s.madeIn i kind = [] ∨ s.madeIn i kind = w.whole kind) ∧
      (sub.coordinator.state.result? = some (.ok ()) → ∀ kind, s.madeIn i kind = w.whole kind) ∧
      (∀ failure, sub.coordinator.state.result? = some (.error failure) → ∃ phase cause,
        failure = .phaseFailure phase cause ∧
        (∃ kind, w.edits kind ≠ [] ∧ s.madeIn i kind = []) ∧
        (phase ≠ .commit ∨ (∃ kind, w.edits kind = []) → ∀ kind, s.madeIn i kind = [])) ∧
      (∀ j n c, Due sub j n c (.phase .commit) → ∃ p, c.prepared = some p ∧
        ∀ e, c.commit (s.pool.store n) = .error e → p.version < (s.pool.store n).version) := by
  intro s
  have h : s.Sound := (sound_start node model).after ms
  refine ⟨?_, ?_, ?_⟩
  · intro kind
    exact ⟨(h.recorded kind).version, (h.recorded kind).tree⟩
  · intro i hi kind
    cases hdeal : s.deal? i with
    | none => exact h.free i hdeal _
    | some d =>
      cases d with
      | staging w => exact (h.deals i _ hdeal).2 _
      | submitted w sub => exact absurd hdeal (hi w sub)
  · intro i w sub hi
    have hd : s.Driven i w sub := h.deals i _ hi
    refine ⟨hd.madeIn_eq h, ?_, ?_, fun j n c due => hd.commit_due due⟩
    · intro hr
      cases hstate : sub.coordinator.state with
      | done => exact hd.of_done h hstate
      | _ =>
        rw [hstate] at hr
        cases hr
    · intro failure hr
      cases hstate : sub.coordinator.state with
      | failed phase cause =>
        rw [hstate] at hr
        cases hr
        have hp := hd.progress
        rw [hstate] at hp
        obtain ⟨hpart, hearly⟩ := hp
        have hlack := hd.lacking hpart
        refine ⟨phase, cause, rfl, hlack, ?_⟩
        rintro (hphase | hone) kind
        · exact hearly hphase _
        · exact hd.madeIn_of_one_store h hone hlack kind
      | _ =>
        rw [hstate] at hr
        cases hr

/-- Deal 1 commits between the preparation and the commit of deal 0, which fails then, but not
before its edits are installed in the other store. -/
theorem commit_failed_after_install :
    let path : DataPath := ⟨["a"]⟩
    let s := (start ⟨"n"⟩ (Store.Traffic.schemaOf ["a"])).after
      [.begin 0, .stage 0 .configuration (.put path (.bool true)),
        .stage 0 .operational (.put path (.bool true)), .submit 0,
        .begin 1, .stage 1 .operational (.put path .null), .submit 1,
        .call 0 0, .call 0 1, .call 0 0, .call 0 1,
        .call 1 0, .call 1 0, .call 1 0,
        .call 0 0, .call 0 1, .call 0 0, .call 0 1]
    ∃ w sub, s.deal? 0 = some (.submitted w sub) ∧
      sub.coordinator.state.result? = some (.error (.phaseFailure .commit (.conflict "/a"))) ∧
      s.madeIn 0 .configuration = [[.put path (.bool true)]] ∧ s.madeIn 0 .operational = [] ∧
      (s.store .configuration).version = 1 ∧
      (s.store .configuration).tree = .object [("a", .bool true)] ∧
      (s.store .operational).tree = .object [("a", .null)] :=
  ⟨_, _, rfl, rfl, rfl, rfl, rfl, rfl, rfl⟩

end Broker.Traffic

end MountRegistry
