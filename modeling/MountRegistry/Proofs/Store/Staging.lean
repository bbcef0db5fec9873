import MountRegistry.Proofs.Data.Commuting
import MountRegistry.Proofs.Store.Commit

/-
  Edits that fail. An edit made in place may put containers in on its way down, but where one was
  missing nothing below can be in the way, so a walk that ends at a leaf has put nothing in
  (`Json.updateInPlace_eq`). So a failed edit leaves the tree as it was, and a draft on which any
  calls were made, failing or not, is the tree it was opened on with the edits that it lists
  (`staged_is_replayed`).
-/

namespace MountRegistry

namespace Json

variable {j : Json} {p : List String}

/-- No path runs through a leaf of an empty object. -/
theorem read?_emptyObject_ne_none (p : List String) : read? p emptyObject ≠ none := by
  cases p with
  | nil => simp [read?_nil]
  | cons s p => simp [emptyObject, read?]

theorem updateInPlace_eq (f : Json → Json) (h : j.Canonical) :
    updateInPlace f p j = match update? f p j with
      | some j' => (j', true)
      | none => (j, false) := by
  induction p generalizing j with
  | nil => cases j <;> rfl
  | cons s p ih =>
    cases j with
    | object ms =>
      rw [updateInPlace, update?, ih (h.getD s)]
      cases hchild : update? f p ((Keyed.find? ms s).getD emptyObject) with
      | some child => rfl
      | none =>
        cases hs : Keyed.find? ms s with
        | some child =>
          -- the container was there, and is put back as it was
          dsimp only [Option.map_none, Option.getD_some]
          rw [(canonical_object.1 h).1.insert_eq_self hs]
        | none =>
          rw [hs, Option.getD_none, update?_eq_none_iff] at hchild
          exact absurd hchild (read?_emptyObject_ne_none p)
    | _ => rfl

theorem removeInPlace_eq (h : j.Canonical) :
    removeInPlace p j = match remove? p j with
      | some j' => (j', true)
      | none => (j, false) := by
  induction p generalizing j with
  | nil => cases j <;> rfl
  | cons s p ih =>
    cases j with
    | object ms =>
      cases p with
      | nil => rfl
      | cons t p =>
        cases hs : Keyed.find? ms s with
        | none => simp [removeInPlace, remove?, hs]
        | some child =>
          simp only [removeInPlace, remove?, hs, ih (h.member hs)]
          cases remove? (t :: p) child with
          | some child' => rfl
          | none =>
            dsimp only [Option.map_none]
            rw [(canonical_object.1 h).1.insert_eq_self hs]
    | _ => cases p <;> rfl

end Json

namespace Edit

variable {e : Edit} {t : Json} {failure : StoreFailure}

/-- An edit in place leaves what the edit makes of the tree, or fails and leaves the tree. -/
theorem applyInPlace_eq (e : Edit) (h : t.Canonical) :
    e.applyInPlace t = match e.apply t with
      | .ok t' => (t', none)
      | .error failure => (t, some failure) := by
  unfold applyInPlace apply applied? Json.put? Json.merge?
  cases e with
  | put path value =>
    dsimp only
    rw [Json.updateInPlace_eq _ h]
    cases Json.update? _ path.segments t <;> rfl
  | merge path value =>
    dsimp only
    rw [Json.updateInPlace_eq _ h]
    cases Json.update? _ path.segments t <;> rfl
  | delete path =>
    dsimp only
    rw [Json.removeInPlace_eq h]
    cases Json.remove? path.segments t <;> rfl

theorem applyInPlace_of_failed (h : t.Canonical) (hf : (e.applyInPlace t).2 = some failure) :
    (e.applyInPlace t).1 = t := by
  rw [applyInPlace_eq e h] at hf ⊢
  cases he : e.apply t with
  | ok t' => simp [he] at hf
  | error failure => rfl

end Edit

/-! ## Drafts -/

namespace StoreDraft

variable {d : StoreDraft}

/-- A call that fails leaves the draft as it was. -/
theorem stageInPlace_eq (e : Edit) (h : d.working.Canonical) :
    d.stageInPlace e = match d.stage e with
      | .ok d' => (d', none)
      | .error failure => (d, some failure) := by
  unfold stageInPlace stage
  dsimp only
  rw [Edit.applyInPlace_eq _ h]
  cases Edit.apply d.working (Store.canonicalEdit d.model e) <;> rfl

/-- The draft after some calls, and each call with what was wrong with it. -/
def stageAll (d : StoreDraft) : List Edit → StoreDraft × List (Edit × Option StoreFailure)
  | [] => (d, [])
  | e :: es =>
    let (d, failure?) := d.stageInPlace e
    let (d, calls) := d.stageAll es
    (d, (e, failure?) :: calls)

/-- The edits of the calls that did not fail, with their data nodes spelled bare. -/
def staged (model : Yang.Model) (calls : List (Edit × Option StoreFailure)) : List Edit :=
  (calls.filter (·.2.isNone)).map fun call => Store.canonicalEdit model call.1

/-- Whatever calls are made on a draft, it lists the ones that did not fail and shows what they make
of the tree that it was opened on. -/
theorem stageAll_replays {t : Json} {es : List Edit} (hes : ∀ e ∈ es, e.Canonical)
    (hd : d.working.Canonical) (h : Edit.applyAll t d.edits = .ok d.working) :
    let r := d.stageAll es
    r.2.map (·.1) = es ∧ r.1.edits = d.edits ++ staged d.model r.2 ∧
      Edit.applyAll t r.1.edits = .ok r.1.working := by
  induction es generalizing d with
  | nil => exact ⟨rfl, (List.append_nil _).symm, h⟩
  | cons e es ih =>
    have hrest : ∀ f ∈ es, f.Canonical := fun f hf => hes f (List.mem_cons_of_mem e hf)
    have hstep := stageInPlace_eq e hd
    cases hstage : d.stage e with
    | error failure =>
      rw [hstage] at hstep
      obtain ⟨hcalls, hedits, htree⟩ := ih hrest hd h
      dsimp only [stageAll]
      rw [hstep]
      exact ⟨congrArg (e :: ·) hcalls, hedits, htree⟩
    | ok d' =>
      rw [hstage] at hstep
      have hreplayed := applyAll_stage hstage h
      obtain ⟨working, hworking, rfl⟩ := stage_eq_ok hstage
      have hcanonical := Store.canonical_canonicalEdit d.model (hes e List.mem_cons_self)
      obtain ⟨hcalls, hedits, htree⟩ :=
        ih hrest (Edit.canonical_apply hcanonical hd hworking) hreplayed
      dsimp only [stageAll]
      rw [hstep]
      refine ⟨congrArg (e :: ·) hcalls, ?_, htree⟩
      rw [hedits, List.append_assoc]
      rfl

/-- An edit that fails leaves the tree as it was. So after any calls, some of which may fail, a
draft lists those that did not, in their order and with their data nodes spelled bare, and its copy
is the tree it was opened on with these edits made. -/
theorem staged_is_replayed (s : Store) (hs : s.tree.Canonical) (calls : List Edit)
    (hcalls : ∀ e ∈ calls, e.Canonical) :
    (∀ (t : Json) (e : Edit) (failure : StoreFailure), t.Canonical →
      (e.applyInPlace t).2 = some failure → (e.applyInPlace t).1 = t) ∧
    let r := s.openDraft.stageAll calls
    r.2.map (·.1) = calls ∧ r.1.edits = staged s.model r.2 ∧
      Edit.applyAll s.tree r.1.edits = .ok r.1.working :=
  ⟨fun _ _ _ ht hf => Edit.applyInPlace_of_failed ht hf,
    stageAll_replays hcalls (d := s.openDraft) hs rfl⟩

/-- A store with a leaf at `/a/x`. -/
def leafStore : Store :=
  { Store.create "s" .configuration ⟨[(⟨"m", none⟩, ⟨"m", "urn:m", "m", none, [], ["a"]⟩)], [], []⟩
    with tree := .object [("a", .object [("x", .null)])] }

/-- The second call would put containers below the leaf. -/
theorem staged_is_replayed_below_leaf :
    let calls : List Edit :=
      [.put ⟨["a", "y", "z"]⟩ .null, .put ⟨["a", "x", "n", "k"]⟩ .null, .delete ⟨["m:a", "x"]⟩]
    leafStore.tree.Canonical ∧ (∀ e ∈ calls, e.Canonical) ∧
    let r := leafStore.openDraft.stageAll calls
    r.2.map (·.2) = [none, some (.notTraversable "/a/x/n/k"), none] ∧
      r.1.edits.map (·.path) = [⟨["a", "y", "z"]⟩, ⟨["a", "x"]⟩] ∧
      Edit.applyAll leafStore.tree r.1.edits = .ok r.1.working := by
  intro calls
  have htree : leafStore.tree.Canonical :=
    ⟨List.pairwise_singleton _ _, ⟨List.pairwise_singleton _ _, trivial, trivial⟩, trivial⟩
  have hcalls : ∀ e ∈ calls, e.Canonical := by
    simp [calls, Edit.Canonical, Json.Canonical]
  obtain ⟨_, _, hedits, hreplayed⟩ := staged_is_replayed leafStore htree calls hcalls
  exact ⟨htree, hcalls, rfl, congrArg (List.map Edit.path) hedits, hreplayed⟩

end StoreDraft

end MountRegistry
