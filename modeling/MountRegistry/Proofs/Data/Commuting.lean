import MountRegistry.Proofs.Data.Canonical

/-
  Edits at paths that do not overlap commute: if both can be made in one order they can in the
  other, and what they make of a canonical tree is the same (`apply_comm`). For a path that overlaps
  at most one of the two this is what `Reading` says of it; any other path lies above both, and
  there an edit only decides whether an object stands (`outlineAt_apply_above`). So do lists of
  edits, and any number of lists (`applyAll_perm`).
-/

namespace MountRegistry

namespace Json

/-- A tree can be written at a path unless the path runs through a leaf. -/
theorem update?_eq_none_iff {f : Json → Json} {p : List String} {j : Json} :
    update? f p j = none ↔ read? p j = none := by
  induction p generalizing j with
  | nil => cases j <;> simp [update?, read?]
  | cons s p ih =>
    cases j with
    | object members =>
      rw [update?, Option.map_eq_none_iff, ih]
      by_cases hp : p = []
      · subst hp
        rw [read?_cons_object]
        cases Keyed.find? members s <;> simp [read?_nil]
      · rw [read?_cons_getD s hp]
    | _ => simp [update?, read?]

theorem remove?_eq_none_iff {p : List String} {j : Json} :
    remove? p j = none ↔ read? p j = none := by
  induction p generalizing j with
  | nil => cases j <;> simp [remove?, read?]
  | cons s p ih =>
    cases j with
    | object members =>
      rw [read?_cons_object]
      cases p with
      | nil =>
        rw [remove?]
        cases Keyed.find? members s <;> simp [read?_nil]
      | cons t p =>
        rw [remove?]
        · cases Keyed.find? members s with
          | some child => simpa using ih
          | none => simp
        · simp
    | _ => cases p <;> simp [remove?, read?]

/-- Writing below a path makes an object of what the path shows. -/
theorem outlineAt_update?_above {f : Json → Json} {q r : List String} (hr : r ≠ []) {j j' : Json}
    (h : update? f (q ++ r) j = some j') : outlineAt q j' = some (some none) := by
  obtain ⟨node, hn, hq⟩ := read?_update?_above h
  obtain ⟨s, r, rfl⟩ := List.exists_cons_of_ne_nil hr
  obtain ⟨members, child, _, _, rfl⟩ := update?_cons_eq_some hn
  unfold outlineAt
  rw [hq]
  rfl

/-- Removing below a path leaves an object an object, and nothing nothing. -/
theorem outlineAt_remove?_above {q r : List String} (hr : r ≠ []) {j j' : Json}
    (h : remove? (q ++ r) j = some j') : outlineAt q j' = outlineAt q j := by
  rcases read?_remove?_above hr h with ⟨node, node', hq, hrem, hq'⟩ | ⟨hq, hq'⟩
  · have hobj : outline node' = outline node := by
      obtain ⟨s, r, rfl⟩ := List.exists_cons_of_ne_nil hr
      by_cases hnil : r = []
      · subst hnil
        obtain ⟨members, rfl, rfl⟩ := remove?_singleton_eq_some hrem
        rfl
      · obtain ⟨members, rfl, ⟨child, child', _, _, rfl⟩ | ⟨_, rfl⟩⟩ :=
          remove?_cons_eq_some hnil hrem <;> rfl
    unfold outlineAt
    rw [hq, hq']
    exact congrArg (fun o => some (some o)) hobj
  · exact outlineAt_congr (hq'.trans hq.symm)

end Json

namespace Edit

/-! ## Two edits -/

/-- Whether an edit can be made depends on what its path shows. -/
theorem apply_eq_error_iff {e : Edit} {t : Json} :
    (∃ f, e.apply t = .error f) ↔ Json.read? e.path.segments t = none := by
  have hnone : (∃ f, e.apply t = .error f) ↔ e.applied? t = none := by
    unfold apply
    cases e.applied? t <;> simp
  rw [hnone]
  cases e with
  | put path value => exact Json.update?_eq_none_iff
  | merge path value => exact Json.update?_eq_none_iff
  | delete path => exact Json.remove?_eq_none_iff

theorem exists_apply_of_readAt {e : Edit} {t u t' : Json} (h : e.apply t = .ok t')
    (hp : u.readAt e.path = t.readAt e.path) : ∃ u', e.apply u = .ok u' := by
  cases hu : e.apply u with
  | ok u' => exact ⟨u', rfl⟩
  | error f =>
    rw [Json.readAt_eq_iff] at hp
    have hnone := apply_eq_error_iff.1 ⟨f, hu⟩
    obtain ⟨g, hg⟩ := apply_eq_error_iff.2 (hp ▸ hnone)
    rw [h] at hg
    cases hg

/-- What an edit below a path makes of the outline there. -/
def above : Edit → Option (Option (Option Json)) → Option (Option (Option Json))
  | put _ _, _ | merge _ _, _ => some (some none)
  | delete _, shown => shown

theorem outlineAt_apply_above {e : Edit} {t t' : Json} {q r : List String} (hr : r ≠ [])
    (hq : e.path.segments = q ++ r) (h : e.apply t = .ok t') :
    Json.outlineAt q t' = e.above (Json.outlineAt q t) := by
  rw [apply_eq_ok_iff] at h
  cases e with
  | put path value =>
    change Json.update? _ path.segments t = some t' at h
    rw [show path.segments = q ++ r from hq] at h
    exact Json.outlineAt_update?_above hr h
  | merge path value =>
    change Json.update? _ path.segments t = some t' at h
    rw [show path.segments = q ++ r from hq] at h
    exact Json.outlineAt_update?_above hr h
  | delete path =>
    change Json.remove? path.segments t = some t' at h
    rw [show path.segments = q ++ r from hq] at h
    exact Json.outlineAt_remove?_above hr h

theorem above_comm (e f : Edit) (shown : Option (Option (Option Json))) :
    e.above (f.above shown) = f.above (e.above shown) := by
  cases e <;> cases f <;> rfl

/-- A path that overlaps two paths which do not overlap lies above both. -/
theorem above_of_overlaps {p q r : DataPath} (hpq : p.overlaps q = false)
    (hp : r.overlaps p = true) (hq : r.overlaps q = true) :
    (∃ x, x ≠ [] ∧ p.segments = r.segments ++ x) ∧
      ∃ x, x ≠ [] ∧ q.segments = r.segments ++ x := by
  obtain ⟨hnpq, hnqp⟩ := DataPath.overlaps_eq_false hpq
  have hcases : ∀ {a : DataPath}, r.overlaps a = true →
      r.segments <+: a.segments ∨ a.segments <+: r.segments := by
    intro a ha
    simpa [DataPath.overlaps, DataPath.isAbove] using ha
  have hproper : ∀ {a b : List String}, r.segments <+: a → r.segments <+: b → ¬ a <+: b →
      ∃ x, x ≠ [] ∧ a = r.segments ++ x := by
    rintro a b ⟨x, rfl⟩ hb hab
    refine ⟨x, ?_, rfl⟩
    rintro rfl
    exact hab (by rwa [List.append_nil])
  rcases hcases hp with hrp | hpr
  · rcases hcases hq with hrq | hqr
    · exact ⟨hproper hrp hrq hnpq, hproper hrq hrp hnqp⟩
    · exact absurd (hqr.trans hrp) hnqp
  · rcases hcases hq with hrq | hqr
    · exact absurd (hpr.trans hrq) hnpq
    · rcases List.prefix_or_prefix_of_prefix hpr hqr with h | h
      · exact absurd h hnpq
      · exact absurd h hnqp

theorem apply_comm {e f : Edit} {t a b : Json} (hclear : e.path.overlaps f.path = false)
    (ht : t.Canonical) (he : e.Canonical) (hf : f.Canonical) (ha : e.apply t = .ok a)
    (hb : f.apply a = .ok b) : ∃ a', f.apply t = .ok a' ∧ e.apply a' = .ok b := by
  have hclear' : f.path.overlaps e.path = false := by rwa [DataPath.overlaps_comm]
  have hfa : a.readAt f.path = t.readAt f.path := readAt_apply_of_clear ha hclear'
  obtain ⟨a', ha'⟩ := exists_apply_of_readAt hb hfa.symm
  have hea : a'.readAt e.path = t.readAt e.path := readAt_apply_of_clear ha' hclear
  obtain ⟨b', hb'⟩ := exists_apply_of_readAt ha hea
  suffices hbb : b' = b from ⟨a', ha', hbb ▸ hb'⟩
  refine Json.eq_of_outlineAt (canonical_apply he (canonical_apply hf ht ha') hb')
    (canonical_apply hf (canonical_apply he ht ha) hb) fun q => ?_
  by_cases hqf : DataPath.overlaps ⟨q⟩ f.path = true
  · by_cases hqe : DataPath.overlaps ⟨q⟩ e.path = true
    · obtain ⟨⟨x, hx, hex⟩, y, hy, hfy⟩ := above_of_overlaps hclear hqe hqf
      rw [outlineAt_apply_above hx hex hb', outlineAt_apply_above hy hfy ha',
        outlineAt_apply_above hy hfy hb, outlineAt_apply_above hx hex ha, above_comm]
    · -- only `f` is seen from here
      have hqe' : DataPath.overlaps ⟨q⟩ e.path = false := by simpa using hqe
      have hq := readAt_apply_congr ha' hb hfa.symm (readAt_apply_of_clear ha hqe').symm
      rw [← readAt_apply_of_clear hb' hqe', Json.readAt_eq_iff] at hq
      exact Json.outlineAt_congr hq
  · have hqf' : DataPath.overlaps ⟨q⟩ f.path = false := by simpa using hqf
    have hq := readAt_apply_congr hb' ha hea (readAt_apply_of_clear ha' hqf')
    rw [← readAt_apply_of_clear hb hqf', Json.readAt_eq_iff] at hq
    exact Json.outlineAt_congr hq

/-! ## Lists of edits -/

/-- No edit of the one list overlaps one of the other. -/
def Clear (es fs : List Edit) : Prop := ∀ e ∈ es, ∀ f ∈ fs, e.path.overlaps f.path = false

theorem Clear.symm {es fs : List Edit} (h : Clear es fs) : Clear fs es := by
  intro f hf e he
  rw [DataPath.overlaps_comm]
  exact h e he f hf

/-- A list of edits that can be made on one tree can be made on another that shows the same at its
paths. -/
theorem exists_applyAll_of_readAt {es : List Edit} {t u t' : Json} (h : applyAll t es = .ok t')
    (hp : ∀ e ∈ es, u.readAt e.path = t.readAt e.path) : ∃ u', applyAll u es = .ok u' := by
  induction es generalizing t u with
  | nil => exact ⟨u, rfl⟩
  | cons e es ih =>
    obtain ⟨t₁, ht₁, ht₂⟩ := applyAll_cons_eq_ok.1 h
    have he := hp e List.mem_cons_self
    obtain ⟨u₁, hu₁⟩ := exists_apply_of_readAt ht₁ he
    obtain ⟨u', hu'⟩ := ih ht₂ fun f hf =>
      readAt_apply_congr hu₁ ht₁ he (hp f (List.mem_cons_of_mem e hf))
    exact ⟨u', applyAll_cons_eq_ok.2 ⟨u₁, hu₁, hu'⟩⟩

/-- Lists of edits that do not overlap can be made one after the other if each can be made alone. -/
theorem exists_foldlM_applyAll {ls : List (List Edit)} (hclear : ls.Pairwise Clear) {t : Json}
    (h : ∀ es ∈ ls, ∃ u, applyAll t es = .ok u) : ∃ u, ls.foldlM applyAll t = .ok u := by
  induction ls generalizing t with
  | nil => exact ⟨t, rfl⟩
  | cons es ls ih =>
    obtain ⟨hes, hls⟩ := List.pairwise_cons.1 hclear
    obtain ⟨a, ha⟩ := h es List.mem_cons_self
    have hrest : ∀ fs ∈ ls, ∃ u, applyAll a fs = .ok u := by
      intro fs hfs
      obtain ⟨b, hb⟩ := h fs (List.mem_cons_of_mem es hfs)
      exact exists_applyAll_of_readAt hb fun f hf =>
        readAt_applyAll_of_clear ha fun e he => (hes fs hfs).symm f hf e he
    obtain ⟨u, hu⟩ := ih hls hrest
    exact ⟨u, Outcome.foldlM_cons_eq_ok.2 ⟨a, ha, hu⟩⟩

theorem apply_applyAll_comm {e : Edit} {fs : List Edit} {t a b : Json} (hclear : Clear [e] fs)
    (ht : t.Canonical) (he : e.Canonical) (hfs : ∀ f ∈ fs, f.Canonical) (ha : e.apply t = .ok a)
    (hb : applyAll a fs = .ok b) : ∃ a', applyAll t fs = .ok a' ∧ e.apply a' = .ok b := by
  induction fs generalizing t a with
  | nil => exact ⟨t, rfl, ha.trans (congrArg _ (Except.ok.inj hb))⟩
  | cons f fs ih =>
    obtain ⟨a₁, ha₁, hb₁⟩ := applyAll_cons_eq_ok.1 hb
    have hf := hfs f List.mem_cons_self
    obtain ⟨t₁, ht₁, hta⟩ :=
      apply_comm (hclear e List.mem_cons_self f List.mem_cons_self) ht he hf ha ha₁
    obtain ⟨a', ha', hab⟩ := ih
      (fun x hx g hg => hclear x hx g (List.mem_cons_of_mem f hg)) (canonical_apply hf ht ht₁)
      (fun g hg => hfs g (List.mem_cons_of_mem f hg)) hta hb₁
    exact ⟨a', applyAll_cons_eq_ok.2 ⟨t₁, ht₁, ha'⟩, hab⟩

theorem applyAll_comm {es fs : List Edit} {t a b : Json} (hclear : Clear es fs)
    (ht : t.Canonical) (hes : ∀ e ∈ es, e.Canonical) (hfs : ∀ f ∈ fs, f.Canonical)
    (ha : applyAll t es = .ok a) (hb : applyAll a fs = .ok b) :
    ∃ a', applyAll t fs = .ok a' ∧ applyAll a' es = .ok b := by
  induction es generalizing t with
  | nil => exact ⟨b, (Except.ok.inj ha) ▸ hb, rfl⟩
  | cons e es ih =>
    obtain ⟨t₁, ht₁, ha₁⟩ := applyAll_cons_eq_ok.1 ha
    have he := hes e List.mem_cons_self
    obtain ⟨a₁, ha₁', hb₁⟩ := ih (fun x hx => hclear x (List.mem_cons_of_mem e hx))
      (canonical_apply he ht ht₁) (fun x hx => hes x (List.mem_cons_of_mem e hx)) ha₁
    have hone : Clear [e] fs := fun x hx f hf =>
      hclear x (List.mem_singleton.1 hx ▸ List.mem_cons_self) f hf
    obtain ⟨a', ha', hab⟩ := apply_applyAll_comm hone ht he hfs ht₁ ha₁'
    exact ⟨a', ha', applyAll_cons_eq_ok.2 ⟨a₁, hab, hb₁⟩⟩

/-- Lists of edits that do not overlap make the same of a canonical tree in any order. -/
theorem applyAll_perm {ls ms : List (List Edit)} (hperm : ls.Perm ms) (hclear : ls.Pairwise Clear)
    (hls : ∀ es ∈ ls, ∀ e ∈ es, e.Canonical) {t u : Json} (ht : t.Canonical)
    (h : ls.foldlM applyAll t = .ok u) : ms.foldlM applyAll t = .ok u := by
  induction hperm generalizing t with
  | nil => exact h
  | cons es _ ih =>
    obtain ⟨a, ha, hrest⟩ := Outcome.foldlM_cons_eq_ok.1 h
    refine Outcome.foldlM_cons_eq_ok.2 ⟨a, ha, ih (List.pairwise_cons.1 hclear).2 ?_ ?_ hrest⟩
    · exact fun fs hfs => hls fs (List.mem_cons_of_mem es hfs)
    · exact canonical_applyAll (hls es List.mem_cons_self) ht ha
  | swap es fs ls =>
    obtain ⟨a, ha, h⟩ := Outcome.foldlM_cons_eq_ok.1 h
    obtain ⟨b, hb, h⟩ := Outcome.foldlM_cons_eq_ok.1 h
    have hfe : Clear fs es := (List.pairwise_cons.1 hclear).1 es List.mem_cons_self
    obtain ⟨a', ha', hb'⟩ := applyAll_comm hfe ht (hls fs List.mem_cons_self)
      (hls es (List.mem_cons_of_mem fs List.mem_cons_self)) ha hb
    exact Outcome.foldlM_cons_eq_ok.2 ⟨a', ha', Outcome.foldlM_cons_eq_ok.2 ⟨b, hb', h⟩⟩
  | trans hlm _ ih₁ ih₂ =>
    refine ih₂ (hlm.pairwise hclear fun h => h.symm) ?_ ht (ih₁ hclear hls ht h)
    exact fun es hes => hls es (hlm.mem_iff.2 hes)

end Edit

end MountRegistry
