import Mathlib.Logic.Basic
import MountRegistry.Data.Edit
import MountRegistry.Proofs.Outcome

/-
  What a tree shows at one path after an edit at another. A path beside the edited one shows what
  it showed before (`readAt_applyAll_of_clear`). A path above, below or at the edited one shows
  something that depends only on what the two paths showed before, so that two trees which agree at
  all the edited paths still agree at them when the same edits were made on both
  (`readAt_applyAll_congr`). Readings that find nothing, or run into a leaf, count like all others.
-/

namespace MountRegistry

namespace Json

/-! ## Reading in two steps -/

theorem read?_nil (j : Json) : read? [] j = some (some j) := by
  cases j <;> rfl

theorem read?_cons_object (s : String) (p : List String) (members : List (String × Json)) :
    read? (s :: p) (.object members) =
      match Keyed.find? members s with
      | some child => read? p child
      | none => some none := by
  cases h : Keyed.find? members s <;> simp [read?, h]

/-- What a longer path shows is read below what the shorter one shows, if that is a node. -/
theorem read?_append (p r : List String) (j : Json) :
    read? (p ++ r) j =
      match read? p j with
      | some (some child) => read? r child
      | found => found := by
  induction p generalizing j with
  | nil => simp [read?_nil]
  | cons s p ih =>
    cases j with
    | object members =>
      rw [List.cons_append, read?_cons_object, read?_cons_object]
      cases Keyed.find? members s with
      | some child => exact ih child
      | none => rfl
    | _ => rfl

/-- A missing member is an empty container to the paths that go through it. -/
theorem read?_cons_getD (s : String) {p : List String} (hp : p ≠ [])
    (members : List (String × Json)) :
    read? (s :: p) (.object members) =
      read? p ((Keyed.find? members s).getD emptyObject) := by
  rw [read?_cons_object]
  cases Keyed.find? members s with
  | some child => rfl
  | none =>
    cases p with
    | nil => exact absurd rfl hp
    | cons t p => rfl

/-- The node at a path, an empty container where there is none. -/
def nodeAt (p : List String) (j : Json) : Json := (read? p j).join.getD emptyObject

theorem nodeAt_cons (s : String) (p : List String) (members : List (String × Json)) :
    nodeAt (s :: p) (.object members) =
      nodeAt p ((Keyed.find? members s).getD emptyObject) := by
  unfold nodeAt
  rw [read?_cons_object]
  cases Keyed.find? members s with
  | some child => rfl
  | none => cases p <;> rfl

/-! ## Writing -/

theorem update?_cons_eq_some {f : Json → Json} {s : String} {p : List String} {j j' : Json}
    (h : update? f (s :: p) j = some j') :
    ∃ members child, j = .object members ∧
      update? f p ((Keyed.find? members s).getD emptyObject) = some child ∧
      j' = .object (Keyed.insert members s child) := by
  cases j with
  | object members =>
    obtain ⟨child, hc, rfl⟩ := Option.map_eq_some_iff.1 h
    exact ⟨members, child, rfl, hc, rfl⟩
  | _ => simp [update?] at h

theorem read?_update?_of_clear {f : Json → Json} {p q : List String} {j j' : Json}
    (h : update? f p j = some j') (hpq : ¬ p <+: q) (hqp : ¬ q <+: p) :
    read? q j' = read? q j := by
  induction p generalizing q j j' with
  | nil => exact absurd List.nil_prefix hpq
  | cons s p ih =>
    cases q with
    | nil => exact absurd List.nil_prefix hqp
    | cons t q =>
      obtain ⟨members, child, rfl, hc, rfl⟩ := update?_cons_eq_some h
      rcases eq_or_ne t s with rfl | hts
      · have hq : q ≠ [] := fun e => hqp (by simp [e])
        rw [read?_cons_getD t hq, read?_cons_getD t hq, Keyed.find?_insert_self]
        exact ih hc (fun hp => hpq (List.cons_prefix_cons.2 ⟨rfl, hp⟩))
          (fun hp => hqp (List.cons_prefix_cons.2 ⟨rfl, hp⟩))
      · rw [read?_cons_object, read?_cons_object, Keyed.find?_insert_of_ne _ _ hts]

/-- A path above the written one shows the node that was there, written below. -/
theorem read?_update?_above {f : Json → Json} {q r : List String} {j j' : Json}
    (h : update? f (q ++ r) j = some j') :
    ∃ node, update? f r (nodeAt q j) = some node ∧ read? q j' = some (some node) := by
  induction q generalizing j j' with
  | nil =>
    refine ⟨j', ?_, read?_nil j'⟩
    simpa [nodeAt, read?_nil] using h
  | cons s q ih =>
    obtain ⟨members, child, rfl, hc, rfl⟩ := update?_cons_eq_some h
    obtain ⟨node, hn, hr⟩ := ih hc
    refine ⟨node, ?_, ?_⟩
    · rw [nodeAt_cons]
      exact hn
    · rw [read?_cons_object, Keyed.find?_insert_self]
      exact hr

theorem read?_update?_self {f : Json → Json} {p : List String} {j j' : Json}
    (h : update? f p j = some j') : read? p j' = some (some (f (nodeAt p j))) := by
  rw [← List.append_nil p] at h
  obtain ⟨node, hn, hr⟩ := read?_update?_above h
  rw [hr, ← hn]
  cases nodeAt p j <;> rfl

theorem read?_update?_congr {f : Json → Json} {p q : List String} {j k j' k' : Json}
    (hj : update? f p j = some j') (hk : update? f p k = some k')
    (hp : read? p j = read? p k) (hq : read? q j = read? q k) : read? q j' = read? q k' := by
  by_cases hpq : p <+: q
  · -- at or below the written node, which is the same in both
    obtain ⟨r, rfl⟩ := hpq
    have hn : nodeAt p j = nodeAt p k := by unfold nodeAt; rw [hp]
    rw [read?_append, read?_append, read?_update?_self hj, read?_update?_self hk, hn]
  · by_cases hqp : q <+: p
    · obtain ⟨r, rfl⟩ := hqp
      obtain ⟨node, hn, hr⟩ := read?_update?_above hj
      obtain ⟨node', hn', hr'⟩ := read?_update?_above hk
      have hnode : nodeAt q j = nodeAt q k := by unfold nodeAt; rw [hq]
      rw [hnode, hn'] at hn
      rw [hr, hr', Option.some.inj hn]
    · rw [read?_update?_of_clear hj hpq hqp, read?_update?_of_clear hk hpq hqp, hq]

/-! ## Removing -/

theorem remove?_cons_eq_some {s : String} {p : List String} {j j' : Json} (hp : p ≠ [])
    (h : remove? (s :: p) j = some j') :
    ∃ members, j = .object members ∧
      ((∃ child child', Keyed.find? members s = some child ∧ remove? p child = some child' ∧
          j' = .object (Keyed.insert members s child')) ∨
        (Keyed.find? members s = none ∧ j' = .object members)) := by
  obtain ⟨t, p, rfl⟩ := List.exists_cons_of_ne_nil hp
  cases j with
  | object members =>
    refine ⟨members, rfl, ?_⟩
    cases hc : Keyed.find? members s with
    | some child =>
      simp only [remove?, hc] at h
      obtain ⟨child', hc', rfl⟩ := Option.map_eq_some_iff.1 h
      exact Or.inl ⟨child, child', rfl, hc', rfl⟩
    | none =>
      simp only [remove?, hc] at h
      exact Or.inr ⟨rfl, (Option.some.inj h).symm⟩
  | _ => simp [remove?] at h

theorem remove?_singleton_eq_some {s : String} {j j' : Json} (h : remove? [s] j = some j') :
    ∃ members, j = .object members ∧ j' = .object (Keyed.erase members s) := by
  cases j with
  | object members => exact ⟨members, rfl, (Option.some.inj h).symm⟩
  | _ => simp [remove?] at h

theorem read?_remove?_of_clear {p q : List String} {j j' : Json}
    (h : remove? p j = some j') (hpq : ¬ p <+: q) (hqp : ¬ q <+: p) :
    read? q j' = read? q j := by
  induction p generalizing q j j' with
  | nil => exact absurd List.nil_prefix hpq
  | cons s p ih =>
    cases q with
    | nil => exact absurd List.nil_prefix hqp
    | cons t q =>
      by_cases hp : p = []
      · subst hp
        obtain ⟨members, rfl, rfl⟩ := remove?_singleton_eq_some h
        have hts : t ≠ s := fun e => hpq (by simp [e])
        rw [read?_cons_object, read?_cons_object, Keyed.find?_erase, if_neg hts]
      · obtain ⟨members, rfl, ⟨child, child', hc, hr, rfl⟩ | ⟨_, rfl⟩⟩ :=
          remove?_cons_eq_some hp h
        · rcases eq_or_ne t s with rfl | hts
          · rw [read?_cons_object, read?_cons_object, Keyed.find?_insert_self, hc]
            exact ih hr (fun hp => hpq (List.cons_prefix_cons.2 ⟨rfl, hp⟩))
              (fun hp => hqp (List.cons_prefix_cons.2 ⟨rfl, hp⟩))
          · rw [read?_cons_object, read?_cons_object, Keyed.find?_insert_of_ne _ _ hts]
        · rfl

/-- The removed node is gone; only the root is never without a node. -/
theorem read?_remove?_self {p : List String} {j j' : Json} (h : remove? p j = some j') :
    read? p j' = some (if p = [] then some emptyObject else none) := by
  induction p generalizing j j' with
  | nil =>
    have : emptyObject = j' := by cases j <;> exact Option.some.inj h
    rw [← this, if_pos rfl, read?_nil]
  | cons s p ih =>
    rw [if_neg (List.cons_ne_nil s p)]
    by_cases hp : p = []
    · subst hp
      obtain ⟨members, rfl, rfl⟩ := remove?_singleton_eq_some h
      rw [read?_cons_object, Keyed.find?_erase, if_pos rfl]
    · obtain ⟨members, rfl, ⟨child, child', _, hr, rfl⟩ | ⟨hc, rfl⟩⟩ := remove?_cons_eq_some hp h
      · rw [read?_cons_object, Keyed.find?_insert_self]
        simpa [hp] using ih hr
      · rw [read?_cons_object, hc]

/-- A path above the removed one shows the node that was there without what is removed below, and
nothing if it showed nothing. -/
theorem read?_remove?_above {q r : List String} {j j' : Json} (hr : r ≠ [])
    (h : remove? (q ++ r) j = some j') :
    (∃ node node', read? q j = some (some node) ∧ remove? r node = some node' ∧
        read? q j' = some (some node')) ∨
      (read? q j = some none ∧ read? q j' = some none) := by
  induction q generalizing j j' with
  | nil => exact Or.inl ⟨j, j', read?_nil j, h, read?_nil j'⟩
  | cons s q ih =>
    obtain ⟨members, rfl, ⟨child, child', hc, hrem, rfl⟩ | ⟨hc, rfl⟩⟩ :=
      remove?_cons_eq_some (List.append_ne_nil_of_right_ne_nil q hr) h
    · rw [read?_cons_object, read?_cons_object, Keyed.find?_insert_self, hc]
      exact ih hrem
    · rw [read?_cons_object, hc]
      exact Or.inr ⟨rfl, rfl⟩

theorem read?_remove?_congr {p q : List String} {j k j' k' : Json}
    (hj : remove? p j = some j') (hk : remove? p k = some k') (hq : read? q j = read? q k) :
    read? q j' = read? q k' := by
  by_cases hpq : p <+: q
  · obtain ⟨r, rfl⟩ := hpq
    rw [read?_append, read?_append, read?_remove?_self hj, read?_remove?_self hk]
  · by_cases hqp : q <+: p
    · obtain ⟨r, rfl⟩ := hqp
      have hr : r ≠ [] := fun e => hpq (by simp [e])
      rcases read?_remove?_above hr hj with ⟨node, node', h1, h2, h3⟩ | ⟨h1, h3⟩
      · rcases read?_remove?_above hr hk with ⟨m, m', g1, g2, g3⟩ | ⟨g1, _⟩
        · have hm : node = m := by simpa [h1, g1] using hq
          subst hm
          rw [h3, g3, ← h2, ← g2]
        · simp [h1, g1] at hq
      · rcases read?_remove?_above hr hk with ⟨m, m', g1, _, _⟩ | ⟨_, g3⟩
        · simp [h1, g1] at hq
        · rw [h3, g3]
    · rw [read?_remove?_of_clear hj hpq hqp, read?_remove?_of_clear hk hpq hqp, hq]

end Json

/-! ## Paths that do not overlap -/

namespace DataPath

theorem overlaps_eq_false {p q : DataPath} (h : p.overlaps q = false) :
    ¬ p.segments <+: q.segments ∧ ¬ q.segments <+: p.segments := by
  simp only [overlaps, isAbove, Bool.or_eq_false_iff] at h
  rw [← List.isPrefixOf_iff_prefix, ← List.isPrefixOf_iff_prefix]
  simp [h]

theorem overlaps_self (p : DataPath) : p.overlaps p = true := by
  simp [overlaps, isAbove]

end DataPath

theorem Json.readAt_eq_iff (t u : Json) (q : DataPath) :
    t.readAt q = u.readAt q ↔ read? q.segments t = read? q.segments u := by
  unfold readAt
  cases read? q.segments t <;> cases read? q.segments u <;> simp

/-! ## Edits -/

namespace Edit

theorem apply_eq_ok_iff {e : Edit} {t t' : Json} : e.apply t = .ok t' ↔ e.applied? t = some t' := by
  unfold apply
  cases e.applied? t <;> simp

theorem readAt_apply_of_clear {e : Edit} {t t' : Json} {q : DataPath} (h : e.apply t = .ok t')
    (hq : q.overlaps e.path = false) : t'.readAt q = t.readAt q := by
  rw [apply_eq_ok_iff] at h
  rw [Json.readAt_eq_iff]
  obtain ⟨hqp, hpq⟩ := DataPath.overlaps_eq_false hq
  cases e with
  | put path value => exact Json.read?_update?_of_clear h hpq hqp
  | merge path value => exact Json.read?_update?_of_clear h hpq hqp
  | delete path => exact Json.read?_remove?_of_clear h hpq hqp

/-- Two trees that show the same at a path and at the path of an edit show the same at the former
after the edit. -/
theorem readAt_apply_congr {e : Edit} {t u t' u' : Json} {q : DataPath} (ht : e.apply t = .ok t')
    (hu : e.apply u = .ok u') (hp : t.readAt e.path = u.readAt e.path)
    (hq : t.readAt q = u.readAt q) : t'.readAt q = u'.readAt q := by
  rw [apply_eq_ok_iff] at ht hu
  rw [Json.readAt_eq_iff] at hp hq ⊢
  cases e with
  | put path value => exact Json.read?_update?_congr ht hu hp hq
  | merge path value => exact Json.read?_update?_congr ht hu hp hq
  | delete path => exact Json.read?_remove?_congr ht hu hq

@[simp] theorem applyAll_nil (t : Json) : applyAll t [] = .ok t := rfl

theorem applyAll_cons_eq_ok {e : Edit} {es : List Edit} {t t' : Json} :
    applyAll t (e :: es) = .ok t' ↔ ∃ u, e.apply t = .ok u ∧ applyAll u es = .ok t' :=
  Outcome.foldlM_cons_eq_ok

theorem readAt_applyAll_of_clear {es : List Edit} {t t' : Json} {q : DataPath}
    (h : applyAll t es = .ok t') (hq : ∀ e ∈ es, q.overlaps e.path = false) :
    t'.readAt q = t.readAt q := by
  induction es generalizing t with
  | nil => rw [Except.ok.inj h]
  | cons e es ih =>
    obtain ⟨u, hu, hes⟩ := applyAll_cons_eq_ok.1 h
    rw [ih hes fun f hf => hq f (List.mem_cons_of_mem e hf),
      readAt_apply_of_clear hu (hq e List.mem_cons_self)]

theorem readAt_applyAll_congr {es : List Edit} {t u t' u' : Json} {q : DataPath}
    (ht : applyAll t es = .ok t') (hu : applyAll u es = .ok u')
    (hp : ∀ e ∈ es, t.readAt e.path = u.readAt e.path) (hq : t.readAt q = u.readAt q) :
    t'.readAt q = u'.readAt q := by
  induction es generalizing t u with
  | nil => rwa [← Except.ok.inj ht, ← Except.ok.inj hu]
  | cons e es ih =>
    obtain ⟨t₁, ht₁, ht₂⟩ := applyAll_cons_eq_ok.1 ht
    obtain ⟨u₁, hu₁, hu₂⟩ := applyAll_cons_eq_ok.1 hu
    have he := hp e List.mem_cons_self
    refine ih ht₂ hu₂ (fun f hf => ?_) (readAt_apply_congr ht₁ hu₁ he hq)
    exact readAt_apply_congr ht₁ hu₁ he (hp f (List.mem_cons_of_mem e hf))

end Edit

end MountRegistry
