import MountRegistry.Proofs.Data.Commuting
import MountRegistry.Proofs.Data.Merge

/-
  What an edit does to a tree, told of every path. An edit can be made unless its path runs through
  a leaf. A path that does not overlap the edited one shows what it showed; at the edited path a
  replaced node is the new value, a removed one is gone, and the leaves of a merged one are those of
  the new value and those of the old one that the new value does not cover (`edit_effect`). Making
  the edit once more changes nothing.
-/

namespace MountRegistry

namespace Json

variable {j j' v leaf : Json} {p q r : List String}

/-- The value, written at `p`, leaves nothing of what stood at `q`: it has a leaf at `q` or above,
or an object at `q`. -/
def Covers (v : Json) (p q : List String) : Prop :=
  (∃ r leaf, p ++ r <+: q ∧ v.LeafAt r leaf) ∨ ∃ r, p ++ r = q ∧ v.ObjectAt r

theorem not_covers_append_iff : ¬ v.Covers p (p ++ q) ↔ read? q v = some none := by
  rw [read?_eq_absent_iff]
  unfold Covers
  constructor
  · intro h
    exact ⟨fun r leaf hr hleaf => h (.inl ⟨r, leaf, (List.prefix_append_right_inj p).2 hr, hleaf⟩),
      fun hobject => h (.inr ⟨q, rfl, hobject⟩)⟩
  · rintro ⟨hleaf, hobject⟩ (⟨r, leaf, hr, hat⟩ | ⟨r, hr, hat⟩)
    · exact hleaf r leaf ((List.prefix_append_right_inj p).1 hr) hat
    · exact hobject (List.append_cancel_left hr ▸ hat)

/-! ## The same edit once more -/

theorem update?_update? {f : Json → Json} (hf : ∀ j : Json, j.Canonical → f (f j) = f j)
    (hj : j.Canonical) (h : update? f p j = some j') : update? f p j' = some j' := by
  induction p generalizing j j' with
  | nil =>
    have hj' : f j = j' := by cases j <;> exact Option.some.inj h
    subst hj'
    have htwice : update? f [] (f j) = some (f (f j)) := by cases f j <;> rfl
    rw [htwice, hf j hj]
  | cons s p ih =>
    obtain ⟨ms, child, rfl, hc, rfl⟩ := update?_cons_eq_some h
    rw [update?, Keyed.find?_insert_self, Option.getD_some, ih (hj.getD s) hc, Option.map_some,
      Keyed.insert_insert]

theorem remove?_remove? (h : remove? p j = some j') : remove? p j' = some j' := by
  induction p generalizing j j' with
  | nil =>
    have hj' : emptyObject = j' := by cases j <;> exact Option.some.inj h
    rw [← hj']
    rfl
  | cons s p ih =>
    by_cases hp : p = []
    · subst hp
      obtain ⟨ms, rfl, rfl⟩ := remove?_singleton_eq_some h
      rw [remove?, Keyed.erase_erase]
    · obtain ⟨ms, rfl, ⟨child, child', _, hr, rfl⟩ | ⟨_, rfl⟩⟩ := remove?_cons_eq_some hp h
      · obtain ⟨t, p, rfl⟩ := List.exists_cons_of_ne_nil hp
        simp only [remove?, Keyed.find?_insert_self, ih hr, Option.map_some, Keyed.insert_insert]
      · exact h

/-! ## Merging at a path -/

/-- The leaves at and below a path are those of its node, an empty container if there is none. -/
theorem leafAt_append_iff (h : read? p j ≠ none) :
    j.LeafAt (p ++ r) leaf ↔ (nodeAt p j).LeafAt r leaf := by
  unfold LeafAt nodeAt
  rw [read?_append]
  cases hp : read? p j with
  | none => exact absurd hp h
  | some found =>
    cases found with
    | some node => rfl
    | none =>
      -- neither side has a leaf
      cases r with
      | nil =>
        rw [Option.join_some, Option.getD_none, read?_nil]
        constructor
        · rintro ⟨hread, _⟩
          simp at hread
        · rintro ⟨hread, hleaf⟩
          cases Option.some.inj (Option.some.inj hread)
          contradiction
      | cons s r => rfl

/-- The leaves of a tree that a value was merged into at a path. -/
theorem leafAt_merge?_iff (hv : v.Canonical) (h : merge? v p j = some j') :
    j'.LeafAt q leaf ↔
      (∃ r, p ++ r = q ∧ v.LeafAt r leaf) ∨ (j.LeafAt q leaf ∧ ¬ v.Covers p q) := by
  have hthere : read? p j ≠ none := by
    rw [ne_eq, ← update?_eq_none_iff (f := fun old => old.merge v)]
    simp [show update? (fun old => old.merge v) p j = some j' from h]
  by_cases hpq : p <+: q
  · obtain ⟨r, rfl⟩ := hpq
    have hnode : read? p j' = some (some ((nodeAt p j).merge v)) := read?_update?_self h
    have hthere' : read? p j' ≠ none := by simp [hnode]
    have hmerged : nodeAt p j' = (nodeAt p j).merge v := by simp [nodeAt, hnode]
    rw [leafAt_append_iff hthere', leafAt_append_iff hthere, hmerged, leafAt_merge_iff hv,
      not_covers_append_iff]
    simp
  · have hbelow : ¬ ∃ r, p ++ r = q ∧ v.LeafAt r leaf := by
      rintro ⟨r, hr, _⟩
      exact hpq ⟨r, hr⟩
    have hcovers : ¬ v.Covers p q := by
      rintro (⟨r, _, hr, _⟩ | ⟨r, hr, _⟩)
      · exact hpq ((List.prefix_append p r).trans hr)
      · exact hpq ⟨r, hr⟩
    rw [or_iff_right hbelow, and_iff_left hcovers]
    by_cases hqp : q <+: p
    · -- above the path there is an object now, and no leaf was there before
      obtain ⟨r, rfl⟩ := hqp
      have hr : r ≠ [] := by
        rintro rfl
        exact hpq (by simp)
      obtain ⟨node, hnode, hobject⟩ := objectAt_of_outlineAt (outlineAt_update?_above hr h)
      constructor
      · rintro ⟨hread, hleaf⟩
        rw [hnode] at hread
        cases Option.some.inj (Option.some.inj hread)
        rw [hobject] at hleaf
        contradiction
      · intro hleaf
        refine absurd (read?_eq_none_iff.2 ⟨q, leaf, List.prefix_append q r, ?_, hleaf⟩) hthere
        exact fun heq => hr (List.self_eq_append_right.1 heq)
    · unfold LeafAt
      rw [read?_update?_of_clear h hpq hqp]

end Json

namespace Edit

open Json

variable {e : Edit} {t t' v : Json} {p : DataPath}

/-- An edit can be made unless its path runs through a leaf. -/
theorem exists_apply_iff :
    (∃ t', e.apply t = .ok t') ↔
      ∀ q leaf, q <+: e.path.segments → q ≠ e.path.segments → ¬ t.LeafAt q leaf := by
  have herror : (∃ t', e.apply t = .ok t') ↔ ¬ ∃ f, e.apply t = .error f := by
    cases e.apply t <;> simp
  rw [herror, apply_eq_error_iff, read?_eq_none_iff]
  constructor
  · exact fun h q leaf hq hne hleaf => h ⟨q, leaf, hq, hne, hleaf⟩
  · rintro h ⟨q, leaf, hq, hne, hleaf⟩
    exact h q leaf hq hne hleaf

theorem apply_apply (he : e.Canonical) (ht : t.Canonical) (h : e.apply t = .ok t') :
    e.apply t' = .ok t' := by
  rw [apply_eq_ok_iff] at h ⊢
  cases e with
  | put path value => exact update?_update? (fun _ _ => rfl) ht h
  | merge path value => exact update?_update? (fun _ hj => merge_merge hj he) ht h
  | delete path => exact remove?_remove? h

/-- What edits at a path do to a tree. Each of them can be made unless a proper part of the path
ends at a leaf; then it leaves what is shown elsewhere, and could be made again for nothing. A put
shows its value, a delete nothing (an empty tree for the root), and the leaves after a merge are
those of its value and those of the tree that the value does not cover. -/
theorem edit_effect (t v : Json) (p : DataPath) (ht : t.Canonical) (hv : v.Canonical) :
    (∀ e ∈ [Edit.put p v, .merge p v, .delete p],
      ((∃ t', e.apply t = .ok t') ↔
        ∀ q leaf, q <+: p.segments → q ≠ p.segments → ¬ t.LeafAt q leaf) ∧
      ∀ t', e.apply t = .ok t' →
        (∀ q : DataPath, q.overlaps p = false → t'.readAt q = t.readAt q) ∧
        e.apply t' = .ok t') ∧
    (∀ t', (Edit.put p v).apply t = .ok t' → t'.readAt p = .ok (some v)) ∧
    (∀ t', (Edit.delete p).apply t = .ok t' →
      t'.readAt p = .ok (if p.isRoot then some emptyObject else none)) ∧
    (∀ t', (Edit.merge p v).apply t = .ok t' → ∀ q leaf,
      t'.LeafAt q leaf ↔ (∃ r, p.segments ++ r = q ∧ v.LeafAt r leaf) ∨
        (t.LeafAt q leaf ∧ ¬ v.Covers p.segments q)) := by
  refine ⟨fun e he => ?_, fun t' h => ?_, fun t' h => ?_, fun t' h q leaf => ?_⟩
  · have hpath : e.path = p ∧ e.Canonical := by
      simp only [List.mem_cons, List.not_mem_nil, or_false] at he
      rcases he with rfl | rfl | rfl
      · exact ⟨rfl, hv⟩
      · exact ⟨rfl, hv⟩
      · exact ⟨rfl, trivial⟩
    obtain ⟨rfl, hcanonical⟩ := hpath
    exact ⟨exists_apply_iff, fun t' h =>
      ⟨fun q hq => readAt_apply_of_clear h hq, apply_apply hcanonical ht h⟩⟩
  · rw [apply_eq_ok_iff] at h
    have hread : read? p.segments t' = some (some v) := read?_update?_self h
    rw [readAt, hread]
  · rw [apply_eq_ok_iff] at h
    have hread := read?_remove?_self h
    rw [readAt, hread, DataPath.isRoot]
    cases p.segments <;> rfl
  · rw [apply_eq_ok_iff] at h
    exact leafAt_merge?_iff hv h

/-- A device with a name and a port. -/
def host : Json :=
  .object [("name", .text "r1"), ("port", .object [("mtu", ofNat 1500), ("up", .bool true)])]

/-- An object in place of the leaf `mtu`, and nothing for `up`. -/
def newPort : Json := .object [("mtu", .object [("inner", ofNat 9000)])]

/-- The leaf that the value covers is gone, the other ones stay. -/
theorem edit_effect_merged_port :
    host.Canonical ∧ newPort.Canonical ∧
    ∃ t', (Edit.merge ⟨["port"]⟩ newPort).apply host = .ok t' ∧
      (Edit.merge ⟨["port"]⟩ newPort).apply t' = .ok t' ∧
      t'.LeafAt ["name"] (.text "r1") ∧ t'.LeafAt ["port", "up"] (.bool true) ∧
      t'.LeafAt ["port", "mtu", "inner"] (ofNat 9000) ∧
      ∀ leaf, ¬ t'.LeafAt ["port", "mtu"] leaf := by
  have hhost : host.Canonical :=
    ⟨List.pairwise_pair.2 (by decide), trivial,
      ⟨List.pairwise_pair.2 (by decide), trivial, trivial, trivial⟩, trivial⟩
  have hport : newPort.Canonical :=
    ⟨List.pairwise_singleton _ _, ⟨List.pairwise_singleton _ _, trivial, trivial⟩, trivial⟩
  obtain ⟨each, _, _, leaves⟩ := edit_effect host newPort ⟨["port"]⟩ hhost hport
  have h : (Edit.merge ⟨["port"]⟩ newPort).apply host = .ok _ := rfl
  have hcovers : ¬ newPort.Covers ["port"] ["name"] := by
    rintro (⟨r, _, hr, _⟩ | ⟨r, hr, _⟩)
    · exact absurd (List.cons_prefix_cons.1 hr).1 (by decide)
    · exact absurd (List.cons.inj hr).1 (by decide)
  refine ⟨hhost, hport, _, h, ((each _ (by simp)).2 _ h).2, ?_, ?_, ?_, fun leaf hleaf => ?_⟩
  · exact (leaves _ h _ _).2 (.inr ⟨⟨rfl, rfl⟩, hcovers⟩)
  · exact (leaves _ h _ _).2 (.inr ⟨⟨rfl, rfl⟩, not_covers_append_iff.2 rfl⟩)
  · exact (leaves _ h _ _).2 (.inl ⟨["mtu", "inner"], rfl, rfl, rfl⟩)
  · rcases (leaves _ h _ _).1 hleaf with ⟨r, hr, hat, hobj⟩ | ⟨_, hnot⟩
    · cases hr
      cases hat
      contradiction
    · exact hnot (.inr ⟨["mtu"], rfl, _, rfl, rfl⟩)

end Edit

end MountRegistry
