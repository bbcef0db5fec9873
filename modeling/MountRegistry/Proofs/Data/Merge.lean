import MountRegistry.Proofs.Data.Canonical

/-
  Merging, member by member. After `merge` a member that only one side has is that side's, and one
  that both have is theirs merged (`find?_mergeMembers`). So what the merged value shows as leaves
  are the leaves of the new value, and those of the old one where the new one has nothing
  (`leafAt_merge_iff`), and merging once more changes nothing (`merge_merge`).
-/

namespace MountRegistry.Json

variable {j old new leaf : Json} {ms : List (String × Json)} {s : String} {p q : List String}

/-! ## Leaves -/

/-- A path shows a value that is not an object. -/
def LeafAt (j : Json) (q : List String) (leaf : Json) : Prop :=
  read? q j = some (some leaf) ∧ leaf.isObject = false

/-- A path shows an object. -/
def ObjectAt (j : Json) (q : List String) : Prop :=
  ∃ node, read? q j = some (some node) ∧ node.isObject = true

theorem objectAt_of_outlineAt (h : outlineAt q j = some (some none)) : j.ObjectAt q := by
  unfold outlineAt at h
  obtain ⟨found, hread, hfound⟩ := Option.map_eq_some_iff.1 h
  obtain ⟨node, rfl, hnode⟩ := Option.map_eq_some_iff.1 hfound
  cases node with
  | object ms => exact ⟨_, hread, rfl⟩
  | _ => contradiction

/-- The members of an object; a leaf has none. -/
def members : Json → List (String × Json)
  | .object ms => ms
  | _ => []

@[simp] theorem members_object (ms : List (String × Json)) : (object ms).members = ms := rfl

theorem isObject_of_outline (h : outline j = some j) : j.isObject = false := by
  cases j with
  | object ms => contradiction
  | _ => rfl

theorem leafAt_nil_iff : j.LeafAt [] leaf ↔ j = leaf ∧ j.isObject = false := by
  unfold LeafAt
  rw [read?_nil, Option.some.injEq, Option.some.injEq]
  constructor
  · rintro ⟨rfl, h⟩
    exact ⟨rfl, h⟩
  · rintro ⟨rfl, h⟩
    exact ⟨rfl, h⟩

theorem leafAt_cons_iff :
    j.LeafAt (s :: q) leaf ↔
      ∃ child, Keyed.find? j.members s = some child ∧ child.LeafAt q leaf := by
  unfold LeafAt members
  cases j with
  | object ms =>
    rw [read?_cons_object]
    cases Keyed.find? ms s <;> simp
  | _ => simp [read?]

/-- A path addresses nothing if it runs through a leaf. -/
theorem read?_eq_none_iff :
    read? p j = none ↔ ∃ q leaf, q <+: p ∧ q ≠ p ∧ j.LeafAt q leaf := by
  constructor
  · intro h
    induction p generalizing j with
    | nil =>
      rw [read?_nil] at h
      contradiction
    | cons s p ih =>
      cases hj : j.isObject with
      | false =>
        exact ⟨[], j, List.nil_prefix, (List.cons_ne_nil s p).symm, leafAt_nil_iff.2 ⟨rfl, hj⟩⟩
      | true =>
        cases j with
        | object ms =>
          rw [read?_cons_object] at h
          cases hc : Keyed.find? ms s with
          | none => simp [hc] at h
          | some child =>
            rw [hc] at h
            obtain ⟨q, leaf, hq, hne, hleaf⟩ := ih h
            refine ⟨s :: q, leaf, List.cons_prefix_cons.2 ⟨rfl, hq⟩, ?_, ?_⟩
            · exact fun heq => hne (List.cons.inj heq).2
            · exact leafAt_cons_iff.2 ⟨child, hc, hleaf⟩
        | _ => contradiction
  · rintro ⟨q, leaf, ⟨r, rfl⟩, hne, hread, hleaf⟩
    rw [read?_append, hread]
    cases r with
    | nil => exact absurd (List.append_nil q).symm hne
    | cons s r =>
      cases leaf with
      | object ms => contradiction
      | _ => rfl

/-- There is nothing at a path if it neither runs through a leaf nor ends at a node. -/
theorem read?_eq_absent_iff :
    read? q j = some none ↔ (∀ r leaf, r <+: q → ¬ j.LeafAt r leaf) ∧ ¬ j.ObjectAt q := by
  constructor
  · intro h
    refine ⟨fun r leaf hr hleaf => ?_, ?_⟩
    · by_cases hrq : r = q
      · subst hrq
        simp [LeafAt, h] at hleaf
      · have hnone := read?_eq_none_iff.2 ⟨r, leaf, hr, hrq, hleaf⟩
        simp [h] at hnone
    · rintro ⟨node, hnode, _⟩
      simp [h] at hnode
  · rintro ⟨hleaf, hobject⟩
    cases h : read? q j with
    | none =>
      obtain ⟨r, leaf, hr, _, hat⟩ := read?_eq_none_iff.1 h
      exact absurd hat (hleaf r leaf hr)
    | some found =>
      cases found with
      | none => rfl
      | some node =>
        cases hnode : node.isObject with
        | false => exact absurd ⟨h, hnode⟩ (hleaf q node List.prefix_rfl)
        | true => exact absurd ⟨node, h, hnode⟩ hobject

/-! ## Merging -/

theorem merge_leaf (h : new.isObject = false) (old : Json) : old.merge new = new := by
  cases new with
  | object ms => contradiction
  | _ => rfl

theorem find?_mergeMembers (hm : (ms.map (·.1)).Nodup) (existing : List (String × Json))
    (k : String) :
    Keyed.find? (mergeMembers existing ms) k =
      match Keyed.find? ms k with
      | none => Keyed.find? existing k
      | some new => some (match Keyed.find? existing k with
        | some old => old.merge new
        | none => new) := by
  induction ms generalizing existing with
  | nil => rfl
  | cons e rest ih =>
    obtain ⟨key, new⟩ := e
    obtain ⟨hnew, hrest⟩ := List.nodup_cons.1 hm
    rw [mergeMembers, ih hrest]
    by_cases hk : k = key
    · subst hk
      rw [Keyed.find?_eq_none_of_not_mem hnew, Keyed.find?, if_pos rfl]
      refine (Keyed.find?_insert_self existing k _).trans ?_
      cases Keyed.find? existing k <;> rfl
    · rw [Keyed.find?_insert_of_ne _ _ hk, Keyed.find?, if_neg hk]

/-- Merging into nothing gives the members themselves. -/
theorem mergeMembers_nil (h : (object ms).Canonical) : mergeMembers [] ms = ms := by
  obtain ⟨hasc, hall⟩ := canonical_object.1 h
  have hmerged : (object (mergeMembers [] ms)).Canonical :=
    Canonical.mergeMembers canonical_emptyObject hall
  refine (canonical_object.1 hmerged).1.ext hasc fun k => ?_
  rw [find?_mergeMembers hasc.nodup]
  cases Keyed.find? ms k <;> rfl

theorem foldl_mergeMembers (ms members : List (String × Json)) :
    members.foldl (fun ms m => mergeMembers ms [m]) ms = mergeMembers ms members := by
  induction members generalizing ms with
  | nil => rfl
  | cons m rest ih =>
    rw [List.foldl_cons, ih]
    rfl

/-- A leaf that an object is merged into counts as an object without members. -/
theorem merge_object (h : (object ms).Canonical) (old : Json) :
    old.merge (object ms) = object (mergeMembers old.members ms) := by
  cases old with
  | object existing => rw [merge, members_object]
  | _ => simp [merge, members, mergeMembers_nil h]

theorem merge_emptyObject (h : new.Canonical) : emptyObject.merge new = new := by
  cases new with
  | object ms => exact (merge_object h emptyObject).trans (congrArg object (mergeMembers_nil h))
  | _ => rfl

/-- A leaf of the merged value is one of the new value, or one of the old value where the new one
has nothing. -/
theorem leafAt_merge_iff (h : new.Canonical) :
    (old.merge new).LeafAt q leaf ↔
      new.LeafAt q leaf ∨ (old.LeafAt q leaf ∧ read? q new = some none) := by
  induction new using ind generalizing old q with
  | leaf new hleaf =>
    have hnew := isObject_of_outline hleaf
    rw [merge_leaf hnew]
    refine ⟨.inl, fun hor => hor.resolve_right ?_⟩
    rintro ⟨_, habsent⟩
    exact (read?_eq_absent_iff.1 habsent).1 [] new List.nil_prefix (leafAt_nil_iff.2 ⟨rfl, hnew⟩)
  | node ms ih =>
    rw [merge_object h]
    cases q with
    | nil => simp [leafAt_nil_iff, isObject, read?_nil]
    | cons s q =>
      rw [leafAt_cons_iff, leafAt_cons_iff, leafAt_cons_iff, read?_cons_object, members_object,
        members_object, find?_mergeMembers (canonical_object.1 h).1.nodup]
      cases hnew : Keyed.find? ms s with
      | none => simp
      | some new =>
        cases hold : Keyed.find? old.members s with
        | none => simp
        | some old => simpa [hold] using ih (s, new) (Keyed.mem_of_find? hnew) (h.member hnew)

theorem Canonical.find?_members (h : j.Canonical) {k : String} {child : Json}
    (hk : Keyed.find? j.members k = some child) : child.Canonical := by
  cases j with
  | object ms => exact h.member hk
  | _ => contradiction

/-- Merging the same value once more changes nothing. -/
theorem merge_merge (ho : old.Canonical) (hn : new.Canonical) :
    (old.merge new).merge new = old.merge new := by
  induction new using ind generalizing old with
  | leaf new hleaf =>
    have hnew := isObject_of_outline hleaf
    rw [merge_leaf hnew, merge_leaf hnew]
  | node ms ih =>
    obtain ⟨hasc, hall⟩ := canonical_object.1 hn
    have honce : (object (mergeMembers old.members ms)).Canonical :=
      merge_object hn old ▸ ho.merge hn
    have htwice := Canonical.mergeMembers honce hall
    rw [merge_object hn, merge_object hn, members_object]
    refine congrArg object ((canonical_object.1 htwice).1.ext (canonical_object.1 honce).1 ?_)
    intro k
    rw [find?_mergeMembers hasc.nodup, find?_mergeMembers hasc.nodup]
    cases hnew : Keyed.find? ms k with
    | none => rfl
    | some new =>
      have hk := @ih (k, new) (Keyed.mem_of_find? hnew)
      have hnewc := hn.member hnew
      cases hold : Keyed.find? old.members k with
      | none =>
        -- the new value itself, which is what merging into an empty object gives
        have hself := hk canonical_emptyObject hnewc
        rw [merge_emptyObject hnewc] at hself
        exact congrArg some hself
      | some child => exact congrArg some (hk (ho.find?_members hold) hnewc)

end MountRegistry.Json
