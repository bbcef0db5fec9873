import MountRegistry.Proofs.Keyed
import MountRegistry.Store.Pool

/-
  What the operations of the pool do to the keys that it holds, and what they leave of the stores
  that were ever built. A store keeps its number for good: building another one, letting go of keys
  and writing to one store leave every other store as it is.
-/

namespace MountRegistry

theorem StoreKind.mem_all (kind : StoreKind) : kind ∈ StoreKind.all := by
  cases kind <;> decide

instance : Std.LawfulEqOrd StoreKind where
  compare_self {a} := by cases a <;> rfl
  eq_of_compare {a b} h := by cases a <;> cases b <;> first | rfl | cases h

instance : Std.TransOrd StoreKind where
  eq_swap {a b} := by cases a <;> cases b <;> rfl
  isLE_trans {a b c} h k := by cases a <;> cases b <;> cases c <;> first | rfl | exact h | exact k

namespace StorePool

/-! ## Writing to a store -/

theorem store_setStore {p : StorePool} {n : Nat} (h : n < p.stores.length) (s : Store) (m : Nat) :
    (p.setStore n s).store m = if m = n then s else p.store m := by
  unfold store setStore
  rw [List.getD_eq_getElem?_getD, List.getD_eq_getElem?_getD, List.getElem?_set]
  by_cases hm : n = m
  · rw [if_pos hm, if_pos (hm ▸ h), if_pos hm.symm]
    rfl
  · rw [if_neg hm, if_neg (Ne.symm hm)]

theorem setStore_store (p : StorePool) (n : Nat) : p.setStore n (p.store n) = p := by
  unfold store setStore
  rcases Nat.lt_or_ge n p.stores.length with hlt | hge
  · rw [List.getD_eq_getElem?_getD, List.getElem?_eq_getElem hlt, Option.getD_some,
      List.set_getElem_self]
  · rw [List.set_eq_of_length_le hge]

theorem store_setStore_of_ne (p : StorePool) {n m : Nat} (h : m ≠ n) (s : Store) :
    (p.setStore n s).store m = p.store m := by
  unfold store setStore
  rw [List.getD_eq_getElem?_getD, List.getD_eq_getElem?_getD, List.getElem?_set_ne h.symm]

@[simp] theorem created_setStore (p : StorePool) (n : Nat) (s : Store) :
    (p.setStore n s).created = p.created := List.length_set

theorem store?_eq_some_iff {p : StorePool} {n : Nat} {s : Store} :
    p.store? n = some s ↔ n < p.created ∧ p.store n = s := by
  unfold store? store created
  rw [List.getD_eq_getElem?_getD, List.getElem?_eq_some_iff]
  constructor
  · rintro ⟨hlt, h⟩
    rw [List.getElem?_eq_getElem hlt]
    exact ⟨hlt, h⟩
  · rintro ⟨hlt, h⟩
    rw [List.getElem?_eq_getElem hlt] at h
    exact ⟨hlt, h⟩

/-! ## Taking a store -/

/-- The second look makes the first one superfluous, if nobody comes in between. -/
theorem getOrCreate_eq (p : StorePool) (path : MountPath) (kind : StoreKind) (model : Yang.Model) :
    p.getOrCreate path kind model = p.insertIfAbsent path kind model := by
  unfold getOrCreate insertIfAbsent
  cases p.lookup? path kind <;> rfl

/-- What is in the pool is taken as it is. -/
theorem insertIfAbsent_of_lookup? {p : StorePool} {path : MountPath} {kind : StoreKind} {n : Nat}
    (h : p.lookup? path kind = some n) (model : Yang.Model) :
    p.insertIfAbsent path kind model = (p, n) := by
  simp only [insertIfAbsent, h]

/-- What is not in the pool is built. -/
theorem insertIfAbsent_of_lookup?_eq_none {p : StorePool} {path : MountPath} {kind : StoreKind}
    (h : p.lookup? path kind = none) (model : Yang.Model) :
    p.insertIfAbsent path kind model =
      (⟨p.stores ++ [Store.create (path.storeName kind) kind model],
        Keyed.insert p.keys (path, kind) p.stores.length⟩, p.stores.length) := by
  simp only [insertIfAbsent, h]

theorem getOrCreate_of_lookup?_eq_none {p : StorePool} {path : MountPath} {kind : StoreKind}
    (h : p.lookup? path kind = none) (model : Yang.Model) :
    p.getOrCreate path kind model =
      (⟨p.stores ++ [Store.create (path.storeName kind) kind model],
        Keyed.insert p.keys (path, kind) p.stores.length⟩, p.stores.length) := by
  rw [getOrCreate_eq, insertIfAbsent_of_lookup?_eq_none h]

/-- After a store was taken its key holds it; the other keys hold what they held. -/
theorem lookup?_insertIfAbsent (p : StorePool) (path : MountPath) (kind : StoreKind)
    (model : Yang.Model) (q : MountPath) (k : StoreKind) :
    (p.insertIfAbsent path kind model).1.lookup? q k =
      if q = path ∧ k = kind then some (p.insertIfAbsent path kind model).2
      else p.lookup? q k := by
  cases h : p.lookup? path kind with
  | some n =>
    rw [insertIfAbsent_of_lookup? h]
    split
    · rename_i hkey
      rw [hkey.1, hkey.2, h]
    · rfl
  | none =>
    rw [insertIfAbsent_of_lookup?_eq_none h]
    simp only [lookup?, Keyed.find?_insert, Prod.mk.injEq]

/-- No store that was built is lost, and at most one is added. -/
theorem stores_insertIfAbsent (p : StorePool) (path : MountPath) (kind : StoreKind)
    (model : Yang.Model) : p.stores <+: (p.insertIfAbsent path kind model).1.stores := by
  cases h : p.lookup? path kind with
  | some n => simp only [insertIfAbsent_of_lookup? h, List.prefix_rfl]
  | none =>
    rw [insertIfAbsent_of_lookup?_eq_none h]
    exact List.prefix_append ..

theorem store_of_extended {p q : StorePool} (h : p.stores <+: q.stores) {n : Nat}
    (hn : n < p.created) : q.store n = p.store n := by
  obtain ⟨rest, hrest⟩ := h
  unfold store
  rw [← hrest, List.getD_eq_getElem?_getD, List.getD_eq_getElem?_getD,
    List.getElem?_append_left hn]

theorem store?_of_extended {p q : StorePool} (h : p.stores <+: q.stores) {n : Nat} {s : Store}
    (hs : p.store? n = some s) : q.store? n = some s := by
  obtain ⟨rest, hrest⟩ := h
  unfold store? at hs ⊢
  rw [← hrest, List.getElem?_append_left (List.getElem?_eq_some_iff.1 hs).1, hs]

/-! ## Letting go of the stores of a mount path -/

/-- The keys of the mount path are gone; the others hold what they held. -/
theorem lookup?_removeMount (p : StorePool) (path q : MountPath) (kind : StoreKind) :
    (p.removeMount path).1.lookup? q kind = if q = path then none else p.lookup? q kind := by
  unfold removeMount lookup?
  dsimp only
  rw [Keyed.find?_foldl_erase]
  by_cases hq : q = path
  · subst hq
    rw [if_pos rfl]
    -- a kind that was not present has no key to lose
    by_cases hpresent : (p.lookup? q kind).isSome
    · rw [if_pos ⟨kind, List.mem_filter.2 ⟨StoreKind.mem_all kind, hpresent⟩, rfl⟩]
    · have hnone : Keyed.find? p.keys (q, kind) = none := by
        simpa [lookup?] using hpresent
      rw [hnone, ite_self]
  · rw [if_neg hq, if_neg]
    rintro ⟨k, _, heq⟩
    exact hq (Prod.mk.inj heq).1

end StorePool

end MountRegistry
