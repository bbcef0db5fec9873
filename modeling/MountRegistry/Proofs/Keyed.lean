import MountRegistry.Keyed

/-
  Inserting and erasing keep entries in ascending order, so a map that was built by inserting has
  each key once, and an entry of it is what its key reads. Two such maps that read the same at every
  key are the same list.
-/

namespace MountRegistry.Keyed

variable {κ α : Type} [Ord κ]

theorem Ascending.nodup [Std.ReflOrd κ] {m : List (κ × α)} (h : Ascending m) :
    (m.map (·.1)).Nodup := by
  refine List.pairwise_map.2 (List.Pairwise.imp ?_ h)
  intro a b hab heq
  rw [heq, Std.ReflOrd.compare_self] at hab
  cases hab

variable [DecidableEq κ]

theorem mem_insert {m : List (κ × α)} {k : κ} {v : α} {e : κ × α} (h : e ∈ insert m k v) :
    e = (k, v) ∨ e ∈ m := by
  induction m with
  | nil => exact .inl (List.mem_singleton.1 h)
  | cons x rest ih =>
    unfold insert at h
    split at h
    · rcases List.mem_cons.1 h with rfl | h
      · exact .inl rfl
      · exact .inr (List.mem_cons_of_mem x h)
    · split at h
      · rcases List.mem_cons.1 h with rfl | h
        · exact .inl rfl
        · exact .inr h
      · rcases List.mem_cons.1 h with rfl | h
        · exact .inr List.mem_cons_self
        · exact (ih h).imp_right (List.mem_cons_of_mem x)

theorem mem_keys_insert {m : List (κ × α)} {k q : κ} {v : α} :
    q ∈ (insert m k v).map (·.1) ↔ q = k ∨ q ∈ m.map (·.1) := by
  induction m with
  | nil => exact List.mem_cons
  | cons x rest ih =>
    unfold insert
    split
    · rename_i hk
      rw [List.map_cons, List.map_cons, List.mem_cons, List.mem_cons, hk, or_self_left]
    · split
      · rw [List.map_cons, List.mem_cons]
      · rw [List.map_cons, List.map_cons, List.mem_cons, List.mem_cons, ih, or_left_comm]

/-- Of two values inserted for one key the later counts. -/
theorem insert_insert (m : List (κ × α)) (k : κ) (v w : α) :
    insert (insert m k v) k w = insert m k w := by
  induction m with
  | nil => simp [insert]
  | cons e rest ih =>
    by_cases hk : k = e.1
    · simp [insert, hk]
    · by_cases hlt : compare k e.1 = .lt
      · simp [insert, hk, hlt]
      · simp [insert, hk, hlt, ih]

omit [Ord κ] in
theorem erase_erase (m : List (κ × α)) (k : κ) : erase (erase m k) k = erase m k := by
  simp [erase, List.filter_filter]

/-- An entry with a new key is one entry more. -/
theorem perm_insert {m : List (κ × α)} {k : κ} (v : α) (h : k ∉ m.map (·.1)) :
    (insert m k v).Perm ((k, v) :: m) := by
  induction m with
  | nil => exact List.Perm.refl _
  | cons e rest ih =>
    have hne : k ≠ e.1 := fun heq => h (List.mem_map.2 ⟨e, List.mem_cons_self, heq.symm⟩)
    have hrest : k ∉ rest.map (·.1) := fun hmem => h (List.mem_cons_of_mem _ hmem)
    rw [insert, if_neg hne]
    split
    · exact List.Perm.refl _
    · exact ((ih hrest).cons e).trans (List.Perm.swap (k, v) e rest)

theorem Ascending.insert [Std.TransOrd κ] [Std.LawfulEqOrd κ] {m : List (κ × α)}
    (h : Ascending m) (k : κ) (v : α) : Ascending (insert m k v) := by
  induction m with
  | nil => exact List.pairwise_singleton _ _
  | cons x rest ih =>
    obtain ⟨hx, hrest⟩ := List.pairwise_cons.1 h
    unfold Keyed.insert
    split
    · rename_i hk
      exact List.pairwise_cons.2 ⟨fun y hy => hk ▸ hx y hy, hrest⟩
    · rename_i hk
      split
      · rename_i hlt
        refine List.pairwise_cons.2 ⟨?_, h⟩
        intro y hy
        rcases List.mem_cons.1 hy with rfl | hy
        · exact hlt
        · exact Std.TransCmp.lt_trans hlt (hx y hy)
      · rename_i hlt
        -- neither equal to the first key nor below it, the new one is above
        have hgt : compare x.1 k = .lt := by
          rw [← Std.OrientedCmp.gt_iff_lt]
          cases hc : compare k x.1 with
          | lt => exact absurd hc hlt
          | eq => exact absurd (Std.LawfulEqCmp.eq_of_compare hc) hk
          | gt => rfl
        refine List.pairwise_cons.2 ⟨?_, ih hrest⟩
        intro y hy
        rcases mem_insert hy with rfl | hy
        · exact hgt
        · exact hx y hy

theorem Ascending.erase {m : List (κ × α)} (h : Ascending m) (k : κ) : Ascending (erase m k) :=
  List.Pairwise.filter _ h

theorem Ascending.ofList [Std.TransOrd κ] [Std.LawfulEqOrd κ] (entries : List (κ × α)) :
    Ascending (ofList entries) := by
  suffices h : ∀ m : List (κ × α), Ascending m →
      Ascending (entries.foldl (fun m e => Keyed.insert m e.1 e.2) m) from h [] List.Pairwise.nil
  induction entries with
  | nil => exact fun m hm => hm
  | cons e rest ih => exact fun m hm => ih _ (hm.insert e.1 e.2)

theorem mem_ofList {entries : List (κ × α)} {e : κ × α} (h : e ∈ ofList entries) : e ∈ entries := by
  suffices hfold : ∀ m : List (κ × α),
      e ∈ entries.foldl (fun m e => insert m e.1 e.2) m → e ∈ m ∨ e ∈ entries from
    (hfold [] h).resolve_left List.not_mem_nil
  clear h
  induction entries with
  | nil => exact fun m hm => .inl hm
  | cons x rest ih =>
    intro m hm
    rcases ih _ hm with hin | hin
    · rcases mem_insert hin with rfl | hin
      · exact .inr List.mem_cons_self
      · exact .inl hin
    · exact .inr (List.mem_cons_of_mem x hin)

omit [Ord κ] in
theorem find?_append (m n : List (κ × α)) (k : κ) :
    find? (m ++ n) k = (find? m k).or (find? n k) := by
  induction m with
  | nil => rfl
  | cons e m ih =>
    rw [List.cons_append, find?, find?, ih]
    split <;> rfl

/-- Of several entries for a key the last is read. -/
theorem find?_ofList (entries : List (κ × α)) (k : κ) :
    find? (ofList entries) k = find? entries.reverse k := by
  suffices h : ∀ m : List (κ × α), find? (entries.foldl (fun m e => insert m e.1 e.2) m) k =
      (find? entries.reverse k).or (find? m k) from (h []).trans Option.or_none
  induction entries with
  | nil => exact fun m => rfl
  | cons e rest ih =>
    intro m
    rw [List.foldl_cons, ih, List.reverse_cons, find?_append, Option.or_assoc, find?_insert]
    congr 1
    rw [find?]
    split <;> rfl

theorem mem_keys_ofList {entries : List (κ × α)} {k : κ} :
    k ∈ (ofList entries).map (·.1) ↔ k ∈ entries.map (·.1) := by
  suffices h : ∀ m : List (κ × α), k ∈ (entries.foldl (fun m e => insert m e.1 e.2) m).map (·.1) ↔
      k ∈ entries.map (·.1) ∨ k ∈ m.map (·.1) by
    have := h []
    simpa [ofList] using this
  induction entries with
  | nil => simp
  | cons e rest ih =>
    intro m
    rw [List.foldl_cons, ih, mem_keys_insert, List.map_cons, List.mem_cons, or_left_comm, or_assoc]

omit [Ord κ] in
/-- A key that has an entry reads something. -/
theorem exists_find?_of_mem {m : List (κ × α)} {k : κ} (h : k ∈ m.map (·.1)) :
    ∃ v, find? m k = some v := by
  induction m with
  | nil => cases h
  | cons e rest ih =>
    by_cases hk : k = e.1
    · exact ⟨e.2, if_pos hk⟩
    · obtain ⟨v, hv⟩ := ih ((List.mem_cons.1 h).resolve_left hk)
      exact ⟨v, (if_neg hk).trans hv⟩

omit [Ord κ] in
theorem find?_eq_none_of_not_mem {m : List (κ × α)} {k : κ} (h : k ∉ m.map (·.1)) :
    find? m k = none := by
  cases hk : find? m k with
  | none => rfl
  | some v => exact absurd (List.mem_map_of_mem (mem_of_find? hk)) h

omit [Ord κ] in
/-- With each key once, an entry is what its key reads. -/
theorem find?_of_mem {m : List (κ × α)} (h : (m.map (·.1)).Nodup) {k : κ} {v : α}
    (hm : (k, v) ∈ m) : find? m k = some v := by
  induction m with
  | nil => cases hm
  | cons e rest ih =>
    obtain ⟨hnot, hrest⟩ := List.nodup_cons.1 h
    rcases List.mem_cons.1 hm with rfl | hm
    · exact if_pos rfl
    · have hne : k ≠ e.1 := by
        rintro rfl
        exact hnot (List.mem_map.2 ⟨(e.1, v), hm, rfl⟩)
      exact (if_neg hne).trans (ih hrest hm)

omit [Ord κ] in
/-- Erasing one key after the other. -/
theorem find?_foldl_erase {β : Type} (key : β → κ) (bs : List β)
    (m : List (κ × α)) (q : κ) :
    find? (bs.foldl (fun keys b => erase keys (key b)) m) q =
      if ∃ b ∈ bs, q = key b then none else find? m q := by
  induction bs generalizing m with
  | nil => simp
  | cons b bs ih =>
    rw [List.foldl_cons, ih, find?_erase]
    by_cases hrest : ∃ b ∈ bs, q = key b
    · rw [if_pos hrest, if_pos]
      obtain ⟨c, hc, hq⟩ := hrest
      exact ⟨c, List.mem_cons_of_mem b hc, hq⟩
    · rw [if_neg hrest]
      by_cases hq : q = key b
      · rw [if_pos hq, if_pos ⟨b, List.mem_cons_self, hq⟩]
      · rw [if_neg hq, if_neg]
        rintro ⟨c, hc, hqc⟩
        rcases List.mem_cons.1 hc with rfl | hc
        · exact hq hqc
        · exact hrest ⟨c, hc, hqc⟩

/-- Nothing in ascending order comes after the entries that stand above it. -/
theorem find?_eq_none_of_lt [Std.ReflOrd κ] {m : List (κ × α)} {k : κ}
    (h : ∀ e ∈ m, compare k e.1 = .lt) : find? m k = none := by
  induction m with
  | nil => rfl
  | cons e rest ih =>
    have hne : k ≠ e.1 := by
      intro heq
      have hlt := h e List.mem_cons_self
      rw [heq, Std.ReflOrd.compare_self] at hlt
      cases hlt
    exact (if_neg hne).trans (ih fun x hx => h x (List.mem_cons_of_mem e hx))

/-- Maps in ascending order that read the same are the same. -/
theorem Ascending.ext [Std.TransOrd κ] [Std.LawfulEqOrd κ] {m n : List (κ × α)}
    (hm : Ascending m) (hn : Ascending n) (h : ∀ k, find? m k = find? n k) : m = n := by
  induction m generalizing n with
  | nil =>
    cases n with
    | nil => rfl
    | cons y n => simpa [find?] using h y.1
  | cons x m ih =>
    obtain ⟨hx, hm⟩ := List.pairwise_cons.1 hm
    cases n with
    | nil => simpa [find?] using h x.1
    | cons y n =>
      obtain ⟨hy, hn⟩ := List.pairwise_cons.1 hn
      have hxk : find? (x :: m) x.1 = some x.2 := if_pos rfl
      have hyk : find? (y :: n) y.1 = some y.2 := if_pos rfl
      have hkey : x.1 = y.1 := by
        -- the lesser of two different first keys is read in one map only
        cases hc : compare x.1 y.1 with
        | eq => exact Std.LawfulEqOrd.eq_of_compare hc
        | lt =>
          have hnone : find? (y :: n) x.1 = none := by
            refine find?_eq_none_of_lt fun e he => ?_
            rcases List.mem_cons.1 he with rfl | he
            · exact hc
            · exact Std.TransCmp.lt_trans hc (hy e he)
          rw [← h, hxk] at hnone
          cases hnone
        | gt =>
          have hlt : compare y.1 x.1 = .lt := Std.OrientedCmp.gt_iff_lt.1 hc
          have hnone : find? (x :: m) y.1 = none := by
            refine find?_eq_none_of_lt fun e he => ?_
            rcases List.mem_cons.1 he with rfl | he
            · exact hlt
            · exact Std.TransCmp.lt_trans hlt (hx e he)
          rw [h, hyk] at hnone
          cases hnone
      have hval : x.2 = y.2 := by
        have := h x.1
        rw [hxk, hkey, hyk] at this
        exact Option.some.inj this
      rw [Prod.ext hkey hval, ih hm hn]
      intro k
      by_cases hk : k = x.1
      · rw [find?_eq_none_of_lt fun e he => hk ▸ hx e he,
          find?_eq_none_of_lt fun e he => hk ▸ hkey ▸ hy e he]
      · have := h k
        rwa [show find? (x :: m) k = find? m k from if_neg hk,
          show find? (y :: n) k = find? n k from if_neg (hkey ▸ hk)] at this

/-- Inserting what a map has already changes nothing. -/
theorem Ascending.insert_eq_self [Std.TransOrd κ] [Std.LawfulEqOrd κ] {m : List (κ × α)}
    (h : Ascending m) {k : κ} {v : α} (hk : find? m k = some v) :
    Keyed.insert m k v = m := by
  refine (h.insert k v).ext h fun q => ?_
  rw [find?_insert]
  split
  · rename_i hq
    rw [hq, hk]
  · rfl

omit [Ord κ] in
/-- Setting what a table holds already changes nothing. -/
theorem set_eq_self {f : κ → Option α} {k : κ} {v : α} (h : f k = some v) :
    (fun q => if q = k then some v else f q) = f := by
  funext q
  by_cases hq : q = k
  · rw [if_pos hq, hq, h]
  · rw [if_neg hq]

end MountRegistry.Keyed
