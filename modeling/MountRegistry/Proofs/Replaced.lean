/-
  A list in which one entry is put in the place of another: everybody else stands where they stood.
-/

namespace MountRegistry.Replaced

variable {α : Type}

/-- The entry of a number, and the list with another entry in its place. -/
theorem exists_split {l : List α} {i : Nat} {a : α} (h : l[i]? = some a) :
    ∃ before after, l = before ++ a :: after ∧ l.set i = (before ++ · :: after) := by
  obtain ⟨hi, rfl⟩ := List.getElem?_eq_some_iff.1 h
  refine ⟨l.take i, l.drop (i + 1), ?_, funext fun b => ?_⟩
  · rw [← List.drop_eq_getElem_cons hi, List.take_append_drop]
  · exact List.set_eq_take_append_cons_drop.trans (if_pos hi)

variable {p : α → Prop} {before after : List α} {x y : α}

theorem forall_mem (h : ∀ z ∈ before ++ x :: after, p z) (hy : p y) :
    ∀ z ∈ before ++ y :: after, p z := by
  rw [List.forall_mem_append, List.forall_mem_cons] at h ⊢
  exact ⟨h.1, hy, h.2.2⟩

theorem exists_mem (h : ∃ z ∈ before ++ x :: after, p z) (hy : p x → p y) :
    ∃ z ∈ before ++ y :: after, p z := by
  obtain ⟨z, hz, hp⟩ := h
  rcases List.mem_append.1 hz with hz | hz
  · exact ⟨z, List.mem_append_left _ hz, hp⟩
  · rcases List.mem_cons.1 hz with rfl | hz
    · exact ⟨y, List.mem_append_right _ List.mem_cons_self, hy hp⟩
    · exact ⟨z, List.mem_append_right _ (List.mem_cons_of_mem _ hz), hp⟩

end MountRegistry.Replaced
