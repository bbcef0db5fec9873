import MountRegistry.Node.Path

/-
  Node identifiers and mount paths are ordered as their texts are, and no two nodes share a mount
  path.
-/

namespace MountRegistry

/-! ## The order of what has a text -/

section
variable {α : Type} [Ord α] {text : α → String}

theorem lawfulEqOrd_of_text (hinj : Function.Injective text)
    (h : ∀ a b, compare a b = compare (text a) (text b)) : Std.LawfulEqOrd α where
  compare_self {a} := by
    rw [h]
    exact Std.ReflOrd.compare_self
  eq_of_compare {a b} hab := by
    rw [h] at hab
    exact hinj (Std.LawfulEqCmp.eq_of_compare hab)

theorem transOrd_of_text (h : ∀ a b, compare a b = compare (text a) (text b)) :
    Std.TransOrd α where
  eq_swap {a b} := by
    rw [h, h]
    exact Std.OrientedCmp.eq_swap
  isLE_trans {a b c} hab hbc := by
    rw [h] at hab hbc ⊢
    exact Std.TransCmp.isLE_trans hab hbc

end

namespace MountPath

theorem ext_text {a b : MountPath} (h : a.text = b.text) : a = b := by
  cases a
  cases b
  exact congrArg MountPath.mk h

theorem compare_eq (a b : MountPath) : compare a b = compare a.text b.text := by
  change (compare a.text b.text).then .eq = _
  cases compare a.text b.text <;> rfl

instance : Std.LawfulEqOrd MountPath := lawfulEqOrd_of_text (fun _ _ => ext_text) compare_eq

instance : Std.TransOrd MountPath := transOrd_of_text compare_eq

end MountPath

namespace NodeId

theorem ext_text {a b : NodeId} (h : a.text = b.text) : a = b := by
  cases a
  cases b
  exact congrArg NodeId.mk h

theorem mountPath_inj {a b : NodeId} : a.mountPath = b.mountPath ↔ a = b := by
  constructor
  · intro h
    exact ext_text ((String.append_right_inj _).1 (congrArg MountPath.text h))
  · rintro rfl
    rfl

theorem compare_eq (a b : NodeId) : compare a b = compare a.text b.text := by
  change (compare a.text b.text).then .eq = _
  cases compare a.text b.text <;> rfl

instance : Std.LawfulEqOrd NodeId := lawfulEqOrd_of_text (fun _ _ => ext_text) compare_eq

instance : Std.TransOrd NodeId := transOrd_of_text compare_eq

end NodeId

end MountRegistry
