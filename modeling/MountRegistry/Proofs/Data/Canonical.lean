import MountRegistry.Json.Shape
import MountRegistry.Proofs.Data.Reading
import MountRegistry.Proofs.Keyed
import MountRegistry.Store.Cohort

/-
  Values whose objects have their keys in ascending order, as every value has that was read from a
  text (`Reading.canonical_toJson`). Edits that write such values keep a tree like that, and a tree
  like that is told by its outline: by what kind of node each path shows, and by the leaves
  (`eq_of_outlineAt`).
-/

namespace MountRegistry

namespace Json

theorem canonicalMembers_iff {members : List (String × Json)} :
    CanonicalMembers members ↔ ∀ e ∈ members, e.2.Canonical := by
  induction members with
  | nil => simp [CanonicalMembers]
  | cons e rest ih => simp [CanonicalMembers, ih]

theorem canonical_object {members : List (String × Json)} :
    (object members).Canonical ↔
      Keyed.Ascending members ∧ ∀ e ∈ members, e.2.Canonical := by
  rw [Canonical, canonicalMembers_iff]

theorem canonical_array {items : List Json} :
    (array items).Canonical ↔ ∀ j ∈ items, j.Canonical := by
  suffices h : CanonicalItems items ↔ ∀ j ∈ items, j.Canonical by rwa [Canonical]
  induction items with
  | nil => simp [CanonicalItems]
  | cons j rest ih => simp [CanonicalItems, ih]

theorem canonical_emptyObject : emptyObject.Canonical :=
  canonical_object.2 ⟨List.Pairwise.nil, fun _ he => nomatch he⟩

theorem Canonical.member {members : List (String × Json)} (h : (object members).Canonical)
    {k : String} {j : Json} (hk : Keyed.find? members k = some j) : j.Canonical :=
  (canonical_object.1 h).2 (k, j) (Keyed.mem_of_find? hk)

theorem Canonical.getD {members : List (String × Json)} (h : (object members).Canonical)
    (k : String) : ((Keyed.find? members k).getD emptyObject).Canonical := by
  cases hk : Keyed.find? members k with
  | some j => exact h.member hk
  | none => exact canonical_emptyObject

theorem Canonical.insert {members : List (String × Json)} (h : (object members).Canonical)
    (k : String) {j : Json} (hj : j.Canonical) :
    (object (Keyed.insert members k j)).Canonical := by
  obtain ⟨hasc, hall⟩ := canonical_object.1 h
  refine canonical_object.2 ⟨hasc.insert k j, fun e he => ?_⟩
  rcases Keyed.mem_insert he with rfl | he
  · exact hj
  · exact hall e he

theorem Canonical.erase {members : List (String × Json)} (h : (object members).Canonical)
    (k : String) : (object (Keyed.erase members k)).Canonical := by
  obtain ⟨hasc, hall⟩ := canonical_object.1 h
  exact canonical_object.2 ⟨hasc.erase k, fun e he => hall e (List.mem_filter.1 he).1⟩

theorem canonical_ofMembers {members : List (String × Json)} (h : ∀ e ∈ members, e.2.Canonical) :
    (ofMembers members).Canonical :=
  canonical_object.2 ⟨Keyed.Ascending.ofList members, fun e he => h e (Keyed.mem_ofList he)⟩

/-! ## Writing -/

mutual

theorem Canonical.merge {old : Json} (ho : old.Canonical) :
    ∀ {new : Json}, new.Canonical → (old.merge new).Canonical
  | .object members, hn => by
    cases old with
    | object existing =>
      rw [Json.merge]
      exact Canonical.mergeMembers ho (canonical_object.1 hn).2
    | _ => exact hn
  | .null, hn | .bool _, hn | .number _, hn | .text _, hn | .array _, hn => hn

theorem Canonical.mergeMembers {existing : List (String × Json)}
    (ho : (object existing).Canonical) :
    ∀ {members : List (String × Json)}, (∀ e ∈ members, e.2.Canonical) →
      (object (Json.mergeMembers existing members)).Canonical
  | [], _ => ho
  | (key, new) :: rest, hn => by
    have hnew : new.Canonical := hn (key, new) List.mem_cons_self
    rw [Json.mergeMembers]
    refine Canonical.mergeMembers (ho.insert key ?_) fun e he => hn e (List.mem_cons_of_mem _ he)
    cases hk : Keyed.find? existing key with
    | some old => exact Canonical.merge (ho.member hk) hnew
    | none => exact hnew

end

theorem Canonical.update? {f : Json → Json} (hf : ∀ j, j.Canonical → (f j).Canonical)
    {p : List String} {j j' : Json} (hj : j.Canonical) (h : update? f p j = some j') :
    j'.Canonical := by
  induction p generalizing j j' with
  | nil =>
    have : f j = j' := by cases j <;> exact Option.some.inj h
    exact this ▸ hf j hj
  | cons s p ih =>
    obtain ⟨members, child, rfl, hc, rfl⟩ := update?_cons_eq_some h
    exact hj.insert s (ih (hj.getD s) hc)

theorem Canonical.remove? {p : List String} {j j' : Json} (hj : j.Canonical)
    (h : remove? p j = some j') : j'.Canonical := by
  induction p generalizing j j' with
  | nil =>
    have : emptyObject = j' := by cases j <;> exact Option.some.inj h
    exact this ▸ canonical_emptyObject
  | cons s p ih =>
    by_cases hp : p = []
    · subst hp
      obtain ⟨members, rfl, rfl⟩ := remove?_singleton_eq_some h
      exact hj.erase s
    · obtain ⟨members, rfl, ⟨child, child', hc, hr, rfl⟩ | ⟨_, rfl⟩⟩ := remove?_cons_eq_some hp h
      · exact hj.insert s (ih (hj.member hc) hr)
      · exact hj

/-! ## Outlines -/

/-- What a node shows of itself: a leaf everything, an object only that it is one. -/
def outline : Json → Option Json
  | .object _ => none
  | leaf => some leaf

/-- The outline of what a path shows. -/
def outlineAt (p : List String) (j : Json) : Option (Option (Option Json)) :=
  (read? p j).map (Option.map outline)

theorem outlineAt_congr {p : List String} {j k : Json} (h : read? p j = read? p k) :
    outlineAt p j = outlineAt p k := by
  unfold outlineAt
  rw [h]

theorem outlineAt_cons_of_find? {s : String} {members : List (String × Json)} {child : Json}
    (h : Keyed.find? members s = some child) (p : List String) :
    outlineAt (s :: p) (object members) = outlineAt p child := by
  unfold outlineAt
  rw [read?_cons_object, h]

theorem outlineAt_cons_eq_none {s : String} {members : List (String × Json)} :
    outlineAt [s] (object members) = some none ↔ Keyed.find? members s = none := by
  unfold outlineAt
  rw [read?_cons_object]
  cases Keyed.find? members s <;> simp [read?_nil]

/-- What holds of leaves, and of an object if it holds of its members, holds of all values. -/
theorem ind {motive : Json → Prop} (leaf : ∀ j, outline j = some j → motive j)
    (node : ∀ members : List (String × Json),
      (∀ e ∈ members, motive e.2) → motive (.object members)) :
    ∀ j, motive j
  | .object members => node members fun e he =>
    have hlt : sizeOf e.2 < sizeOf (Json.object members) := by
      have hmem := List.sizeOf_lt_of_mem he
      have hsnd : sizeOf e.2 < sizeOf e := by
        obtain ⟨name, value⟩ := e
        rw [Prod.mk.sizeOf_spec]
        dsimp only
        omega
      rw [Json.object.sizeOf_spec]
      omega
    ind leaf node e.2
  | .null => leaf _ rfl
  | .bool _ => leaf _ rfl
  | .number _ => leaf _ rfl
  | .text _ => leaf _ rfl
  | .array _ => leaf _ rfl
termination_by j => sizeOf j
decreasing_by exact hlt

/-- Canonical trees with one outline are one tree. -/
theorem eq_of_outlineAt {a b : Json} (ha : a.Canonical) (hb : b.Canonical)
    (h : ∀ p, outlineAt p a = outlineAt p b) : a = b := by
  have hroot : ∀ {a b : Json}, outlineAt [] a = outlineAt [] b → outline a = outline b := by
    intro a b h
    unfold outlineAt at h
    rw [read?_nil, read?_nil] at h
    exact Option.some.inj (Option.some.inj h)
  induction a using ind generalizing b with
  | leaf a hleaf =>
    have hab : outline b = some a := (hroot (h [])).symm.trans hleaf
    cases b with
    | object ns => cases hab
    | _ => exact (Option.some.inj hab).symm
  | node ms ih =>
    cases b with
    | object ns =>
      have hmem : ∀ k, Keyed.find? ms k = Keyed.find? ns k := by
        intro k
        cases hm : Keyed.find? ms k with
        | none => exact (outlineAt_cons_eq_none.1 (h [k] ▸ outlineAt_cons_eq_none.2 hm)).symm
        | some c =>
          cases hn : Keyed.find? ns k with
          | none =>
            rw [outlineAt_cons_eq_none.1 ((h [k]).trans (outlineAt_cons_eq_none.2 hn))] at hm
            cases hm
          | some d =>
            refine congrArg some (ih _ (Keyed.mem_of_find? hm) (ha.member hm) (hb.member hn) ?_)
            intro p
            have hp := h (k :: p)
            rwa [outlineAt_cons_of_find? hm, outlineAt_cons_of_find? hn] at hp
      rw [(canonical_object.1 ha).1.ext (canonical_object.1 hb).1 hmem]
    | _ => cases hroot (h [])

end Json

/-! ## Values read from text -/

namespace Reading

mutual

theorem canonical_toJson {levels : Nat} {r : Reading} {j : Json}
    (h : r.toJson levels = .ok j) : j.Canonical := by
  cases r with
  | array items closed =>
    cases levels with
    | zero => cases h
    | succ levels =>
      rw [toJson] at h
      obtain ⟨js, hjs, h⟩ := Outcome.bind_eq_ok.1 h
      split at h
      · cases h
        exact Json.canonical_array.2 (canonical_toJsonItems hjs)
      · cases h
  | object members closed =>
    cases levels with
    | zero => cases h
    | succ levels =>
      rw [toJson] at h
      obtain ⟨ms, hms, h⟩ := Outcome.bind_eq_ok.1 h
      split at h
      · cases h
        exact Json.canonical_ofMembers (canonical_toJsonMembers hms)
      · cases h
  | number n =>
    cases n with
    | none => cases h
    | some n =>
      cases h
      trivial
  | text s =>
    cases s with
    | none => cases h
    | some s =>
      cases h
      trivial
  | null | bool b =>
    cases h
    trivial
  | broken => cases h

theorem canonical_toJsonItems {levels : Nat} {rs : List Reading} {js : List Json}
    (h : toJsonItems levels rs = .ok js) : ∀ j ∈ js, j.Canonical := by
  cases rs with
  | nil =>
    cases h
    exact fun j hj => nomatch hj
  | cons r rest =>
    rw [toJsonItems] at h
    obtain ⟨j, hj, h⟩ := Outcome.bind_eq_ok.1 h
    obtain ⟨js, hjs, h⟩ := Outcome.bind_eq_ok.1 h
    cases h
    exact List.forall_mem_cons.2 ⟨canonical_toJson hj, canonical_toJsonItems hjs⟩

theorem canonical_toJsonMembers {levels : Nat} {rs : List (Option String × Reading)}
    {ms : List (String × Json)} (h : toJsonMembers levels rs = .ok ms) :
    ∀ e ∈ ms, e.2.Canonical := by
  cases rs with
  | nil =>
    cases h
    exact fun e he => nomatch he
  | cons r rest =>
    obtain ⟨key, r⟩ := r
    cases key with
    | none => cases h
    | some key =>
      rw [toJsonMembers] at h
      obtain ⟨j, hj, h⟩ := Outcome.bind_eq_ok.1 h
      obtain ⟨ms, hms, h⟩ := Outcome.bind_eq_ok.1 h
      cases h
      exact List.forall_mem_cons.2 ⟨canonical_toJson hj, canonical_toJsonMembers hms⟩

end

end Reading

/-! ## Edits -/

namespace Edit

/-- The value that an edit writes is canonical, if it writes one. -/
def Canonical : Edit → Prop
  | put _ value | merge _ value => value.Canonical
  | delete _ => True

theorem canonical_apply {e : Edit} {t t' : Json} (he : e.Canonical) (ht : t.Canonical)
    (h : e.apply t = .ok t') : t'.Canonical := by
  rw [apply_eq_ok_iff] at h
  cases e with
  | put path value => exact Json.Canonical.update? (fun _ _ => he) ht h
  | merge path value => exact Json.Canonical.update? (fun _ hj => hj.merge he) ht h
  | delete path => exact Json.Canonical.remove? ht h

theorem canonical_applyAll {es : List Edit} {t t' : Json} (hes : ∀ e ∈ es, e.Canonical)
    (ht : t.Canonical) (h : applyAll t es = .ok t') : t'.Canonical := by
  induction es generalizing t with
  | nil => exact Except.ok.inj h ▸ ht
  | cons e es ih =>
    obtain ⟨u, hu, hes'⟩ := applyAll_cons_eq_ok.1 h
    exact ih (fun f hf => hes f (List.mem_cons_of_mem e hf))
      (canonical_apply (hes e List.mem_cons_self) ht hu) hes'

end Edit

namespace Store

theorem canonical_canonicalRoot (model : Yang.Model) {j : Json} (h : j.Canonical) :
    (canonicalRoot model j).Canonical := by
  cases j with
  | object members =>
    refine Json.canonical_ofMembers fun e he => ?_
    obtain ⟨x, hx, rfl⟩ := List.mem_map.1 he
    exact (Json.canonical_object.1 h).2 x hx
  | _ => exact h

/-- Spelling data nodes bare keeps the value of an edit canonical. -/
theorem canonical_canonicalEdit (model : Yang.Model) {e : Edit} (h : e.Canonical) :
    (canonicalEdit model e).Canonical := by
  cases e with
  | put path value =>
    simp only [canonicalEdit]
    split
    · exact canonical_canonicalRoot model h
    · exact h
  | merge path value =>
    simp only [canonicalEdit]
    split
    · exact canonical_canonicalRoot model h
    · exact h
  | delete path => trivial

end Store

end MountRegistry
