import MountRegistry.Proofs.Keyed
import MountRegistry.Source.Library

/-
  What a look-up finds, in a list of identifiers and in the library. The newest of some candidates
  is the one that satisfies the request and that none of the others which do is newer than; so the
  order of the candidates does not matter, nor do any that are older or do not satisfy the request
  (`newest?_eq_some_iff`). The library only grows: a text once registered stays what it was.
-/

namespace MountRegistry

namespace SourceId

variable {a b c id wanted : SourceId} {cs : List SourceId}

theorem satisfies_iff :
    id.satisfies wanted = true ↔
      id.name = wanted.name ∧ (wanted.revision = none ∨ id.revision = wanted.revision) := by
  simp [satisfies]

theorem revisionLE_of_eq (h : a.revision = b.revision) : a.revisionLE b = true := by
  unfold revisionLE
  rw [h]
  exact Std.ReflCmp.isLE_rfl

theorem revisionLE_refl (id : SourceId) : id.revisionLE id = true := revisionLE_of_eq rfl

theorem revisionLE_trans (h : a.revisionLE b = true) (k : b.revisionLE c = true) :
    a.revisionLE c = true :=
  Std.TransCmp.isLE_trans h k

theorem revisionLE_total (a b : SourceId) (h : ¬ a.revisionLE b = true) :
    b.revisionLE a = true := by
  unfold revisionLE at h ⊢
  rw [Std.OrientedOrd.eq_swap]
  revert h
  cases compare a.revision b.revision <;> decide

theorem eq_of_revisionLE (hname : a.name = b.name) (h : a.revisionLE b = true)
    (k : b.revisionLE a = true) : a = b := by
  obtain ⟨name, revision⟩ := a
  obtain ⟨name', revision'⟩ := b
  have hrev : revision = revision' :=
    Std.LawfulEqOrd.eq_of_compare (Std.OrientedCmp.isLE_antisymm h k)
  cases hname
  cases hrev
  rfl

/-- Of the candidates that satisfy the request, none is newer. -/
structure IsNewest (id : SourceId) (cs : List SourceId) (wanted : SourceId) : Prop where
  mem : id ∈ cs
  satisfies : id.satisfies wanted = true
  le : ∀ k ∈ cs, k.satisfies wanted = true → k.revisionLE id = true

theorem IsNewest.unique (h : IsNewest a cs wanted) (k : IsNewest b cs wanted) : a = b := by
  have hname := (satisfies_iff.1 h.satisfies).1.trans (satisfies_iff.1 k.satisfies).1.symm
  exact eq_of_revisionLE hname (k.le a h.mem h.satisfies) (h.le b k.mem k.satisfies)

/-- The best candidate so far, with one more. -/
def newer (best : Option SourceId) (id : SourceId) : Option SourceId :=
  match best with
  | none => some id
  | some b => if b.revisionLE id then some id else some b

theorem newest?_eq_foldl (cs : List SourceId) (wanted : SourceId) :
    newest? cs wanted = (cs.filter (·.satisfies wanted)).foldl newer none := rfl

/-- From a best candidate on there always is one. -/
theorem exists_foldl_newer (ks : List SourceId) (best : SourceId) :
    ∃ id, ks.foldl newer (some best) = some id ∧ id ∈ best :: ks ∧
      ∀ k ∈ best :: ks, k.revisionLE id = true := by
  induction ks generalizing best with
  | nil => exact ⟨best, rfl, List.mem_cons_self, by simp [revisionLE_refl]⟩
  | cons x ks ih =>
    rw [List.foldl_cons]
    by_cases hle : best.revisionLE x = true
    · obtain ⟨id, hid, hmem, hall⟩ := ih x
      refine ⟨id, ?_, List.mem_cons_of_mem best hmem, List.forall_mem_cons.2 ⟨?_, hall⟩⟩
      · rw [newer, if_pos hle, hid]
      · exact revisionLE_trans hle (hall x List.mem_cons_self)
    · obtain ⟨id, hid, hmem, hall⟩ := ih best
      have hbest := hall best List.mem_cons_self
      have hx : x.revisionLE id = true := revisionLE_trans (revisionLE_total best x hle) hbest
      refine ⟨id, ?_, ?_, ?_⟩
      · rw [newer, if_neg hle, hid]
      · rcases List.mem_cons.1 hmem with rfl | hmem
        · exact List.mem_cons_self
        · exact List.mem_cons_of_mem best (List.mem_cons_of_mem x hmem)
      · rw [List.forall_mem_cons, List.forall_mem_cons]
        exact ⟨hbest, hx, fun k hk => hall k (List.mem_cons_of_mem best hk)⟩

theorem newest?_spec (cs : List SourceId) (wanted : SourceId) :
    (newest? cs wanted = none ∧ ∀ k ∈ cs, ¬ k.satisfies wanted = true) ∨
      ∃ id, newest? cs wanted = some id ∧ IsNewest id cs wanted := by
  rw [newest?_eq_foldl]
  cases hks : cs.filter (·.satisfies wanted) with
  | nil => exact .inl ⟨rfl, List.filter_eq_nil_iff.1 hks⟩
  | cons x ks =>
    obtain ⟨id, hid, hmem, hall⟩ := exists_foldl_newer ks x
    rw [← hks] at hmem hall
    have hin := List.mem_filter.1 hmem
    exact .inr ⟨id, hid, hin.1, hin.2, fun k hk hsat => hall k (List.mem_filter.2 ⟨hk, hsat⟩)⟩

theorem newest?_eq_some_iff : newest? cs wanted = some id ↔ IsNewest id cs wanted := by
  rcases newest?_spec cs wanted with ⟨hnone, hall⟩ | ⟨best, hbest, hnew⟩
  · rw [hnone]
    exact ⟨(fun h => nomatch h), fun h => absurd h.satisfies (hall id h.mem)⟩
  · rw [hbest]
    exact ⟨fun h => Option.some.inj h ▸ hnew, fun h => congrArg some (hnew.unique h)⟩

theorem newest?_eq_none_iff :
    newest? cs wanted = none ↔ ∀ k ∈ cs, ¬ k.satisfies wanted = true := by
  rcases newest?_spec cs wanted with ⟨hnone, hall⟩ | ⟨best, hbest, hnew⟩
  · exact ⟨fun _ => hall, fun _ => hnone⟩
  · rw [hbest]
    exact ⟨(fun h => nomatch h), fun h => absurd hnew.satisfies (h best hnew.mem)⟩

end SourceId

namespace SourceLibrary

variable {l l' : SourceLibrary} {id wanted : SourceId} {text : String}

/-- The text kept under an identifier. -/
def text? (l : SourceLibrary) (id : SourceId) : Option String := Keyed.find? l.texts id

theorem text?_register (l : SourceLibrary) (s : Source) (id : SourceId) :
    (l.register s).1.text? id =
      if id = s.id then some ((l.text? id).getD s.text) else l.text? id := by
  unfold register text?
  split
  · rename_i text h
    dsimp only
    split
    · rename_i heq
      rw [heq, h]
      rfl
    · rfl
  · rename_i h
    dsimp only
    rw [Keyed.find?_insert]
    split
    · rename_i heq
      rw [heq, h]
      rfl
    · rfl

theorem lookup?_eq_some {s : Source} (h : l.lookup? wanted = some s) :
    l.text? s.id = some s.text ∧ SourceId.IsNewest s.id (l.texts.map (·.1)) wanted := by
  unfold lookup? at h
  obtain ⟨id, hid, h⟩ := Option.bind_eq_some_iff.1 h
  obtain ⟨text, htext, h⟩ := Option.bind_eq_some_iff.1 h
  cases h
  exact ⟨htext, SourceId.newest?_eq_some_iff.1 hid⟩

theorem lookup?_of_isNewest {s : Source} (htext : l.text? s.id = some s.text)
    (h : SourceId.IsNewest s.id (l.texts.map (·.1)) wanted) : l.lookup? wanted = some s := by
  have htext : Keyed.find? l.texts s.id = some s.text := htext
  simp [lookup?, SourceId.newest?_eq_some_iff.2 h, htext]

theorem mem_keys (h : l.text? id = some text) : id ∈ l.texts.map (·.1) :=
  List.mem_map_of_mem (Keyed.mem_of_find? h)

/-- Nothing in the library satisfies a request that it does not answer. -/
theorem not_satisfies_of_lookup? (h : l.lookup? wanted = none) (ht : l.text? id = some text) :
    ¬ id.satisfies wanted = true := by
  unfold lookup? at h
  cases hnew : SourceId.newest? (l.texts.map (·.1)) wanted with
  | none => exact SourceId.newest?_eq_none_iff.1 hnew id (mem_keys ht)
  | some best =>
    obtain ⟨text, htext⟩ :=
      Keyed.exists_find?_of_mem (SourceId.newest?_eq_some_iff.1 hnew).mem
    rw [hnew] at h
    simp [htext] at h

/-- A look-up tells only of the texts whose identifiers satisfy it. -/
theorem lookup?_congr (h : ∀ id, id.satisfies wanted = true → l.text? id = l'.text? id) :
    l.lookup? wanted = l'.lookup? wanted := by
  have himp : ∀ {l l' : SourceLibrary} {s : Source},
      (∀ id, id.satisfies wanted = true → l.text? id = l'.text? id) →
      l.lookup? wanted = some s → l'.lookup? wanted = some s := by
    intro l l' s heq hs
    obtain ⟨htext, hnewest⟩ := lookup?_eq_some hs
    rw [heq s.id hnewest.satisfies] at htext
    refine lookup?_of_isNewest htext ⟨mem_keys htext, hnewest.satisfies, fun k hk hsat => ?_⟩
    obtain ⟨text, hk⟩ := Keyed.exists_find?_of_mem hk
    have hk : l.text? k = some text := (heq k hsat).trans hk
    exact hnewest.le k (mem_keys hk) hsat
  refine Option.ext fun s => ⟨himp h, himp fun id hid => (h id hid).symm⟩

/-- `l'` has every text of `l`, and perhaps more. -/
def Extends (l l' : SourceLibrary) : Prop :=
  ∀ id text, l.text? id = some text → l'.text? id = some text

theorem Extends.refl (l : SourceLibrary) : l.Extends l := fun _ _ h => h

theorem Extends.trans {l₁ l₂ l₃ : SourceLibrary} (h : l₁.Extends l₂) (k : l₂.Extends l₃) :
    l₁.Extends l₃ :=
  fun id text ht => k id text (h id text ht)

theorem extends_register (l : SourceLibrary) (s : Source) : l.Extends (l.register s).1 := by
  intro id text h
  rw [text?_register]
  split
  · rw [h]
    rfl
  · exact h

end SourceLibrary

end MountRegistry
