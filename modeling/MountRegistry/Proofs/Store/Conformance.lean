import MountRegistry.Proofs.Keyed
import MountRegistry.Proofs.Store.Commit
import MountRegistry.Proofs.Store.Traffic

/-
  The tree of a store has at its top what its schema has, and nothing else. A preparation looks at
  the edits only, not at the tree that they make; but an edit that passes takes a tree that conforms
  to one that conforms (`conformsTo_apply`), whatever the tree is. So what was checked for the tree
  of the preparation is as good for the tree on which a commit makes the edits anew.
-/

namespace MountRegistry

namespace Json

/-- The tree is an object, and all its members are data nodes of the schema. -/
def ConformsTo (model : Yang.Model) (tree : Json) : Prop :=
  ∃ members, tree = .object members ∧ ∀ e ∈ members, model.hasDataNode e.1 = true

variable {model : Yang.Model}

theorem conformsTo_object {members : List (String × Json)} :
    (object members).ConformsTo model ↔ ∀ e ∈ members, model.hasDataNode e.1 = true := by
  constructor
  · rintro ⟨ms, heq, hms⟩
    cases heq
    exact hms
  · intro h
    exact ⟨members, rfl, h⟩

theorem conformsTo_emptyObject : emptyObject.ConformsTo model :=
  conformsTo_object.2 fun _ he => absurd he List.not_mem_nil

theorem ConformsTo.insert {members : List (String × Json)}
    (h : (object members).ConformsTo model) {k : String} (hk : model.hasDataNode k = true)
    (child : Json) : (object (Keyed.insert members k child)).ConformsTo model := by
  rw [conformsTo_object] at h ⊢
  intro e he
  rcases Keyed.mem_insert he with rfl | he
  · exact hk
  · exact h e he

theorem ConformsTo.erase {members : List (String × Json)} (h : (object members).ConformsTo model)
    (k : String) : (object (Keyed.erase members k)).ConformsTo model := by
  rw [conformsTo_object] at h ⊢
  exact fun e he => h e (List.mem_filter.1 he).1

/-- A member that is there already has a name that the schema has. -/
theorem ConformsTo.hasDataNode {members : List (String × Json)}
    (h : (object members).ConformsTo model) {k : String} {child : Json}
    (hk : Keyed.find? members k = some child) : model.hasDataNode k = true :=
  conformsTo_object.1 h (k, child) (Keyed.mem_of_find? hk)

theorem ConformsTo.mergeMembers {existing members : List (String × Json)}
    (ho : (object existing).ConformsTo model) (hn : (object members).ConformsTo model) :
    (object (Json.mergeMembers existing members)).ConformsTo model := by
  induction members generalizing existing with
  | nil => exact ho
  | cons e rest ih =>
    obtain ⟨key, new⟩ := e
    obtain ⟨hkey, hrest⟩ := List.forall_mem_cons.1 (conformsTo_object.1 hn)
    rw [Json.mergeMembers]
    exact ih (ho.insert hkey _) (conformsTo_object.2 hrest)

theorem ConformsTo.merge {old new : Json} (ho : old.ConformsTo model)
    (hn : new.ConformsTo model) : (old.merge new).ConformsTo model := by
  obtain ⟨existing, rfl, _⟩ := id ho
  obtain ⟨members, rfl, _⟩ := id hn
  rw [Json.merge]
  exact ho.mergeMembers hn

/-! ## Writing below the root -/

theorem ConformsTo.update? {f : Json → Json} {s : String} {p : List String} {j j' : Json}
    (h : j.ConformsTo model) (hs : model.hasDataNode s = true)
    (hj : update? f (s :: p) j = some j') : j'.ConformsTo model := by
  obtain ⟨members, child, rfl, _, rfl⟩ := update?_cons_eq_some hj
  exact h.insert hs child

theorem ConformsTo.remove? {s : String} {p : List String} {j j' : Json}
    (h : j.ConformsTo model) (hj : remove? (s :: p) j = some j') : j'.ConformsTo model := by
  by_cases hp : p = []
  · subst hp
    obtain ⟨members, rfl, rfl⟩ := remove?_singleton_eq_some hj
    exact h.erase s
  · obtain ⟨members, rfl, ⟨child, child', hc, _, rfl⟩ | ⟨_, rfl⟩⟩ := remove?_cons_eq_some hp hj
    · exact h.insert (h.hasDataNode hc) child'
    · exact h

end Json

namespace Store

variable {model : Yang.Model}

/-! ## Edits that pass the schema -/

/-- A write of an object at the root is allowed if all its keys are. -/
theorem validateRoot_eq_ok_iff {path : DataPath} {members : List (String × Json)} :
    validateRoot model path (.object members) = .ok () ↔
      ∀ name ∈ members.map (·.1), model.hasDataNode name = true := by
  rw [validateRoot]
  cases h : members.find? fun m => !model.hasDataNode m.1 with
  | none =>
    rw [List.find?_eq_none] at h
    simpa using h
  | some m =>
    have hm := List.find?_some h
    have hin := List.mem_of_find?_eq_some h
    constructor
    · intro hok
      cases hok
    · intro hall
      rw [hall m.1 (List.mem_map_of_mem hin)] at hm
      contradiction

theorem conformsTo_of_validateRoot {path : DataPath} {value : Json}
    (h : validateRoot model path value = .ok ()) : value.ConformsTo model := by
  cases value with
  | object members =>
    rw [Json.conformsTo_object]
    exact List.forall_mem_map.1 (validateRoot_eq_ok_iff.1 h)
  | _ => cases h

/-- An edit below the root is allowed if the data node that it is made in is there. -/
theorem validateEdit_eq_ok_iff {e : Edit} {top : String} {rest : List String}
    (hp : e.path.segments = top :: rest) :
    validateEdit model e = .ok () ↔ model.hasDataNode top = true := by
  unfold validateEdit DataPath.top?
  rw [hp, List.head?_cons]
  dsimp only
  split
  · rename_i htop
    exact ⟨fun _ => htop, fun _ => rfl⟩
  · rename_i htop
    exact ⟨(fun hok => nomatch hok), fun hok => absurd hok htop⟩

theorem conformsTo_apply {e : Edit} {t t' : Json} (hv : validateEdit model e = .ok ())
    (ht : t.ConformsTo model) (h : e.apply t = .ok t') : t'.ConformsTo model := by
  rw [Edit.apply_eq_ok_iff] at h
  cases e with
  | put path value =>
    obtain ⟨segments⟩ := path
    cases segments with
    | nil =>
      obtain rfl : value = t' := by cases t <;> exact Option.some.inj h
      exact conformsTo_of_validateRoot hv
    | cons top rest => exact ht.update? ((validateEdit_eq_ok_iff rfl).1 hv) h
  | merge path value =>
    obtain ⟨segments⟩ := path
    cases segments with
    | nil =>
      obtain rfl : t.merge value = t' := by cases t <;> exact Option.some.inj h
      exact ht.merge (conformsTo_of_validateRoot hv)
    | cons top rest => exact ht.update? ((validateEdit_eq_ok_iff rfl).1 hv) h
  | delete path =>
    obtain ⟨segments⟩ := path
    cases segments with
    | nil =>
      obtain rfl : Json.emptyObject = t' := by cases t <;> exact Option.some.inj h
      exact Json.conformsTo_emptyObject
    | cons top rest => exact ht.remove? h

theorem validate_cons_eq_ok {e : Edit} {es : List Edit} :
    validate model (e :: es) = .ok () ↔
      validateEdit model e = .ok () ∧ validate model es = .ok () := by
  change (validateEdit model e >>= fun _ => validate model es) = .ok () ↔ _
  rw [Outcome.bind_eq_ok]
  constructor
  · rintro ⟨_, he, hes⟩
    exact ⟨he, hes⟩
  · rintro ⟨he, hes⟩
    exact ⟨(), he, hes⟩

theorem conformsTo_applyAll {es : List Edit} {t t' : Json} (hv : validate model es = .ok ())
    (ht : t.ConformsTo model) (h : Edit.applyAll t es = .ok t') : t'.ConformsTo model := by
  induction es generalizing t with
  | nil => exact Except.ok.inj h ▸ ht
  | cons e es ih =>
    obtain ⟨hve, hves⟩ := validate_cons_eq_ok.1 hv
    obtain ⟨u, hu, hes⟩ := Edit.applyAll_cons_eq_ok.1 h
    exact ih hves (conformsTo_apply hve ht hu) hes

/-! ## Cohorts -/

/-- What the cohort prepared passed the schema and conforms to it. -/
def Checked (model : Yang.Model) (c : Cohort) : Prop :=
  ∀ p, c.prepared = some p → validate model c.edits = .ok () ∧ p.tree.ConformsTo model

theorem checked_release (model : Yang.Model) (c : Cohort) : Checked model c.release :=
  fun p hp => by cases hp

theorem checked_prepare {s : Store} {c c' : Cohort} (ht : s.tree.ConformsTo s.model)
    (h : c.prepare s = .ok c') : Checked s.model c' := by
  obtain ⟨p, hp, rfl⟩ := Cohort.prepare_eq_ok h
  obtain ⟨_, happlied, hvalid, _⟩ := prepare_eq_ok hp
  intro q hq
  cases hq
  exact ⟨hvalid, conformsTo_applyAll hvalid ht happlied⟩

/-- The prepared tree conforms, and so does the one that is made anew. -/
theorem Checked.commit {s s' : Store} {c : Cohort} (hc : Checked s.model c)
    (ht : s.tree.ConformsTo s.model) (h : c.commit s = .ok s') :
    s'.model = s.model ∧ s'.tree.ConformsTo s.model := by
  obtain ⟨p, hp, htree, hto⟩ := Cohort.commit_eq_ok h
  obtain ⟨hvalid, hprepared⟩ := hc p hp
  refine ⟨hto.model, ?_⟩
  rcases committedTree_eq_ok htree with ⟨_, heq⟩ | ⟨_, _, hanew⟩
  · exact heq ▸ hprepared
  · exact conformsTo_applyAll hvalid ht hanew

/-! ## Runs -/

namespace Traffic

/-- The store keeps its schema and conforms to it, and so does all that is prepared. -/
structure Conforming (s : Traffic) (model : Yang.Model) : Prop where
  schema : s.store.model = model
  tree : s.store.tree.ConformsTo model
  checked : ∀ i d c, s.party? i = some (.committing d c) → Checked model c

variable {s t : Traffic}

theorem conforming_start (name : String) (kind : StoreKind) (model : Yang.Model) (capacity : Nat) :
    (start (Store.create name kind model capacity)).Conforming model where
  schema := rfl
  tree := Json.conformsTo_emptyObject
  checked := fun _ _ _ h => by cases h

theorem Conforming.setParty (h : s.Conforming model) (i : Nat) {p : Party}
    (hp : ∀ d c, p = .committing d c → Checked model c) : (s.setParty i p).Conforming model where
  schema := h.schema
  tree := h.tree
  checked := by
    intro j d c hj
    rw [setParty_party?] at hj
    split at hj
    · exact hp d c (Option.some.inj hj)
    · exact h.checked j d c hj

theorem Conforming.effect (h : s.Conforming model) {m : Move} {a : Answer} (he : Effect s m a t) :
    t.Conforming model := by
  -- a party that is drafting has prepared nothing
  have drafting : ∀ (d : StoreDraft) d' (c : Cohort),
      Party.drafting d = .committing d' c → Checked model c := fun _ _ _ heq => by cases heq
  have unprepared : ∀ (d : StoreDraft) (c : Cohort), Checked model c → ∀ d' c',
      Party.committing d c = .committing d' c' → Checked model c' := by
    intro d c hc d' c' heq
    cases heq
    exact hc
  cases he with
  | idle => exact ⟨h.schema, h.tree, h.checked⟩
  | opened i free => exact h.setParty i (drafting _)
  | staged i e d d' party stage => exact h.setParty i (drafting _)
  | shut i d party => exact h.setParty i (unprepared _ _ fun p hp => by cases hp)
  | prepared i d c c' party prepare =>
    obtain rfl := h.schema
    exact h.setParty i (unprepared _ _ (checked_prepare h.tree prepare))
  | committed i d c store party commit =>
    have hreleased := h.setParty i (unprepared d _ (checked_release model c))
    obtain rfl := h.schema
    obtain ⟨hschema, hnext⟩ := (h.checked i d c party).commit h.tree commit
    exact ⟨hschema, hnext, hreleased.checked⟩
  | failed i d c e party commit => exact h.setParty i (unprepared _ _ (checked_release model c))
  | aborted i d c party => exact h.setParty i (unprepared _ _ (checked_release model c))

theorem Conforming.after (h : s.Conforming model) (ms : List Move) :
    (s.after ms).Conforming model := by
  induction ms generalizing s with
  | nil => exact h
  | cons m ms ih => exact ih (h.effect (effect_step s m))

/-- Whatever transactions stage, at whatever paths and in whatever spelling, and in whatever order
their cohorts vote, prepare, commit and abort: the tree is an object whose members are data nodes of
the schema, and so is every tree that is prepared. -/
theorem tree_conforms (name : String) (kind : StoreKind) (model : Yang.Model) (capacity : Nat)
    (ms : List Move) :
    let s := (start (Store.create name kind model capacity)).after ms
    (∃ members, s.store.tree = .object members ∧ ∀ e ∈ members, model.hasDataNode e.1 = true) ∧
      ∀ i d c p, s.party? i = some (.committing d c) → c.prepared = some p →
        ∃ members, p.tree = .object members ∧ ∀ e ∈ members, model.hasDataNode e.1 = true := by
  intro s
  have h : s.Conforming model := (conforming_start name kind model capacity).after ms
  exact ⟨h.tree, fun i d c p hi hp => (h.checked i d c hi p hp).2⟩

/-- The second commit makes its edits anew. A value for the root with a member that the schema does
not have can be staged, and gets no further. -/
example :
    let s := (start (Store.create "s" .configuration (schemaOf ["a", "b"]) 2)).after
      [.openDraft 0, .openDraft 1, .openDraft 2, .stage 0 (.put ⟨["m:a"]⟩ .null),
        .stage 1 (.merge ⟨["b", "x"]⟩ .null), .stage 2 (.put .root (.object [("c", .null)])),
        .sealDraft 0, .sealDraft 1, .sealDraft 2, .prepare 0, .prepare 1, .commit 0, .commit 1]
    s.store.tree = .object [("a", .null), ("b", .object [("x", .null)])] ∧
      (s.step (.vote 2)).2 = .failed
        (.validation "/" "c is not a top-level data node of the mount point schema") := ⟨rfl, rfl⟩

end Traffic

end Store

end MountRegistry
