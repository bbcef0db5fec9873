import MountRegistry.Proofs.Data.Merge
import MountRegistry.Proofs.Store.Commit
import MountRegistry.Proofs.Store.Conformance

/-
  Writing an object at the root, and writing its members one by one in the order of their keys. A
  put of the root is a delete of the root and a put of each member. A merge at the root is the merge
  of each member whose data node no later key spells again, so of all members if no two keys spell
  one node (`root_write_sum`). Of two spellings of one node the merge at the root drops the first
  with all that it holds (`earlier_spelling_dropped`), where the merges one by one keep both.
-/

namespace MountRegistry

open Store

variable {d d' : StoreDraft} {s s' : Store} {model : Yang.Model} {e : Edit}
  {ms members : List (String × Json)}

namespace Store

/-- The data node that a key spells; a key that spells none stands for itself. -/
def bare (model : Yang.Model) (key : String) : String := (model.canonical? key).getD key

/-- The members with their keys spelled bare. -/
def spelledBare (model : Yang.Model) (members : List (String × Json)) : List (String × Json) :=
  members.map fun m => (bare model m.1, m.2)

/-- The members whose data node no later key spells again. -/
def lastSpelled (model : Yang.Model) : List (String × Json) → List (String × Json)
  | [] => []
  | m :: rest =>
    if bare model m.1 ∈ rest.map (bare model ·.1) then lastSpelled model rest
    else m :: lastSpelled model rest

theorem canonicalPath_member (model : Yang.Model) (key : String) :
    canonicalPath model ⟨[key]⟩ = ⟨[bare model key]⟩ := by
  unfold canonicalPath bare
  dsimp only [DataPath.top?, List.head?_cons, Option.bind_some]
  cases model.canonical? key <;> rfl

theorem keys_spelledBare (model : Yang.Model) (members : List (String × Json)) :
    (spelledBare model members).map (·.1) = members.map (bare model ·.1) := by
  simp [spelledBare]

/-! ## Members spelled last -/

theorem mem_of_mem_lastSpelled {m : String × Json} (h : m ∈ lastSpelled model members) :
    m ∈ members := by
  induction members with
  | nil => exact h
  | cons x rest ih =>
    rw [lastSpelled] at h
    split at h
    · exact List.mem_cons_of_mem x (ih h)
    · rcases List.mem_cons.1 h with rfl | h
      · exact List.mem_cons_self
      · exact List.mem_cons_of_mem x (ih h)

/-- Every data node that is spelled is spelled last somewhere. -/
theorem mem_bare_lastSpelled {name : String} :
    name ∈ (lastSpelled model members).map (bare model ·.1) ↔
      name ∈ members.map (bare model ·.1) := by
  induction members with
  | nil => rfl
  | cons x rest ih =>
    rw [lastSpelled]
    split
    · rename_i hagain
      rw [ih, List.map_cons, List.mem_cons]
      exact ⟨.inr, fun h => h.elim (fun heq => heq ▸ hagain) id⟩
    · rw [List.map_cons, List.map_cons, List.mem_cons, List.mem_cons, ih]

theorem nodup_lastSpelled (model : Yang.Model) (members : List (String × Json)) :
    ((lastSpelled model members).map (bare model ·.1)).Nodup := by
  induction members with
  | nil => exact List.nodup_nil
  | cons x rest ih =>
    rw [lastSpelled]
    split
    · exact ih
    · rename_i hnew
      exact List.nodup_cons.2 ⟨fun h => hnew (mem_bare_lastSpelled.1 h), ih⟩

theorem lastSpelled_eq_self (h : (members.map (bare model ·.1)).Nodup) :
    lastSpelled model members = members := by
  induction members with
  | nil => rfl
  | cons x rest ih =>
    obtain ⟨hnew, hrest⟩ := List.nodup_cons.1 h
    rw [lastSpelled, if_neg hnew, ih hrest]

/-- The members spelled last are those that count when keys become one. -/
theorem find?_lastSpelled (model : Yang.Model) (members : List (String × Json)) (k : String) :
    Keyed.find? (spelledBare model (lastSpelled model members)) k =
      Keyed.find? (Keyed.ofList (spelledBare model members)) k := by
  rw [Keyed.find?_ofList]
  induction members with
  | nil => rfl
  | cons x rest ih =>
    have hsplit : Keyed.find? (spelledBare model (x :: rest)).reverse k =
        (Keyed.find? (spelledBare model rest).reverse k).or
          (if k = bare model x.1 then some x.2 else none) := by
      rw [spelledBare, List.map_cons, List.reverse_cons, Keyed.find?_append]
      rfl
    rw [hsplit, lastSpelled]
    split
    · rename_i hagain
      rw [ih]
      by_cases hk : k = bare model x.1
      · -- a later member is read at this key
        rw [← keys_spelledBare, ← List.mem_reverse, ← List.map_reverse, ← hk] at hagain
        obtain ⟨v, hv⟩ := Keyed.exists_find?_of_mem hagain
        rw [hv, Option.some_or]
      · rw [if_neg hk, Option.or_none]
    · rename_i hnew
      rw [spelledBare, List.map_cons, Keyed.find?]
      by_cases hk : k = bare model x.1
      · rw [← keys_spelledBare, ← List.mem_reverse, ← List.map_reverse, ← hk] at hnew
        rw [if_pos hk, if_pos hk, Keyed.find?_eq_none_of_not_mem hnew, Option.none_or]
      · rw [if_neg hk, if_neg hk, Option.or_none]
        exact ih

/-- Members that become one when their keys are spelled bare count as their last one does. -/
theorem mergeMembers_lastSpelled (model : Yang.Model) (hms : (Json.object ms).Canonical)
    (hv : (Json.object members).Canonical) :
    Json.mergeMembers ms (Keyed.ofList (spelledBare model members)) =
      Json.mergeMembers ms (spelledBare model (lastSpelled model members)) := by
  have hall := (Json.canonical_object.1 hv).2
  have hwhole : (Json.object (Keyed.ofList (spelledBare model members))).Canonical :=
    canonical_canonicalRoot model hv
  have hparts : ∀ m ∈ spelledBare model (lastSpelled model members), m.2.Canonical := by
    intro m hm
    obtain ⟨x, hx, rfl⟩ := List.mem_map.1 hm
    exact hall x (mem_of_mem_lastSpelled hx)
  have hnodup : ((spelledBare model (lastSpelled model members)).map (·.1)).Nodup := by
    rw [keys_spelledBare]
    exact nodup_lastSpelled model members
  have hl := Json.Canonical.mergeMembers hms (Json.canonical_object.1 hwhole).2
  have hr := Json.Canonical.mergeMembers hms hparts
  refine (Json.canonical_object.1 hl).1.ext (Json.canonical_object.1 hr).1 fun k => ?_
  rw [Json.find?_mergeMembers (Keyed.Ascending.ofList _).nodup, Json.find?_mergeMembers hnodup,
    find?_lastSpelled]

/-! ## What the schema says -/

theorem validate_eq_ok_iff {es : List Edit} :
    validate model es = .ok () ↔ ∀ e ∈ es, validateEdit model e = .ok () := by
  induction es with
  | nil => exact ⟨fun _ _ he => (nomatch he), fun _ => rfl⟩
  | cons e es ih => rw [validate_cons_eq_ok, ih, List.forall_mem_cons]

theorem validate_append_eq_ok {es fs : List Edit} :
    validate model (es ++ fs) = .ok () ↔
      validate model es = .ok () ∧ validate model fs = .ok () := by
  rw [validate_eq_ok_iff, validate_eq_ok_iff, validate_eq_ok_iff, List.forall_mem_append]

/-! ## Committing alone -/

/-- Seals a draft and commits it, with nothing in between. -/
def committedAlone (s : Store) (d : StoreDraft) : Except StoreFailure Store := do
  let c := d.toCohort s.name
  if ← c.vote s then
    let c ← c.prepare s
    c.commit s
  else .error (.rejected s.name)

end Store

namespace StoreDraft

/-- A draft of the store as it is. -/
structure Current (s : Store) (d : StoreDraft) : Prop where
  model : d.model = s.model
  base : d.base = s.version
  replays : Edit.applyAll s.tree d.edits = .ok d.working

theorem current_openDraft (s : Store) : s.openDraft.Current s := ⟨rfl, rfl, rfl⟩

theorem Current.stage (h : d.Current s) (hd : d.stage e = .ok d') : d'.Current s := by
  have hreplays := applyAll_stage hd h.replays
  obtain ⟨working, _, rfl⟩ := stage_eq_ok hd
  exact ⟨h.model, h.base, hreplays⟩

theorem Current.stageAll {es : List Edit} (h : d.Current s)
    (hd : es.foldlM StoreDraft.stage d = .ok d') : d'.Current s := by
  induction es generalizing d with
  | nil => exact Except.ok.inj hd ▸ h
  | cons e es ih =>
    obtain ⟨d₁, h₁, hrest⟩ := Outcome.foldlM_cons_eq_ok.1 hd
    exact ih (h.stage h₁) hrest

theorem Current.conflict? (h : d.Current s) (paths : List DataPath) :
    s.conflict? d.base paths = none := by
  unfold Store.conflict?
  rw [if_pos h.base.symm]

/-- Committed alone, a draft is refused by the schema only. -/
theorem Current.exists_committedAlone_iff (h : d.Current s) :
    (∃ s', s.committedAlone d = .ok s') ↔ validate s.model d.edits = .ok () := by
  unfold committedAlone
  constructor
  · rintro ⟨s', hs'⟩
    obtain ⟨vote, hvote, _⟩ := Outcome.bind_eq_ok.1 hs'
    obtain ⟨_, hvalid, _⟩ := Outcome.bind_eq_ok.1 hvote
    exact hvalid
  · intro hvalid
    have hvote := vote_of_conflict? (h.conflict? _) hvalid
    have hprepare := prepare_of_conflict? (h.conflict? _) h.replays hvalid
    refine Exists.imp (fun s' hs' => ?_)
      (Cohort.commit_of_version_eq (s := s) (p := ⟨d.working, s.version⟩)
        (c := { d.toCohort s.name with prepared := some ⟨d.working, s.version⟩ }) rfl rfl)
    refine Outcome.bind_eq_ok.2 ⟨true, hvote, Outcome.bind_eq_ok.2 ⟨_, ?_, hs'⟩⟩
    exact Outcome.bind_eq_ok.2 ⟨_, hprepare, rfl⟩

/-- If it is not refused, its copy becomes the tree of the store. -/
theorem Current.tree_committedAlone (h : d.Current s) (hs : s.committedAlone d = .ok s') :
    s'.tree = d.working := by
  unfold committedAlone at hs
  obtain ⟨vote, _, hs⟩ := Outcome.bind_eq_ok.1 hs
  cases vote with
  | false => cases hs
  | true =>
    obtain ⟨c, hc, hs⟩ := Outcome.bind_eq_ok.1 hs
    obtain ⟨p, hp, rfl⟩ := Cohort.prepare_eq_ok hc
    obtain ⟨_, htree, _, hversion⟩ := prepare_eq_ok hp
    obtain ⟨q, hq, hcommitted, _⟩ := Cohort.commit_eq_ok hs
    cases hq
    have hworking : d.working = p.tree := Except.ok.inj (h.replays.symm.trans htree)
    rcases committedTree_eq_ok hcommitted with ⟨_, hsame⟩ | ⟨hne, _⟩
    · rw [hsame, hworking]
    · exact absurd hversion.symm hne

/-! ## Members one by one -/

/-- The draft with another copy and more edits staged. -/
def grown (d : StoreDraft) (working : Json) (es : List Edit) : StoreDraft :=
  { d with working, edits := d.edits ++ es }

@[simp] theorem grown_model (d : StoreDraft) (j : Json) (es : List Edit) :
    (d.grown j es).model = d.model := rfl

theorem grown_grown (d : StoreDraft) (j k : Json) (es fs : List Edit) :
    (d.grown j es).grown k fs = d.grown k (es ++ fs) :=
  congrArg (StoreDraft.mk d.model d.base k) (List.append_assoc d.edits es fs)

theorem grown_nil (d : StoreDraft) : d.grown d.working [] = d :=
  congrArg (StoreDraft.mk d.model d.base d.working) (List.append_nil d.edits)

/-- Staging a write for each member changes the members of the copy one by one, if one such write
changes them by `f`. -/
theorem stage_members (write : DataPath → Json → Edit)
    (f : List (String × Json) → String × Json → List (String × Json))
    (hstep : ∀ m ∈ members, ∀ (d : StoreDraft) ms, d.working = .object ms →
      d.stage (write ⟨[m.1]⟩ m.2) =
        .ok (d.grown (.object (f ms (bare d.model m.1, m.2))) [write ⟨[bare d.model m.1]⟩ m.2]))
    (hd : d.working = .object ms) :
    (members.map fun m => write ⟨[m.1]⟩ m.2).foldlM stage d =
      .ok (d.grown (.object ((spelledBare d.model members).foldl f ms))
        ((spelledBare d.model members).map fun m => write ⟨[m.1]⟩ m.2)) := by
  induction members generalizing d ms with
  | nil => exact congrArg Except.ok (hd ▸ d.grown_nil).symm
  | cons m rest ih =>
    have hm := hstep m List.mem_cons_self d ms hd
    have hrest := ih (fun x hx => hstep x (List.mem_cons_of_mem m hx))
      (d := d.grown (.object (f ms (bare d.model m.1, m.2))) [write ⟨[bare d.model m.1]⟩ m.2]) rfl
    rw [grown_grown, grown_model] at hrest
    exact Outcome.foldlM_cons_eq_ok.2 ⟨_, hm, hrest⟩

theorem stage_put_member (m : String × Json) (hd : d.working = .object ms) :
    d.stage (.put ⟨[m.1]⟩ m.2) =
      .ok (d.grown (.object (Keyed.insert ms (bare d.model m.1) m.2))
        [.put ⟨[bare d.model m.1]⟩ m.2]) := by
  have hedit : canonicalEdit d.model (.put ⟨[m.1]⟩ m.2) = .put ⟨[bare d.model m.1]⟩ m.2 := by
    rw [← canonicalPath_member]
    rfl
  unfold stage
  dsimp only
  rw [hedit, hd]
  cases Keyed.find? ms (bare d.model m.1) <;> rfl

theorem stage_merge_member (m : String × Json) (hm : m.2.Canonical) (hd : d.working = .object ms) :
    d.stage (.merge ⟨[m.1]⟩ m.2) =
      .ok (d.grown (.object (Json.mergeMembers ms [(bare d.model m.1, m.2)]))
        [.merge ⟨[bare d.model m.1]⟩ m.2]) := by
  have hedit : canonicalEdit d.model (.merge ⟨[m.1]⟩ m.2) = .merge ⟨[bare d.model m.1]⟩ m.2 := by
    rw [← canonicalPath_member]
    rfl
  have happly : (Edit.merge ⟨[bare d.model m.1]⟩ m.2).apply (.object ms) =
      .ok (.object (Json.mergeMembers ms [(bare d.model m.1, m.2)])) := by
    rw [Edit.apply_eq_ok_iff]
    simp only [Edit.applied?, Json.merge?, Json.update?, Json.mergeMembers, Option.map_some]
    cases Keyed.find? ms (bare d.model m.1) with
    | some old => rfl
    | none => rw [Option.getD_none, Json.merge_emptyObject hm]
  unfold stage
  dsimp only
  rw [hedit, hd, happly]
  rfl

/-! ## Writing the root -/

/-- Two lists of calls on a draft come to the same: they leave the same copy, and committed alone
they are both refused or make the same tree. -/
def SameWrite (d : StoreDraft) (es fs : List Edit) : Prop :=
  ∃ whole parts, es.foldlM stage d = .ok whole ∧ fs.foldlM stage d = .ok parts ∧
    whole.working = parts.working ∧ ∀ s, d.Current s →
      ((∃ s', s.committedAlone whole = .ok s') ↔ ∃ s', s.committedAlone parts = .ok s') ∧
      ∀ s₁ s₂, s.committedAlone whole = .ok s₁ → s.committedAlone parts = .ok s₂ →
        s₁.tree = s₂.tree

theorem sameWrite_of_stage {whole parts : StoreDraft} {es fs : List Edit}
    (hes : es.foldlM stage d = .ok whole) (hfs : fs.foldlM stage d = .ok parts)
    (hworking : whole.working = parts.working)
    (hvalid : validate d.model whole.edits = .ok () ↔ validate d.model parts.edits = .ok ()) :
    d.SameWrite es fs := by
  refine ⟨whole, parts, hes, hfs, hworking, fun s hd => ⟨?_, fun s₁ s₂ h₁ h₂ => ?_⟩⟩
  · rw [(hd.stageAll hes).exists_committedAlone_iff, (hd.stageAll hfs).exists_committedAlone_iff,
      ← hd.model]
    exact hvalid
  · rw [(hd.stageAll hes).tree_committedAlone h₁, (hd.stageAll hfs).tree_committedAlone h₂,
      hworking]

/-- An object written at the root is allowed if writes of its members would be. -/
theorem validate_root_iff (model : Yang.Model) (edits : List Edit) (write : DataPath → Json → Edit)
    {names : List (String × Json)}
    (he : validateEdit model e = validateRoot model .root (.object ms))
    (hwrite : ∀ path v, (write path v).path = path)
    (hnames : ∀ name, name ∈ ms.map (·.1) ↔ name ∈ names.map (·.1)) :
    validate model (edits ++ [e]) = .ok () ↔
      validate model (edits ++ names.map fun m => write ⟨[m.1]⟩ m.2) = .ok () := by
  rw [validate_append_eq_ok, validate_append_eq_ok, validate_eq_ok_iff, validate_eq_ok_iff,
    validate_eq_ok_iff, List.forall_mem_singleton, he, validateRoot_eq_ok_iff]
  have hmember : ∀ m : String × Json,
      validateEdit model (write ⟨[m.1]⟩ m.2) = .ok () ↔ model.hasDataNode m.1 = true :=
    fun m => validateEdit_eq_ok_iff (by rw [hwrite])
  refine and_congr_right fun _ => ?_
  simp only [hnames, List.forall_mem_map, hmember]

theorem sameWrite_put_root (d : StoreDraft) (members : List (String × Json)) :
    d.SameWrite [.put .root (.object members)]
      (.delete .root :: members.map fun m => .put ⟨[m.1]⟩ m.2) := by
  have hwhole : d.stage (.put .root (.object members)) =
      .ok (d.grown (.object (Keyed.ofList (spelledBare d.model members)))
        [.put .root (.object (Keyed.ofList (spelledBare d.model members)))]) := rfl
  have hdelete : d.stage (.delete .root) = .ok (d.grown (.object []) [.delete .root]) := rfl
  have hputs := stage_members .put (fun ms m => Keyed.insert ms m.1 m.2)
    (fun m (_ : m ∈ members) _ _ hd => stage_put_member m hd)
    (d := d.grown (.object []) [.delete .root]) rfl
  rw [grown_grown, grown_model] at hputs
  refine sameWrite_of_stage (Outcome.foldlM_cons_eq_ok.2 ⟨_, hwhole, rfl⟩)
    (Outcome.foldlM_cons_eq_ok.2 ⟨_, hdelete, hputs⟩) rfl ?_
  have hallowed := validate_root_iff d.model d.edits .put
    (e := .put .root (.object (Keyed.ofList (spelledBare d.model members)))) rfl
    (fun _ _ => rfl) fun _ => Keyed.mem_keys_ofList
  refine hallowed.trans ?_
  show _ ↔ validate d.model (d.edits ++ ([.delete .root] ++ _)) = .ok ()
  have hdeletes : validate d.model [.delete .root] = .ok () := rfl
  rw [validate_append_eq_ok, validate_append_eq_ok, validate_append_eq_ok, and_iff_right hdeletes]

theorem sameWrite_merge_root (hd : d.working = .object ms) (hms : d.working.Canonical)
    (hv : (Json.object members).Canonical) :
    d.SameWrite [.merge .root (.object members)]
      ((lastSpelled d.model members).map fun m => .merge ⟨[m.1]⟩ m.2) := by
  have hmerged : d.working.merge (.object (Keyed.ofList (spelledBare d.model members))) =
      .object (Json.mergeMembers ms (Keyed.ofList (spelledBare d.model members))) := by
    rw [hd]
    rfl
  have hwhole : d.stage (.merge .root (.object members)) =
      .ok (d.grown (d.working.merge (.object (Keyed.ofList (spelledBare d.model members))))
        [.merge .root (.object (Keyed.ofList (spelledBare d.model members)))]) := rfl
  have hall := (Json.canonical_object.1 hv).2
  have hmerges := stage_members .merge (fun ms m => Json.mergeMembers ms [m])
    (fun m (hm : m ∈ lastSpelled d.model members) _ _ hd =>
      stage_merge_member m (hall m (mem_of_mem_lastSpelled hm)) hd) hd
  refine sameWrite_of_stage (Outcome.foldlM_cons_eq_ok.2 ⟨_, hwhole, rfl⟩) hmerges ?_ ?_
  · show d.working.merge _ = .object (List.foldl _ _ _)
    rw [hmerged, Json.foldl_mergeMembers, mergeMembers_lastSpelled d.model (hd ▸ hms) hv]
  · refine validate_root_iff d.model d.edits .merge rfl (fun _ _ => rfl) fun name => ?_
    rw [Keyed.mem_keys_ofList, keys_spelledBare, keys_spelledBare, mem_bare_lastSpelled]

/-- Writing an object at the root of an object. Putting it is deleting the root and putting each
member, in the order of the keys. Merging it is merging, in the order of the keys, each member whose
data node no later key spells again; so it is merging each member if no two keys spell one node. -/
theorem root_write_sum (hd : d.working = .object ms) (hms : d.working.Canonical)
    (hv : (Json.object members).Canonical) :
    d.SameWrite [.put .root (.object members)]
      (.delete .root :: members.map fun m => .put ⟨[m.1]⟩ m.2) ∧
    d.SameWrite [.merge .root (.object members)]
      ((lastSpelled d.model members).map fun m => .merge ⟨[m.1]⟩ m.2) ∧
    ((members.map (bare d.model ·.1)).Nodup →
      d.SameWrite [.merge .root (.object members)]
        (members.map fun m => .merge ⟨[m.1]⟩ m.2)) := by
  have hmerge := sameWrite_merge_root hd hms hv
  refine ⟨sameWrite_put_root d members, hmerge, fun hnodup => ?_⟩
  rw [lastSpelled_eq_self hnodup] at hmerge
  exact hmerge

/-- A store of a module `m` with the data nodes `a` and `b`, with a leaf at `/a/x`. -/
def twoNodeStore : Store :=
  { Store.create "s" .configuration
      ⟨[(⟨"m", none⟩, ⟨"m", "urn:m", "m", none, [], ["a", "b"]⟩)], [], []⟩
    with tree := .object [("a", .object [("x", .null)])] }

theorem root_write_sum_two_nodes :
    let d := twoNodeStore.openDraft
    let v : List (String × Json) := [("b", .null), ("m:a", .object [("y", .null)])]
    d.Current twoNodeStore ∧ d.working = .object [("a", .object [("x", .null)])] ∧
      d.working.Canonical ∧ (Json.object v).Canonical ∧ (v.map (bare d.model ·.1)).Nodup ∧
      d.SameWrite [.put .root (.object v)]
        [.delete .root, .put ⟨["b"]⟩ .null, .put ⟨["m:a"]⟩ (.object [("y", .null)])] ∧
      d.SameWrite [.merge .root (.object v)]
        [.merge ⟨["b"]⟩ .null, .merge ⟨["m:a"]⟩ (.object [("y", .null)])] := by
  intro d v
  have hms : d.working.Canonical :=
    ⟨List.pairwise_singleton _ _, ⟨List.pairwise_singleton _ _, trivial, trivial⟩, trivial⟩
  have hv : (Json.object v).Canonical :=
    ⟨List.pairwise_pair.2 (by decide), trivial,
      ⟨List.pairwise_singleton _ _, trivial, trivial⟩, trivial⟩
  have hnodup : (v.map (bare d.model ·.1)).Nodup := by decide
  obtain ⟨hput, _, hmerge⟩ := root_write_sum rfl hms hv
  exact ⟨current_openDraft twoNodeStore, rfl, hms, hv, hnodup, hput, hmerge hnodup⟩

/-- Both keys spell the node `a`. The merge at the root drops what the first one holds. -/
theorem earlier_spelling_dropped :
    let d := (Store.create "s" .configuration twoNodeStore.model).openDraft
    let v : List (String × Json) := [("a", .object [("x", .null)]), ("m:a", .object [("y", .null)])]
    d.working = .object [] ∧ (Json.object v).Canonical ∧
      (∀ m ∈ v, d.model.hasDataNode m.1 = true) ∧
      ∃ whole parts, d.stage (.merge .root (.object v)) = .ok whole ∧
        (v.map fun m => Edit.merge ⟨[m.1]⟩ m.2).foldlM stage d = .ok parts ∧
        whole.read ⟨["a", "x"]⟩ = .ok none ∧ parts.read ⟨["a", "x"]⟩ = .ok (some .null) := by
  intro d v
  have hv : (Json.object v).Canonical :=
    ⟨List.pairwise_pair.2 (by decide), ⟨List.pairwise_singleton _ _, trivial, trivial⟩,
      ⟨List.pairwise_singleton _ _, trivial, trivial⟩, trivial⟩
  have hknown : ∀ m ∈ v, d.model.hasDataNode m.1 = true := by
    simp only [v, List.forall_mem_cons, List.not_mem_nil, false_imp_iff, implies_true, and_true]
    decide
  have hwhole : d.stage (.merge .root (.object v)) = .ok _ := rfl
  have hparts : (v.map fun m => Edit.merge ⟨[m.1]⟩ m.2).foldlM stage d = .ok _ := rfl
  exact ⟨rfl, hv, hknown, _, _, hwhole, hparts, rfl, rfl⟩

end StoreDraft

end MountRegistry
