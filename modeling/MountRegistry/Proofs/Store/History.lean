import MountRegistry.Proofs.Store.Commit
import MountRegistry.Proofs.Store.Traffic

/-
  The invariant of the traffic on a store. Every draft is based on a version that the store had, and
  its copy is the tree of that version with the edits made (`Opened`). Every preparation is the same
  on a version that the store had after the base, and no commit between the two touched a path that
  overlaps one of the edits (`Holds`). Hence every commit, whether it takes the prepared tree or
  makes the edits anew, makes them on the tree that it finds, and nothing it overlaps was committed
  since its base (`Link`). The log is only what the store keeps of this.
-/

namespace MountRegistry.Store

/-- The commit as the log would keep it. -/
def Commit.entry (c : Commit) : LogEntry := ⟨c.after.version, touchedPaths c.draft.edits⟩

namespace Traffic

/-- The tree that the store had at a version. -/
def treeAt (s : Traffic) : Nat → Option Json
  | 0 => some Json.emptyObject
  | v + 1 => s.commits[v]?.map (·.after.tree)

/-- No commit after version `a` up to version `b` touched a path that overlaps one of the edits. -/
def Untouched (s : Traffic) (edits : List Edit) (a b : Nat) : Prop :=
  ∀ k c, s.commits[k]? = some c → a ≤ k → k < b →
    ∀ e ∈ edits, ∀ f ∈ c.draft.edits, e.path.overlaps f.path = false

/-- The copy of the draft is the tree of its base with its edits made. -/
structure Opened (s : Traffic) (d : StoreDraft) : Prop where
  base_le : d.base ≤ s.store.version
  working : ∃ t, s.treeAt d.base = some t ∧ Edit.applyAll t d.edits = .ok d.working

/-- The preparation is good for the draft, until something overlapping is committed. -/
structure Holds (s : Traffic) (d : StoreDraft) (p : Prepared) : Prop where
  base_le : d.base ≤ p.version
  version_le : p.version ≤ s.store.version
  tree : ∃ t, s.treeAt p.version = some t ∧ Edit.applyAll t d.edits = .ok p.tree
  untouched : s.Untouched d.edits d.base p.version

/-- The cohort came of the draft. -/
structure Member (s : Traffic) (d : StoreDraft) (c : Cohort) : Prop where
  store : c.store = s.store.name
  base : c.base = d.base
  edits : c.edits = d.edits
  prepared : ∀ p, c.prepared = some p → s.Holds d p

/-- What holds of a party by itself. -/
def Fits (s : Traffic) : Party → Prop
  | .drafting d => s.Opened d
  | .committing d c => s.Opened d ∧ s.Member d c

/-- The commit that took the store from version `k` to the next. -/
structure Link (s : Traffic) (k : Nat) (c : Commit) : Prop where
  before_version : c.before.version = k
  before_tree : s.treeAt k = some c.before.tree
  after : c.before.CommittedTo c.after c.draft.edits
  after_tree : Edit.applyAll c.before.tree c.draft.edits = .ok c.after.tree
  opened : s.Opened c.draft
  base_le : c.draft.base ≤ k
  untouched : s.Untouched c.draft.edits c.draft.base k
  party : ∃ co, s.party? c.party = some (.committing c.draft co)

/-- What holds between the moves: the store is what its commits have made of it, each on the tree
that it found. -/
structure Sound (s : Traffic) : Prop where
  records : s.store.Records (s.commits.map Commit.entry)
  current : s.treeAt s.store.version = some s.store.tree
  parties : ∀ i p, s.party? i = some p → s.Fits p
  links : ∀ k c, s.commits[k]? = some c → s.Link k c

theorem Sound.version_eq {s : Traffic} (h : s.Sound) : s.store.version = s.commits.length := by
  rw [h.records.version, List.length_map]

theorem sound_start (name : String) (kind : StoreKind) (model : Yang.Model) (capacity : Nat) :
    (start (Store.create name kind model capacity)).Sound where
  records := ⟨rfl, by simp [start, Store.create], fun k e h => by simp [start] at h⟩
  current := rfl
  parties := fun i p h => by simp [start] at h
  links := fun k c h => by simp [start] at h

/-! ## What more commits leave as it is -/

/-- `t` has the commits of `s`, and perhaps more. -/
structure Extends (s t : Traffic) : Prop where
  commits : s.commits <+: t.commits
  version_le : s.store.version ≤ t.store.version
  name : t.store.name = s.store.name

theorem Effect.extends {s t : Traffic} {m : Move} {a : Answer} (h : Effect s m a t) :
    s.Extends t := by
  cases h with
  | committed i d c store party commit =>
    obtain ⟨_, _, _, hto⟩ := Cohort.commit_eq_ok commit
    exact ⟨List.prefix_append _ _, by rw [hto.version]; exact Nat.le_succ _, hto.name⟩
  | _ => exact ⟨List.prefix_refl _, Nat.le_refl _, rfl⟩

theorem Extends.commits_eq {s t : Traffic} (h : s.Extends t) {k : Nat}
    (hk : k < s.commits.length) : t.commits[k]? = s.commits[k]? := by
  obtain ⟨more, hmore⟩ := h.commits
  rw [← hmore, List.getElem?_append_left hk]

theorem extends_setParty (s : Traffic) (i : Nat) (p : Party) : s.Extends (s.setParty i p) :=
  ⟨List.prefix_refl _, Nat.le_refl _, rfl⟩

theorem Extends.treeAt {s t : Traffic} (h : s.Extends t) {v : Nat} {j : Json}
    (hv : s.treeAt v = some j) : t.treeAt v = some j := by
  cases v with
  | zero => exact hv
  | succ v =>
    obtain ⟨c, hc, hj⟩ := Option.map_eq_some_iff.1 hv
    have hlt := (List.getElem?_eq_some_iff.1 hc).1
    change t.commits[v]?.map (·.after.tree) = some j
    rw [h.commits_eq hlt]
    exact hv

theorem Extends.untouched {s t : Traffic} (h : s.Extends t) {edits : List Edit} {a b : Nat}
    (hb : b ≤ s.commits.length) (hu : s.Untouched edits a b) : t.Untouched edits a b := by
  intro k c hk ha hlt
  rw [h.commits_eq (Nat.lt_of_lt_of_le hlt hb)] at hk
  exact hu k c hk ha hlt

theorem Extends.opened {s t : Traffic} (h : s.Extends t) {d : StoreDraft} (hd : s.Opened d) :
    t.Opened d := by
  obtain ⟨hle, j, hj, hw⟩ := hd
  exact ⟨Nat.le_trans hle h.version_le, j, h.treeAt hj, hw⟩

theorem Extends.member {s t : Traffic} (h : s.Extends t) (hs : s.Sound) {d : StoreDraft}
    {c : Cohort} (hc : s.Member d c) : t.Member d c where
  store := hc.store.trans h.name.symm
  base := hc.base
  edits := hc.edits
  prepared := by
    intro p hp
    obtain ⟨hb, hle, ⟨j, hj, hw⟩, hu⟩ := hc.prepared p hp
    have hlen : p.version ≤ s.commits.length := hs.version_eq ▸ hle
    exact ⟨hb, Nat.le_trans hle h.version_le, ⟨j, h.treeAt hj, hw⟩, h.untouched hlen hu⟩

theorem Extends.fits {s t : Traffic} (h : s.Extends t) (hs : s.Sound) {p : Party}
    (hp : s.Fits p) : t.Fits p := by
  cases p with
  | drafting d => exact h.opened hp
  | committing d c => exact ⟨h.opened hp.1, h.member hs hp.2⟩

theorem Extends.link {s t : Traffic} (h : s.Extends t) {k : Nat} {c : Commit}
    (hk : k < s.commits.length) (hl : s.Link k c)
    (hp : ∃ co, t.party? c.party = some (.committing c.draft co)) : t.Link k c where
  before_version := hl.before_version
  before_tree := h.treeAt hl.before_tree
  after := hl.after
  after_tree := hl.after_tree
  opened := h.opened hl.opened
  base_le := hl.base_le
  untouched := h.untouched (Nat.le_of_lt hk) hl.untouched
  party := hp

/-! ## One move -/

/-- A party may become anything that fits, but a sealed draft stays the draft of its party. -/
theorem Sound.setParty {s : Traffic} (h : s.Sound) {i : Nat} {p : Party} (hp : s.Fits p)
    (keep : ∀ d c, s.party? i = some (.committing d c) → ∃ c', p = .committing d c') :
    (s.setParty i p).Sound where
  records := h.records
  current := h.current
  parties := by
    intro j q hq
    rw [setParty_party?] at hq
    split at hq
    · cases hq
      exact (extends_setParty s i p).fits h hp
    · exact (extends_setParty s i p).fits h (h.parties j q hq)
  links := by
    intro k c hk
    have hl := h.links k c hk
    refine (extends_setParty s i p).link (List.getElem?_eq_some_iff.1 hk).1 hl ?_
    obtain ⟨co, hco⟩ := hl.party
    rw [setParty_party?]
    split
    · rename_i hi
      obtain ⟨c', rfl⟩ := keep _ _ (hi ▸ hco)
      exact ⟨c', rfl⟩
    · exact ⟨co, hco⟩

/-- A log that names no path vouches for all commits since the base. -/
theorem Sound.untouched_of_conflict? {s : Traffic} (h : s.Sound) {edits : List Edit}
    {base : Nat} (hc : s.store.conflict? base (edits.map (·.path)) = none) (b : Nat) :
    s.Untouched edits base b := by
  intro k c hk hb _ e he f hf
  have hentry : (s.commits.map Commit.entry)[k]? = some c.entry := by
    rw [List.getElem?_map, hk]
    rfl
  exact h.records.clear_of_conflict?_eq_none hc hentry hb (List.mem_map_of_mem he)
    (mem_touchedPaths.2 ⟨f, hf, rfl⟩)

theorem Sound.opened_openDraft {s : Traffic} (h : s.Sound) : s.Opened s.store.openDraft :=
  ⟨Nat.le_refl _, s.store.tree, h.current, rfl⟩

theorem Opened.stage {s : Traffic} {d d' : StoreDraft} {e : Edit} (h : s.Opened d)
    (hd : d.stage e = .ok d') : s.Opened d' := by
  obtain ⟨hle, j, hj, hw⟩ := h
  have hw' := StoreDraft.applyAll_stage hd hw
  obtain ⟨working, _, rfl⟩ := StoreDraft.stage_eq_ok hd
  exact ⟨hle, j, hj, hw'⟩

theorem member_toCohort (s : Traffic) (d : StoreDraft) :
    s.Member d (d.toCohort s.store.name) :=
  ⟨rfl, rfl, rfl, fun p hp => by cases hp⟩

theorem Member.release {s : Traffic} {d : StoreDraft} {c : Cohort} (h : s.Member d c) :
    s.Member d c.release :=
  ⟨h.store, h.base, h.edits, fun p hp => by cases hp⟩

theorem Sound.member_prepare {s : Traffic} (h : s.Sound) {d : StoreDraft} {c c' : Cohort}
    (hd : s.Opened d) (hc : s.Member d c) (hp : c.prepare s.store = .ok c') : s.Member d c' := by
  obtain ⟨p, hprep, rfl⟩ := Cohort.prepare_eq_ok hp
  obtain ⟨hno, htree, _, hv⟩ := prepare_eq_ok hprep
  rw [hc.edits] at hno htree
  rw [hc.base] at hno
  refine ⟨hc.store, hc.base, hc.edits, ?_⟩
  intro q hq
  cases hq
  refine ⟨hv ▸ hd.base_le, Nat.le_of_eq hv, ⟨s.store.tree, hv ▸ h.current, htree⟩, ?_⟩
  exact h.untouched_of_conflict? hno p.version

/-- A commit makes the edits on the tree that it finds, whichever way it takes. -/
theorem Sound.commit_makes {s : Traffic} (h : s.Sound) {d : StoreDraft} {c : Cohort}
    {s' : Store} (hc : s.Member d c) (hs : c.commit s.store = .ok s') :
    Edit.applyAll s.store.tree d.edits = .ok s'.tree ∧
      s.Untouched d.edits d.base s.store.version ∧ s.store.CommittedTo s' d.edits := by
  obtain ⟨p, hp, htree, hto⟩ := Cohort.commit_eq_ok hs
  obtain ⟨hb, hle, ⟨j, hj, hw⟩, hu⟩ := hc.prepared p hp
  rw [hc.edits] at htree hto
  rcases committedTree_eq_ok htree with ⟨hv, ht⟩ | ⟨_, hno, ht⟩
  · have hcur : some s.store.tree = some j := by rw [← h.current, hv, hj]
    rw [Option.some.inj hcur, ht, hv]
    exact ⟨hw, hu, hto⟩
  · refine ⟨ht, ?_, hto⟩
    intro k co hk hbk hkv
    rcases Nat.lt_or_ge k p.version with hlt | hge
    · exact hu k co hk hbk hlt
    · exact h.untouched_of_conflict? hno s.store.version k co hk hge hkv

theorem Sound.committed {s : Traffic} (h : s.Sound) {i : Nat} {d : StoreDraft} {c : Cohort}
    {s' : Store} (hi : s.party? i = some (.committing d c)) (hs : c.commit s.store = .ok s') :
    ({ s.setParty i (.committing d c.release) with
        store := s', commits := s.commits ++ [⟨i, d, s.store, s'⟩] } : Traffic).Sound := by
  obtain ⟨hd, hc⟩ := h.parties i _ hi
  obtain ⟨hmade, hu, hto⟩ := h.commit_makes hc hs
  let t : Traffic := { s.setParty i (.committing d c.release) with
    store := s', commits := s.commits ++ [⟨i, d, s.store, s'⟩] }
  have hext : s.Extends t := (Effect.committed i d c s' hi hs).extends
  have hlast : t.commits[s.commits.length]? = some ⟨i, d, s.store, s'⟩ :=
    List.getElem?_concat_length
  have hparty : ∀ {e co}, s.party? i = some (.committing e co) → e = d := by
    intro e co he
    rw [hi] at he
    cases he
    rfl
  refine ⟨?_, ?_, ?_, ?_⟩
  · have := h.records.committedTo hto
    rw [← hto.version] at this
    simpa [Commit.entry] using this
  · rw [hto.version, h.version_eq]
    exact congrArg (Option.map fun c : Commit => c.after.tree) hlast
  · intro j p hp
    rw [show t.party? j = if j = i then _ else s.party? j from rfl] at hp
    split at hp
    · cases hp
      exact ⟨hext.opened hd, hext.member h hc.release⟩
    · exact hext.fits h (h.parties j p hp)
  · intro k co hk
    rcases Nat.lt_or_ge k s.commits.length with hlt | hge
    · rw [hext.commits_eq hlt] at hk
      refine hext.link hlt (h.links k co hk) ?_
      obtain ⟨ci, hci⟩ := (h.links k co hk).party
      change ∃ co', (if co.party = i then _ else s.party? co.party) = _
      split
      · rename_i hpi
        have hd' : co.draft = d := hparty (hpi ▸ hci)
        rw [hd']
        exact ⟨c.release, rfl⟩
      · exact ⟨ci, hci⟩
    · have hlen : k = s.commits.length := by
        have := (List.getElem?_eq_some_iff.1 hk).1
        rw [List.length_append, List.length_singleton] at this
        omega
      subst hlen
      rw [hlast] at hk
      cases hk
      rw [← h.version_eq]
      refine ⟨rfl, hext.treeAt h.current, hto, hmade, hext.opened hd, hd.base_le,
        hext.untouched (Nat.le_of_eq h.version_eq) hu, c.release, ?_⟩
      exact if_pos rfl

theorem Sound.released {s : Traffic} (h : s.Sound) {i : Nat} {d : StoreDraft} {c : Cohort}
    (hi : s.party? i = some (.committing d c)) :
    (s.setParty i (.committing d c.release)).Sound := by
  obtain ⟨hd, hc⟩ := h.parties i _ hi
  refine h.setParty ⟨hd, hc.release⟩ fun e co he => ?_
  rw [hi] at he
  cases he
  exact ⟨c.release, rfl⟩

theorem Sound.effect {s t : Traffic} {m : Move} {a : Answer} (h : s.Sound)
    (he : Effect s m a t) : t.Sound := by
  have hext := he.extends
  cases he with
  | idle m a changes =>
    refine ⟨⟨h.records.version, h.records.log, h.records.numbered⟩, h.current, ?_, ?_⟩
    · intro i p hi
      exact hext.fits h (h.parties i p hi)
    · intro k c hk
      exact hext.link (List.getElem?_eq_some_iff.1 hk).1 (h.links k c hk) (h.links k c hk).party
  | opened i free =>
    exact h.setParty h.opened_openDraft fun d c hi => by rw [free] at hi; cases hi
  | staged i e d d' party stage =>
    have hd : s.Opened d := h.parties i _ party
    exact h.setParty (hd.stage stage) fun e c hi => by rw [party] at hi; cases hi
  | shut i d party =>
    have hd : s.Opened d := h.parties i _ party
    exact h.setParty ⟨hd, member_toCohort s d⟩ fun e c hi => by rw [party] at hi; cases hi
  | prepared i d c c' party prepare =>
    obtain ⟨hd, hc⟩ := h.parties i _ party
    refine h.setParty ⟨hd, h.member_prepare hd hc prepare⟩ fun e co hi => ?_
    rw [party] at hi
    cases hi
    exact ⟨c', rfl⟩
  | committed i d c store party commit => exact h.committed party commit
  | failed i d c e party => exact h.released party
  | aborted i d c party => exact h.released party

/-! ## A run -/

theorem Extends.trans {s t u : Traffic} (h : s.Extends t) (k : t.Extends u) : s.Extends u :=
  ⟨h.commits.trans k.commits, Nat.le_trans h.version_le k.version_le, k.name.trans h.name⟩

theorem extends_after (s : Traffic) (ms : List Move) : s.Extends (s.after ms) := by
  induction ms generalizing s with
  | nil => exact ⟨List.prefix_refl _, Nat.le_refl _, rfl⟩
  | cons m ms ih => exact (effect_step s m).extends.trans (ih _)

theorem Sound.after {s : Traffic} (h : s.Sound) (ms : List Move) : (s.after ms).Sound := by
  induction ms generalizing s with
  | nil => exact h
  | cons m ms ih => exact ih (h.effect (effect_step s m))

end Traffic

end MountRegistry.Store
