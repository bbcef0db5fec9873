import MountRegistry.Proofs.Data.Reading
import MountRegistry.Store.Cohort

/-
  What a preparation and a commit that succeed do to a store, and what the log of a store tells of
  the commits it stands for. The log keeps the latest commits only. While it reaches back to a base,
  `conflict?` answers as if it had them all, and from then on it names the first path, whatever was
  committed (`Records.conflict?_eq`); so an answer that names no path is right about the older
  commits too (`Records.clear_of_conflict?_eq_none`).
-/

namespace MountRegistry

namespace Store

/-! ## The log -/

/-- The store was made by commits with these entries, and its log holds as many of the latest as it
has room for. -/
structure Records (s : Store) (entries : List LogEntry) : Prop where
  version : s.version = entries.length
  log : s.log = entries.drop (entries.length - s.logCapacity)
  numbered : ∀ k e, entries[k]? = some e → e.version = k + 1

theorem Records.version_oldest {s : Store} {entries : List LogEntry} (h : s.Records entries)
    {oldest : LogEntry} {rest : List LogEntry} (hl : s.log = oldest :: rest) :
    oldest.version = entries.length - s.logCapacity + 1 := by
  have hk : (entries.drop (entries.length - s.logCapacity))[0]? = some oldest := by
    rw [← h.log, hl]
    rfl
  rw [List.getElem?_drop, Nat.add_zero] at hk
  exact h.numbered _ _ hk

theorem mem_drop_iff {α : Type} {l : List α} {n : Nat} {a : α} :
    a ∈ l.drop n ↔ ∃ k, n ≤ k ∧ l[k]? = some a := by
  constructor
  · intro ha
    obtain ⟨k, hk⟩ := List.getElem?_of_mem ha
    rw [List.getElem?_drop] at hk
    exact ⟨n + k, Nat.le_add_right n k, hk⟩
  · rintro ⟨k, hle, hk⟩
    apply List.mem_of_getElem? (i := k - n)
    rw [List.getElem?_drop, Nat.add_sub_cancel' hle, hk]

/-- The log reaches back to a version as long as it has room for all commits since. -/
theorem Records.covers_iff {s : Store} {entries : List LogEntry} (h : s.Records entries)
    {base : Nat} (hlt : base < s.version) :
    s.covers base = true ↔ s.version ≤ base + s.logCapacity := by
  have hv := h.version
  unfold covers
  split
  · rename_i hl
    rw [h.log, List.drop_eq_nil_iff] at hl
    constructor
    · intro hc
      cases hc
    · omega
  · rename_i oldest rest hl
    have hold := h.version_oldest hl
    rw [decide_eq_true_iff]
    omega

/-- A log that reaches back to a version tells the paths of all commits since. -/
theorem Records.touchedSince_eq {s : Store} {entries : List LogEntry} (h : s.Records entries)
    {base : Nat} (hroom : s.version ≤ base + s.logCapacity) (p : DataPath) :
    s.touchedSince base p = (entries.drop base).any fun e => e.paths.any (·.overlaps p) := by
  have hv := h.version
  unfold touchedSince
  rw [h.log, Bool.eq_iff_iff, List.any_eq_true, List.any_eq_true]
  constructor
  · rintro ⟨e, he, hov⟩
    rw [Bool.and_eq_true, decide_eq_true_iff] at hov
    obtain ⟨k, hk⟩ := List.getElem?_of_mem (List.mem_of_mem_drop he)
    rw [h.numbered k e hk] at hov
    exact ⟨e, mem_drop_iff.2 ⟨k, by omega, hk⟩, hov.2⟩
  · rintro ⟨e, he, hov⟩
    obtain ⟨k, hle, hk⟩ := mem_drop_iff.1 he
    refine ⟨e, mem_drop_iff.2 ⟨k, by omega, hk⟩, ?_⟩
    rw [Bool.and_eq_true, decide_eq_true_iff, h.numbered k e hk]
    exact ⟨by omega, hov⟩

/-- What `conflict?` answers, told from all entries: the first path that a commit since the base
overlaps, as long as the log reaches back to the base, and the first path of all from then on. -/
theorem Records.conflict?_eq {s : Store} {entries : List LogEntry} (h : s.Records entries)
    {base : Nat} (hbase : base ≤ s.version) (paths : List DataPath) :
    s.conflict? base paths =
      if s.version ≤ base + s.logCapacity then
        paths.find? fun p => (entries.drop base).any fun e => e.paths.any (·.overlaps p)
      else paths.head? := by
  have hlen := h.version
  unfold conflict?
  split
  · rw [if_pos (by omega), eq_comm, List.find?_eq_none]
    intro p _
    rw [List.drop_eq_nil_of_le (by omega)]
    exact Bool.false_ne_true
  · rename_i hne
    have hcov := h.covers_iff (show base < s.version by omega)
    split
    · rename_i hc
      rw [if_pos (hcov.1 hc), funext (h.touchedSince_eq (hcov.1 hc))]
    · rename_i hc
      rw [if_neg fun hroom => hc (hcov.2 hroom)]

theorem Records.clear_of_conflict?_eq_none {s : Store} {entries : List LogEntry}
    (h : s.Records entries) {base : Nat} {paths : List DataPath}
    (hc : s.conflict? base paths = none) {k : Nat} {e : LogEntry} (hk : entries[k]? = some e)
    (hb : base ≤ k) {p q : DataPath} (hp : p ∈ paths) (hq : q ∈ e.paths) :
    p.overlaps q = false := by
  have hlt : k < entries.length := (List.getElem?_eq_some_iff.1 hk).1
  rw [h.conflict?_eq (by rw [h.version]; omega)] at hc
  split at hc
  · rw [DataPath.overlaps_comm, ← Bool.not_eq_true]
    intro hov
    refine List.find?_eq_none.1 hc p hp (List.any_eq_true.2 ⟨e, mem_drop_iff.2 ⟨k, hb, hk⟩, ?_⟩)
    exact List.any_eq_true.2 ⟨q, hq, hov⟩
  · rw [List.head?_eq_none_iff.1 hc] at hp
    cases hp

/-- While the log has room for all commits since the base, `conflict?` names no path unless one of
them overlaps it. -/
theorem Records.conflict?_eq_none {s : Store} {entries : List LogEntry} (h : s.Records entries)
    {base : Nat} {paths : List DataPath} (hbase : base ≤ s.version)
    (hroom : s.version ≤ base + s.logCapacity)
    (hclear : ∀ k e, entries[k]? = some e → base ≤ k → ∀ p ∈ paths, ∀ q ∈ e.paths,
      p.overlaps q = false) : s.conflict? base paths = none := by
  rw [h.conflict?_eq hbase, if_pos hroom, List.find?_eq_none]
  intro p hp hany
  obtain ⟨e, he, hov⟩ := List.any_eq_true.1 hany
  obtain ⟨k, hle, hk⟩ := mem_drop_iff.1 he
  obtain ⟨q, hq, hqp⟩ := List.any_eq_true.1 hov
  rw [DataPath.overlaps_comm, hclear k e hk hle p hp q hq] at hqp
  cases hqp

/-! ## Preparing -/

theorem checkConflict_eq_ok {s : Store} {base : Nat} {edits : List Edit} {u : Unit}
    (h : s.checkConflict base edits = .ok u) : s.conflict? base (edits.map (·.path)) = none := by
  unfold checkConflict at h
  split at h
  · cases h
  · rename_i hc
    exact hc

theorem checkConflict_of_conflict? {s : Store} {base : Nat} {edits : List Edit}
    (h : s.conflict? base (edits.map (·.path)) = none) : s.checkConflict base edits = .ok () := by
  unfold checkConflict
  rw [h]

theorem prepare_eq_ok {s : Store} {base : Nat} {edits : List Edit} {p : Prepared}
    (h : s.prepare base edits = .ok p) :
    s.conflict? base (edits.map (·.path)) = none ∧ Edit.applyAll s.tree edits = .ok p.tree ∧
      validate s.model edits = .ok () ∧ p.version = s.version := by
  unfold prepare at h
  obtain ⟨_, hc, h⟩ := Outcome.bind_eq_ok.1 h
  obtain ⟨tree, ht, h⟩ := Outcome.bind_eq_ok.1 h
  obtain ⟨_, hv, h⟩ := Outcome.bind_eq_ok.1 h
  cases h
  exact ⟨checkConflict_eq_ok hc, ht, hv, rfl⟩

theorem prepare_of_conflict? {s : Store} {base : Nat} {edits : List Edit} {tree : Json}
    (hc : s.conflict? base (edits.map (·.path)) = none) (ht : Edit.applyAll s.tree edits = .ok tree)
    (hv : validate s.model edits = .ok ()) : s.prepare base edits = .ok ⟨tree, s.version⟩ := by
  unfold prepare
  rw [checkConflict_of_conflict? hc, ht, hv]
  rfl

/-- The prepared tree is used as it is only while the version is still the same. -/
theorem committedTree_eq_ok {s : Store} {p : Prepared} {edits : List Edit} {tree : Json}
    (h : s.committedTree p edits = .ok tree) :
    (s.version = p.version ∧ tree = p.tree) ∨
      (s.version ≠ p.version ∧ s.conflict? p.version (edits.map (·.path)) = none ∧
        Edit.applyAll s.tree edits = .ok tree) := by
  unfold committedTree at h
  split at h
  · rename_i hv
    cases h
    exact .inl ⟨hv, rfl⟩
  · rename_i hv
    obtain ⟨_, hc, h⟩ := Outcome.bind_eq_ok.1 h
    exact .inr ⟨hv, checkConflict_eq_ok hc, h⟩

/-- A prepared cohort that nothing overlapping came before finds its tree, prepared or anew. -/
theorem exists_committedTree {s : Store} {p : Prepared} {edits : List Edit} {tree : Json}
    (hc : s.conflict? p.version (edits.map (·.path)) = none)
    (ht : Edit.applyAll s.tree edits = .ok tree) : ∃ tree, s.committedTree p edits = .ok tree := by
  unfold committedTree
  split
  · exact ⟨p.tree, rfl⟩
  · rw [checkConflict_of_conflict? hc]
    exact ⟨tree, ht⟩

theorem vote_of_conflict? {s : Store} {base : Nat} {edits : List Edit}
    (hc : s.conflict? base (edits.map (·.path)) = none) (hv : validate s.model edits = .ok ()) :
    s.vote base edits = .ok true := by
  unfold vote
  rw [hv, hc]
  rfl

/-! ## Committing -/

theorem mem_touchedPaths {edits : List Edit} {p : DataPath} :
    p ∈ touchedPaths edits ↔ ∃ e ∈ edits, e.path = p := by
  suffices h : ∀ seen : List DataPath,
      p ∈ edits.foldl (fun paths e => if e.path ∈ paths then paths else paths ++ [e.path]) seen ↔
        p ∈ seen ∨ ∃ e ∈ edits, e.path = p by
    have := h []
    simpa [touchedPaths] using this
  induction edits with
  | nil => simp
  | cons e edits ih =>
    intro seen
    rw [List.foldl_cons, ih]
    by_cases he : e.path ∈ seen
    · rw [if_pos he]
      constructor
      · rintro (h | ⟨f, hf, rfl⟩)
        · exact .inl h
        · exact .inr ⟨f, List.mem_cons_of_mem e hf, rfl⟩
      · rintro (h | ⟨f, hf, rfl⟩)
        · exact .inl h
        · rcases List.mem_cons.1 hf with rfl | hf
          · exact .inl he
          · exact .inr ⟨f, hf, rfl⟩
    · rw [if_neg he, List.mem_append, List.mem_singleton]
      constructor
      · rintro ((h | rfl) | ⟨f, hf, rfl⟩)
        · exact .inl h
        · exact .inr ⟨e, List.mem_cons_self, rfl⟩
        · exact .inr ⟨f, List.mem_cons_of_mem e hf, rfl⟩
      · rintro (h | ⟨f, hf, rfl⟩)
        · exact .inl (.inl h)
        · rcases List.mem_cons.1 hf with rfl | hf
          · exact .inl (.inr rfl)
          · exact .inr ⟨f, hf, rfl⟩

theorem touchedPaths_nodup (edits : List Edit) : (touchedPaths edits).Nodup := by
  suffices h : ∀ seen : List DataPath, seen.Nodup →
      (edits.foldl (fun paths e => if e.path ∈ paths then paths else paths ++ [e.path]) seen).Nodup
    from h [] List.nodup_nil
  induction edits with
  | nil => exact fun _ hseen => hseen
  | cons e edits ih =>
    intro seen hseen
    refine ih _ ?_
    dsimp only
    split
    · exact hseen
    · rename_i hnew
      exact List.nodup_append.2 ⟨hseen, List.pairwise_singleton _ _, fun p hp q hq hpq =>
        hnew (List.mem_singleton.1 hq ▸ hpq ▸ hp)⟩

/-- What subscribers hear of a commit with these edits. -/
def nextChange (s : Store) (edits : List Edit) : Change :=
  ⟨s.name, s.kind, s.version + 1, touchedPaths edits⟩

/-- The store `s'` is `s` after a commit of these edits. -/
structure CommittedTo (s s' : Store) (edits : List Edit) : Prop where
  version : s'.version = s.version + 1
  log : s'.log = (s.log ++ [LogEntry.mk (s.version + 1) (touchedPaths edits)]).drop
    (s.log.length + 1 - s.logCapacity)
  changes : s'.changes = s.changes.send (s.nextChange edits)
  name : s'.name = s.name
  kind : s'.kind = s.kind
  model : s'.model = s.model
  logCapacity : s'.logCapacity = s.logCapacity

theorem Records.committedTo {s s' : Store} {edits : List Edit} {entries : List LogEntry}
    (h : s.Records entries) (hc : s.CommittedTo s' edits) :
    s'.Records (entries ++ [⟨s.version + 1, touchedPaths edits⟩]) where
  version := by
    rw [hc.version, h.version, List.length_append, List.length_singleton]
  log := by
    rw [hc.log, hc.logCapacity, h.log, List.length_append, List.length_singleton,
      List.length_drop]
    -- appending goes through the first cut, which leaves one cut of what both leave out
    rw [← List.drop_append_of_le_length (Nat.sub_le _ _), List.drop_drop]
    congr 1
    omega
  numbered := by
    intro k e hk
    rcases Nat.lt_or_ge k entries.length with hlt | hge
    · rw [List.getElem?_append_left hlt] at hk
      exact h.numbered k e hk
    · rw [List.getElem?_append_right hge, List.getElem?_singleton] at hk
      split at hk
      · cases hk
        have := h.version
        change s.version + 1 = k + 1
        omega
      · cases hk

end Store

theorem Cohort.prepare_eq_ok {c c' : Cohort} {s : Store} (h : c.prepare s = .ok c') :
    ∃ p, s.prepare c.base c.edits = .ok p ∧ c' = { c with prepared := some p } := by
  unfold prepare at h
  obtain ⟨p, hp, h⟩ := Outcome.bind_eq_ok.1 h
  cases h
  exact ⟨p, hp, rfl⟩

theorem Cohort.commit_eq_ok {c : Cohort} {s s' : Store} (h : c.commit s = .ok s') :
    ∃ p, c.prepared = some p ∧ s.committedTree p c.edits = .ok s'.tree ∧
      s.CommittedTo s' c.edits := by
  unfold commit install at h
  cases hp : c.prepared with
  | none =>
    rw [hp] at h
    cases h
  | some p =>
    rw [hp] at h
    obtain ⟨⟨installed, change⟩, hi, h⟩ := Outcome.bind_eq_ok.1 h
    unfold Store.install at hi
    obtain ⟨tree, ht, hi⟩ := Outcome.bind_eq_ok.1 hi
    cases hi
    cases h
    refine ⟨p, rfl, ht, rfl, ?_, rfl, rfl, rfl, rfl, rfl⟩
    simp [Store.announce]

/-- A commit succeeds if there is a tree to install. -/
theorem Cohort.commit_of_committedTree {c : Cohort} {s : Store} {p : Prepared} {tree : Json}
    (hp : c.prepared = some p) (ht : s.committedTree p c.edits = .ok tree) :
    ∃ s', c.commit s = .ok s' := by
  unfold commit install Store.install
  rw [hp]
  dsimp only
  rw [ht]
  exact ⟨_, rfl⟩

/-- A commit right after the preparation succeeds. -/
theorem Cohort.commit_of_version_eq {c : Cohort} {s : Store} {p : Prepared}
    (hp : c.prepared = some p) (hv : s.version = p.version) : ∃ s', c.commit s = .ok s' := by
  have htree : s.committedTree p c.edits = .ok p.tree := by
    unfold Store.committedTree
    rw [if_pos hv]
    rfl
  exact commit_of_committedTree hp htree

theorem Cohort.commit_of_prepared_eq_none {c : Cohort} (h : c.prepared = none) (s : Store) :
    c.commit s = .error (.notPrepared c.store) := by
  unfold commit install
  rw [h]
  rfl

/-! ## Staging -/

namespace StoreDraft

variable {d d' : StoreDraft} {e : Edit}

theorem stage_eq_ok (h : d.stage e = .ok d') :
    ∃ working, (Store.canonicalEdit d.model e).apply d.working = .ok working ∧
      d' = { d with working, edits := d.edits ++ [Store.canonicalEdit d.model e] } := by
  unfold stage at h
  obtain ⟨working, hworking, h⟩ := Outcome.bind_eq_ok.1 h
  cases h
  exact ⟨working, hworking, rfl⟩

/-- A copy that the staged edits make of a tree is so after one more. -/
theorem applyAll_stage (h : d.stage e = .ok d') {t : Json}
    (ht : Edit.applyAll t d.edits = .ok d.working) :
    Edit.applyAll t d'.edits = .ok d'.working := by
  obtain ⟨working, hworking, rfl⟩ := stage_eq_ok h
  exact Outcome.foldlM_concat_eq_ok.2 ⟨d.working, ht, hworking⟩

end StoreDraft

end MountRegistry
