import MountRegistry.Proofs.Store.Refusal

/-
  The log of a store beside its whole history. The log is a window on the latest commits; the
  traffic keeps them all, and `firstOverlap?` asks them. While the window reaches back to a base,
  `conflict?` gives the answer of the history; a base that it has moved past is answered with the
  first path there is (`Sound.conflict?_eq`). Either way the answer errs on the side of a conflict,
  and a conflict that it names once is never taken back (`log_answers_for_history`).
-/

namespace MountRegistry.Store.Traffic

variable {s : Traffic}

/-- The first of the paths that overlaps an edit of a commit made after version `base`, whatever the
log still holds. -/
def firstOverlap? (s : Traffic) (base : Nat) (paths : List DataPath) : Option DataPath :=
  paths.find? fun p => (s.commits.drop base).any fun c => c.draft.edits.any (·.path.overlaps p)

theorem any_touchedPaths (edits : List Edit) (f : DataPath → Bool) :
    (touchedPaths edits).any f = edits.any fun e => f e.path := by
  rw [Bool.eq_iff_iff, List.any_eq_true, List.any_eq_true]
  constructor
  · rintro ⟨p, hp, hf⟩
    obtain ⟨e, he, rfl⟩ := mem_touchedPaths.1 hp
    exact ⟨e, he, hf⟩
  · rintro ⟨e, he, hf⟩
    exact ⟨e.path, mem_touchedPaths.2 ⟨e, he, rfl⟩, hf⟩

/-- The log gives the answer of the history until it loses sight of the base. -/
theorem Sound.conflict?_eq (h : s.Sound) {base : Nat} (hbase : base ≤ s.store.version)
    (paths : List DataPath) :
    s.store.conflict? base paths =
      if s.store.version ≤ base + s.store.logCapacity then s.firstOverlap? base paths
      else paths.head? := by
  have hany : ∀ p, ((s.commits.map Commit.entry).drop base).any
      (fun entry => entry.paths.any (·.overlaps p)) =
        (s.commits.drop base).any fun c => c.draft.edits.any (·.path.overlaps p) := by
    intro p
    rw [← List.map_drop, List.any_map]
    exact congrArg _ (funext fun c => any_touchedPaths c.draft.edits _)
  rw [h.records.conflict?_eq hbase]
  simp only [hany]
  rfl

/-- The entries of the log are those of the latest commits. -/
theorem Sound.log_getElem? (h : s.Sound) {k : Nat} {entry : LogEntry}
    (hk : s.store.log[k]? = some entry) :
    ∃ c, s.commits[s.store.version - s.store.logCapacity + k]? = some c ∧
      entry.version = s.store.version - s.store.logCapacity + k + 1 ∧
      entry.paths = touchedPaths c.draft.edits := by
  rw [h.records.log, ← h.records.version, List.getElem?_drop] at hk
  have hversion := h.records.numbered _ _ hk
  rw [List.getElem?_map] at hk
  obtain ⟨c, hc, rfl⟩ := Option.map_eq_some_iff.1 hk
  exact ⟨c, hc, hversion, rfl⟩

theorem Sound.log_length (h : s.Sound) :
    s.store.log.length = min s.store.version s.store.logCapacity := by
  rw [h.records.log, ← h.records.version, List.length_drop, ← h.records.version]
  omega

/-- A base against which there is an answer stays without a chance. -/
theorem Sound.conflict?_stays (h : s.Sound) {edits : List Edit} {base : Nat}
    (hbase : base ≤ s.store.version)
    (hc : (s.store.conflict? base (edits.map (·.path))).isSome) (more : List Move) :
    ((s.after more).store.conflict? base (edits.map (·.path))).isSome := by
  have hover : s.Overtaken edits base := by
    by_contra hno
    rw [(h.conflict?_eq_none_iff hbase).2 hno] at hc
    cases hc
  have hlater := Nat.le_trans hbase (extends_after s more).version_le
  obtain ⟨e, _, hp⟩ := (h.after more).exists_conflict? hlater (hover.after more)
  exact Option.isSome_of_eq_some hp

/-- In every reachable state of a store whose log has room for `c` commits, at version `v`: the log
holds the last `min v c` of the successful commits, numbered up to `v`, each with the paths of its
edits once. For a base up to `v` and any edits, of which there is one, the answer of `conflict?` is
never none when that of the whole history is not; it is that of the history while no more than `c`
commits were made since the base, and the first path when there were more; and once it is a conflict
it remains one, whatever is committed later. -/
theorem log_answers_for_history (name : String) (kind : StoreKind) (model : Yang.Model)
    (capacity : Nat) (ms : List Move) :
    let s₀ := start (Store.create name kind model capacity)
    let s := s₀.after ms
    let c := max capacity 1
    let v := s.store.version
    (s.commits.length = v ∧
      s.commits.map (·.party) = (s₀.transcript ms).filterMap committed?) ∧
    s.store.log.length = min v c ∧
    (∀ k entry, s.store.log[k]? = some entry →
      entry.version = v - min v c + k + 1 ∧ entry.paths.Nodup ∧
      ∃ made, s.commits[v - min v c + k]? = some made ∧
        ∀ p, p ∈ entry.paths ↔ ∃ e ∈ made.draft.edits, e.path = p) ∧
    (∀ base first rest, base ≤ v →
      let paths := ((first :: rest : List Edit)).map (·.path)
      let answer := s.store.conflict? base paths
      ((s.firstOverlap? base paths).isSome → answer.isSome) ∧
      (v - base ≤ c → answer = s.firstOverlap? base paths) ∧
      (c < v - base → answer = some first.path) ∧
      (answer.isSome → ∀ more, ((s.after more).store.conflict? base paths).isSome)) := by
  intro s₀ s c v
  have h : s.Sound := (sound_start name kind model capacity).after ms
  have hcap : s.store.logCapacity = c := logCapacity_after s₀ ms
  refine ⟨⟨h.version_eq.symm, commits_after s₀ ms⟩, ?_, ?_, ?_⟩
  · rw [h.log_length, hcap]
  · intro k entry hk
    obtain ⟨made, hmade, hversion, hpaths⟩ := h.log_getElem? hk
    have hstart : v - s.store.logCapacity = v - min v c := by omega
    refine ⟨hstart ▸ hversion, hpaths ▸ touchedPaths_nodup _, made, hstart ▸ hmade, fun p => ?_⟩
    rw [hpaths]
    exact mem_touchedPaths
  · intro base first rest hbase paths answer
    have hanswer := h.conflict?_eq hbase paths
    rw [hcap] at hanswer
    refine ⟨fun hfull => ?_, fun hroom => ?_, fun hlost => ?_, h.conflict?_stays hbase⟩
    · change (s.store.conflict? base paths).isSome
      rw [hanswer]
      split
      · exact hfull
      · rfl
    · exact hanswer.trans (if_pos (by omega))
    · exact hanswer.trans (if_neg (by omega))

/-- The log has room for one commit. Two commits after the base it has lost sight of it, and the
path that is named is none that was touched. -/
example :
    let s := (start (Store.create "s" .configuration (schemaOf ["a", "b", "c"]) 1)).after
      [.openDraft 0, .stage 0 (.put ⟨["a"]⟩ .null), .sealDraft 0, .prepare 0, .commit 0,
        .openDraft 1, .stage 1 (.put ⟨["b"]⟩ .null), .sealDraft 1, .prepare 1, .commit 1]
    s.store.conflict? 1 [⟨["c"]⟩, ⟨["a"]⟩, ⟨["b", "x"]⟩] = some ⟨["b", "x"]⟩ ∧
      s.store.conflict? 0 [⟨["c"]⟩, ⟨["a"]⟩, ⟨["b", "x"]⟩] = some ⟨["c"]⟩ ∧
      s.firstOverlap? 0 [⟨["c"]⟩, ⟨["a"]⟩, ⟨["b", "x"]⟩] = some ⟨["a"]⟩ := ⟨rfl, rfl, rfl⟩

end MountRegistry.Store.Traffic
