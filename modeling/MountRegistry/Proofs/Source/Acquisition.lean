import MountRegistry.Proofs.Outcome
import MountRegistry.Proofs.Source.Library
import MountRegistry.Source.Resolution

/-
  Acquiring the module for a request: finding its source, checking it and keeping it. Whatever is
  acquired satisfies the request under the identifier that it declares itself (`acquire_eq_ok`),
  and what is kept is registered under that identifier; a request that fails leaves the build as it
  was (`acquire_eq_error`).
-/

namespace MountRegistry.Resolution

/-! ## Running -/

/-- What comes of a computation on a build, and the build that it leaves. -/
def run {α : Type} (x : Building α) (b : Build) : Except ResolutionFailure α × Build := x.run.run b

theorem run_get (b : Build) : run get b = (.ok b, b) := rfl

theorem run_mk {α : Type} (r : Except ResolutionFailure α) (b : Build) :
    run (ExceptT.mk (pure r)) b = (r, b) := rfl

theorem run_bind {α β : Type} (x : Building α) (f : α → Building β) (b : Build) :
    run (x >>= f) b = match run x b with
      | (.ok a, b') => run (f a) b'
      | (.error e, b') => (.error e, b') := by
  unfold run
  rw [ExceptT.run_bind, StateT.run_bind]
  obtain ⟨r, b'⟩ : Except ResolutionFailure α × Build := x.run.run b
  cases r <;> rfl

variable {directory : String} {wanted : SourceId} {b b' : Build} {source : Source}
  {origin : Origin} {m : Yang.Module}

/-! ## Finding -/

/-- A source is the one that the library answers, or the library answers none and it is on disk. -/
theorem fetch_eq_ok (h : fetch directory wanted b = .ok (source, origin)) :
    (origin = .library ∧ b.library.lookup? wanted = some source) ∨
      (origin = .disk ∧ b.library.lookup? wanted = none ∧ onDisk? b.onDisk wanted = some source.id ∧
        b.files.readText (Files.join directory source.id.fileName) = .ok source.text) := by
  unfold fetch at h
  split at h
  · rename_i hl
    cases h
    exact .inl ⟨rfl, hl⟩
  · rename_i hl
    split at h
    · cases h
    · rename_i id hid
      dsimp only at h
      split at h
      · rename_i text htext
        cases h
        exact .inr ⟨rfl, hl, hid, htext⟩
      · cases h

/-- The source on disk for a request, by what is there. -/
theorem onDisk?_eq_some_iff {ids : List SourceId} {id : SourceId} :
    onDisk? ids wanted = some id ↔ SourceId.IsNewest id ids wanted ∨
      (∀ k ∈ ids, ¬ k.satisfies wanted = true) ∧ id ∈ ids ∧ id = ⟨wanted.name, none⟩ := by
  unfold onDisk?
  cases hnewest : SourceId.newest? ids wanted with
  | some best =>
    have hbest := SourceId.newest?_eq_some_iff.1 hnewest
    dsimp only
    constructor
    · intro h
      cases h
      exact .inl hbest
    · rintro (h | ⟨hnone, _⟩)
      · exact congrArg some (hbest.unique h)
      · exact absurd hbest.satisfies (hnone best hbest.mem)
  | none =>
    have hnone := SourceId.newest?_eq_none_iff.1 hnewest
    dsimp only
    constructor
    · intro h
      have hid := List.find?_some h
      exact .inr ⟨hnone, List.mem_of_find?_eq_some h, beq_iff_eq.1 hid⟩
    · rintro (h | ⟨_, hmem, rfl⟩)
      · exact absurd h.satisfies (hnone id h.mem)
      · cases hfind : ids.find? (· == ⟨wanted.name, none⟩) with
        | none =>
          have := List.find?_eq_none.1 hfind _ hmem
          exact absurd (beq_self_eq_true _) this
        | some found =>
          have := List.find?_some hfind
          exact congrArg some (beq_iff_eq.1 this)

/-- What is found on disk has the name that was asked for. -/
theorem name_of_onDisk? {ids : List SourceId} {id : SourceId} (h : onDisk? ids wanted = some id) :
    id ∈ ids ∧ id.name = wanted.name := by
  rcases onDisk?_eq_some_iff.1 h with hnewest | ⟨_, hmem, rfl⟩
  · exact ⟨hnewest.mem, (SourceId.satisfies_iff.1 hnewest.satisfies).1⟩
  · exact ⟨hmem, rfl⟩

/-- What is found on disk depends on the sources of that name only. -/
theorem onDisk?_congr {ids ids' : List SourceId}
    (h : ∀ id, id.name = wanted.name → (id ∈ ids ↔ id ∈ ids')) :
    onDisk? ids wanted = onDisk? ids' wanted := by
  have himp : ∀ {ids ids' : List SourceId} {id : SourceId},
      (∀ id, id.name = wanted.name → (id ∈ ids ↔ id ∈ ids')) →
      onDisk? ids wanted = some id → onDisk? ids' wanted = some id := by
    intro ids ids' id heq hid
    have hname := fun {k : SourceId} (hsat : k.satisfies wanted = true) =>
      (SourceId.satisfies_iff.1 hsat).1
    rcases onDisk?_eq_some_iff.1 hid with hnewest | ⟨hnone, hmem, hplain⟩
    · refine onDisk?_eq_some_iff.2 (.inl
        ⟨(heq id (hname hnewest.satisfies)).1 hnewest.mem, hnewest.satisfies, fun k hk hsat => ?_⟩)
      exact hnewest.le k ((heq k (hname hsat)).2 hk) hsat
    · refine onDisk?_eq_some_iff.2 (.inr
        ⟨fun k hk hsat => ?_, (heq id (hplain ▸ rfl)).1 hmem, hplain⟩)
      exact hnone k ((heq k (hname hsat)).2 hk) hsat
  exact Option.ext fun id => ⟨himp h, himp fun k hk => (h k hk).symm⟩

theorem mem_availableNames {name : String} :
    name ∈ availableNames b ↔
      (∃ id text, b.library.text? id = some text ∧ id.name = name) ∨
        ∃ id ∈ b.onDisk, id.name = name := by
  unfold availableNames
  rw [List.mem_eraseDups, List.mem_append, List.mem_map, List.mem_map]
  refine or_congr_left ⟨?_, ?_⟩
  · rintro ⟨⟨id, text⟩, hmem, hname⟩
    obtain ⟨kept, hkept⟩ := Keyed.exists_find?_of_mem (List.mem_map_of_mem hmem)
    exact ⟨id, kept, hkept, hname⟩
  · rintro ⟨id, text, htext, hname⟩
    exact ⟨(id, text), Keyed.mem_of_find? htext, hname⟩

/-- A request for a name that has no source finds nothing. -/
theorem fetch_of_not_mem_availableNames (h : wanted.name ∉ availableNames b) :
    fetch directory wanted b = .error (.missingSource wanted) := by
  have hl : b.library.lookup? wanted = none := by
    cases hl : b.library.lookup? wanted with
    | none => rfl
    | some s =>
      obtain ⟨htext, hnew⟩ := SourceLibrary.lookup?_eq_some hl
      have hname := (SourceId.satisfies_iff.1 hnew.satisfies).1
      exact absurd (mem_availableNames.2 (.inl ⟨s.id, s.text, htext, hname⟩)) h
  have hd : onDisk? b.onDisk wanted = none := by
    cases hd : onDisk? b.onDisk wanted with
    | none => rfl
    | some id =>
      obtain ⟨hmem, hname⟩ := name_of_onDisk? hd
      exact absurd (mem_availableNames.2 (.inr ⟨id, hmem, hname⟩)) h
  unfold fetch
  rw [hl, hd]

/-! ## Checking -/

/-- A module that is the one wanted satisfies the request. -/
theorem check_eq_ok (h : check wanted source = .ok m) :
    Yang.Module.parse source.text = .ok m ∧ m.sourceId.satisfies wanted = true := by
  unfold check at h
  obtain ⟨n, hn, h⟩ := Outcome.bind_eq_ok.1 h
  have hparse : Yang.Module.parse source.text = .ok n := by
    cases hp : Yang.Module.parse source.text with
    | ok k =>
      rw [hp] at hn
      cases hn
      rfl
    | error e =>
      rw [hp] at hn
      cases hn
  split at h
  · cases h
  · rename_i hname
    have hname := Decidable.of_not_not hname
    split at h
    · rename_i expected hrev
      split at h
      · rename_i hm
        cases h
        exact ⟨hparse, SourceId.satisfies_iff.2 ⟨hname, .inr (hm.trans hrev.symm)⟩⟩
      · cases h
    · rename_i hrev
      cases h
      exact ⟨hparse, SourceId.satisfies_iff.2 ⟨hname, .inl hrev⟩⟩

/-- Where a source comes from matters to its check only if the check fails. -/
theorem check_congr {source' : Source} (h : check wanted source = .ok m)
    (htext : source'.text = source.text) : check wanted source' = .ok m := by
  unfold check at h ⊢
  rw [htext]
  cases hp : Yang.Module.parse source.text with
  | ok n =>
    rw [hp] at h
    exact h
  | error e =>
    rw [hp] at h
    cases h

/-! ## Keeping -/

section
variable (directory : String) (id : SourceId) (text : String) (origin : Origin) (b : Build)

theorem persist_library : (persist directory id text b).library = b.library := by
  unfold persist
  split <;> rfl

theorem persist_compiled : (persist directory id text b).compiled = b.compiled := by
  unfold persist
  split <;> rfl

theorem keep_library :
    (keep directory id text origin b).library = (b.library.register ⟨id, text⟩).1 := by
  unfold keep
  dsimp only
  split
  · exact persist_library ..
  · rfl

theorem keep_compiled : (keep directory id text origin b).compiled = b.compiled := by
  unfold keep
  dsimp only
  split
  · exact persist_compiled ..
  · rfl

/-- Keeping a source writes it, or leaves the files and what is on disk as they were. -/
theorem keep_files :
    ((keep directory id text origin b).files = b.files ∧
      (keep directory id text origin b).onDisk = b.onDisk) ∨
    (origin = .library ∧ id ∉ b.onDisk ∧
      b.files.write (Files.join directory id.fileName) text.toUTF8 =
        .ok (keep directory id text origin b).files ∧
      (keep directory id text origin b).onDisk = b.onDisk ++ [id]) := by
  unfold keep
  dsimp only
  split
  · rename_i hcond
    unfold persist
    split
    · rename_i files hwrite
      exact .inr ⟨hcond.1, hcond.2, hwrite, rfl⟩
    · exact .inl ⟨rfl, rfl⟩
  · exact .inl ⟨rfl, rfl⟩

end

/-- Keeping a module adds no name but its own. -/
theorem mem_availableNames_keep {id : SourceId} {text name : String}
    (h : name ∈ availableNames (keep directory id text origin b)) :
    name = id.name ∨ name ∈ availableNames b := by
  rcases mem_availableNames.1 h with ⟨k, kept, hk, rfl⟩ | ⟨k, hk, rfl⟩
  · rw [keep_library, SourceLibrary.text?_register] at hk
    split at hk
    · rename_i hid
      exact .inl (congrArg SourceId.name hid)
    · exact .inr (mem_availableNames.2 (.inl ⟨k, kept, hk, rfl⟩))
  · rcases keep_files directory id text origin b with ⟨_, hdisk⟩ | ⟨_, _, _, hdisk⟩
    · rw [hdisk] at hk
      exact .inr (mem_availableNames.2 (.inr ⟨k, hk, rfl⟩))
    · rw [hdisk] at hk
      rcases List.mem_append.1 hk with hk | hk
      · exact .inr (mem_availableNames.2 (.inr ⟨k, hk, rfl⟩))
      · exact .inl (congrArg SourceId.name (List.mem_singleton.1 hk))

/-! ## Acquiring -/

theorem run_acquire (directory : String) (wanted : SourceId) (b : Build) :
    run (acquire directory wanted) b = match fetch directory wanted b with
      | .error e => (.error e, b)
      | .ok (source, origin) => match check wanted source with
        | .error e => (.error e, b)
        | .ok m => (.ok m, keep directory m.sourceId source.text origin b) := by
  unfold acquire
  simp only [run_bind, run_get, run_mk]
  cases fetch directory wanted b with
  | error e => rfl
  | ok found =>
    obtain ⟨source, origin⟩ := found
    dsimp only
    cases check wanted source <;> rfl

theorem acquire_eq_ok (h : run (acquire directory wanted) b = (.ok m, b')) :
    ∃ source origin, fetch directory wanted b = .ok (source, origin) ∧
      check wanted source = .ok m ∧ b' = keep directory m.sourceId source.text origin b := by
  rw [run_acquire] at h
  cases hf : fetch directory wanted b with
  | error e =>
    rw [hf] at h
    cases h
  | ok found =>
    obtain ⟨source, origin⟩ := found
    rw [hf] at h
    dsimp only at h
    cases hc : check wanted source with
    | error e =>
      rw [hc] at h
      cases h
    | ok n =>
      rw [hc] at h
      cases h
      exact ⟨source, origin, rfl, hc, rfl⟩

theorem name_of_acquire (h : run (acquire directory wanted) b = (.ok m, b')) :
    m.name = wanted.name := by
  obtain ⟨source, origin, _, hcheck, _⟩ := acquire_eq_ok h
  exact (SourceId.satisfies_iff.1 (check_eq_ok hcheck).2).1

theorem acquire_eq_error {e : ResolutionFailure}
    (h : run (acquire directory wanted) b = (.error e, b')) : b' = b := by
  rw [run_acquire] at h
  cases hf : fetch directory wanted b with
  | error e =>
    rw [hf] at h
    cases h
    rfl
  | ok found =>
    obtain ⟨source, origin⟩ := found
    rw [hf] at h
    dsimp only at h
    cases hc : check wanted source with
    | error e =>
      rw [hc] at h
      cases h
      rfl
    | ok n =>
      rw [hc] at h
      cases h

/-- A source that is found and fits is acquired. -/
theorem acquire_of_fetch (hf : fetch directory wanted b = .ok (source, origin))
    (hc : check wanted source = .ok m) :
    run (acquire directory wanted) b = (.ok m, keep directory m.sourceId source.text origin b) := by
  rw [run_acquire, hf]
  dsimp only
  rw [hc]

end MountRegistry.Resolution
