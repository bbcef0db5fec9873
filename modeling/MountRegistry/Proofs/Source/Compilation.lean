import MountRegistry.Proofs.Source.Acquisition

/-
  What a compilation does. `Compiling` says it for a list of requests that are compiled one after
  the other, which is what a module does with its imports and a resolution with its capabilities. A
  request is met by what is compiled already; or it is for a module under compilation, which is a
  cycle; or its module is acquired, its imports are compiled, and it is entered. There is one
  outcome only (`Compiling.unique`), and every resolution has it (`compiling_compileAll`): the names
  that `compile` counts as free are those that have a source and are not under compilation, so that
  it never gives up on a request that could be met.
-/

namespace MountRegistry

/-- The build with a module entered among the compiled ones. -/
def Build.enter (b : Build) (m : Yang.Module) : Build :=
  { b with compiled := Keyed.insert b.compiled m.sourceId m }

namespace Resolution

variable {directory : String} {chain : List String} {wanted : SourceId} {b b' : Build}

/-- Compiling requests one after the other: the modules under compilation, the requests, the build
before, the identifiers of the modules or a failure, and the build after. -/
inductive Compiling (directory : String) :
    List String → List SourceId → Build → Except ResolutionFailure (List SourceId) → Build → Prop
    where
  | done (chain : List String) (b : Build) : Compiling directory chain [] b (.ok []) b
  | known {chain : List String} {wanted id : SourceId} {rest : List SourceId} {b b' : Build}
    {r : Except ResolutionFailure (List SourceId)} (known : compiled? b wanted = some id)
    (others : Compiling directory chain rest b r b') :
    Compiling directory chain (wanted :: rest) b (r.map (id :: ·)) b'
  | cycle {chain : List String} {wanted : SourceId} {rest : List SourceId} {b : Build}
    (new : compiled? b wanted = none) (met : wanted.name ∈ chain) :
    Compiling directory chain (wanted :: rest) b (.error (.importCycle (chain ++ [wanted.name]))) b
  | refused {chain : List String} {wanted : SourceId} {rest : List SourceId} {b b' : Build}
    {e : ResolutionFailure} (new : compiled? b wanted = none) (fresh : wanted.name ∉ chain)
    (refused : run (acquire directory wanted) b = (.error e, b')) :
    Compiling directory chain (wanted :: rest) b (.error e) b'
  /-- The module is acquired, and one of its imports fails. -/
  | broken {chain : List String} {wanted : SourceId} {rest : List SourceId} {b b₁ b' : Build}
    {m : Yang.Module} {e : ResolutionFailure} (new : compiled? b wanted = none)
    (fresh : wanted.name ∉ chain) (acquired : run (acquire directory wanted) b = (.ok m, b₁))
    (imports : Compiling directory (chain ++ [m.name]) (m.imports.map (·.sourceId)) b₁ (.error e)
      b') :
    Compiling directory chain (wanted :: rest) b (.error e) b'
  | built {chain : List String} {wanted : SourceId} {rest ids : List SourceId} {b b₁ b₂ b' : Build}
    {m : Yang.Module} {r : Except ResolutionFailure (List SourceId)}
    (new : compiled? b wanted = none) (fresh : wanted.name ∉ chain)
    (acquired : run (acquire directory wanted) b = (.ok m, b₁))
    (imports : Compiling directory (chain ++ [m.name]) (m.imports.map (·.sourceId)) b₁ (.ok ids) b₂)
    (others : Compiling directory chain rest (b₂.enter m) r b') :
    Compiling directory chain (wanted :: rest) b (r.map (m.sourceId :: ·)) b'

/-- A request that is met, and the ones after it. -/
theorem Compiling.cons {id : SourceId} {rest : List SourceId} {b₁ : Build}
    {r : Except ResolutionFailure (List SourceId)}
    (first : Compiling directory chain [wanted] b (.ok [id]) b₁)
    (others : Compiling directory chain rest b₁ r b') :
    Compiling directory chain (wanted :: rest) b (r.map (id :: ·)) b' := by
  generalize hr : (.ok [id] : Except ResolutionFailure (List SourceId)) = r₁ at first
  cases first with
  | known known last =>
    cases last
    cases hr
    exact .known known others
  | built new fresh acquired imports last =>
    cases last
    cases hr
    exact .built new fresh acquired imports others
  | _ => cases hr

theorem Compiling.cons_of_error {e : ResolutionFailure}
    (first : Compiling directory chain [wanted] b (.error e) b') (rest : List SourceId) :
    Compiling directory chain (wanted :: rest) b (.error e) b' := by
  generalize hr : (.error e : Except ResolutionFailure (List SourceId)) = r₁ at first
  cases first with
  | cycle new met =>
    cases hr
    exact .cycle new met
  | refused new fresh refused =>
    cases hr
    exact .refused new fresh refused
  | broken new fresh acquired imports =>
    cases hr
    exact .broken new fresh acquired imports
  | known known last =>
    cases last
    cases hr
  | built new fresh acquired imports last =>
    cases last
    cases hr

/-- A compilation has one outcome. -/
theorem Compiling.unique {requests : List SourceId} {r s : Except ResolutionFailure (List SourceId)}
    {c : Build} (h : Compiling directory chain requests b r b')
    (k : Compiling directory chain requests b s c) : r = s ∧ b' = c := by
  induction h generalizing s c with
  | done chain b =>
    cases k
    exact ⟨rfl, rfl⟩
  | known known others ih =>
    cases k with
    | known known' others' =>
      rw [known] at known'
      cases known'
      obtain ⟨rfl, rfl⟩ := ih others'
      exact ⟨rfl, rfl⟩
    | cycle new => rw [known] at new; cases new
    | refused new => rw [known] at new; cases new
    | broken new => rw [known] at new; cases new
    | built new => rw [known] at new; cases new
  | cycle new met =>
    cases k with
    | known known => rw [known] at new; cases new
    | cycle => exact ⟨rfl, rfl⟩
    | refused _ fresh => exact absurd met fresh
    | broken _ fresh => exact absurd met fresh
    | built _ fresh => exact absurd met fresh
  | refused new fresh refused =>
    cases k with
    | known known => rw [known] at new; cases new
    | cycle _ met => exact absurd met fresh
    | refused _ _ refused' =>
      rw [refused] at refused'
      cases refused'
      exact ⟨rfl, rfl⟩
    | broken _ _ acquired => rw [refused] at acquired; cases acquired
    | built _ _ acquired => rw [refused] at acquired; cases acquired
  | broken new fresh acquired imports ih =>
    cases k with
    | known known => rw [known] at new; cases new
    | cycle _ met => exact absurd met fresh
    | refused _ _ refused => rw [refused] at acquired; cases acquired
    | broken _ _ acquired' imports' =>
      rw [acquired] at acquired'
      cases acquired'
      exact ih imports'
    | built _ _ acquired' imports' =>
      rw [acquired] at acquired'
      cases acquired'
      cases (ih imports').1
  | built new fresh acquired imports others ih₁ ih =>
    cases k with
    | known known => rw [known] at new; cases new
    | cycle _ met => exact absurd met fresh
    | refused _ _ refused => rw [refused] at acquired; cases acquired
    | broken _ _ acquired' imports' =>
      rw [acquired] at acquired'
      cases acquired'
      cases (ih₁ imports').1
    | built _ _ acquired' imports' others' =>
      rw [acquired] at acquired'
      cases acquired'
      obtain ⟨_, rfl⟩ := ih₁ imports'
      obtain ⟨rfl, rfl⟩ := ih others'
      exact ⟨rfl, rfl⟩

/-! ## Free names -/

/-- Every name that has a source is under compilation or free. -/
def Covers (free chain : List String) (b : Build) : Prop :=
  ∀ name ∈ availableNames b, name ∈ chain ∨ name ∈ free

theorem Covers.acquired {free : List String} {m : Yang.Module} (h : Covers free chain b)
    (ha : run (acquire directory wanted) b = (.ok m, b')) :
    Covers (free.erase wanted.name) (chain ++ [m.name]) b' := by
  have hname := name_of_acquire ha
  obtain ⟨source, origin, _, _, rfl⟩ := acquire_eq_ok ha
  intro name hmem
  by_cases heq : name = wanted.name
  · exact .inl (List.mem_append_right _ (List.mem_singleton.2 (heq.trans hname.symm)))
  · have hold : name ∈ availableNames b :=
      (mem_availableNames_keep hmem).resolve_left fun hm => heq (hm.trans hname)
    exact (h name hold).imp (List.mem_append_left _) fun hin => (List.mem_erase_of_ne heq).2 hin

/-- When the imports of a module are done, its name is free again. -/
theorem Covers.left {free : List String} {name : String}
    (h : Covers (free.erase name) (chain ++ [name]) b) (hfree : name ∈ free) :
    Covers free chain b := by
  intro other hmem
  rcases h other hmem with hin | hin
  · rcases List.mem_append.1 hin with hin | hin
    · exact .inl hin
    · rw [List.mem_singleton.1 hin]
      exact .inr hfree
  · exact .inr (List.mem_of_mem_erase hin)

/-- A name that is neither under compilation nor free has no source. -/
theorem Covers.acquire_eq {free : List String} (h : Covers free chain b)
    (hchain : wanted.name ∉ chain) (hfree : wanted.name ∉ free) :
    run (acquire directory wanted) b = (.error (.missingSource wanted), b) := by
  rw [run_acquire, fetch_of_not_mem_availableNames]
  intro hmem
  rcases h _ hmem with hin | hin
  · exact hchain hin
  · exact hfree hin

/-! ## Every run is a compilation -/

theorem run_compile (directory : String) (free chain : List String) (wanted : SourceId)
    (b : Build) :
    run (compile directory free chain wanted) b = match compiled? b wanted with
      | some id => (.ok id, b)
      | none =>
        if wanted.name ∈ chain then (.error (.importCycle (chain ++ [wanted.name])), b)
        else if wanted.name ∈ free then
          match run (acquire directory wanted) b with
          | (.error e, b) => (.error e, b)
          | (.ok m, b) =>
            match run (compileImports directory (free.erase wanted.name) (chain ++ [m.name])
              m.imports) b with
            | (.error e, b) => (.error e, b)
            | (.ok (), b) => (.ok m.sourceId, b.enter m)
        else (.error (.missingSource wanted), b) := by
  rw [compile]
  simp only [run_bind, run_get]
  cases compiled? b wanted with
  | some id => rfl
  | none =>
    dsimp only
    split
    · rfl
    · split
      · rw [run_bind]
        obtain ⟨r, b₁⟩ := run (acquire directory wanted) b
        cases r with
        | error e => rfl
        | ok m =>
          simp only [run_bind]
          obtain ⟨r, b₂⟩ := run (compileImports directory (free.erase wanted.name)
            (chain ++ [m.name]) m.imports) b₁
          cases r <;> rfl
      · rfl

theorem run_compileImports_cons (directory : String) (free chain : List String) (i : Yang.Import)
    (rest : List Yang.Import) (b : Build) :
    run (compileImports directory free chain (i :: rest)) b =
      match run (compile directory free chain i.sourceId) b with
      | (.error e, b) => (.error e, b)
      | (.ok _, b) => run (compileImports directory free chain rest) b := by
  rw [compileImports, run_bind]
  obtain ⟨r, b₁⟩ := run (compile directory free chain i.sourceId) b
  cases r <;> rfl

theorem compiling_run (directory : String) :
    (∀ free chain wanted b r b', Covers free chain b →
      run (compile directory free chain wanted) b = (r, b') →
      Compiling directory chain [wanted] b (r.map ([·])) b' ∧ Covers free chain b') ∧
    (∀ free chain imports b r b', Covers free chain b →
      run (compileImports directory free chain imports) b = (r, b') →
      ∃ ids, Compiling directory chain (imports.map (·.sourceId)) b ids b' ∧
        r = ids.map (fun _ => ()) ∧ Covers free chain b') := by
  apply compile.mutual_induct
  · intro free chain wanted ih b r b' hcov h
    rw [run_compile] at h
    cases hc : compiled? b wanted with
    | some id =>
      rw [hc] at h
      cases h
      exact ⟨.known hc (.done chain b), hcov⟩
    | none =>
      rw [hc] at h
      dsimp only at h
      split at h
      · rename_i hmet
        cases h
        exact ⟨.cycle hc hmet, hcov⟩
      · rename_i hfresh
        split at h
        · rename_i hfree
          rcases ha : run (acquire directory wanted) b with ⟨ra, b₁⟩
          rw [ha] at h
          cases ra with
          | error e =>
            cases h
            exact ⟨.refused hc hfresh ha, acquire_eq_error ha ▸ hcov⟩
          | ok m =>
            have hcov₁ := hcov.acquired ha
            dsimp only at h
            rcases hi : run (compileImports directory (free.erase wanted.name)
              (chain ++ [m.name]) m.imports) b₁ with ⟨ri, b₂⟩
            rw [hi] at h
            obtain ⟨ids, himports, rfl, hcov₂⟩ := ih hfree m _ _ _ hcov₁ hi
            rw [name_of_acquire ha] at hcov₂
            have hleft := hcov₂.left hfree
            cases ids with
            | error e =>
              cases h
              exact ⟨.broken hc hfresh ha himports, hleft⟩
            | ok ids =>
              cases h
              exact ⟨.built hc hfresh ha himports (.done chain (b₂.enter m)), hleft⟩
        · rename_i hfree
          cases h
          exact ⟨.refused hc hfresh (hcov.acquire_eq hfresh hfree), hcov⟩
  · intro free chain b r b' hcov h
    rw [compileImports] at h
    cases h
    exact ⟨.ok [], .done chain b, rfl, hcov⟩
  · intro free chain i rest ihi ihrest b r b' hcov h
    rw [run_compileImports_cons] at h
    rcases hi : run (compile directory free chain i.sourceId) b with ⟨ri, b₁⟩
    rw [hi] at h
    obtain ⟨hfirst, hcov₁⟩ := ihi _ _ _ hcov hi
    cases ri with
    | error e =>
      cases h
      exact ⟨.error e, hfirst.cons_of_error _, rfl, hcov₁⟩
    | ok id =>
      obtain ⟨ids, hrest, rfl, hcov'⟩ := ihrest _ _ _ hcov₁ h
      refine ⟨ids.map (id :: ·), hfirst.cons hrest, ?_, hcov'⟩
      cases ids <;> rfl

/-- The identifiers that a resolution answers: those of its requests, each once. -/
def listed (requested ids : List SourceId) : List SourceId :=
  ids.foldl (fun requested id => if id ∈ requested then requested else requested ++ [id]) requested

theorem compiling_compileAll {free : List String} {requested : List SourceId}
    {capabilities : List Capability} {r : Except ResolutionFailure (List SourceId)}
    (hcov : Covers free [] b)
    (h : run (compileAll directory free requested capabilities) b = (r, b')) :
    ∃ ids, Compiling directory [] (capabilities.map (·.sourceId)) b ids b' ∧
      r = ids.map (listed requested) := by
  induction capabilities generalizing requested b with
  | nil =>
    cases h
    exact ⟨.ok [], .done [] _, rfl⟩
  | cons c rest ih =>
    rw [compileAll, run_bind] at h
    rcases hc : run (compile directory free [] c.sourceId) b with ⟨rc, b₁⟩
    rw [hc] at h
    obtain ⟨hfirst, hcov₁⟩ := (compiling_run directory).1 _ _ _ _ _ _ hcov hc
    cases rc with
    | error e =>
      cases h
      exact ⟨.error e, hfirst.cons_of_error _, rfl⟩
    | ok id =>
      obtain ⟨ids, hrest, rfl⟩ := ih hcov₁ h
      refine ⟨ids.map (id :: ·), hfirst.cons hrest, ?_⟩
      cases ids <;> rfl

/-- What a resolution in a directory compiles, and what it makes of that. -/
theorem exists_compiling (directory : String) (capabilities : List Capability) (b : Build) :
    ∃ ids b', Compiling directory [] (capabilities.map (·.sourceId)) b ids b' ∧
      resolveIn directory capabilities b =
        ⟨b'.library, b'.files, ids.map fun ids => ⟨b'.compiled, listed [] ids, capabilities⟩⟩ := by
  rcases hrun : run (compileAll directory (availableNames b) [] capabilities) b with ⟨r, b'⟩
  obtain ⟨ids, hcompiling, rfl⟩ := compiling_compileAll (fun name hmem => .inr hmem) hrun
  refine ⟨ids, b', hcompiling, ?_⟩
  unfold resolveIn
  rw [show (compileAll directory (availableNames b) [] capabilities).run.run b =
    (ids.map (listed []), b') from hrun]
  cases ids <;> rfl

theorem resolveIn_eq {capabilities : List Capability} {r : Except ResolutionFailure (List SourceId)}
    (h : Compiling directory [] (capabilities.map (·.sourceId)) b r b') :
    resolveIn directory capabilities b =
      ⟨b'.library, b'.files, r.map fun ids => ⟨b'.compiled, listed [] ids, capabilities⟩⟩ := by
  obtain ⟨s, c, hc, hout⟩ := exists_compiling directory capabilities b
  obtain ⟨rfl, rfl⟩ := h.unique hc
  exact hout

end Resolution

end MountRegistry
