import Mathlib.Data.List.Chain
import Mathlib.Data.List.Nodup
import Mathlib.Data.List.Perm.Subperm
import Mathlib.Logic.Function.Iterate
import MountRegistry.Proofs.Source.Compilation

/-
  Compiling a module call by call. The machine here has what the recursion has at run time: the
  calls that are not over, and one list of names that all of them share, to which a call adds its
  name when its module is acquired and from which it takes it when its imports are compiled. A call
  that fails leaves the list as it is, and so do all its callers. Nothing counts the names that are
  left.

  The machine comes to the outcome of `compile` (`leads_of_compiling`), so that both the counting
  there and the list that is handed down there are as good as this. Each step keeps the calls in
  order (`Orderly.effect`): until something fails the shared list is the path of the calls, the
  names on it are different and have a source, and each call is for an import of the one around it.
  This bounds how deep calls are nested, and makes every cycle that is reported one of the import
  graph.
-/

namespace MountRegistry

/-- A call that is not over: the module that it compiles, and the imports that are still to come. -/
structure Descent.Call where
  compiling : Yang.Module
  imports : List Yang.Import

/-- What is done next. -/
inductive Descent.Turn where
  /-- A call for this request begins. -/
  | enter (wanted : SourceId)
  /-- The innermost call goes on. -/
  | proceed
  /-- A call is over, with this answer. -/
  | answered (id : SourceId)
  /-- A call has failed, and its callers fail one after the other. -/
  | failed (e : ResolutionFailure)

/-- The machine: what the resolution works on, and the calls under way. -/
structure Descent where
  build : Build
  /-- The names that all calls share. -/
  chain : List String
  /-- The calls that are not over, innermost first. -/
  calls : List Descent.Call
  turn : Descent.Turn

namespace Descent

open Resolution

/-- A call from outside begins. -/
def start (wanted : SourceId) (b : Build) : Descent := ⟨b, [], [], .enter wanted⟩

/-- What is done next. Nothing follows the answer or the failure of the outermost call. -/
def step (directory : String) (s : Descent) : Descent :=
  match s.turn with
  | .enter wanted =>
    match compiled? s.build wanted with
    | some id => { s with turn := .answered id }
    | none =>
      if wanted.name ∈ s.chain then
        let chain := s.chain ++ [wanted.name]
        { s with chain, turn := .failed (.importCycle chain) }
      else match run (acquire directory wanted) s.build with
        | (.error e, build) => { s with build, turn := .failed e }
        | (.ok m, build) => ⟨build, s.chain ++ [m.name], ⟨m, m.imports⟩ :: s.calls, .proceed⟩
  | .proceed =>
    match s.calls with
    | ⟨m, i :: rest⟩ :: outer => { s with calls := ⟨m, rest⟩ :: outer, turn := .enter i.sourceId }
    | ⟨m, []⟩ :: outer => ⟨s.build.enter m, s.chain.dropLast, outer, .answered m.sourceId⟩
    | [] => s
  | .answered _ =>
    match s.calls with
    | _ :: _ => { s with turn := .proceed }
    | [] => s
  | .failed _ => { s with calls := s.calls.tail }

/-- What the first call comes to, once it is over. -/
def outcome? (s : Descent) : Option (Except ResolutionFailure SourceId) :=
  match s.turn, s.calls with
  | .answered id, [] => some (.ok id)
  | .failed e, [] => some (.error e)
  | _, _ => none

/-- How many calls are nested in each other, with one that begins. -/
def depth (s : Descent) : Nat :=
  match s.turn with
  | .enter _ => s.calls.length + 1
  | _ => s.calls.length

/-- The modules of the calls, outermost first. -/
def modules (s : Descent) : List Yang.Module := (s.calls.map (·.compiling)).reverse

/-- The names of the calls, outermost first. -/
def path (s : Descent) : List String := s.modules.map (·.name)

variable {directory : String} {wanted : SourceId} {b b' : Build} {s t u : Descent}
  {chain : List String} {calls outer : List Call} {m : Yang.Module}

/-! ## The machine comes to the outcome of the recursion -/

/-- One comes to the other in some number of steps. -/
def Reaches (directory : String) (s t : Descent) : Prop := ∃ n, (step directory)^[n] s = t

theorem Reaches.refl (directory : String) (s : Descent) : Reaches directory s s := ⟨0, rfl⟩

theorem Reaches.head (h : Reaches directory (step directory s) t) : Reaches directory s t := by
  obtain ⟨n, hn⟩ := h
  exact ⟨n + 1, hn⟩

theorem Reaches.trans (h : Reaches directory s t) (k : Reaches directory t u) :
    Reaches directory s u := by
  obtain ⟨n, rfl⟩ := h
  obtain ⟨p, rfl⟩ := k
  exact ⟨p + n, Function.iterate_add_apply _ p n s⟩

/-- All callers of a call that failed fail. -/
theorem reaches_failed (directory : String) (b : Build) (chain : List String) (calls : List Call)
    (e : ResolutionFailure) :
    Reaches directory ⟨b, chain, calls, .failed e⟩ ⟨b, chain, [], .failed e⟩ := by
  induction calls with
  | nil => exact .refl ..
  | cons c outer ih => exact ih.head

section
variable (directory : String) (b : Build) (chain : List String) (calls outer : List Call)

theorem reaches_known {id : SourceId} (known : compiled? b wanted = some id) :
    Reaches directory ⟨b, chain, calls, .enter wanted⟩ ⟨b, chain, calls, .answered id⟩ :=
  ⟨1, by simp [step, known]⟩

theorem reaches_cycle (new : compiled? b wanted = none) (met : wanted.name ∈ chain) :
    Reaches directory ⟨b, chain, calls, .enter wanted⟩
      ⟨b, chain ++ [wanted.name], [], .failed (.importCycle (chain ++ [wanted.name]))⟩ := by
  refine Reaches.head ?_
  simp only [step, new, met, if_true]
  exact reaches_failed ..

theorem reaches_refused {e : ResolutionFailure} (new : compiled? b wanted = none)
    (fresh : wanted.name ∉ chain) (refused : run (acquire directory wanted) b = (.error e, b')) :
    Reaches directory ⟨b, chain, calls, .enter wanted⟩ ⟨b', chain, [], .failed e⟩ := by
  refine Reaches.head ?_
  simp only [step, new, fresh, if_false, refused]
  exact reaches_failed ..

theorem reaches_acquired (new : compiled? b wanted = none) (fresh : wanted.name ∉ chain)
    (acquired : run (acquire directory wanted) b = (.ok m, b')) :
    Reaches directory ⟨b, chain, calls, .enter wanted⟩
      ⟨b', chain ++ [m.name], ⟨m, m.imports⟩ :: calls, .proceed⟩ :=
  ⟨1, by simp [step, new, fresh, acquired]⟩

theorem reaches_next (m : Yang.Module) (i : Yang.Import) (rest : List Yang.Import) :
    Reaches directory ⟨b, chain, ⟨m, i :: rest⟩ :: outer, .proceed⟩
      ⟨b, chain, ⟨m, rest⟩ :: outer, .enter i.sourceId⟩ :=
  ⟨1, rfl⟩

theorem reaches_left (m : Yang.Module) :
    Reaches directory ⟨b, chain ++ [m.name], ⟨m, []⟩ :: outer, .proceed⟩
      ⟨b.enter m, chain, outer, .answered m.sourceId⟩ :=
  ⟨1, by simp [step]⟩

theorem reaches_resumed (c : Call) (id : SourceId) :
    Reaches directory ⟨b, chain, c :: outer, .answered id⟩ ⟨b, chain, c :: outer, .proceed⟩ :=
  ⟨1, rfl⟩

end

/-- The machine comes to this state if nothing fails, and else to the failure of all calls. -/
def Leads (directory : String) (s : Descent) (r : Except ResolutionFailure (List SourceId))
    (t : Descent) : Prop :=
  match r with
  | .ok _ => Reaches directory s t
  | .error e => ∃ chain, Reaches directory s ⟨t.build, chain, [], .failed e⟩

theorem Reaches.leads {r : Except ResolutionFailure (List SourceId)} (h : Reaches directory s t)
    (k : Leads directory t r u) : Leads directory s r u := by
  cases r with
  | ok ids => exact h.trans k
  | error e =>
    obtain ⟨chain, hk⟩ := k
    exact ⟨chain, h.trans hk⟩

theorem leads_map {r : Except ResolutionFailure (List SourceId)}
    {f : List SourceId → List SourceId} :
    Leads directory s (r.map f) t ↔ Leads directory s r t := by
  cases r <;> exact Iff.rfl

/-- A call goes on to the first of its imports, and has the others still to come. -/
theorem leads_next {rest : List SourceId} {imports : List Yang.Import}
    {r : Except ResolutionFailure (List SourceId)}
    (himports : imports.map (·.sourceId) = wanted :: rest)
    (hothers : ∀ others, others.map (·.sourceId) = rest →
      Leads directory ⟨b, chain, ⟨m, others⟩ :: outer, .enter wanted⟩ r t) :
    Leads directory ⟨b, chain, ⟨m, imports⟩ :: outer, .proceed⟩ r t := by
  obtain ⟨i, others, rfl, rfl, hrest⟩ := List.map_eq_cons_iff.1 himports
  exact (reaches_next directory b chain outer m i others).leads (hothers others hrest)

/-- The imports of a call are compiled one after the other. -/
theorem leads_of_compiling {requests : List SourceId}
    {r : Except ResolutionFailure (List SourceId)} (h : Compiling directory chain requests b r b') :
    ∀ m imports outer, imports.map (·.sourceId) = requests →
      Leads directory ⟨b, chain, ⟨m, imports⟩ :: outer, .proceed⟩ r
        ⟨b', chain, ⟨m, []⟩ :: outer, .proceed⟩ := by
  induction h with
  | done chain b =>
    intro m imports outer himports
    rw [List.map_eq_nil_iff.1 himports]
    exact .refl ..
  | @known chain wanted id rest b b' r known others ih =>
    intro m imports outer himports
    refine leads_next himports fun others hrest => leads_map.2 ?_
    have hknown := reaches_known directory b chain (⟨m, others⟩ :: outer) known
    exact (hknown.trans (reaches_resumed ..)).leads (ih m others outer hrest)
  | @cycle chain wanted rest b new met =>
    intro m imports outer himports
    exact leads_next himports fun others _ => ⟨_, reaches_cycle directory b chain _ new met⟩
  | @refused chain wanted rest b b' e new fresh refused =>
    intro m imports outer himports
    refine leads_next himports fun others _ => ?_
    exact ⟨_, reaches_refused directory b chain _ new fresh refused⟩
  | @broken chain wanted rest b b₁ b' k e new fresh acquired imports ih =>
    intro m imports outer himports
    refine leads_next himports fun others _ => ?_
    have hacquired := reaches_acquired directory b chain (⟨m, others⟩ :: outer) new fresh acquired
    exact hacquired.leads (ih k k.imports _ rfl)
  | @built chain wanted rest ids b b₁ b₂ b' k r new fresh acquired imports others ih₁ ih =>
    intro m imports outer himports
    refine leads_next himports fun others hrest => leads_map.2 ?_
    have hacquired := reaches_acquired directory b chain (⟨m, others⟩ :: outer) new fresh acquired
    have himports : Reaches directory _ _ := ih₁ k k.imports (⟨m, others⟩ :: outer) rfl
    have hleft := reaches_left directory b₂ chain (⟨m, others⟩ :: outer) k
    exact (((hacquired.trans himports).trans hleft).trans (reaches_resumed ..)).leads
      (ih m others outer hrest)

/-- What the first call comes to is what one request comes to. -/
theorem reaches_outcome {r : Except ResolutionFailure SourceId}
    (h : Compiling directory [] [wanted] b (r.map ([·])) b') :
    ∃ t, Reaches directory (start wanted b) t ∧ t.outcome? = some r ∧ t.build = b' := by
  generalize hr : r.map ([·]) = ids at h
  cases h with
  | @known _ _ id _ _ _ _ known others =>
    cases others
    obtain ⟨_, rfl, hid⟩ := Outcome.map_eq_ok.1 hr
    cases hid
    exact ⟨_, reaches_known directory b [] [] known, rfl, rfl⟩
  | cycle new met => cases met
  | @refused _ _ _ _ _ e new fresh refused =>
    cases r <;> cases hr
    exact ⟨_, reaches_refused directory b [] [] new fresh refused, rfl, rfl⟩
  | @broken _ _ _ _ b₁ _ m e new fresh acquired imports =>
    cases r <;> cases hr
    obtain ⟨chain, hfailed⟩ := leads_of_compiling imports m m.imports [] rfl
    exact ⟨_, (reaches_acquired directory b [] [] new fresh acquired).trans hfailed, rfl, rfl⟩
  | @built _ _ _ _ _ b₁ b₂ _ m _ new fresh acquired imports others =>
    cases others
    obtain ⟨_, rfl, hid⟩ := Outcome.map_eq_ok.1 hr
    cases hid
    have himports : Reaches directory _ _ := leads_of_compiling imports m m.imports [] rfl
    have hacquired := reaches_acquired directory b [] [] new fresh acquired
    exact ⟨_, (hacquired.trans himports).trans (reaches_left directory b₂ [] [] m), rfl, rfl⟩

/-! ## What one step does -/

/-- What a step can do, with what was found before it. -/
inductive Effect (directory : String) (s : Descent) : Descent → Prop where
  | known {wanted id : SourceId} (turn : s.turn = .enter wanted)
    (known : compiled? s.build wanted = some id) :
    Effect directory s { s with turn := .answered id }
  | cycle {wanted : SourceId} (turn : s.turn = .enter wanted) (met : wanted.name ∈ s.chain) :
    Effect directory s { s with
      chain := s.chain ++ [wanted.name]
      turn := .failed (.importCycle (s.chain ++ [wanted.name])) }
  | refused {wanted : SourceId} {e : ResolutionFailure} {b : Build} (turn : s.turn = .enter wanted)
    (refused : run (acquire directory wanted) s.build = (.error e, b)) :
    Effect directory s { s with build := b, turn := .failed e }
  | acquired {wanted : SourceId} {m : Yang.Module} {b : Build} (turn : s.turn = .enter wanted)
    (fresh : wanted.name ∉ s.chain)
    (acquired : run (acquire directory wanted) s.build = (.ok m, b)) :
    Effect directory s ⟨b, s.chain ++ [m.name], ⟨m, m.imports⟩ :: s.calls, .proceed⟩
  | next {m : Yang.Module} {i : Yang.Import} {rest : List Yang.Import} {outer : List Call}
    (turn : s.turn = .proceed) (calls : s.calls = ⟨m, i :: rest⟩ :: outer) :
    Effect directory s { s with calls := ⟨m, rest⟩ :: outer, turn := .enter i.sourceId }
  | left {m : Yang.Module} {outer : List Call} (turn : s.turn = .proceed)
    (calls : s.calls = ⟨m, []⟩ :: outer) :
    Effect directory s ⟨s.build.enter m, s.chain.dropLast, outer, .answered m.sourceId⟩
  | resumed {id : SourceId} (turn : s.turn = .answered id) :
    Effect directory s { s with turn := .proceed }
  | unwound {e : ResolutionFailure} (turn : s.turn = .failed e) :
    Effect directory s { s with calls := s.calls.tail }
  | idle : Effect directory s s

theorem effect_step (directory : String) (s : Descent) : Effect directory s (step directory s) := by
  unfold step
  split
  · rename_i wanted turn
    split
    · rename_i id known
      exact .known turn known
    · split
      · rename_i met
        exact .cycle turn met
      · rename_i fresh
        split
        · rename_i e b refused
          exact .refused turn refused
        · rename_i m b acquired
          exact .acquired turn fresh acquired
  · rename_i turn
    split
    · rename_i calls
      exact .next turn calls
    · rename_i calls
      exact .left turn calls
    · exact .idle
  · rename_i turn
    split
    · exact .resumed turn
    · exact .idle
  · rename_i turn
    exact .unwound turn

/-! ## What every step keeps -/

/-- The inner call compiles an import of the outer one. -/
def ImportedBy (inner outer : Call) : Prop :=
  ∃ i ∈ outer.compiling.imports, i.moduleName = inner.compiling.name

/-- The calls are in order, and all for names among these. -/
structure Orderly (names : List String) (s : Descent) : Prop where
  available : availableNames s.build ⊆ names
  distinct : s.path.Nodup
  known : s.path ⊆ names
  remaining : ∀ c ∈ s.calls, c.imports ⊆ c.compiling.imports
  nested : s.calls.IsChain ImportedBy
  entering : ∀ wanted, s.turn = .enter wanted → ∀ c ∈ s.calls.head?,
    ∃ i ∈ c.compiling.imports, i.moduleName = wanted.name
  /-- Until something fails, the shared names are those of the calls. -/
  shared : (∀ e, s.turn ≠ .failed e) → s.chain = s.path

theorem path_eq (s : Descent) : s.path = (s.calls.map (·.compiling.name)).reverse := by
  simp [path, modules]

theorem length_path (s : Descent) : s.path.length = s.calls.length := by
  simp [path_eq]

theorem orderly_start (wanted : SourceId) (b : Build) :
    Orderly (availableNames b) (start wanted b) := by
  constructor <;> simp [start, path, modules]

/-- What is acquired had a source, and acquiring it adds no name to those that have one. -/
theorem available_of_acquire (acquired : run (acquire directory wanted) b = (.ok m, b')) :
    wanted.name ∈ availableNames b ∧ availableNames b' ⊆ availableNames b := by
  have hwanted : wanted.name ∈ availableNames b := by
    by_contra hnot
    have hrefused := run_acquire directory wanted b
    rw [fetch_of_not_mem_availableNames hnot, acquired] at hrefused
    cases hrefused
  have hname : m.name = wanted.name := name_of_acquire acquired
  obtain ⟨source, origin, _, _, rfl⟩ := acquire_eq_ok acquired
  refine ⟨hwanted, fun name hmem => ?_⟩
  rcases mem_availableNames_keep hmem with rfl | hold
  · show m.name ∈ availableNames b
    rw [hname]
    exact hwanted
  · exact hold

variable {names : List String}

/-- With no call that begins, the outer ones of orderly calls are in order. -/
theorem Orderly.of_suffix (h : Orderly names s) {b : Build} {chain : List String}
    {calls : List Call} {turn : Turn} (hcalls : calls <:+ s.calls)
    (havailable : availableNames b ⊆ names) (henter : ∀ wanted, turn ≠ .enter wanted)
    (hshared : (∀ e, turn ≠ .failed e) → chain = (calls.map (·.compiling.name)).reverse) :
    Orderly names ⟨b, chain, calls, turn⟩ := by
  have hsub : (path ⟨b, chain, calls, turn⟩).Sublist s.path := by
    rw [path_eq, path_eq]
    exact (hcalls.sublist.map _).reverse
  refine ⟨havailable, hsub.nodup h.distinct, fun name hname => h.known (hsub.subset hname),
    fun c hc => h.remaining c (hcalls.subset hc), h.nested.suffix hcalls,
    fun wanted hturn => ?_, ?_⟩
  · exact absurd hturn (henter wanted)
  · rw [path_eq]
    exact hshared

theorem Orderly.effect (h : Orderly names s) (he : Effect directory s t) : Orderly names t := by
  cases he with
  | known turn known =>
    have hshared : s.chain = s.path := h.shared (by simp [turn])
    exact h.of_suffix List.suffix_rfl h.available (by simp) fun _ => hshared.trans (path_eq s)
  | cycle turn met =>
    exact h.of_suffix List.suffix_rfl h.available (by simp) fun hok => absurd rfl (hok _)
  | refused turn refused =>
    rw [acquire_eq_error refused]
    exact h.of_suffix List.suffix_rfl h.available (by simp) fun hok => absurd rfl (hok _)
  | @acquired wanted m b turn fresh acquired =>
    obtain ⟨hwanted, hkept⟩ := available_of_acquire acquired
    have hname : m.name = wanted.name := name_of_acquire acquired
    have hshared : s.chain = s.path := h.shared (by simp [turn])
    have hpath : path ⟨b, s.chain ++ [m.name], ⟨m, m.imports⟩ :: s.calls, .proceed⟩ =
        s.path ++ [m.name] := by
      simp [path_eq]
    refine ⟨fun name hmem => h.available (hkept hmem), ?_, ?_, ?_, ?_,
      (fun _ hturn => nomatch hturn), fun _ => ?_⟩
    · rw [hpath, hname]
      rw [hshared] at fresh
      exact List.nodup_append'.2 ⟨h.distinct, List.nodup_singleton _, by simpa using fresh⟩
    · rw [hpath, hname]
      intro name hmem
      rcases List.mem_append.1 hmem with hmem | hmem
      · exact h.known hmem
      · rw [List.mem_singleton.1 hmem]
        exact h.available hwanted
    · intro c hc
      rcases List.mem_cons.1 hc with rfl | hc
      · exact fun i hi => hi
      · exact h.remaining c hc
    · refine h.nested.cons fun c hc => ?_
      obtain ⟨i, hi, himport⟩ := h.entering wanted turn c hc
      exact ⟨i, hi, himport.trans hname.symm⟩
    · rw [hpath, hshared]
  | @next m i rest outer turn calls =>
    have hpath :
        path { s with calls := ⟨m, rest⟩ :: outer, turn := .enter i.sourceId } = s.path := by
      simp [path_eq, calls]
    have hremaining := h.remaining ⟨m, i :: rest⟩ (by simp [calls])
    have hnested := h.nested
    rw [calls] at hnested
    refine ⟨h.available, hpath ▸ h.distinct, hpath ▸ h.known, ?_, ?_, ?_, fun _ => ?_⟩
    · intro c hc
      rcases List.mem_cons.1 hc with rfl | hc
      · exact fun j hj => hremaining (List.mem_cons_of_mem i hj)
      · exact h.remaining c (by simp [calls, hc])
    · cases outer with
      | nil => exact .singleton _
      | cons c outer =>
        obtain ⟨himport, hrest⟩ := List.isChain_cons_cons.1 hnested
        exact List.isChain_cons_cons.2 ⟨himport, hrest⟩
    · intro wanted hturn c hc
      cases hturn
      cases hc
      exact ⟨i, hremaining List.mem_cons_self, rfl⟩
    · rw [hpath]
      exact h.shared (by simp [turn])
  | @left m outer turn calls =>
    have hshared : s.chain = s.path := h.shared (by simp [turn])
    have hcalls : outer <:+ s.calls := ⟨[⟨m, []⟩], by simp [calls]⟩
    refine h.of_suffix hcalls h.available (by simp) fun _ => ?_
    rw [hshared, path_eq, calls]
    simp
  | resumed turn =>
    have hshared : s.chain = s.path := h.shared (by simp [turn])
    exact h.of_suffix List.suffix_rfl h.available (by simp) fun _ => hshared.trans (path_eq s)
  | @unwound e turn =>
    exact h.of_suffix (List.tail_suffix s.calls) h.available (by simp [turn]) fun hok =>
      absurd turn (hok e)
  | idle => exact h

theorem Orderly.after (h : Orderly names s) (directory : String) (n : Nat) :
    Orderly names ((step directory)^[n] s) := by
  induction n with
  | zero => exact h
  | succ n ih =>
    rw [Function.iterate_succ_apply']
    exact ih.effect (effect_step directory _)

/-- Calls with different names among these are no more than these. -/
theorem Orderly.depth_le (h : Orderly names s) : s.depth ≤ names.length + 1 := by
  have hle : s.path.length ≤ names.length := (List.subperm_of_subset h.distinct h.known).length_le
  rw [length_path] at hle
  unfold depth
  split <;> omega

/-! ## Cycles -/

theorem fetch_ne_importCycle {e : ResolutionFailure} (h : fetch directory wanted b = .error e)
    (names : List String) : e ≠ .importCycle names := by
  rintro rfl
  unfold fetch at h
  split at h
  · cases h
  · split at h
    · cases h
    · dsimp only at h
      split at h <;> cases h

theorem check_ne_importCycle {source : Source} {e : ResolutionFailure}
    (h : check wanted source = .error e) (names : List String) : e ≠ .importCycle names := by
  rintro rfl
  unfold check at h
  cases hparse : Yang.Module.parse source.text with
  | error cause =>
    rw [hparse] at h
    cases h
  | ok m =>
    rw [hparse] at h
    dsimp only [Except.mapError, bind, Except.bind] at h
    split at h
    · cases h
    · split at h
      · split at h <;> cases h
      · cases h

/-- A source that cannot be acquired is no cycle. -/
theorem acquire_ne_importCycle {e : ResolutionFailure}
    (h : run (acquire directory wanted) b = (.error e, b')) (names : List String) :
    e ≠ .importCycle names := by
  rw [run_acquire] at h
  cases hfetch : fetch directory wanted b with
  | error cause =>
    rw [hfetch] at h
    cases h
    exact fetch_ne_importCycle hfetch names
  | ok found =>
    obtain ⟨source, origin⟩ := found
    rw [hfetch] at h
    dsimp only at h
    cases hcheck : check wanted source with
    | error cause =>
      rw [hcheck] at h
      cases h
      exact check_ne_importCycle hcheck names
    | ok m =>
      rw [hcheck] at h
      cases h

/-- A cycle that is reported was met when a call began for a name under compilation. -/
theorem exists_met (directory : String) (wanted : SourceId) (b : Build) (n : Nat)
    {names : List String}
    (h : ((step directory)^[n] (start wanted b)).turn = .failed (.importCycle names)) :
    ∃ k again, ((step directory)^[k] (start wanted b)).turn = .enter again ∧
      again.name ∈ ((step directory)^[k] (start wanted b)).chain ∧
      names = ((step directory)^[k] (start wanted b)).chain ++ [again.name] := by
  induction n with
  | zero => cases h
  | succ n ih =>
    rw [Function.iterate_succ_apply'] at h
    generalize hs : (step directory)^[n] (start wanted b) = s at h ih
    have he := effect_step directory s
    generalize step directory s = t at h he
    cases he with
    | known => cases h
    | @cycle again turn met =>
      cases h
      rw [← hs] at turn met
      exact ⟨n, again, turn, met, by rw [hs]⟩
    | refused turn refused =>
      exact absurd (Turn.failed.inj h) (acquire_ne_importCycle refused names)
    | acquired => cases h
    | next => cases h
    | left => cases h
    | resumed => cases h
    | unwound turn => exact ih h
    | idle => exact ih h

theorem turn_of_outcome? {e : ResolutionFailure} (h : s.outcome? = some (.error e)) :
    s.turn = .failed e := by
  unfold outcome? at h
  split at h
  · cases h
  · rename_i hturn _
    cases h
    exact hturn
  · cases h

/-- Of nested calls each name is imported by the module before it, and the last name by the
innermost of them. -/
theorem walk_of_nested {last : String} (h : calls.IsChain ImportedBy)
    (hlast : ∀ c ∈ calls.head?, ∃ i ∈ c.compiling.imports, i.moduleName = last) (k : Nat)
    {m : Yang.Module} {next : String} (hm : (calls.map (·.compiling)).reverse[k]? = some m)
    (hnext : ((calls.map (·.compiling.name)).reverse ++ [last])[k + 1]? = some next) :
    ∃ i ∈ m.imports, i.moduleName = next := by
  induction calls generalizing last with
  | nil => simp at hm
  | cons c outer ih =>
    rw [List.map_cons, List.reverse_cons] at hm hnext
    have hlen : (outer.map (·.compiling)).reverse.length = outer.length := by simp
    have hlen' : (outer.map (·.compiling.name)).reverse.length = outer.length := by simp
    by_cases hk : k < outer.length
    · rw [List.getElem?_append_left (by omega)] at hm
      rw [List.getElem?_append_left (by simp; omega)] at hnext
      refine ih h.tail (fun o ho => ?_) hm hnext
      obtain ⟨o', outer', rfl⟩ : ∃ o' outer', outer = o' :: outer' := by
        cases outer with
        | nil => contradiction
        | cons o' outer' => exact ⟨o', outer', rfl⟩
      cases ho
      exact (List.isChain_cons_cons.1 h).1
    · have hlt : k < outer.length + 1 := by
        obtain ⟨hlt, _⟩ := List.getElem?_eq_some_iff.1 hm
        simpa using hlt
      have hk : k = outer.length := by omega
      subst hk
      have hcm : c.compiling = m := by simpa [hlen] using hm
      have hname : last = next := by simpa [hlen'] using hnext
      obtain ⟨i, hi, hmodule⟩ := hlast c rfl
      rw [← hcm, ← hname]
      exact ⟨i, hi, hmodule⟩

/-- Compiling a module ends, with calls nested at most one deeper than there are names that have a
source, the shared list being the path of the calls until something fails. A cycle is reported only
where there is one: each name of it is imported by the module that is being compiled for the name
before, all but the last are different, and the last is one of them. What the recursion counts as
free does not matter, as long as all names that have a source are among it. -/
theorem compile_descends (directory : String) (wanted : SourceId) {b : Build} {free : List String}
    (hfree : availableNames b ⊆ free) :
    let state (n : Nat) := (step directory)^[n] (start wanted b)
    let out := run (compile directory free [] wanted) b
    (∃ n, (state n).outcome? = some out.1 ∧ (state n).build = out.2) ∧
    (∀ n, (state n).depth ≤ (availableNames b).length + 1) ∧
    (∀ n, (∀ e, (state n).turn ≠ .failed e) → (state n).chain = (state n).path) ∧
    ∀ names, out.1 = .error (.importCycle names) →
      ∃ n again, (state n).turn = .enter again ∧
        names = (state n).modules.map (·.name) ++ [again.name] ∧
        ((state n).modules.map (·.name)).Nodup ∧ again.name ∈ (state n).modules.map (·.name) ∧
        ∀ k m next, (state n).modules[k]? = some m → names[k + 1]? = some next →
          ∃ i ∈ m.imports, i.moduleName = next := by
  intro state out
  have horderly : ∀ n, Orderly (availableNames b) (state n) := fun n =>
    (orderly_start wanted b).after directory n
  obtain ⟨hcompiling, _⟩ := (compiling_run directory).1 free [] wanted b out.1 out.2
    (fun name hmem => .inr (hfree hmem)) rfl
  obtain ⟨t, ⟨last, rfl⟩, hout, hbuild⟩ := reaches_outcome hcompiling
  refine ⟨⟨last, hout, hbuild⟩, fun n => (horderly n).depth_le, fun n => (horderly n).shared, ?_⟩
  intro names herror
  rw [herror] at hout
  have hfailed := turn_of_outcome? hout
  obtain ⟨n, again, hturn, hmet, hnames⟩ := exists_met directory wanted b last hfailed
  have hshared : (state n).chain = (state n).path := (horderly n).shared (by simp [state, hturn])
  have hmet' : again.name ∈ (state n).path := hshared ▸ hmet
  refine ⟨n, again, hturn, hnames.trans (congrArg (· ++ [again.name]) hshared),
    (horderly n).distinct, hmet', fun k m next hm hnext => ?_⟩
  refine walk_of_nested (horderly n).nested ((horderly n).entering again hturn) k hm ?_
  rw [← path_eq, ← hshared, ← hnames]
  exact hnext

/-! ## Two modules that import each other -/

/-- A module that imports `b`. -/
def moduleA : Yang.Module := ⟨"a", "u", "a", none, [⟨"b", none, none⟩], []⟩

/-- A module that imports `a`. -/
def moduleB : Yang.Module := ⟨"b", "v", "b", none, [⟨"a", none, none⟩], []⟩

/-- The source of `a`. -/
def sourceA : Source := ⟨moduleA.sourceId, "module a \x7b namespace u; prefix a; import b; \x7d"⟩

/-- The source of `b`. -/
def sourceB : Source := ⟨moduleB.sourceId, "module b \x7b namespace v; prefix b; import a; \x7d"⟩

/-- A build with both sources in memory, and no files. -/
def mutualImports : Build :=
  ⟨((SourceLibrary.empty.register sourceA).1.register sourceB).1, .empty "", [], []⟩

/-- What compiling a request comes to, by any account of it. -/
theorem run_compile_eq {free : List String} {r : Except ResolutionFailure SourceId}
    (hfree : availableNames b ⊆ free)
    (h : Compiling directory [] [wanted] b (r.map ([·])) b') :
    run (compile directory free [] wanted) b = (r, b') := by
  rcases hrun : run (compile directory free [] wanted) b with ⟨r', c⟩
  obtain ⟨hcompiling, _⟩ := (compiling_run directory).1 _ _ _ _ _ _
    (fun name hmem => .inr (hfree hmem)) hrun
  obtain ⟨hsame, rfl⟩ := hcompiling.unique h
  cases r <;> cases r' <;> cases hsame <;> rfl

/-- Compiling one of them comes to a cycle, which the general theorem finds among the calls. -/
theorem compile_descends_mutualImports :
    availableNames mutualImports ⊆ ["a", "b"] ∧
      (run (compile "/c/d" ["a", "b"] [] moduleA.sourceId) mutualImports).1 =
        .error (.importCycle ["a", "b", "a"]) ∧
      (∀ n, ((step "/c/d")^[n] (start moduleA.sourceId mutualImports)).depth ≤ 3) ∧
      ∃ n again, ((step "/c/d")^[n] (start moduleA.sourceId mutualImports)).turn = .enter again ∧
        ["a", "b", "a"] =
          ((step "/c/d")^[n] (start moduleA.sourceId mutualImports)).modules.map (·.name) ++
            [again.name] := by
  let b := keep "/c/d" moduleA.sourceId sourceA.text .library mutualImports
  have hA : fetch "/c/d" moduleA.sourceId mutualImports = .ok (sourceA, .library) := rfl
  have hB : fetch "/c/d" moduleB.sourceId b = .ok (sourceB, .library) := rfl
  have checkedA : check moduleA.sourceId sourceA = .ok moduleA := rfl
  have checkedB : check moduleB.sourceId sourceB = .ok moduleB := rfl
  have himports : Compiling "/c/d" ["a"] [moduleB.sourceId] b
      (.error (.importCycle ["a", "b", "a"])) _ :=
    .broken rfl (by decide) (acquire_of_fetch hB checkedB) (.cycle rfl (by decide))
  have hcompiling : Compiling "/c/d" [] [moduleA.sourceId] mutualImports
      (Except.map ([·]) (.error (.importCycle ["a", "b", "a"]))) _ :=
    .broken rfl (by decide) (acquire_of_fetch hA checkedA) himports
  have hfree : availableNames mutualImports ⊆ ["a", "b"] := by decide
  have hresult := congrArg Prod.fst (run_compile_eq hfree hcompiling)
  obtain ⟨_, hdepth, _, hcycle⟩ := compile_descends "/c/d" moduleA.sourceId hfree
  obtain ⟨n, again, hturn, hnames, _⟩ := hcycle _ hresult
  exact ⟨hfree, hresult, hdepth, n, again, hturn, hnames⟩

end Descent

end MountRegistry
