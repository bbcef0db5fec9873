import Mathlib.Data.List.Nodup
import Mathlib.Logic.Relation
import MountRegistry.Proofs.Source.Rebuild

/-
  The modules of a resolved model and their imports. `Entered` tells the modules of a build in the
  order in which they were entered, each after modules that satisfy its imports. Compiling a list of
  requests only adds to them at the end (`Compiling.answered`): each request is answered by one of
  the modules, and each new module is reached from an answer. A module is new when it is entered,
  because while its imports are compiled no other of its name is; this rests on the names under
  compilation and not on identifiers, and it is why the order has each module once.
-/

namespace MountRegistry

namespace Yang

/-- Each module comes after modules that satisfy its imports. -/
def InOrder (ms : List Module) : Prop :=
  ∀ before m after, ms = before ++ m :: after →
    ∀ i ∈ m.imports, ∃ k ∈ before, k.sourceId.satisfies i.sourceId = true

/-- An import of the first module is satisfied by the second, which is one of these. -/
def Imports (ms : List Module) (m k : Module) : Prop :=
  k ∈ ms ∧ ∃ i ∈ m.imports, k.sourceId.satisfies i.sourceId = true

theorem inOrder_nil : InOrder [] := by
  intro before m after h
  simp at h

theorem InOrder.concat {ms : List Module} {m : Module} (h : InOrder ms)
    (hm : ∀ i ∈ m.imports, ∃ k ∈ ms, k.sourceId.satisfies i.sourceId = true) :
    InOrder (ms ++ [m]) := by
  intro before k after heq
  rcases List.eq_nil_or_concat after with rfl | ⟨after', last, rfl⟩
  · obtain ⟨rfl, hk⟩ := List.append_inj' heq rfl
    cases hk
    exact hm
  · have heq' : ms ++ [m] = (before ++ k :: after') ++ [last] := by
      rw [heq]
      simp
    exact h before k after' (List.append_inj' heq' rfl).1

/-- Every import is satisfied by one of the modules. -/
theorem InOrder.closed {ms : List Module} (h : InOrder ms) {m : Module} (hm : m ∈ ms) {i : Import}
    (hi : i ∈ m.imports) : ∃ k ∈ ms, k.sourceId.satisfies i.sourceId = true := by
  obtain ⟨before, after, rfl⟩ := List.append_of_mem hm
  obtain ⟨k, hk, hsat⟩ := h before m after rfl i hi
  exact ⟨k, List.mem_append_left _ hk, hsat⟩

/-- With more modules as much is reached. -/
theorem reaches_mono {ms ns : List Module} (hsub : ms ⊆ ns) {m k : Module}
    (h : Relation.ReflTransGen (Imports ms) m k) : Relation.ReflTransGen (Imports ns) m k := by
  have himports : Imports ms ≤ Imports ns := fun _ _ ⟨hmem, hi⟩ => ⟨hsub hmem, hi⟩
  exact Relation.ReflTransGen.mono himports m k h

end Yang

namespace Resolution

open Yang (InOrder Imports)

variable {directory : String} {chain : List String} {wanted : SourceId} {b b' : Build}
  {entered more : List Yang.Module} {m k : Yang.Module} {ids requests : List SourceId}

/-! ## The compiled modules in order -/

/-- The compiled modules of a build, in the order in which they were entered. -/
structure Entered (b : Build) (entered : List Yang.Module) : Prop where
  entries : b.compiled.Perm (entered.map fun m => (m.sourceId, m))
  distinct : (entered.map (·.sourceId)).Nodup
  inOrder : InOrder entered

theorem Entered.keys (h : Entered b entered) :
    (b.compiled.map (·.1)).Perm (entered.map (·.sourceId)) := by
  have hkeys := h.entries.map (·.1)
  rw [List.map_map] at hkeys
  exact hkeys

theorem Entered.modules (h : Entered b entered) : (b.compiled.map (·.2)).Perm entered := by
  have hmodules := h.entries.map (·.2)
  rw [List.map_map] at hmodules
  simpa [Function.comp_def] using hmodules

/-- A module is entered once its imports are there. -/
theorem Entered.enter (h : Entered b entered) (hnew : m.sourceId ∉ entered.map (·.sourceId))
    (himports : ∀ i ∈ m.imports, ∃ k ∈ entered, k.sourceId.satisfies i.sourceId = true) :
    Entered (b.enter m) (entered ++ [m]) := by
  have hfresh : m.sourceId ∉ b.compiled.map (·.1) := fun hmem => hnew (h.keys.subset hmem)
  refine ⟨?_, ?_, h.inOrder.concat himports⟩
  · calc (b.enter m).compiled
        = Keyed.insert b.compiled m.sourceId m := rfl
      _ |>.Perm ((m.sourceId, m) :: b.compiled) := Keyed.perm_insert m hfresh
      _ |>.Perm ((m.sourceId, m) :: entered.map fun m => (m.sourceId, m)) := h.entries.cons _
      _ |>.Perm ((entered ++ [m]).map fun m => (m.sourceId, m)) := by
        rw [List.map_append]
        exact (List.perm_append_singleton _ _).symm
  · rw [List.map_append]
    exact List.nodup_append'.2 ⟨h.distinct, List.nodup_singleton _, by simpa using hnew⟩

theorem compiled?_eq_some {id : SourceId} (h : compiled? b wanted = some id) :
    id ∈ b.compiled.map (·.1) ∧ id.satisfies wanted = true := by
  unfold compiled? at h
  have hsat := List.find?_some h
  exact ⟨List.mem_of_find?_eq_some h, hsat⟩

/-- A request that nothing compiled satisfies is for none of the modules. -/
theorem Entered.not_satisfies (h : Entered b entered) (new : compiled? b wanted = none)
    (hk : k ∈ entered) : ¬ k.sourceId.satisfies wanted = true := by
  have hkey : k.sourceId ∈ b.compiled.map (·.1) :=
    h.keys.symm.subset (List.mem_map.2 ⟨k, hk, rfl⟩)
  exact List.find?_eq_none.1 new k.sourceId hkey

/-- What became of some requests: their answers, and the modules entered since. -/
structure Answered (requests ids : List SourceId) (entered more : List Yang.Module) : Prop where
  met : ∀ wanted ∈ requests, ∃ id ∈ ids, id.satisfies wanted = true
  asked : ∀ id ∈ ids, ∃ wanted ∈ requests, id.satisfies wanted = true
  answers : ∀ id ∈ ids, ∃ k ∈ entered ++ more, k.sourceId = id
  /-- Each new module is reached from an answer. -/
  reached : ∀ k ∈ more, ∃ top ∈ entered ++ more, top.sourceId ∈ ids ∧
    Relation.ReflTransGen (Imports (entered ++ more)) top k

theorem answered_nil (entered : List Yang.Module) : Answered [] [] entered [] :=
  ⟨by simp, by simp, by simp, by simp⟩

/-- One request is answered and then the others, all modules that came with the first being reached
from its answer. -/
theorem Answered.cons {id : SourceId} {first : List Yang.Module}
    (hsat : id.satisfies wanted = true) (hid : ∃ k ∈ entered ++ first, k.sourceId = id)
    (hfirst : ∀ k ∈ first, ∃ top ∈ entered ++ first, top.sourceId = id ∧
      Relation.ReflTransGen (Imports (entered ++ first)) top k)
    (h : Answered requests ids (entered ++ first) more) :
    Answered (wanted :: requests) (id :: ids) entered (first ++ more) := by
  have hsub : entered ++ first ⊆ entered ++ first ++ more := List.subset_append_left _ _
  have hassoc : entered ++ (first ++ more) = entered ++ first ++ more := by simp
  refine ⟨?_, ?_, ?_, ?_⟩
  · intro w hw
    rcases List.mem_cons.1 hw with rfl | hw
    · exact ⟨id, List.mem_cons_self, hsat⟩
    · obtain ⟨k, hk, hkw⟩ := h.met w hw
      exact ⟨k, List.mem_cons_of_mem _ hk, hkw⟩
  · intro k hk
    rcases List.mem_cons.1 hk with rfl | hk
    · exact ⟨wanted, List.mem_cons_self, hsat⟩
    · obtain ⟨w, hw, hkw⟩ := h.asked k hk
      exact ⟨w, List.mem_cons_of_mem _ hw, hkw⟩
  · rw [hassoc]
    intro k hk
    rcases List.mem_cons.1 hk with rfl | hk
    · obtain ⟨m, hm, hmid⟩ := hid
      exact ⟨m, hsub hm, hmid⟩
    · exact h.answers k hk
  · rw [hassoc]
    intro k hk
    rcases List.mem_append.1 hk with hk | hk
    · obtain ⟨top, htop, rfl, hreach⟩ := hfirst k hk
      exact ⟨top, hsub htop, List.mem_cons_self, Yang.reaches_mono hsub hreach⟩
    · obtain ⟨top, htop, hid, hreach⟩ := h.reached k hk
      exact ⟨top, htop, List.mem_cons_of_mem _ hid, hreach⟩

/-- Once the imports of a module are answered, each is satisfied, and the module reaches all that
came with them. -/
theorem Answered.imports (h : Answered (m.imports.map (·.sourceId)) ids entered more) :
    (∀ i ∈ m.imports, ∃ k ∈ entered ++ more, k.sourceId.satisfies i.sourceId = true) ∧
      ∀ k ∈ more, Relation.ReflTransGen (Imports (entered ++ more)) m k := by
  constructor
  · intro i hi
    obtain ⟨id, hid, hsat⟩ := h.met i.sourceId (List.mem_map.2 ⟨i, hi, rfl⟩)
    obtain ⟨k, hk, rfl⟩ := h.answers id hid
    exact ⟨k, hk, hsat⟩
  · intro k hk
    obtain ⟨top, htop, hid, hreach⟩ := h.reached k hk
    obtain ⟨wanted, hwanted, hsat⟩ := h.asked top.sourceId hid
    obtain ⟨i, hi, rfl⟩ := List.mem_map.1 hwanted
    exact Relation.ReflTransGen.head ⟨htop, i, hi, hsat⟩ hreach

/-! ## A whole compilation -/

theorem entered_congr (h : Entered b entered) (hcompiled : b'.compiled = b.compiled) :
    Entered b' entered :=
  ⟨hcompiled ▸ h.entries, h.distinct, h.inOrder⟩

/-- A module that was acquired is not there yet, and its imports do not bring another of its name:
it is entered as a new one. -/
theorem Entered.built {source : SourceId} {first : List Yang.Module} {b₁ b₂ : Build}
    (h : Entered b entered) (new : compiled? b source = none)
    (acquired : run (acquire directory source) b = (.ok m, b₁))
    (hfirst : ∀ k ∈ first, k.name ≠ m.name) (h₂ : Entered b₂ (entered ++ first))
    (himports : Answered (m.imports.map (·.sourceId)) ids entered first) :
    Entered (b₂.enter m) (entered ++ (first ++ [m])) := by
  obtain ⟨_, _, _, checked, _⟩ := acquire_eq_ok acquired
  have hsat := (check_eq_ok checked).2
  have hnew : m.sourceId ∉ (entered ++ first).map (·.sourceId) := by
    intro hmem
    obtain ⟨k, hk, hid⟩ := List.mem_map.1 hmem
    rcases List.mem_append.1 hk with hk | hk
    · have hnot := h.not_satisfies new hk
      rw [hid] at hnot
      exact hnot hsat
    · exact hfirst k hk (congrArg SourceId.name hid)
  rw [← List.append_assoc]
  exact h₂.enter hnew himports.imports.1

theorem Compiling.answered {r : Except ResolutionFailure (List SourceId)}
    (h : Compiling directory chain requests b r b') :
    ∀ ids entered, r = .ok ids → Entered b entered →
      ∃ more, Entered b' (entered ++ more) ∧ (∀ k ∈ more, k.name ∉ chain) ∧
        Answered requests ids entered more := by
  induction h with
  | done chain b =>
    intro ids entered hr he
    cases hr
    exact ⟨[], by simpa using he, by simp, answered_nil entered⟩
  | known known others ih =>
    intro ids entered hr he
    obtain ⟨rest, rfl, rfl⟩ := Outcome.map_eq_ok.1 hr
    obtain ⟨more, he', hnames, hanswered⟩ := ih rest entered rfl he
    refine ⟨more, he', hnames, ?_⟩
    obtain ⟨hkey, hsat⟩ := compiled?_eq_some known
    have hid := List.mem_map.1 (he.keys.subset hkey)
    -- nothing came with this request
    have hnone : entered ++ [] = entered := List.append_nil entered
    rw [← hnone] at hid hanswered
    exact Answered.cons hsat hid (by simp) hanswered
  | cycle => exact fun ids entered hr => nomatch hr
  | refused => exact fun ids entered hr => nomatch hr
  | broken => exact fun ids entered hr => nomatch hr
  | @built chain wanted rest ids₁ b b₁ b₂ b' m r new fresh acquired imports others ih₁ ih =>
    intro ids entered hr he
    obtain ⟨ids', rfl, rfl⟩ := Outcome.map_eq_ok.1 hr
    obtain ⟨_, _, _, checked, hb₁⟩ := acquire_eq_ok acquired
    have hname := name_of_acquire acquired
    have hcompiled : b₁.compiled = b.compiled := by
      rw [hb₁, keep_compiled]
    obtain ⟨first, he₂, hfirst, hanswered₁⟩ := ih₁ ids₁ entered rfl (entered_congr he hcompiled)
    have hother : ∀ k ∈ first, k.name ≠ m.name := by
      intro k hk heq
      exact hfirst k hk (heq ▸ List.mem_append_right _ List.mem_cons_self)
    have he₃ := he.built new acquired hother he₂ hanswered₁
    obtain ⟨more, he', hmore, hanswered⟩ := ih ids' _ rfl he₃
    refine ⟨first ++ [m] ++ more, ?_, ?_, ?_⟩
    · rw [← List.append_assoc]
      exact he'
    · intro k hk
      simp only [List.mem_append, List.mem_singleton] at hk
      rcases hk with (hk | rfl) | hk
      · exact fun hmem => hfirst k hk (List.mem_append_left _ hmem)
      · rw [hname]
        exact fresh
      · exact hmore k hk
    · have hm : m ∈ entered ++ (first ++ [m]) := by simp
      refine Answered.cons (check_eq_ok checked).2 ⟨m, hm, rfl⟩ ?_ hanswered
      -- the module reaches itself and what came with its imports
      intro k hk
      refine ⟨m, hm, rfl, ?_⟩
      rcases List.mem_append.1 hk with hk | hk
      · have hsub : entered ++ first ⊆ entered ++ (first ++ [m]) := by
          rw [← List.append_assoc]
          exact List.subset_append_left _ _
        exact Yang.reaches_mono hsub (hanswered₁.imports.2 k hk)
      · rw [List.mem_singleton.1 hk]

/-! ## The identifiers that are answered -/

theorem mem_listed {requested : List SourceId} {id : SourceId} :
    id ∈ listed requested ids ↔ id ∈ requested ∨ id ∈ ids := by
  unfold listed
  induction ids generalizing requested with
  | nil => simp
  | cons first rest ih =>
    rw [List.foldl_cons, ih, List.mem_cons]
    split
    · rename_i hmem
      constructor
      · rintro (h | h)
        · exact .inl h
        · exact .inr (.inr h)
      · rintro (h | rfl | h)
        · exact .inl h
        · exact .inl hmem
        · exact .inr h
    · rw [List.mem_append, List.mem_singleton, or_assoc]

theorem nodup_listed {requested : List SourceId} (h : requested.Nodup) :
    (listed requested ids).Nodup := by
  unfold listed
  induction ids generalizing requested with
  | nil => exact h
  | cons first rest ih =>
    rw [List.foldl_cons]
    apply ih
    split
    · exact h
    · rename_i hnot
      exact List.nodup_append'.2 ⟨h, List.nodup_singleton first, by simpa using hnot⟩

/-! ## The model -/

/-- A resolution that returns a model began a compilation with nothing compiled, which met all its
requests. -/
theorem compiling_of_resolve {cacheRoot name : String} {l : SourceLibrary} {f : Files}
    {capabilities : List Capability} {model : Yang.Model}
    (h : (resolve cacheRoot name l f capabilities).result = .ok model) :
    ∃ directory b b' ids, b.compiled = [] ∧
      Compiling directory [] (capabilities.map (·.sourceId)) b (.ok ids) b' ∧
      model = ⟨b'.compiled, listed [] ids, capabilities⟩ := by
  unfold resolve at h
  split at h
  · contradiction
  · rename_i directory _
    split at h
    · contradiction
    · rename_i files _
      split at h
      · contradiction
      · rename_i entries _
        obtain ⟨r, b', hcompiling, hout⟩ :=
          exists_compiling directory capabilities ⟨l, files, scan entries, []⟩
        rw [hout] at h
        obtain ⟨ids, rfl, rfl⟩ := Outcome.map_eq_ok.1 h
        exact ⟨directory, _, b', ids, rfl, hcompiling, rfl⟩

/-- The modules of a resolved model are a closed import graph without cycles, and no module is there
that nothing asked for. -/
theorem model_import_graph {cacheRoot name : String} {l : SourceLibrary} {f : Files}
    {capabilities : List Capability} {model : Yang.Model}
    (h : (resolve cacheRoot name l f capabilities).result = .ok model) :
    -- every entry is keyed by the identifier of its module, and no two by one
    (∀ e ∈ model.modules, e.1 = e.2.sourceId) ∧ (model.modules.map (·.1)).Nodup ∧
    -- what is requested is there, each once, each for a capability and for each capability one
    (∀ id ∈ model.requested, id ∈ model.modules.map (·.1) ∧
      ∃ c ∈ capabilities, id.satisfies c.sourceId = true) ∧
    model.requested.Nodup ∧
    (∀ c ∈ capabilities, ∃ id ∈ model.requested, id.satisfies c.sourceId = true) ∧
    -- every import is satisfied, in some order by an earlier module
    (∀ m ∈ model.moduleList, ∀ i ∈ m.imports,
      ∃ k ∈ model.moduleList, k.sourceId.satisfies i.sourceId = true) ∧
    (∃ order, order.Perm model.moduleList ∧ InOrder order) ∧
    -- every module is reached from a requested one
    (∀ m ∈ model.moduleList, ∃ top ∈ model.moduleList, top.sourceId ∈ model.requested ∧
      Relation.ReflTransGen (Imports model.moduleList) top m) := by
  obtain ⟨directory, b, b', ids, hnothing, hcompiling, rfl⟩ := compiling_of_resolve h
  have hstart : Entered b [] := ⟨by rw [hnothing]; exact .refl _, .nil, Yang.inOrder_nil⟩
  obtain ⟨order, he, _, hanswered⟩ := hcompiling.answered ids [] rfl hstart
  rw [List.nil_append] at he
  have hmodules : (b'.compiled.map (·.2)).Perm order := he.modules
  refine ⟨?_, he.keys.nodup_iff.2 he.distinct, ?_, nodup_listed .nil, ?_, ?_, ⟨order, hmodules.symm,
    he.inOrder⟩, ?_⟩
  · intro e hmem
    obtain ⟨m, _, rfl⟩ := List.mem_map.1 (he.entries.subset hmem)
    rfl
  · intro id hid
    have hid : id ∈ ids := by simpa using mem_listed.1 hid
    obtain ⟨k, hk, hkid⟩ := hanswered.answers id hid
    obtain ⟨wanted, hwanted, hsat⟩ := hanswered.asked id hid
    obtain ⟨c, hc, rfl⟩ := List.mem_map.1 hwanted
    exact ⟨he.keys.symm.subset (List.mem_map.2 ⟨k, hk, hkid⟩), c, hc, hsat⟩
  · intro c hc
    obtain ⟨id, hid, hsat⟩ := hanswered.met c.sourceId (List.mem_map.2 ⟨c, hc, rfl⟩)
    exact ⟨id, mem_listed.2 (.inr hid), hsat⟩
  · intro m hm i hi
    obtain ⟨k, hk, hsat⟩ := he.inOrder.closed (hmodules.subset hm) hi
    exact ⟨k, hmodules.symm.subset hk, hsat⟩
  · intro m hm
    obtain ⟨top, htop, hid, hreach⟩ := hanswered.reached m (hmodules.subset hm)
    exact ⟨top, hmodules.symm.subset htop, mem_listed.2 (.inr hid),
      Yang.reaches_mono hmodules.symm.subset hreach⟩

/-- A module that was asked for and its import. -/
theorem model_import_graph_interfaces :
    (resolve "/c" "d" knownSources (cached [typesFile]) [wantsInterfaces]).result =
        .ok interfacesModel ∧
      (∃ order, order.Perm [interfaces, types] ∧ InOrder order) ∧
      ∃ top ∈ [interfaces, types], top.sourceId ∈ [interfaces.sourceId] ∧
        Relation.ReflTransGen (Imports [interfaces, types]) top types := by
  have hresult := (resolve_interfaces [typesFile] rfl).1
  obtain ⟨_, _, _, _, _, _, horder, hreached⟩ := model_import_graph hresult
  exact ⟨hresult, horder, hreached types (by decide)⟩

end Resolution

end MountRegistry
