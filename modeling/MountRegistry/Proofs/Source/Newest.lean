import MountRegistry.Proofs.Files.Change
import MountRegistry.Proofs.Source.ImportGraph

/-
  Which revision a request without one gets. Such a request is looked up only if nothing of its name
  is compiled or under compilation, and so nothing of that name came to the library or to the
  directory since the resolution began: it finds what it would have found then (`Since.fetch_eq`).
  By induction over a compilation each module of a model is one that was asked for by its very
  revision or the one that the request for its name found at the beginning (`Compiling.chosen`).
  That one is the newest of the library, or the newest that the directory announced if the library
  had none of the name. A revision in the directory is passed over for an older one in the library,
  and what was asked for by its revision is taken where none is asked for (`newer_passed_over`).
-/

namespace MountRegistry

/-- The modules compiled so far. -/
def Build.modules (b : Build) : List Yang.Module := b.compiled.map (·.2)

namespace Resolution

open SourceLibrary

variable {directory : String} {opened requests requests' : List SourceId} {id wanted : SourceId}
  {start b b' b₁ b₂ : Build} {m n : Yang.Module} {ms ns : List Yang.Module} {source : Source}
  {origin : Origin}

/-! ## Names that are taken -/

/-- A module of this name is under compilation or compiled. -/
def Taken (opened : List SourceId) (b : Build) (name : String) : Prop :=
  name ∈ opened.map (·.name) ∨ ∃ id ∈ b.compiled.map (·.1), id.name = name

theorem taken_keep (opened : List SourceId) (directory : String) (id : SourceId) (text : String)
    (origin : Origin) (b : Build) (name : String) (h : Taken opened b name) :
    Taken (opened ++ [id]) (keep directory id text origin b) name := by
  unfold Taken
  rw [keep_compiled, List.map_append]
  exact h.imp_left (List.mem_append_left _)

theorem Taken.enter {name : String} (h : Taken (opened ++ [m.sourceId]) b name) :
    Taken opened (b.enter m) name := by
  rcases h with hopened | ⟨k, hk, hname⟩
  · rw [names_concat, List.mem_append, List.mem_singleton] at hopened
    rcases hopened with hopened | rfl
    · exact .inl hopened
    · exact .inr ⟨m.sourceId, Keyed.mem_keys_insert.2 (.inl rfl), rfl⟩
  · exact .inr ⟨k, Keyed.mem_keys_insert.2 (.inr hk), hname⟩

/-- A new request without a revision is for a name that is not taken. -/
theorem not_taken (hopen : wanted.revision = none) (new : compiled? b wanted = none)
    (fresh : wanted.name ∉ opened.map (·.name)) : ¬ Taken opened b wanted.name := by
  rintro (hopened | ⟨k, hk, hname⟩)
  · exact fresh hopened
  · exact List.find?_eq_none.1 new k hk (SourceId.satisfies_iff.2 ⟨hname, .inl hopen⟩)

/-- What a file has is the text of a module whose name is taken. -/
def TakenText (opened : List SourceId) (b : Build) (bytes : ByteArray) : Prop :=
  ∃ text m, bytes = text.toUTF8 ∧ Yang.Module.parse text = .ok m ∧ Taken opened b m.name

theorem TakenText.mono {opened' : List SourceId} {bytes : ByteArray} (h : TakenText opened b bytes)
    (htaken : ∀ name, Taken opened b name → Taken opened' b' name) :
    TakenText opened' b' bytes := by
  obtain ⟨text, k, hbytes, hk, hname⟩ := h
  exact ⟨text, k, hbytes, hk, htaken k.name hname⟩

/-! ## Since the beginning -/

/-- A build on its way from the one at the beginning: what came to the library, to the directory and
into its files is of names that are taken. -/
structure Since (start : Build) (opened : List SourceId) (b : Build) : Prop where
  extended : start.library.Extends b.library
  accounted : Accounted start.library opened b
  kept : ∀ id ∈ start.onDisk, id ∈ b.onDisk
  added : ∀ id ∈ b.onDisk, id ∈ start.onDisk ∨ Taken opened b id.name
  files : start.files.Changed (fun _ => False) (fun _ => TakenText opened b) b.files
  entered : ∃ modules, Entered b modules

theorem since_start (h : start.compiled = []) : Since start [] start := by
  refine ⟨.refl _, fun id text htext => .inl htext, fun id hid => hid, fun id hid => .inl hid,
    .refl _ _ _, [], ?_, .nil, Yang.inOrder_nil⟩
  rw [h]
  exact .refl _

/-- A request without a revision finds what it would have found at the beginning. -/
theorem Since.fetch_eq (h : Since start opened b) (hopen : wanted.revision = none)
    (new : compiled? b wanted = none) (fresh : wanted.name ∉ opened.map (·.name))
    (found : fetch directory wanted b = .ok (source, origin))
    (checked : check wanted source = .ok m) :
    fetch directory wanted start = .ok (source, origin) := by
  have htaken := not_taken hopen new fresh
  have hlibrary : start.library.lookup? wanted = b.library.lookup? wanted := by
    refine lookup?_congr fun k hsat => Option.ext fun text => ⟨h.extended k text, fun hk => ?_⟩
    exact h.accounted.text? new fresh hk hsat
  have hdisk : onDisk? start.onDisk wanted = onDisk? b.onDisk wanted := by
    refine onDisk?_congr fun k hname => ⟨h.kept k, fun hk => ?_⟩
    exact (h.added k hk).resolve_right (hname ▸ htaken)
  unfold fetch
  rw [hlibrary, hdisk]
  rcases fetch_eq_ok found with ⟨rfl, hlookup⟩ | ⟨rfl, hlookup, hid, htext⟩
  · rw [hlookup]
  · rw [hlookup, hid]
    dsimp only
    rcases h.files.readText_earlier htext with hold | ⟨_, _, ⟨text, k, rfl, hk, hkname⟩, hbytes⟩
    · rw [hold]
    · -- the text of another module cannot have come there
      rw [Files.fromUTF8?_toUTF8] at hbytes
      obtain ⟨hm, hsat⟩ := check_eq_ok checked
      rw [← Option.some.inj hbytes, hk] at hm
      cases hm
      exact absurd ((SourceId.satisfies_iff.1 hsat).1 ▸ hkname) htaken

theorem Since.acquired (h : Since start opened b)
    (acquired : run (acquire directory wanted) b = (.ok m, b₁)) :
    Since start (opened ++ [m.sourceId]) b₁ := by
  have hextended := h.extended.trans (extends_acquire acquired)
  obtain ⟨source, origin, _, checked, rfl⟩ := acquire_eq_ok acquired
  have haccounted := h.accounted.keep directory m.sourceId source.text origin
  have hcompiled := keep_compiled directory m.sourceId source.text origin b
  have hlater := taken_keep opened directory m.sourceId source.text origin b
  have hself : Taken (opened ++ [m.sourceId])
      (keep directory m.sourceId source.text origin b) m.name := by
    refine .inl ?_
    rw [names_concat]
    exact List.mem_append_right _ List.mem_cons_self
  obtain ⟨modules, hentered⟩ := h.entered
  have hentered := entered_congr hentered hcompiled
  have hadded := fun k hk => (h.added k hk).imp_right (hlater k.name)
  have hfiles := h.files.mono (fun _ hp => hp) fun _ bytes hbytes => hbytes.mono hlater
  rcases keep_files directory m.sourceId source.text origin b with
    ⟨hsame, honDisk⟩ | ⟨_, _, hwrite, honDisk⟩
  · exact ⟨hextended, haccounted, honDisk ▸ h.kept, honDisk ▸ hadded, hsame ▸ hfiles, modules,
      hentered⟩
  · obtain ⟨_, _, hchanged⟩ := Files.changed_write (fun _ => False) hwrite
    refine ⟨hextended, haccounted, ?_, ?_, ?_, modules, hentered⟩
    · rw [honDisk]
      exact fun k hk => List.mem_append_left _ (h.kept k hk)
    · rw [honDisk]
      intro k hk
      rcases List.mem_append.1 hk with hk | hk
      · exact hadded k hk
      · rw [List.mem_singleton.1 hk]
        exact .inr hself
    · refine hfiles.trans (hchanged.mono (fun _ hp => hp) ?_)
      rintro _ _ ⟨_, rfl⟩
      exact ⟨source.text, m, rfl, (check_eq_ok checked).1, hself⟩

theorem Since.enter (h : Since start (opened ++ [m.sourceId]) b)
    (hentered : ∃ modules, Entered (b.enter m) modules) : Since start opened (b.enter m) := by
  refine ⟨h.extended, h.accounted.enter, h.kept, fun k hk => (h.added k hk).imp_right (·.enter), ?_,
    hentered⟩
  exact h.files.mono (fun _ hp => hp) fun _ bytes hbytes => hbytes.mono fun _ hname => hname.enter

/-- Compiling the imports of a module adds modules, and entering it adds it to these. -/
theorem Entered.imports {chain : List String} {ids : List SourceId} (h : Entered b ms)
    (new : compiled? b wanted = none)
    (acquired : run (acquire directory wanted) b = (.ok m, b₁))
    (imports : Compiling directory (chain ++ [m.name]) (m.imports.map (·.sourceId)) b₁ (.ok ids)
      b₂) :
    ∃ first, Entered b₂ (ms ++ first) ∧ Entered (b₂.enter m) (ms ++ (first ++ [m])) := by
  have hcompiled : b₁.compiled = b.compiled := by
    obtain ⟨_, _, _, _, rfl⟩ := acquire_eq_ok acquired
    exact keep_compiled ..
  obtain ⟨first, h₂, hnames, hanswered⟩ := imports.answered ids ms rfl (entered_congr h hcompiled)
  have hother : ∀ k ∈ first, k.name ≠ m.name := by
    intro k hk heq
    exact hnames k hk (heq ▸ List.mem_append_right _ List.mem_cons_self)
  exact ⟨first, h₂, h.built new acquired hother h₂ hanswered⟩

/-! ## Why a module is there -/

/-- One of the requests, or an import of one of the modules, asks for this very revision. -/
def Asked (requests : List SourceId) (ms : List Yang.Module) (id : SourceId) : Prop :=
  id.revision ≠ none ∧ (id ∈ requests ∨ ∃ m ∈ ms, ∃ i ∈ m.imports, i.sourceId = id)

/-- The module that a request for its name found at the beginning. -/
def FoundFirst (directory : String) (start : Build) (m : Yang.Module) : Prop :=
  ∃ source origin, fetch directory ⟨m.name, none⟩ start = .ok (source, origin) ∧
    check ⟨m.name, none⟩ source = .ok m

/-- The two ways in which a module comes into a model. -/
def Chosen (directory : String) (start : Build) (requests : List SourceId)
    (ms : List Yang.Module) (m : Yang.Module) : Prop :=
  Asked requests ms m.sourceId ∨ FoundFirst directory start m

theorem FoundFirst.unique (h : FoundFirst directory start m) (k : FoundFirst directory start n)
    (hname : m.name = n.name) : m = n := by
  obtain ⟨source, origin, found, checked⟩ := h
  obtain ⟨source', origin', found', checked'⟩ := k
  rw [← hname, found] at found'
  cases found'
  rw [← hname, checked] at checked'
  exact Except.ok.inj checked'

theorem Chosen.mono (h : Chosen directory start requests ms m) (hrequests : requests ⊆ requests')
    (hmodules : ms ⊆ ns) : Chosen directory start requests' ns m := by
  refine h.imp_left fun ⟨hrevision, hasked⟩ => ⟨hrevision, hasked.imp (hrequests ·) ?_⟩
  rintro ⟨k, hk, hi⟩
  exact ⟨k, hmodules hk, hi⟩

/-- What the imports of a module ask for is asked for by a module. -/
theorem Chosen.of_imports (h : Chosen directory start (n.imports.map (·.sourceId)) ms m)
    (hn : n ∈ ms) (requests : List SourceId) : Chosen directory start requests ms m := by
  refine h.imp_left fun ⟨hrevision, hasked⟩ => ⟨hrevision, .inr ?_⟩
  rcases hasked with hrequest | hmodule
  · obtain ⟨i, hi, heq⟩ := List.mem_map.1 hrequest
    exact ⟨n, hn, i, hi, heq⟩
  · exact hmodule

theorem Since.chosen (h : Since start opened b) (new : compiled? b wanted = none)
    (fresh : wanted.name ∉ opened.map (·.name))
    (acquired : run (acquire directory wanted) b = (.ok m, b₁)) (rest : List SourceId)
    (ms : List Yang.Module) : Chosen directory start (wanted :: rest) ms m := by
  obtain ⟨source, origin, found, checked, _⟩ := acquire_eq_ok acquired
  obtain ⟨hname, hrevision⟩ := SourceId.satisfies_iff.1 (check_eq_ok checked).2
  obtain ⟨name, revision⟩ := wanted
  cases revision with
  | none =>
    have hfirst := h.fetch_eq rfl new fresh found checked
    cases hname
    exact .inr ⟨source, origin, hfirst, checked⟩
  | some revision =>
    have hrevision : m.revision = some revision := hrevision.resolve_left (fun h => nomatch h)
    have hid : m.sourceId = ⟨name, some revision⟩ := by
      rw [Yang.Module.sourceId, hrevision]
      exact congrArg (SourceId.mk · _) hname
    rw [Chosen, hid]
    exact .inl ⟨(fun h => nomatch h), .inl List.mem_cons_self⟩

/-- Each module that a compilation adds is there for one of the two reasons. -/
theorem Compiling.chosen {chain : List String} {r : Except ResolutionFailure (List SourceId)}
    (h : Compiling directory chain requests b r b') :
    ∀ ids opened, r = .ok ids → opened.map (·.name) = chain → Since start opened b →
      Since start opened b' ∧ b.modules ⊆ b'.modules ∧
        ∀ k ∈ b'.modules, k ∈ b.modules ∨ Chosen directory start requests b'.modules k := by
  induction h with
  | done chain b =>
    exact fun ids opened _ _ hb => ⟨hb, List.Subset.refl _, fun k hk => .inl hk⟩
  | known known others ih =>
    intro ids opened hr hchain hb
    obtain ⟨rest, rfl, _⟩ := Outcome.map_eq_ok.1 hr
    obtain ⟨hb', hsub, hchosen⟩ := ih rest opened rfl hchain hb
    exact ⟨hb', hsub, fun k hk => (hchosen k hk).imp_right
      (·.mono (List.subset_cons_self _ _) (List.Subset.refl _))⟩
  | cycle => exact fun ids opened hr => nomatch hr
  | refused => exact fun ids opened hr => nomatch hr
  | broken => exact fun ids opened hr => nomatch hr
  | @built chain wanted rest ids₁ b b₁ b₂ b' m r new fresh acquired imports others ih₁ ih =>
    intro ids opened hr hchain hb
    obtain ⟨ids', rfl, _⟩ := Outcome.map_eq_ok.1 hr
    subst hchain
    have hmodules : b₁.modules = b.modules := by
      obtain ⟨_, _, _, _, rfl⟩ := acquire_eq_ok acquired
      exact congrArg (List.map (·.2)) (keep_compiled ..)
    obtain ⟨modules, hentered⟩ := hb.entered
    obtain ⟨first, hentered₂, hentered₃⟩ := hentered.imports new acquired imports
    obtain ⟨hb₂, hsub₁, hchosen₁⟩ := ih₁ ids₁ _ rfl (names_concat opened _) (hb.acquired acquired)
    obtain ⟨hb', hsub, hchosen⟩ := ih ids' opened rfl rfl (hb₂.enter ⟨_, hentered₃⟩)
    -- the modules that came with the imports, and the module itself, are there in the end
    have hperm₃ : (b₂.enter m).modules.Perm (modules ++ (first ++ [m])) := hentered₃.modules
    have hperm₂ : b₂.modules.Perm (modules ++ first) := hentered₂.modules
    have hm : m ∈ b'.modules := hsub (hperm₃.symm.subset (by simp))
    have hsub₂ : b₂.modules ⊆ b'.modules := by
      intro k hk
      refine hsub (hperm₃.symm.subset ?_)
      rw [← List.append_assoc]
      exact List.mem_append_left _ (hperm₂.subset hk)
    refine ⟨hb', fun k hk => hsub₂ (hsub₁ (hmodules ▸ hk)), fun k hk => ?_⟩
    rcases hchosen k hk with hk | hk
    · have hk := hperm₃.subset hk
      rw [← List.append_assoc, List.mem_append, List.mem_singleton] at hk
      rcases hk with hk | rfl
      · rcases hchosen₁ k (hperm₂.symm.subset hk) with hk | hk
        · exact .inl (hmodules ▸ hk)
        · exact .inr ((hk.mono (List.Subset.refl _) hsub₂).of_imports hm _)
      · exact .inr (hb.chosen new fresh acquired rest _)
    · exact .inr (hk.mono (List.subset_cons_self _ _) (List.Subset.refl _))

/-! ## The newest revision -/

/-- A text that is stored under a revision declares the identifier that it is stored under. -/
def Declares (id : SourceId) (text : String) : Prop :=
  id.revision ≠ none → ∀ m, Yang.Module.parse text = .ok m → m.sourceId = id

/-- Nothing of its name in the library is newer, and nothing that the directory announced if the
library had none of its name. -/
structure Newest (l : SourceLibrary) (onDisk : List SourceId) (id : SourceId) : Prop where
  library : ∀ k text, l.text? k = some text → k.name = id.name → k.revisionLE id = true
  disk : (∀ k text, l.text? k = some text → k.name ≠ id.name) →
    ∀ k ∈ onDisk, k.name = id.name → k.revisionLE id = true

theorem Declares.revisionLE {text : String} (h : Declares id text)
    (hm : Yang.Module.parse text = .ok m) : id.revisionLE m.sourceId = true := by
  by_cases hrevision : id.revision = none
  · unfold SourceId.revisionLE
    rw [hrevision]
    cases m.sourceId.revision <;> rfl
  · rw [h hrevision m hm]
    exact SourceId.revisionLE_refl id

theorem FoundFirst.newest
    (hlibrary : ∀ id text, start.library.text? id = some text → Declares id text)
    (hdisk : ∀ id ∈ start.onDisk, ∀ text,
      start.files.readText (Files.join directory id.fileName) = .ok text → Declares id text)
    (h : FoundFirst directory start m) : Newest start.library start.onDisk m.sourceId := by
  obtain ⟨source, origin, found, checked⟩ := h
  obtain ⟨hparse, _⟩ := check_eq_ok checked
  have hsatisfies : ∀ {k : SourceId}, k.name = m.name → k.satisfies ⟨m.name, none⟩ = true :=
    fun hname => SourceId.satisfies_iff.2 ⟨hname, .inl rfl⟩
  rcases fetch_eq_ok found with ⟨_, hlookup⟩ | ⟨_, hlookup, hid, htext⟩
  · obtain ⟨htext, hnewest⟩ := lookup?_eq_some hlookup
    refine ⟨fun k text hk hname => ?_, fun hnone => ?_⟩
    · exact SourceId.revisionLE_trans (hnewest.le k (mem_keys hk) (hsatisfies hname))
        ((hlibrary _ _ htext).revisionLE hparse)
    · exact absurd (SourceId.satisfies_iff.1 hnewest.satisfies).1 (hnone _ _ htext)
  · refine ⟨fun k text hk hname => ?_, fun _ k hk hname => ?_⟩
    · exact absurd (hsatisfies hname) (not_satisfies_of_lookup? hlookup hk)
    · have hmem := (name_of_onDisk? hid).1
      rcases onDisk?_eq_some_iff.1 hid with hnewest | ⟨hnone, _⟩
      · exact SourceId.revisionLE_trans (hnewest.le k hk (hsatisfies hname))
          ((hdisk _ hmem _ htext).revisionLE hparse)
      · exact absurd (hsatisfies hname) (hnone k hk)

/-! ## Models -/

section
variable {cacheRoot name : String} {l : SourceLibrary} {f made : Files}
  {entries : List (String × FileNode)} {capabilities : List Capability} {model : Yang.Model}

/-- A capability, or an import of a module of the model, asks for this very revision. -/
def AskedIn (model : Yang.Model) (capabilities : List Capability) (id : SourceId) : Prop :=
  Asked (capabilities.map (·.sourceId)) model.moduleList id

theorem resolve_chosen (hdir : directoryFor cacheRoot name = .ok directory)
    (hmade : f.createDirectories directory = (made, none))
    (hlist : made.list directory = .ok entries)
    (hok : (resolve cacheRoot name l f capabilities).result = .ok model) :
    ∀ m ∈ model.moduleList, AskedIn model capabilities m.sourceId ∨
      FoundFirst directory ⟨l, made, scan entries, []⟩ m := by
  rw [resolve_eq l capabilities hdir hmade hlist] at hok
  obtain ⟨r, b', hcompiling, hout⟩ :=
    exists_compiling directory capabilities ⟨l, made, scan entries, []⟩
  rw [hout] at hok
  obtain ⟨ids, rfl, rfl⟩ := Outcome.map_eq_ok.1 hok
  obtain ⟨_, _, hchosen⟩ := hcompiling.chosen ids [] rfl rfl (since_start rfl)
  intro m hm
  exact (hchosen m hm).resolve_left List.not_mem_nil

/-- Suppose that what is stored under a revision declares its identifier. In the model of a
resolution that succeeds, each request without a revision has a module that was asked for by its
very revision, or that is the newest of its name: of the library, and of the directory if the
library had none of the name. Where no revision of a name is asked for there is one module of that
name, in whatever order, and with whatever others, it is requested. -/
theorem newest_unless_asked (hdir : directoryFor cacheRoot name = .ok directory)
    (hmade : f.createDirectories directory = (made, none))
    (hlist : made.list directory = .ok entries)
    (hlibrary : ∀ id text, l.text? id = some text → Declares id text)
    (hdisk : ∀ id ∈ scan entries, ∀ text,
      made.readText (Files.join directory id.fileName) = .ok text → Declares id text)
    (hok : (resolve cacheRoot name l f capabilities).result = .ok model) :
    (∀ id ∈ model.modules.map (·.1),
      AskedIn model capabilities id ∨ Newest l (scan entries) id) ∧
    (∀ c ∈ capabilities, c.revision = none → ∃ id ∈ model.requested, id.name = c.moduleName ∧
      (AskedIn model capabilities id ∨ Newest l (scan entries) id)) ∧
    (∀ m ∈ model.moduleList, ∀ i ∈ m.imports, i.revision = none →
      ∃ k ∈ model.moduleList, k.name = i.moduleName ∧
        (AskedIn model capabilities k.sourceId ∨ Newest l (scan entries) k.sourceId)) ∧
    (∀ capabilities' model', (resolve cacheRoot name l f capabilities').result = .ok model' →
      ∀ m ∈ model.moduleList, ∀ m' ∈ model'.moduleList, m.name = m'.name →
        ¬ AskedIn model capabilities m.sourceId → ¬ AskedIn model' capabilities' m'.sourceId →
          m = m') := by
  have hchosen := resolve_chosen hdir hmade hlist hok
  have hnewest : ∀ m ∈ model.moduleList,
      AskedIn model capabilities m.sourceId ∨ Newest l (scan entries) m.sourceId :=
    fun m hm => (hchosen m hm).imp_right fun hfirst => hfirst.newest hlibrary hdisk
  obtain ⟨hkeys, _, hrequested, _, hmet, himports, _⟩ := model_import_graph hok
  have hids : ∀ id ∈ model.modules.map (·.1),
      AskedIn model capabilities id ∨ Newest l (scan entries) id := by
    intro id hid
    obtain ⟨e, he, rfl⟩ := List.mem_map.1 hid
    rw [hkeys e he]
    exact hnewest e.2 (List.mem_map_of_mem he)
  refine ⟨hids, fun c hc _ => ?_, fun m hm i hi _ => ?_, fun _ _ hok' m hm m' hm' hname h h' => ?_⟩
  · obtain ⟨id, hid, hsat⟩ := hmet c hc
    exact ⟨id, hid, (SourceId.satisfies_iff.1 hsat).1, hids id (hrequested id hid).1⟩
  · obtain ⟨k, hk, hsat⟩ := himports m hm i hi
    exact ⟨k, hk, (SourceId.satisfies_iff.1 hsat).1, hnewest k hk⟩
  · have hfirst := (hchosen m hm).resolve_left h
    have hfirst' := (resolve_chosen hdir hmade hlist hok' m' hm').resolve_left h'
    exact hfirst.unique hfirst' hname

end

/-! ## Revisions in the library and a newer one in the directory -/

/-- A module that declares this revision. -/
def typesAt (revision : String) : Yang.Module := ⟨"t", "v", "t", some revision, [], []⟩

/-- The oldest of three revisions of one module. -/
def olderTypes : Source :=
  ⟨⟨"t", some "2019"⟩, "module t \x7b namespace v; prefix t; revision 2019; \x7d"⟩

/-- The one between. -/
def newerTypes : Source :=
  ⟨⟨"t", some "2020"⟩, "module t \x7b namespace v; prefix t; revision 2020; \x7d"⟩

/-- The newest of them. -/
def newestTypes : Source :=
  ⟨⟨"t", some "2021"⟩, "module t \x7b namespace v; prefix t; revision 2021; \x7d"⟩

/-- A library without the newest revision. -/
def twoRevisions : SourceLibrary :=
  ((SourceLibrary.empty.register olderTypes).1.register newerTypes).1

/-- The newest revision, as a file of a cache directory. -/
def newestFile : String × FileNode := ("t@2021.yang", .file newestTypes.text.toUTF8)

/-- A capability that asks for the module, whatever its revision. -/
def wantsTypes : Capability := ⟨"v", none, "t"⟩

/-- A capability that asks for the oldest revision. -/
def wantsOlderTypes : Capability := ⟨"v", some "2019", "t"⟩

/-- A resolution begins with the two revisions, and the newest in its directory. -/
def withNewest : Build := ⟨twoRevisions, cached [newestFile], scan [newestFile], []⟩

theorem declares_twoRevisions {text : String} (h : twoRevisions.text? id = some text) :
    Declares id text := by
  have hmem : (id, text) ∈ [(olderTypes.id, olderTypes.text), (newerTypes.id, newerTypes.text)] :=
    Keyed.mem_of_find? h
  intro _ m hm
  simp only [List.mem_cons, Prod.mk.injEq, List.not_mem_nil, or_false] at hmem
  rcases hmem with ⟨rfl, rfl⟩ | ⟨rfl, rfl⟩
  · have hparse : Yang.Module.parse olderTypes.text = .ok (typesAt "2019") := rfl
    rw [hparse] at hm
    exact Except.ok.inj hm ▸ rfl
  · have hparse : Yang.Module.parse newerTypes.text = .ok (typesAt "2020") := rfl
    rw [hparse] at hm
    exact Except.ok.inj hm ▸ rfl

theorem declares_newestFile {text : String} (hid : id ∈ scan [newestFile])
    (h : (cached [newestFile]).readText (Files.join "/c/d" id.fileName) = .ok text) :
    Declares id text := by
  have hid : id = newestTypes.id := List.mem_singleton.1 hid
  have hread : (cached [newestFile]).readText (Files.join "/c/d" newestTypes.id.fileName) =
      .ok newestTypes.text := rfl
  rw [hid, hread] at h
  intro _ m hm
  have hparse : Yang.Module.parse newestTypes.text = .ok (typesAt "2021") := rfl
  rw [← Except.ok.inj h, hparse] at hm
  exact hid ▸ Except.ok.inj hm ▸ rfl

theorem resolve_withNewest {capabilities : List Capability} {ids : List SourceId}
    (h : Compiling "/c/d" [] (capabilities.map (·.sourceId)) withNewest (.ok ids) b) :
    (resolve "/c" "d" twoRevisions (cached [newestFile]) capabilities).result =
      .ok ⟨b.compiled, listed [] ids, capabilities⟩ := by
  have hlist : (cached [newestFile]).list "/c/d" = .ok [newestFile] := rfl
  rw [resolve_eq twoRevisions capabilities rfl (Files.createDirectories_of_list hlist) hlist]
  exact congrArg Outcome.result (resolveIn_eq h)

theorem fetch_newer :
    fetch "/c/d" wantsTypes.sourceId withNewest = .ok (newerTypes, .library) := rfl

theorem check_newer : check wantsTypes.sourceId newerTypes = .ok (typesAt "2020") := rfl

theorem check_older : check wantsOlderTypes.sourceId olderTypes = .ok (typesAt "2019") := rfl

/-- The newer revision of the library is taken. -/
theorem resolve_newer :
    (resolve "/c" "d" twoRevisions (cached [newestFile]) [wantsTypes]).result =
      .ok ⟨[(newerTypes.id, typesAt "2020")], [newerTypes.id], [wantsTypes]⟩ := by
  have acquired := acquire_of_fetch fetch_newer check_newer
  rw [resolve_withNewest (.built rfl (by decide) acquired (.done ..) (.done ..)), Build.enter,
    keep_compiled]
  rfl

/-- No revision is asked for, and the newest of the library is taken. -/
theorem newest_unless_asked_types :
    (resolve "/c" "d" twoRevisions (cached [newestFile]) [wantsTypes]).result =
        .ok ⟨[(newerTypes.id, typesAt "2020")], [newerTypes.id], [wantsTypes]⟩ ∧
      Newest twoRevisions (scan [newestFile]) newerTypes.id := by
  refine ⟨resolve_newer, ?_⟩
  obtain ⟨hids, _⟩ := newest_unless_asked rfl (Files.createDirectories_of_list rfl) rfl
    (fun _ _ => declares_twoRevisions) (fun _ hid _ => declares_newestFile hid) resolve_newer
  refine (hids newerTypes.id (List.mem_singleton_self _)).resolve_left ?_
  rintro ⟨_, hrequest | ⟨m, hm, i, hi, _⟩⟩
  · exact absurd (List.mem_singleton.1 hrequest) (by decide)
  · cases List.mem_singleton.1 hm
    exact List.not_mem_nil hi

/-- The build once the newer revision is compiled. -/
def withNewer : Build :=
  (keep "/c/d" (typesAt "2020").sourceId newerTypes.text .library withNewest).enter (typesAt "2020")

theorem withNewer_compiled : withNewer.compiled = [(newerTypes.id, typesAt "2020")] := by
  rw [withNewer, Build.enter, keep_compiled]
  rfl

theorem withNewer_library : withNewer.library = twoRevisions := by
  rw [withNewer, Build.enter, keep_library]
  rfl

theorem resolve_newer_first :
    (resolve "/c" "d" twoRevisions (cached [newestFile]) [wantsTypes, wantsOlderTypes]).result =
      .ok ⟨[(olderTypes.id, typesAt "2019"), (newerTypes.id, typesAt "2020")],
        [newerTypes.id, olderTypes.id], [wantsTypes, wantsOlderTypes]⟩ := by
  have acquired := acquire_of_fetch fetch_newer check_newer
  have new : compiled? withNewer wantsOlderTypes.sourceId = none := by
    rw [compiled?, withNewer_compiled]
    rfl
  have found : fetch "/c/d" wantsOlderTypes.sourceId withNewer = .ok (olderTypes, .library) := by
    rw [fetch, withNewer_library]
    rfl
  have others : Compiling "/c/d" [] [wantsOlderTypes.sourceId] withNewer (.ok [olderTypes.id]) _ :=
    .built new (by decide) (acquire_of_fetch found check_older) (.done ..) (.done ..)
  have hcompiling : Compiling "/c/d" [] ([wantsTypes, wantsOlderTypes].map (·.sourceId)) withNewest
      (.ok [newerTypes.id, olderTypes.id]) _ :=
    .built rfl (by decide) acquired (.done ..) others
  rw [resolve_withNewest hcompiling, Build.enter, keep_compiled, withNewer_compiled]
  rfl

theorem resolve_older_first :
    (resolve "/c" "d" twoRevisions (cached [newestFile]) [wantsOlderTypes, wantsTypes]).result =
      .ok ⟨[(olderTypes.id, typesAt "2019")], [olderTypes.id],
        [wantsOlderTypes, wantsTypes]⟩ := by
  have found : fetch "/c/d" wantsOlderTypes.sourceId withNewest = .ok (olderTypes, .library) := rfl
  let b := (keep "/c/d" (typesAt "2019").sourceId olderTypes.text .library withNewest).enter
    (typesAt "2019")
  have known : compiled? b wantsTypes.sourceId = some olderTypes.id := rfl
  have others : Compiling "/c/d" [] [wantsTypes.sourceId] b (.ok [olderTypes.id]) b :=
    .known known (.done ..)
  have hcompiling : Compiling "/c/d" [] ([wantsOlderTypes, wantsTypes].map (·.sourceId)) withNewest
      (.ok [olderTypes.id, olderTypes.id]) b :=
    .built rfl (by decide) (acquire_of_fetch found check_older) (.done ..) others
  rw [resolve_withNewest hcompiling]
  rfl

/-- With what is stored under a revision declaring its identifier, a newer revision in the directory
is passed over, and the order of the capabilities tells what one without a revision gets. -/
theorem newer_passed_over :
    (∀ id text, twoRevisions.text? id = some text → Declares id text) ∧
    (∀ id ∈ scan [newestFile], ∀ text,
      (cached [newestFile]).readText (Files.join "/c/d" id.fileName) = .ok text →
        Declares id text) ∧
    (∃ model,
      (resolve "/c" "d" twoRevisions (cached [newestFile]) [wantsTypes]).result = .ok model ∧
        model.requested = [newerTypes.id]) ∧
    newestTypes.id ∈ scan [newestFile] ∧ ¬ newestTypes.id.revisionLE newerTypes.id = true ∧
    (∃ model,
      (resolve "/c" "d" twoRevisions (cached [newestFile])
        [wantsTypes, wantsOlderTypes]).result = .ok model ∧
        model.requested = [newerTypes.id, olderTypes.id]) ∧
    (∃ model,
      (resolve "/c" "d" twoRevisions (cached [newestFile])
        [wantsOlderTypes, wantsTypes]).result = .ok model ∧ model.requested = [olderTypes.id]) :=
  ⟨fun _ _ => declares_twoRevisions, fun _ hid _ => declares_newestFile hid,
    ⟨_, resolve_newer, rfl⟩, List.mem_singleton_self _, by decide, ⟨_, resolve_newer_first, rfl⟩,
    ⟨_, resolve_older_first, rfl⟩⟩

end Resolution

end MountRegistry
