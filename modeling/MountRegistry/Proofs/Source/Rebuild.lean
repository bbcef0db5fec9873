import MountRegistry.Proofs.Source.Upkeep

/-
  Building a model again from the cache directory alone, as after a restart. Each request that a
  resolution met is met from the directory that it left, with the same text: what came from disk is
  still the newest there, since all that was added is of the library, which did not answer; and what
  came from the library is there, and nothing newer (`fetch_again`). So the same compilation is
  possible with an empty library (`Compiling.again`), and a compilation has one outcome. All this
  rests on the directory being in accord with the library to begin with. A directory that holds
  another text under an identifier of the library keeps it, and the model is lost
  (`damaged_file_stays`).
-/

namespace MountRegistry.Resolution

open SourceLibrary

variable {l : SourceLibrary} {directory : String} {opened : List SourceId} {id wanted : SourceId}
  {b b' b₁ c z : Build} {m : Yang.Module} {text : String}

/-! ## Finding a source again -/

/-- What no library answers is found on disk as before, whatever of the library came there. -/
theorem onDisk?_grows (hg : Grows l directory b z) (hl : l.Extends b.library)
    (hlookup : b.library.lookup? wanted = none) (h : onDisk? b.onDisk wanted = some id) :
    onDisk? z.onDisk wanted = some id := by
  have hold : ∀ k ∈ z.onDisk, k.satisfies wanted = true → k ∈ b.onDisk := by
    intro k hk hsat
    rcases hg.added k hk with hk | ⟨text, htext⟩
    · exact hk
    · exact absurd hsat (not_satisfies_of_lookup? hlookup (hl k text htext))
  rcases onDisk?_eq_some_iff.1 h with hnewest | ⟨hnone, hmem, hid⟩
  · refine onDisk?_eq_some_iff.2 (.inl ⟨hg.onDisk id hnewest.mem, hnewest.satisfies, ?_⟩)
    exact fun k hk hsat => hnewest.le k (hold k hk hsat) hsat
  · refine onDisk?_eq_some_iff.2 (.inr ⟨?_, hg.onDisk id hmem, hid⟩)
    exact fun k hk hsat => hnone k (hold k hk hsat) hsat

/-- What the library answers is the newest on disk once it is there. -/
theorem onDisk?_of_lookup? (hz : Held l directory opened z) (hl : l.Extends b.library)
    {source : Source} (hlookup : b.library.lookup? wanted = some source)
    (htext : l.text? source.id = some source.text) (hmem : source.id ∈ z.onDisk) :
    onDisk? z.onDisk wanted = some source.id := by
  obtain ⟨_, hnewest⟩ := lookup?_eq_some hlookup
  obtain ⟨entries, haccord, hdisk⟩ := hz.disk
  refine onDisk?_eq_some_iff.2 (.inl ⟨hmem, hnewest.satisfies, fun k hk hsat => ?_⟩)
  obtain ⟨hname, hrevision⟩ := SourceId.satisfies_iff.1 hsat
  obtain ⟨hname', hrevision'⟩ := SourceId.satisfies_iff.1 hnewest.satisfies
  by_cases hopen : wanted.revision = none
  · obtain ⟨k', text', hk', hsame, hle⟩ :=
      haccord.newest k ((hdisk k).1 hk) source.id source.text htext (hname'.trans hname.symm)
    have hsat' := SourceId.satisfies_iff.2 ⟨hsame.trans hname, .inl hopen⟩
    exact SourceId.revisionLE_trans hle (hnewest.le k' (mem_keys (hl k' text' hk')) hsat')
  · -- only one identifier satisfies a request for a revision
    exact SourceId.revisionLE_of_eq
      ((hrevision.resolve_left hopen).trans (hrevision'.resolve_left hopen).symm)

/-! ## The second run -/

/-- A build of the second run beside one of the first, which leaves its disk as in `z`. -/
structure Again (z b c : Build) : Prop where
  files : c.files = z.files
  onDisk : c.onDisk = z.onDisk
  compiled : c.compiled = b.compiled

theorem compiled?_congr (h : c.compiled = b.compiled) (wanted : SourceId) :
    compiled? c wanted = compiled? b wanted := by
  unfold compiled?
  rw [h]

/-- A library that has only what is compiled or being compiled answers no new request. -/
theorem Accounted.lookup?_eq_none (h : Accounted .empty opened c) (new : compiled? c wanted = none)
    (fresh : wanted.name ∉ opened.map (·.name)) : c.library.lookup? wanted = none := by
  cases hlookup : c.library.lookup? wanted with
  | none => rfl
  | some source =>
    obtain ⟨htext, hnewest⟩ := lookup?_eq_some hlookup
    cases h.text? new fresh htext hnewest.satisfies

/-- A request that the first run met is met from the disk that it leaves, with the same text. -/
theorem fetch_again {source : Source} {origin : Origin} (hb : Held l directory opened b)
    (hz : Held l directory [] z) (hg : Grows l directory b z) (hc : Again z b c)
    (hempty : Accounted .empty opened c) (new : compiled? b wanted = none)
    (fresh : wanted.name ∉ opened.map (·.name))
    (found : fetch directory wanted b = .ok (source, origin))
    (checked : check wanted source = .ok m)
    (written : ∀ text, l.text? m.sourceId = some text → m.sourceId ∈ z.onDisk) :
    ∃ id, fetch directory wanted c = .ok (⟨id, source.text⟩, .disk) := by
  have hnone := hempty.lookup?_eq_none ((compiled?_congr hc.compiled wanted).trans new) fresh
  suffices h : onDisk? z.onDisk wanted = some source.id ∧
      z.files.readText (Files.join directory source.id.fileName) = .ok source.text by
    refine ⟨source.id, ?_⟩
    unfold fetch
    rw [hnone, hc.onDisk, h.1]
    dsimp only
    rw [hc.files, h.2]
  rcases fetch_eq_ok found with ⟨_, hlookup⟩ | ⟨_, hlookup, hid, htext⟩
  · obtain ⟨hid, htext⟩ := hb.text?_of_lookup? new fresh hlookup checked
    have hmem : source.id ∈ z.onDisk := by
      rw [← hid] at htext ⊢
      exact written _ htext
    obtain ⟨entries, haccord, hdisk⟩ := hz.disk
    exact ⟨onDisk?_of_lookup? hz hb.extended hlookup htext hmem,
      haccord.same _ ((hdisk _).1 hmem) _ htext⟩
  · have hid' := onDisk?_grows hg hb.extended hlookup hid
    exact ⟨hid', (hg.texts _ (name_of_onDisk? hid).1).trans htext⟩

/-- What is acquired is acquired again. -/
theorem acquire_again (hb : Held l directory opened b) (hz : Held l directory [] z)
    (hg : Grows l directory b z) (hc : Again z b c) (hempty : Accounted .empty opened c)
    (new : compiled? b wanted = none) (fresh : wanted.name ∉ opened.map (·.name))
    (acquired : run (acquire directory wanted) b = (.ok m, b₁))
    (written : ∀ text, l.text? m.sourceId = some text → m.sourceId ∈ z.onDisk) :
    ∃ c₁, run (acquire directory wanted) c = (.ok m, c₁) ∧ Again z b₁ c₁ ∧
      Accounted .empty (opened ++ [m.sourceId]) c₁ := by
  obtain ⟨source, origin, found, checked, rfl⟩ := acquire_eq_ok acquired
  obtain ⟨id, found'⟩ := fetch_again hb hz hg hc hempty new fresh found checked written
  have checked' : check wanted ⟨id, source.text⟩ = .ok m := check_congr checked rfl
  refine ⟨_, acquire_of_fetch found' checked', ⟨hc.files, hc.onDisk, ?_⟩, hempty.keep _ _ _ _⟩
  rw [keep_compiled, keep_compiled, hc.compiled]

/-- The whole compilation is possible again. -/
theorem Compiling.again {requests : List SourceId} {chain : List String}
    {r : Except ResolutionFailure (List SourceId)} (hd : Files.Bare directory)
    (hz : Held l directory [] z)
    (written : ∀ id m text, Keyed.find? z.compiled id = some m → l.text? id = some text →
      id ∈ z.onDisk)
    (h : Compiling directory chain requests b r b') :
    ∀ ids opened c, r = .ok ids → opened.map (·.name) = chain → Held l directory opened b →
      Grows l directory b' z → Again z b c → Accounted .empty opened c →
      ∃ c', Compiling directory chain requests c r c' ∧ Again z b' c' ∧
        Accounted .empty opened c' := by
  induction h with
  | done chain b => exact fun ids opened c _ _ _ _ hc hempty => ⟨c, .done chain c, hc, hempty⟩
  | known known others ih =>
    intro ids opened c hr hchain hb hg hc hempty
    obtain ⟨rest, rfl, _⟩ := Outcome.map_eq_ok.1 hr
    obtain ⟨c', others', hc', hempty'⟩ := ih rest opened c rfl hchain hb hg hc hempty
    exact ⟨c', .known ((compiled?_congr hc.compiled _).trans known) others', hc', hempty'⟩
  | cycle => exact fun ids opened c hr => nomatch hr
  | refused => exact fun ids opened c hr => nomatch hr
  | broken => exact fun ids opened c hr => nomatch hr
  | @built _ _ _ _ b b₁ b₂ b' m r new fresh acquired imports others ih₁ ih =>
    intro ids opened c hr hchain hb hg hc hempty
    obtain ⟨rest, rfl, _⟩ := Outcome.map_eq_ok.1 hr
    subst hchain
    have hchain := names_concat opened m
    -- the first run goes on to its end
    obtain ⟨hb₁, hg₁⟩ := hb.acquired hd new fresh acquired
    obtain ⟨hb₂, hg₂⟩ := imports.held hd _ _ rfl hchain hb₁
    have hentered := hb.built acquired imports hb₂
    have hg₃ := (others.held hd _ opened rfl rfl hentered).2.trans hg
    have hg₂z := (grows_enter l directory b₂ m).trans hg₃
    have hmem : ∀ text, l.text? m.sourceId = some text → m.sourceId ∈ z.onDisk := by
      intro text htext
      obtain ⟨n, hn⟩ := hg₃.compiled m.sourceId m (Keyed.find?_insert_self ..)
      exact written _ n text hn htext
    -- and the second does as it did
    obtain ⟨c₁, acquired', hc₁, hempty₁⟩ :=
      acquire_again hb hz (hg₁.trans (hg₂.trans hg₂z)) hc hempty new fresh acquired hmem
    obtain ⟨c₂, imports', hc₂, hempty₂⟩ := ih₁ _ _ c₁ rfl hchain hb₁ hg₂z hc₁ hempty₁
    have hc₃ : Again z (b₂.enter m) (c₂.enter m) :=
      ⟨hc₂.files, hc₂.onDisk, congrArg (Keyed.insert · m.sourceId m) hc₂.compiled⟩
    obtain ⟨c', others', hc', hempty'⟩ := ih rest opened _ rfl rfl hentered hg hc₃ hempty₂.enter
    have new' := (compiled?_congr hc.compiled _).trans new
    exact ⟨c', .built new' fresh acquired' imports' others', hc', hempty'⟩

/-! ## The model -/

section
variable {cacheRoot name : String} {f made : Files} {entries : List (String × FileNode)}
  {capabilities : List Capability} {model : Yang.Model}

/-- A resolution in a directory that can be listed once it is made. -/
theorem resolve_eq (library : SourceLibrary) (capabilities : List Capability)
    (hdir : directoryFor cacheRoot name = .ok directory)
    (hmade : f.createDirectories directory = (made, none))
    (hlist : made.list directory = .ok entries) :
    resolve cacheRoot name library f capabilities =
      resolveIn directory capabilities ⟨library, made, scan entries, []⟩ := by
  unfold resolve
  rw [hdir]
  dsimp only
  rw [hmade]
  dsimp only
  rw [hlist]

/-- Suppose that the library is genuine and in accord with the directory, and that a resolution
succeeds with every module that it took from the library in the directory afterwards, as it is when
no write failed. Then the directory alone, with an empty library, gives the same model. -/
theorem rebuilt_from_directory (hdir : directoryFor cacheRoot name = .ok directory)
    (hmade : f.createDirectories directory = (made, none)) (hgenuine : l.Genuine)
    (haccord : Accord l made directory entries)
    (hok : (resolve cacheRoot name l f capabilities).result = .ok model)
    (hwritten : ∀ id m text, Keyed.find? model.modules id = some m → l.text? id = some text →
      ∃ left, (resolve cacheRoot name l f capabilities).files.list directory = .ok left ∧
        id ∈ scan left) :
    (resolve cacheRoot name .empty (resolve cacheRoot name l f capabilities).files
      capabilities).result = .ok model := by
  have hd := bare_of_directoryFor hdir
  rw [resolve_eq l capabilities hdir hmade haccord.listed] at hok hwritten ⊢
  obtain ⟨r, b', hcompiling, hout⟩ :=
    exists_compiling directory capabilities ⟨l, made, scan entries, []⟩
  rw [hout] at hok hwritten ⊢
  obtain ⟨ids, rfl, rfl⟩ := Outcome.map_eq_ok.1 hok
  dsimp only at hwritten ⊢
  have hstart : Held l directory [] ⟨l, made, scan entries, []⟩ :=
    ⟨⟨hgenuine, fun id m h => nomatch h⟩, .refl l, fun id text h => .inl h, entries, haccord,
      fun id => Iff.rfl⟩
  obtain ⟨hb', _⟩ := hcompiling.held hd ids [] rfl rfl hstart
  obtain ⟨left, haccord', hdisk⟩ := hb'.disk
  -- the second run scans the directory anew
  let z : Build := { b' with onDisk := scan left }
  have hz : Held l directory [] z :=
    ⟨⟨hb'.faithful.genuine, hb'.faithful.compiled⟩, hb'.extended, hb'.accounted, left, haccord',
      fun id => Iff.rfl⟩
  have hgrows : Grows l directory b' z :=
    ⟨fun id m h => ⟨m, h⟩, fun id h => (hdisk id).1 h, fun id h => .inl ((hdisk id).2 h),
      fun id h => rfl⟩
  have hmem : ∀ id m text, Keyed.find? z.compiled id = some m → l.text? id = some text →
      id ∈ z.onDisk := by
    intro id m text hm htext
    obtain ⟨left', hleft, hid⟩ := hwritten id m text hm htext
    rw [haccord'.listed] at hleft
    cases hleft
    exact hid
  obtain ⟨c', hagain, hc', _⟩ := hcompiling.again hd hz hmem ids []
    ⟨.empty, b'.files, scan left, []⟩ rfl rfl hstart hgrows ⟨rfl, rfl, rfl⟩
    fun id text h => nomatch h
  have hmade' := Files.createDirectories_of_list haccord'.listed
  rw [resolve_eq .empty capabilities hdir hmade' haccord'.listed]
  rw [resolveIn_eq hagain, ← hc'.compiled]
  rfl

end

/-! ## A module whose source is in memory, and its import on disk -/

/-- A module `m` that imports `t`. -/
def interfacesSource : Source :=
  ⟨⟨"m", none⟩, "module m \x7b namespace u; prefix m; import t; \x7d"⟩

/-- The module `t`, which imports nothing. -/
def typesSource : Source := ⟨⟨"t", none⟩, "module t \x7b namespace v; prefix t; \x7d"⟩

/-- What the source of `m` declares. -/
def interfaces : Yang.Module := ⟨"m", "u", "m", none, [⟨"t", none, none⟩], []⟩

/-- What the source of `t` declares. -/
def types : Yang.Module := ⟨"t", "v", "t", none, [], []⟩

/-- A capability that asks for `m`. -/
def wantsInterfaces : Capability := ⟨"u", none, "m"⟩

/-- The schema of that capability, which has both modules. -/
def interfacesModel : Yang.Model :=
  ⟨[(⟨"m", none⟩, interfaces), (⟨"t", none⟩, types)], [⟨"m", none⟩], [wantsInterfaces]⟩

/-- A library that has `m` and not `t`. -/
def knownSources : SourceLibrary := (SourceLibrary.empty.register interfacesSource).1

/-- The source of `t`, as a file of a cache directory. -/
def typesFile : String × FileNode := ("t.yang", .file typesSource.text.toUTF8)

/-- What is left of the file of the first, with nothing in it. -/
def damagedFile : String × FileNode := ("m.yang", .file "".toUTF8)

/-- Files with the cache directory `/c/d`, and these entries in it. -/
def cached (entries : List (String × FileNode)) : Files :=
  ⟨"", .directory [("c", .directory [("d", .directory entries)])]⟩

theorem text?_knownSources (h : knownSources.text? id = some text) :
    id = interfacesSource.id ∧ text = interfacesSource.text := by
  rw [knownSources, text?_register] at h
  split at h
  · rename_i hid
    cases h
    exact ⟨hid, rfl⟩
  · cases h

theorem genuine_knownSources : knownSources.Genuine := by
  intro id text h
  obtain ⟨rfl, rfl⟩ := text?_knownSources h
  exact ⟨interfaces, rfl, rfl⟩

theorem accord_typesFile : Accord knownSources (cached [typesFile]) "/c/d" [typesFile] := by
  have hscan : ∀ id ∈ scan [typesFile], id = types.sourceId := fun id h => List.mem_singleton.1 h
  refine ⟨rfl, by decide, fun id text h => ?_, fun id hid text h => ?_,
    fun id hid k text h hname => ?_⟩
  · obtain ⟨rfl, rfl⟩ := text?_knownSources h
    exact ⟨rfl, by decide⟩
  · rw [hscan id hid] at h
    cases h
  · obtain ⟨rfl, rfl⟩ := text?_knownSources h
    rw [hscan id hid] at hname
    contradiction

/-- The module is taken from memory, its import from disk, and the directory is left as keeping the
module leaves it. -/
theorem resolve_interfaces (entries : List (String × FileNode))
    (imported : fetch "/c/d" types.sourceId
      (keep "/c/d" interfaces.sourceId interfacesSource.text .library
        ⟨knownSources, cached entries, scan entries, []⟩) = .ok (typesSource, .disk)) :
    (resolve "/c" "d" knownSources (cached entries) [wantsInterfaces]).result =
        .ok interfacesModel ∧
      (resolve "/c" "d" knownSources (cached entries) [wantsInterfaces]).files =
        (keep "/c/d" interfaces.sourceId interfacesSource.text .library
          ⟨knownSources, cached entries, scan entries, []⟩).files := by
  have hlist : (cached entries).list "/c/d" = .ok entries := rfl
  rw [resolve_eq knownSources [wantsInterfaces] rfl (Files.createDirectories_of_list hlist) hlist]
  have found : fetch "/c/d" interfaces.sourceId ⟨knownSources, cached entries, scan entries, []⟩ =
      .ok (interfacesSource, .library) := rfl
  have checked : check interfaces.sourceId interfacesSource = .ok interfaces := rfl
  have checked' : check types.sourceId typesSource = .ok types := rfl
  have himports : Compiling "/c/d" ["m"] [types.sourceId] _ (.ok [types.sourceId]) _ :=
    .built (compiled?_congr (keep_compiled ..) _) (by decide) (acquire_of_fetch imported checked')
      (.done ..) (.done ..)
  have hcompiling : Compiling "/c/d" [] [interfaces.sourceId] _ (.ok [interfaces.sourceId]) _ :=
    .built rfl (by decide) (acquire_of_fetch found checked) himports (.done ..)
  rw [resolveIn_eq hcompiling]
  refine ⟨?_, rfl⟩
  rw [Build.enter, Build.enter, keep_compiled, keep_compiled]
  rfl

/-- The directory takes the place of the memory. -/
theorem rebuilt_interfaces :
    (resolve "/c" "d" .empty
      (resolve "/c" "d" knownSources (cached [typesFile]) [wantsInterfaces]).files
      [wantsInterfaces]).result = .ok interfacesModel := by
  obtain ⟨hresult, hfiles⟩ := resolve_interfaces [typesFile] rfl
  refine rebuilt_from_directory rfl (Files.createDirectories_of_list rfl) genuine_knownSources
    accord_typesFile hresult fun id m text _ h => ?_
  obtain ⟨rfl, rfl⟩ := text?_knownSources h
  rw [hfiles]
  exact ⟨_, rfl, by decide⟩

/-- A damaged file of a needed module stays so, since the module is in memory; without what is in
memory the model cannot be built again. -/
theorem damaged_file_stays :
    let files := cached [damagedFile, typesFile]
    let o := resolve "/c" "d" knownSources files [wantsInterfaces]
    o.result = .ok interfacesModel ∧
      (resolve "/c" "d" .empty o.files [wantsInterfaces]).result =
        .error (.unparsable ⟨"m", none⟩ ⟨.grammatical .emptySource, 1⟩) := by
  intro files o
  obtain ⟨hresult, hfiles⟩ : o.result = _ ∧ o.files = files := resolve_interfaces _ rfl
  refine ⟨hresult, ?_⟩
  have hlist : files.list "/c/d" = .ok [damagedFile, typesFile] := rfl
  rw [hfiles, resolve_eq .empty [wantsInterfaces] rfl (Files.createDirectories_of_list hlist) hlist]
  let b : Build := ⟨.empty, files, scan [damagedFile, typesFile], []⟩
  have refused : run (acquire "/c/d" ⟨"m", none⟩) b =
      (.error (.unparsable ⟨"m", none⟩ ⟨.grammatical .emptySource, 1⟩), b) := rfl
  have hcompiling : Compiling "/c/d" [] ([wantsInterfaces].map (·.sourceId)) b (.error _) b :=
    .refused rfl (by decide) refused
  exact congrArg Outcome.result (resolveIn_eq hcompiling)

end MountRegistry.Resolution
