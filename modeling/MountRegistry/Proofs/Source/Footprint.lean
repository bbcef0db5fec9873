import MountRegistry.Proofs.Files.Change
import MountRegistry.Proofs.Source.Rebuild

/-
  What a resolution does to the files, whether or not it succeeds. It makes its directory and those
  above it, and it writes texts of the library, each at the place that the file name of the module
  in it leads to (`Written`). Compiling keeps this (`Compiling.contained`), because nothing but
  `persist` writes and a request is met from the library by what the library had at first. If the
  file name announces the identifier it is a new entry of the directory, since all that the
  directory had is counted as on disk. Names and revisions are taken from the text as they stand
  there, and a name with `../` in it leads out of the directory (`file_outside_replaced`).
-/

namespace MountRegistry.Resolution

open SourceLibrary

variable {l : SourceLibrary} {directory : String} {opened : List SourceId} {wanted : SourceId}
  {b b' b₁ : Build} {f f' left : Files} {entries : List (String × FileNode)} {m : Yang.Module}
  {place : List String} {bytes : ByteArray}

/-- A text of the library, written where the file name of its module leads. A file name that
announces the identifier leads to a new entry of the directory. -/
def Written (l : SourceLibrary) (directory : String) (f left : Files) (place : List String)
    (bytes : ByteArray) : Prop :=
  ∃ id text m, l.text? id = some text ∧ Yang.Module.parse text = .ok m ∧ bytes = text.toUTF8 ∧
    left.place (Files.join directory m.sourceId.fileName) = .ok place ∧
    (m.sourceId.Legible → f.root.find? place = none ∧
      ∃ target, left.place directory = .ok target ∧ place = target ++ [m.sourceId.fileName])

section
variable {made : List String → Prop} {written : List String → ByteArray → Prop} {left' : Files}

/-- Paths still lead there later. -/
theorem Written.later (hw : Written l directory f left place bytes)
    (after : left.Changed made written left') : Written l directory f left' place bytes := by
  obtain ⟨id, text, m, htext, hparse, hbytes, hplace, hlegible⟩ := hw
  refine ⟨id, text, m, htext, hparse, hbytes, after.place hplace, fun h => ?_⟩
  obtain ⟨hnone, target, htarget, hat⟩ := hlegible h
  exact ⟨hnone, target, after.place htarget, hat⟩

/-- What was not there was not there earlier. -/
theorem Written.earlier (hw : Written l directory f' left place bytes)
    (before : f.Changed made written f') : Written l directory f left place bytes := by
  obtain ⟨id, text, m, htext, hparse, hbytes, hplace, hlegible⟩ := hw
  refine ⟨id, text, m, htext, hparse, hbytes, hplace, fun h => ?_⟩
  obtain ⟨hnone, hat⟩ := hlegible h
  exact ⟨before.root.absent_of_absent hnone, hat⟩

end

/-! ## Compiling -/

/-- The state of a build in a directory that had these entries when the build began with `f`. -/
structure Contained (l : SourceLibrary) (directory : String) (f : Files)
    (entries : List (String × FileNode)) (b : Build) : Prop where
  onDisk : ∀ id ∈ scan entries, id ∈ b.onDisk
  files : f.Changed (fun _ => False) (Written l directory f b.files) b.files

/-- A new entry of the directory, where it had nothing of that name. -/
theorem Contained.entry (hb : Contained l directory f entries b) (hd : Files.Bare directory)
    (hlist : f.list directory = .ok entries) {id : SourceId} (hid : id.Legible)
    (hnew : id ∉ b.onDisk) (hplace : b.files.place (Files.join directory id.fileName) = .ok place) :
    f.root.find? place = none ∧
      ∃ target, b.files.place directory = .ok target ∧ place = target ++ [id.fileName] := by
  obtain ⟨target, htarget, hdir⟩ := Files.list_eq_ok_iff.1 hlist
  have htarget' := hb.files.place htarget
  obtain ⟨entries', hdir'⟩ := hb.files.root.directory target entries hdir
  have hat : place = target ++ [id.fileName] :=
    Files.eq_of_place_join hd hid.entryName htarget' hdir' hplace
  refine ⟨?_, target, htarget', hat⟩
  have hnot : id.fileName ∉ entries.map (·.1) := fun hmem =>
    hnew (hb.onDisk id (mem_scan.2 ⟨id.fileName, hmem, hid.announced⟩))
  rw [hat, FileNode.find?_append, hdir, Option.bind_some, FileNode.find?,
    Keyed.find?_eq_none_of_not_mem hnot, Option.bind_none]

/-- Acquiring a module writes a text that the library had at first, or nothing. -/
theorem Contained.acquired (hb : Contained l directory f entries b) (hd : Files.Bare directory)
    (hlist : f.list directory = .ok entries) (haccounted : Accounted l opened b)
    (new : compiled? b wanted = none) (fresh : wanted.name ∉ opened.map (·.name))
    (acquired : run (acquire directory wanted) b = (.ok m, b₁)) :
    Contained l directory f entries b₁ ∧ Accounted l (opened ++ [m.sourceId]) b₁ := by
  obtain ⟨source, origin, found, checked, rfl⟩ := acquire_eq_ok acquired
  refine ⟨?_, haccounted.keep directory m.sourceId source.text origin⟩
  rcases keep_files directory m.sourceId source.text origin b with
    ⟨hfiles, honDisk⟩ | ⟨rfl, hnew, hwrite, honDisk⟩
  · refine ⟨?_, ?_⟩
    · rw [honDisk]
      exact hb.onDisk
    · rw [hfiles]
      exact hb.files
  · have htext : l.text? source.id = some source.text := by
      rcases fetch_eq_ok found with ⟨_, hlookup⟩ | ⟨hdisk, _⟩
      · obtain ⟨htext, hnewest⟩ := lookup?_eq_some hlookup
        exact haccounted.text? new fresh htext hnewest.satisfies
      · contradiction
    obtain ⟨place, hplace, hchanged⟩ := Files.changed_write (fun _ => False) hwrite
    have hwritten : Written l directory f b.files place source.text.toUTF8 :=
      ⟨source.id, source.text, m, htext, (check_eq_ok checked).1, rfl, hplace,
        fun hid => hb.entry hd hlist hid hnew hplace⟩
    refine ⟨fun id hid => ?_, ?_⟩
    · rw [honDisk]
      exact List.mem_append_left _ (hb.onDisk id hid)
    · have hbefore : f.Changed (fun _ => False) (Written l directory f _) b.files :=
        hb.files.mono (fun _ hp => hp) fun _ _ hw => hw.later hchanged
      refine hbefore.trans (hchanged.mono (fun _ hp => hp) ?_)
      rintro p bytes ⟨rfl, rfl⟩
      exact hwritten.later hchanged

/-- A whole compilation, whatever comes of it. -/
theorem Compiling.contained {requests : List SourceId} {chain : List String}
    {r : Except ResolutionFailure (List SourceId)} (hd : Files.Bare directory)
    (hlist : f.list directory = .ok entries) (h : Compiling directory chain requests b r b') :
    ∀ opened, opened.map (·.name) = chain → Accounted l opened b →
      Contained l directory f entries b →
      Contained l directory f entries b' ∧ ∀ ids, r = .ok ids → Accounted l opened b' := by
  induction h with
  | done chain b => exact fun opened _ haccounted hb => ⟨hb, fun ids _ => haccounted⟩
  | known known others ih =>
    intro opened hchain haccounted hb
    obtain ⟨hb', haccounted'⟩ := ih opened hchain haccounted hb
    refine ⟨hb', fun ids hr => ?_⟩
    obtain ⟨rest, hrest, _⟩ := Outcome.map_eq_ok.1 hr
    exact haccounted' rest hrest
  | cycle new met => exact fun opened _ _ hb => ⟨hb, fun ids hr => nomatch hr⟩
  | refused new fresh refused =>
    intro opened _ _ hb
    rw [acquire_eq_error refused]
    exact ⟨hb, fun ids hr => nomatch hr⟩
  | broken new fresh acquired imports ih =>
    intro opened hchain haccounted hb
    subst hchain
    obtain ⟨hb₁, haccounted₁⟩ := hb.acquired hd hlist haccounted new fresh acquired
    exact ⟨(ih _ (names_concat opened _) haccounted₁ hb₁).1, fun ids hr => nomatch hr⟩
  | built new fresh acquired imports others ih₁ ih =>
    intro opened hchain haccounted hb
    subst hchain
    obtain ⟨hb₁, haccounted₁⟩ := hb.acquired hd hlist haccounted new fresh acquired
    obtain ⟨hb₂, haccounted₂⟩ := ih₁ _ (names_concat opened _) haccounted₁ hb₁
    obtain ⟨hb', haccounted'⟩ :=
      ih opened rfl (haccounted₂ _ rfl).enter ⟨hb₂.onDisk, hb₂.files⟩
    refine ⟨hb', fun ids hr => ?_⟩
    obtain ⟨rest, hrest, _⟩ := Outcome.map_eq_ok.1 hr
    exact haccounted' rest hrest

theorem resolveIn_changed (hd : Files.Bare directory) (l : SourceLibrary)
    (capabilities : List Capability) (hlist : f.list directory = .ok entries) :
    f.Changed (fun _ => False)
      (Written l directory f (resolveIn directory capabilities ⟨l, f, scan entries, []⟩).files)
      (resolveIn directory capabilities ⟨l, f, scan entries, []⟩).files := by
  obtain ⟨r, b', hcompiling, hout⟩ :=
    exists_compiling directory capabilities ⟨l, f, scan entries, []⟩
  rw [hout]
  have hstart : Contained l directory f entries ⟨l, f, scan entries, []⟩ :=
    ⟨fun id hid => hid, .refl _ _ f⟩
  exact (hcompiling.contained hd hlist [] rfl (fun id text h => .inl h) hstart).1.files

/-! ## A whole resolution -/

theorem resolve_changed {cacheRoot name : String} (l : SourceLibrary) (f : Files)
    (capabilities : List Capability) (hdir : directoryFor cacheRoot name = .ok directory) :
    f.Changed ((resolve cacheRoot name l f capabilities).files.OnTheWay directory)
      (Written l directory f (resolve cacheRoot name l f capabilities).files)
      (resolve cacheRoot name l f capabilities).files := by
  have hmade := Files.changed_createDirectories f directory
  rcases hcreate : f.createDirectories directory with ⟨made, fault⟩
  rw [hcreate] at hmade
  cases fault with
  | some fault =>
    have hout : (resolve cacheRoot name l f capabilities).files = made := by
      simp [resolve, hdir, hcreate]
    rw [hout]
    exact hmade _
  | none =>
    cases hlist : made.list directory with
    | error fault =>
      have hout : (resolve cacheRoot name l f capabilities).files = made := by
        simp [resolve, hdir, hcreate, hlist]
      rw [hout]
      exact hmade _
    | ok entries =>
      have hin := resolveIn_changed (bare_of_directoryFor hdir) l capabilities hlist
      rw [resolve_eq l capabilities hdir hcreate hlist]
      refine ((hmade _).mono (fun p hp => hin.onTheWay hp) fun p bytes hw => hw).trans
        (hin.mono (fun p hp => hp.elim) fun p bytes hw => ?_)
      exact hw.earlier (hmade fun _ _ => False)

/-- With a name that is not that of a directory nothing is done at all. Otherwise, whatever comes of
the resolution, directories stay, and all that is new are directories on the way to the cache
directory and texts of the library, written where the file names of their modules lead. If those
file names announce the modules, all files that were there stay as they are, and each new one is
directly in the cache directory. -/
theorem resolution_footprint (cacheRoot name : String) (l : SourceLibrary) (f : Files)
    (capabilities : List Capability) :
    let o := resolve cacheRoot name l f capabilities
    (isDirectoryName name = false → o = ⟨l, f, .error (.invalidDirectory name)⟩) ∧
    (isDirectoryName name = true →
      let directory := Files.join cacheRoot name
      f.Changed (o.files.OnTheWay directory) (Written l directory f o.files) o.files ∧
      ((∀ id text m, l.text? id = some text → Yang.Module.parse text = .ok m →
          m.sourceId.Legible) →
        (∀ p bytes, f.root.find? p = some (.file bytes) →
          o.files.root.find? p = some (.file bytes)) ∧
        f.Changed (o.files.OnTheWay directory)
          (fun p _ => ∃ target file, o.files.place directory = .ok target ∧ p = target ++ [file])
          o.files)) := by
  intro o
  refine ⟨fun hname => ?_, fun hname => ?_⟩
  · have hdir : directoryFor cacheRoot name = .error (.invalidDirectory name) := by
      simp [directoryFor, hname]
    show resolve cacheRoot name l f capabilities = _
    rw [resolve, hdir]
  · have hdir : directoryFor cacheRoot name = .ok (Files.join cacheRoot name) := by
      simp [directoryFor, hname]
    have hchanged := resolve_changed l f capabilities hdir
    refine ⟨hchanged, fun hlegible => ⟨fun p bytes hp => ?_, ?_⟩⟩
    · obtain ⟨bytes', hp', rfl | ⟨id, text, m, htext, hparse, _, _, hnew⟩⟩ :=
        hchanged.root.file p bytes hp
      · exact hp'
      · have hnone := (hnew (hlegible id text m htext hparse)).1
        rw [hp] at hnone
        contradiction
    · refine hchanged.mono (fun p hp => hp) ?_
      rintro p bytes ⟨id, text, m, htext, hparse, _, _, hnew⟩
      obtain ⟨target, htarget, hat⟩ := (hnew (hlegible id text m htext hparse)).2
      exact ⟨target, m.sourceId.fileName, htarget, hat⟩

/-- The source that is in memory only becomes a new file, beside the one that was there. -/
theorem resolution_footprint_interfaces :
    let left := (resolve "/c" "d" knownSources (cached [typesFile]) [wantsInterfaces]).files
    left.readText "/c/d/m.yang" = .ok interfacesSource.text ∧
      left.root.find? ["c", "d", "t.yang"] = some typesFile.2 ∧
      (cached [typesFile]).Changed (left.OnTheWay "/c/d")
        (fun p _ => ∃ target file, left.place "/c/d" = .ok target ∧ p = target ++ [file]) left := by
  intro left
  have hlegible : ∀ id text m, knownSources.text? id = some text →
      Yang.Module.parse text = .ok m → m.sourceId.Legible := by
    intro id text m htext hparse
    obtain ⟨_, rfl⟩ := text?_knownSources htext
    have hm : Yang.Module.parse interfacesSource.text = .ok interfaces := rfl
    rw [hm] at hparse
    cases hparse
    exact ⟨rfl, by decide⟩
  obtain ⟨hkept, hnew⟩ := ((resolution_footprint "/c" "d" knownSources (cached [typesFile])
    [wantsInterfaces]).2 (by decide)).2 hlegible
  refine ⟨?_, hkept ["c", "d", "t.yang"] typesSource.text.toUTF8 rfl, hnew⟩
  have hfiles := (resolve_interfaces [typesFile] rfl).2
  show (resolve "/c" "d" knownSources (cached [typesFile]) [wantsInterfaces]).files.readText _ = _
  rw [hfiles]
  rfl

/-! ## A module whose name leads out of the directory -/

/-- A source whose module is named like a path that leads upwards. -/
def outsideSource : Source :=
  ⟨⟨"../t", none⟩, "module \"../t\" \x7b namespace u; prefix t; \x7d"⟩

/-- The module of that source. -/
def outside : Yang.Module := ⟨"../t", "u", "t", none, [], []⟩

/-- A capability that asks for it. -/
def wantsOutside : Capability := ⟨"u", none, "../t"⟩

/-- Files with the cache directory `/c/d`, with nothing in it, and a file beside it. -/
def besideDirectory : Files :=
  ⟨"", .directory [("c", .directory [("d", .directory []), ("t.yang", .file "mine".toUTF8)])]⟩

/-- A resolution in `/c/d` puts its own text in place of the file beside the directory. -/
theorem file_outside_replaced :
    let l := (SourceLibrary.empty.register outsideSource).1
    let left := (resolve "/c" "d" l besideDirectory [wantsOutside]).files
    besideDirectory.readText "/c/t.yang" = .ok "mine" ∧
      left.readText "/c/t.yang" = .ok outsideSource.text := by
  intro l left
  refine ⟨rfl, ?_⟩
  have hlist : besideDirectory.list "/c/d" = .ok [] := rfl
  have found : fetch "/c/d" outside.sourceId ⟨l, besideDirectory, scan [], []⟩ =
      .ok (outsideSource, .library) := rfl
  have checked : check outside.sourceId outsideSource = .ok outside := rfl
  have hcompiling : Compiling "/c/d" [] ([wantsOutside].map (·.sourceId))
      ⟨l, besideDirectory, scan [], []⟩ (.ok [outside.sourceId]) _ :=
    .built rfl (by decide) (acquire_of_fetch found checked) (.done ..) (.done ..)
  show (resolve "/c" "d" l besideDirectory [wantsOutside]).files.readText _ = _
  rw [resolve_eq l [wantsOutside] rfl (Files.createDirectories_of_list hlist) hlist,
    resolveIn_eq hcompiling]
  rfl

end MountRegistry.Resolution
