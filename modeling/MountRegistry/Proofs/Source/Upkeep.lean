import MountRegistry.Proofs.Source.Agreement
import MountRegistry.Proofs.Source.FileName

/-
  What a resolution leaves in its cache directory. The library that it starts from and the directory
  are in accord when the directory holds no other text under an identifier of the library, and
  nothing newer of a name that the library has. Keeping a module leaves them in accord: it writes
  texts of that library only, and each where no source was (`grows_keep`). So the sources on disk
  become more and keep their texts while a list of requests is compiled (`Compiling.held`).
-/

namespace MountRegistry.Resolution

open SourceLibrary

variable {l : SourceLibrary} {directory : String} {opened : List SourceId} {id wanted : SourceId}
  {b b' b₁ z : Build} {m : Yang.Module} {text : String}

/-! ## The library and the directory -/

/-- The directory has these entries, and nothing in it goes against the library. -/
structure Accord (l : SourceLibrary) (f : Files) (directory : String)
    (entries : List (String × FileNode)) : Prop where
  listed : f.list directory = .ok entries
  /-- Names of entries are names of files, not paths. -/
  plain : ∀ file ∈ entries.map (·.1), '/' ∉ file.toList
  legible : ∀ id text, l.text? id = some text → id.Legible
  /-- Under an identifier of the library, the directory holds the library's text. -/
  same : ∀ id ∈ scan entries, ∀ text, l.text? id = some text →
    f.readText (Files.join directory id.fileName) = .ok text
  /-- Of a name that the library has, it has a revision as new as any in the directory. -/
  newest : ∀ id ∈ scan entries, ∀ k text, l.text? k = some text → k.name = id.name →
    ∃ k' text', l.text? k' = some text' ∧ k'.name = id.name ∧ id.revisionLE k' = true

section
variable {f f' : Files} {entries : List (String × FileNode)}

theorem Accord.readText_write (h : Accord l f directory entries) (hd : Files.Bare directory)
    (ht : l.text? id = some text) {other : SourceId} (ho : other ∈ scan entries) (hne : other ≠ id)
    (hw : f.write (Files.join directory id.fileName) text.toUTF8 = .ok f') :
    f'.readText (Files.join directory other.fileName) =
      f.readText (Files.join directory other.fileName) := by
  have hid := h.legible id text ht
  have hother := legible_of_mem_scan h.plain ho
  exact Files.readText_write_of_ne hd hid.entryName hother.entryName (hid.fileName_ne hother hne)
    h.listed hw

/-- A text of the library may be written into the directory. -/
theorem Accord.write (h : Accord l f directory entries) (hd : Files.Bare directory)
    (ht : l.text? id = some text)
    (hw : f.write (Files.join directory id.fileName) text.toUTF8 = .ok f') :
    Accord l f' directory (Keyed.insert entries id.fileName (.file text.toUTF8)) := by
  have hid := h.legible id text ht
  refine ⟨Files.list_write hd hid.entryName h.listed hw, ?_, h.legible, ?_, ?_⟩
  · intro file hfile
    rcases Keyed.mem_keys_insert.1 hfile with rfl | hfile
    · exact hid.slash
    · exact h.plain file hfile
  · intro other hother kept hkept
    by_cases hne : other = id
    · subst hne
      rw [ht] at hkept
      cases hkept
      exact Files.readText_write_self hd hid.entryName h.listed hw
    · have hold := ((mem_scan_insert hid _).1 hother).resolve_left hne
      rw [h.readText_write hd ht hold hne hw]
      exact h.same other hold kept hkept
  · intro other hother k kept hk hname
    rcases (mem_scan_insert hid _).1 hother with rfl | hold
    · exact ⟨other, text, ht, rfl, SourceId.revisionLE_refl other⟩
    · exact h.newest other hold k kept hk hname

end

/-! ## Where the texts of a build come from -/

/-- Every text of the build is one of the library's, or its module is being compiled, or it is
compiled. -/
def Accounted (l : SourceLibrary) (opened : List SourceId) (b : Build) : Prop :=
  ∀ id text, b.library.text? id = some text →
    l.text? id = some text ∨ id ∈ opened ∨ ∃ m, Keyed.find? b.compiled id = some m

/-- What satisfies a request that is neither compiled nor being compiled is the library's. -/
theorem Accounted.text? (h : Accounted l opened b) (new : compiled? b wanted = none)
    (fresh : wanted.name ∉ opened.map (·.name)) (ht : b.library.text? id = some text)
    (hsat : id.satisfies wanted = true) : l.text? id = some text := by
  rcases h id text ht with hl | hopened | ⟨m, hm⟩
  · exact hl
  · have hname := (SourceId.satisfies_iff.1 hsat).1
    exact absurd (hname ▸ List.mem_map_of_mem hopened) fresh
  · have hkey := List.mem_map_of_mem (Keyed.mem_of_find? hm) (f := (·.1))
    exact absurd hsat (List.find?_eq_none.1 new id hkey)

theorem Accounted.keep (h : Accounted l opened b) (directory : String) (id : SourceId)
    (text : String) (origin : Origin) :
    Accounted l (opened ++ [id]) (keep directory id text origin b) := by
  intro k kept hk
  rw [keep_library, text?_register] at hk
  rw [keep_compiled]
  split at hk
  · rename_i hid
    exact .inr (.inl (List.mem_append_right _ (List.mem_singleton.2 hid)))
  · exact (h k kept hk).imp_right (Or.imp_left (List.mem_append_left _))

theorem Accounted.enter (h : Accounted l (opened ++ [m.sourceId]) b) :
    Accounted l opened (b.enter m) := by
  intro k kept hk
  rw [Build.enter, Keyed.find?_insert]
  split
  · exact .inr (.inr ⟨m, rfl⟩)
  · rename_i hne
    rcases h k kept hk with hl | hopened | hcompiled
    · exact .inl hl
    · rcases List.mem_append.1 hopened with hopened | hk
      · exact .inr (.inl hopened)
      · exact absurd (List.mem_singleton.1 hk) hne
    · exact .inr (.inr hcompiled)

/-! ## What a run keeps -/

/-- The state of a build that started from this library. -/
structure Held (l : SourceLibrary) (directory : String) (opened : List SourceId) (b : Build) :
    Prop where
  faithful : b.Faithful
  extended : l.Extends b.library
  accounted : Accounted l opened b
  disk : ∃ entries, Accord l b.files directory entries ∧ ∀ id, id ∈ b.onDisk ↔ id ∈ scan entries

/-- What there was stays, and what comes to the directory is of the library. -/
structure Grows (l : SourceLibrary) (directory : String) (b b' : Build) : Prop where
  compiled : ∀ id m, Keyed.find? b.compiled id = some m → ∃ m', Keyed.find? b'.compiled id = some m'
  onDisk : ∀ id ∈ b.onDisk, id ∈ b'.onDisk
  added : ∀ id ∈ b'.onDisk, id ∈ b.onDisk ∨ ∃ text, l.text? id = some text
  texts : ∀ id ∈ b.onDisk, b'.files.readText (Files.join directory id.fileName) =
    b.files.readText (Files.join directory id.fileName)

theorem Grows.refl (l : SourceLibrary) (directory : String) (b : Build) : Grows l directory b b :=
  ⟨fun _ m h => ⟨m, h⟩, fun _ h => h, fun _ h => .inl h, fun _ _ => rfl⟩

theorem Grows.trans (h : Grows l directory b b₁) (k : Grows l directory b₁ b') :
    Grows l directory b b' := by
  refine ⟨fun id m hm => ?_, fun id hid => k.onDisk id (h.onDisk id hid), fun id hid => ?_,
    fun id hid => (k.texts id (h.onDisk id hid)).trans (h.texts id hid)⟩
  · obtain ⟨m₁, hm₁⟩ := h.compiled id m hm
    exact k.compiled id m₁ hm₁
  · rcases k.added id hid with hid | hid
    · exact h.added id hid
    · exact .inr hid

theorem grows_enter (l : SourceLibrary) (directory : String) (b : Build) (m : Yang.Module) :
    Grows l directory b (b.enter m) := by
  refine ⟨fun id n hn => ?_, fun _ h => h, fun _ h => .inl h, fun _ _ => rfl⟩
  rw [Build.enter, Keyed.find?_insert]
  split
  · exact ⟨m, rfl⟩
  · exact ⟨n, hn⟩

/-- What is fetched from the library of a build is the first library's. -/
theorem Held.text?_of_lookup? (hb : Held l directory opened b) (new : compiled? b wanted = none)
    (fresh : wanted.name ∉ opened.map (·.name)) {source : Source}
    (hl : b.library.lookup? wanted = some source) (checked : check wanted source = .ok m) :
    m.sourceId = source.id ∧ l.text? source.id = some source.text := by
  obtain ⟨htext, hnewest⟩ := lookup?_eq_some hl
  refine ⟨?_, hb.accounted.text? new fresh htext hnewest.satisfies⟩
  obtain ⟨n, hn, hid⟩ := hb.faithful.genuine _ _ htext
  rw [(check_eq_ok checked).1] at hn
  cases hn
  exact hid

/-- Keeping a text leaves the library and the directory in accord, as long as a text is the
library's own if it came from there; what the directory held before stays as it was. -/
theorem grows_keep {entries : List (String × FileNode)} {origin : Origin}
    (hd : Files.Bare directory) (haccord : Accord l b.files directory entries)
    (hdisk : ∀ k, k ∈ b.onDisk ↔ k ∈ scan entries)
    (ht : origin = .library → l.text? id = some text) :
    (∃ entries, Accord l (keep directory id text origin b).files directory entries ∧
      ∀ k, k ∈ (keep directory id text origin b).onDisk ↔ k ∈ scan entries) ∧
    Grows l directory b (keep directory id text origin b) := by
  have hcompiled : ∀ k n, Keyed.find? b.compiled k = some n →
      ∃ n', Keyed.find? (keep directory id text origin b).compiled k = some n' := by
    rw [keep_compiled]
    exact fun k n hn => ⟨n, hn⟩
  rcases keep_files directory id text origin b with
    ⟨hfiles, honDisk⟩ | ⟨hlibrary, hnot, hwrite, honDisk⟩
  · rw [hfiles, honDisk]
    refine ⟨⟨entries, haccord, hdisk⟩, hcompiled, ?_, ?_, ?_⟩
    · rw [honDisk]
      exact fun k hk => hk
    · rw [honDisk]
      exact fun k hk => .inl hk
    · rw [hfiles]
      exact fun k hk => rfl
  · have htext := ht hlibrary
    refine ⟨⟨_, haccord.write hd htext hwrite, fun k => ?_⟩, hcompiled, ?_, ?_, fun k hk => ?_⟩
    · rw [honDisk, mem_scan_insert (haccord.legible id text htext), List.mem_append,
        List.mem_singleton, hdisk, or_comm]
    · rw [honDisk]
      exact fun k hk => List.mem_append_left _ hk
    · rw [honDisk]
      intro k hk
      rcases List.mem_append.1 hk with hk | hk
      · exact .inl hk
      · exact .inr ⟨text, List.mem_singleton.1 hk ▸ htext⟩
    · have hne : k ≠ id := fun heq => hnot (heq ▸ hk)
      exact haccord.readText_write hd htext ((hdisk k).1 hk) hne hwrite

theorem Held.acquired (hd : Files.Bare directory) (hb : Held l directory opened b)
    (new : compiled? b wanted = none) (fresh : wanted.name ∉ opened.map (·.name))
    (acquired : run (acquire directory wanted) b = (.ok m, b₁)) :
    Held l directory (opened ++ [m.sourceId]) b₁ ∧ Grows l directory b b₁ := by
  have hfaithful := faithful_acquire hb.faithful acquired
  have hext := hb.extended.trans (extends_acquire acquired)
  obtain ⟨source, origin, found, checked, rfl⟩ := acquire_eq_ok acquired
  obtain ⟨entries, haccord, hdisk⟩ := hb.disk
  have htext : origin = .library → l.text? m.sourceId = some source.text := by
    rintro rfl
    rcases fetch_eq_ok found with ⟨_, hlookup⟩ | ⟨hdisk, _⟩
    · obtain ⟨hid, htext⟩ := hb.text?_of_lookup? new fresh hlookup checked
      rw [hid, htext]
    · cases hdisk
  obtain ⟨hkept, hgrows⟩ := grows_keep hd haccord hdisk htext
  exact ⟨⟨hfaithful, hext, hb.accounted.keep directory m.sourceId source.text origin, hkept⟩,
    hgrows⟩

theorem Held.enter (hb : Held l directory (opened ++ [m.sourceId]) b)
    (hm : b.library.Tells m.sourceId m) : Held l directory opened (b.enter m) :=
  ⟨faithful_enter hb.faithful hm, hb.extended, hb.accounted.enter, hb.disk⟩

/-- A module whose imports are compiled is entered. -/
theorem Held.built {requests : List SourceId} {chain : List String}
    {r : Except ResolutionFailure (List SourceId)} {b₂ : Build}
    (hb : Held l directory opened b) (acquired : run (acquire directory wanted) b = (.ok m, b₁))
    (imports : Compiling directory chain requests b₁ r b₂)
    (hb₂ : Held l directory (opened ++ [m.sourceId]) b₂) :
    Held l directory opened (b₂.enter m) := by
  have htells := tells_acquire hb.faithful.genuine acquired
  have hext := (imports.faithful (faithful_acquire hb.faithful acquired)).2
  exact hb₂.enter (htells.mono hext)

theorem names_concat (opened : List SourceId) (m : Yang.Module) :
    (opened ++ [m.sourceId]).map (·.name) = opened.map (·.name) ++ [m.name] := List.map_append

theorem Compiling.held {requests : List SourceId} {chain : List String}
    {r : Except ResolutionFailure (List SourceId)} (hd : Files.Bare directory)
    (h : Compiling directory chain requests b r b') :
    ∀ ids opened, r = .ok ids → opened.map (·.name) = chain → Held l directory opened b →
      Held l directory opened b' ∧ Grows l directory b b' := by
  induction h with
  | done chain b => exact fun ids opened _ _ hb => ⟨hb, .refl ..⟩
  | known known others ih =>
    intro ids opened hr hchain hb
    obtain ⟨rest, rfl, _⟩ := Outcome.map_eq_ok.1 hr
    exact ih rest opened rfl hchain hb
  | cycle => exact fun ids opened hr => nomatch hr
  | refused => exact fun ids opened hr => nomatch hr
  | broken => exact fun ids opened hr => nomatch hr
  | built new fresh acquired imports others ih₁ ih =>
    intro ids opened hr hchain hb
    obtain ⟨rest, rfl, _⟩ := Outcome.map_eq_ok.1 hr
    subst hchain
    obtain ⟨hb₁, hg₁⟩ := hb.acquired hd new fresh acquired
    obtain ⟨hb₂, hg₂⟩ := ih₁ _ _ rfl (names_concat opened _) hb₁
    obtain ⟨hb', hg'⟩ := ih rest opened rfl rfl (hb.built acquired imports hb₂)
    exact ⟨hb', ((hg₁.trans hg₂).trans (grows_enter ..)).trans hg'⟩

end MountRegistry.Resolution
