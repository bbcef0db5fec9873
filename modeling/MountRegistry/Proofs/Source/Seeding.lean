import MountRegistry.Proofs.Files.Named
import MountRegistry.Proofs.Source.FileName
import MountRegistry.Source.Seeding

/-
  What filling a cache directory does to the files. The directory is made where there was nothing,
  and files are put into it and nowhere else (`seeding_footprint`). Where the directory is there
  already, and where it cannot be made below the root of the cache, nothing is done. But the source
  is looked at when the directory is there: a source that cannot be copied leaves it behind with
  nothing in it, and from then on each call finds it and copies nothing
  (`failed_seeding_blocks_retry`).
-/

namespace MountRegistry

/-- Whether the source is to blame, which is looked at after the directory is made. -/
def SeedingFailure.ofSource : SeedingFailure → Bool
  | .invalidDirectory _ | .unreachable _ | .cannotCreate _ _ => false
  | .cannotList _ _ | .notAFile _ | .cannotCopy _ _ => true

/-- Whether the directory, or one above it, could not be made. -/
def SeedingFailure.ofMaking : SeedingFailure → Bool
  | .cannotCreate _ _ => true
  | _ => false

namespace Seeding

open Files (EntryName)
open Resolution (isDirectoryName directoryFor bare_of_directoryFor entryName_of_isDirectoryName)

variable {f f' made : Files} {cacheRoot name source target : String} {place : List String}
  {entries : List (String × FileNode)}

/-! ## Copying -/

/-- A file directly in a directory. -/
def FileIn (directory p : List String) (_ : ByteArray) : Prop := ∃ file, p = directory ++ [file]

theorem entryName_of_fileName? (h : fileName? source = some name) : EntryName name := by
  unfold fileName? at h
  obtain ⟨hlast, hdots⟩ := Option.filter_eq_some_iff.1 h
  obtain ⟨hmem, hplain⟩ := List.mem_filter.1 (List.mem_of_getLast? hlast)
  obtain ⟨field, hfield, rfl⟩ := List.mem_map.1 hmem
  simp only [Bool.and_eq_true, bne_iff_ne] at hplain hdots
  refine ⟨fun hnil => hplain.1 (String.toList_eq_nil_iff.1 hnil), ?_, hplain.2, hdots⟩
  rw [String.toList_ofList]
  exact Text.not_mem_of_mem_fields hfield

/-- An entry of a directory is written in it. -/
theorem changed_write_entry (hd : Files.Bare target) (hat : f.DirectoryAt target place)
    (hn : EntryName name) {bytes : ByteArray}
    (hw : f.write (Files.join target name) bytes = .ok f') :
    f.Changed (fun _ => False) (FileIn place) f' := by
  obtain ⟨hplace, entries, hdir⟩ := hat
  obtain ⟨p, hp, hchanged⟩ := Files.changed_write (fun _ => False) hw
  refine hchanged.mono (fun _ h => h) ?_
  rintro _ _ ⟨rfl, rfl⟩
  exact ⟨name, Files.eq_of_place_join hd hn hplace hdir hp⟩

theorem changed_copyInto (hd : Files.Bare target) (hat : f.DirectoryAt target place)
    {entry : String × FileNode} (hn : EntryName entry.1) (source : String) :
    f.Changed (fun _ => False) (FileIn place) (copyInto source target f entry) := by
  unfold copyInto
  split
  · exact .refl ..
  · split
    · rename_i hcopied
      obtain ⟨bytes, _, hw⟩ := Outcome.bind_eq_ok.1 hcopied
      exact changed_write_entry hd hat hn hw
    · exact .refl ..

theorem changed_copyAll (hd : Files.Bare target) (hat : f.DirectoryAt target place)
    (hn : ∀ e ∈ entries, EntryName e.1) :
    f.Changed (fun _ => False) (FileIn place) (entries.foldl (copyInto source target) f) := by
  induction entries generalizing f with
  | nil => exact .refl ..
  | cons e rest ih =>
    have hfirst := changed_copyInto hd hat (hn e List.mem_cons_self) source
    exact hfirst.trans (ih (hat.later hfirst) fun x hx => hn x (List.mem_cons_of_mem e hx))

/-- A source is copied into the directory only, or it fails and nothing is copied. -/
theorem fill_cases (hf : f.root.Named) (hd : Files.Bare target) (hat : f.DirectoryAt target place)
    (source : String) :
    ((fill f target source).2 = .created ∧
        f.Changed (fun _ => False) (FileIn place) (fill f target source).1) ∨
      ∃ cause, cause.ofSource = true ∧ fill f target source = (f, .failed cause) := by
  unfold fill
  split
  · split
    · exact .inr ⟨_, rfl, rfl⟩
    · rename_i entries hlist
      obtain ⟨p, _, hdir⟩ := Files.list_eq_ok_iff.1 hlist
      exact .inl ⟨rfl, changed_copyAll hd hat (hf p entries hdir)⟩
  · split
    · exact .inr ⟨_, rfl, rfl⟩
    · rename_i name hname
      split
      · exact .inr ⟨_, rfl, rfl⟩
      · rename_i hcopied
        obtain ⟨bytes, _, hw⟩ := Outcome.bind_eq_ok.1 hcopied
        exact .inl ⟨rfl, changed_write_entry hd hat (entryName_of_fileName? hname) hw⟩

/-! ## Making the directory -/

/-- A place on the way to the cache directory; where the root of the cache is a directory, the cache
directory itself. -/
def OnTheWay (f f' : Files) (cacheRoot name : String) (p : List String) : Prop :=
  f'.OnTheWay (Files.join cacheRoot name) p ∧
    ∀ above, f.DirectoryAt cacheRoot above → p = above ++ [name]

/-- Making the cache directory makes nothing else below the root of the cache. -/
theorem changed_making (hn : EntryName name)
    (habsent : f.stat (Files.join cacheRoot name) = .error .notFound) :
    f.Changed (OnTheWay f (f.createDirectories (Files.join cacheRoot name)).1 cacheRoot name)
      (fun _ _ => False) (f.createDirectories (Files.join cacheRoot name)).1 := by
  refine (Files.changed_createDirectories f _ _).and ?_
  by_cases hroot : ∃ above, f.DirectoryAt cacheRoot above
  · obtain ⟨above, habove⟩ := hroot
    rcases Files.createDirectories_join hn habove habsent with ⟨fault, h⟩ | ⟨made, h, hchanged⟩
    · rw [h]
      exact .refl ..
    · rw [h]
      refine hchanged.mono (fun p hp other hother => ?_) fun _ _ hw => hw
      rw [hp, Except.ok.inj (habove.1.symm.trans hother.1)]
  · exact (Files.changed_createDirectories f _ _).mono
      (fun p _ above habove => absurd ⟨above, habove⟩ hroot) fun _ _ hw => hw

/-- A directory that cannot be made is not, nor is another, unless the root of the cache is
missing. -/
theorem unmade_of_fault (hn : EntryName name)
    (habsent : f.stat (Files.join cacheRoot name) = .error .notFound) {fault : FileFault}
    (h : f.createDirectories (Files.join cacheRoot name) = (made, some fault)) :
    made = f ∨ ∀ above, ¬ f.DirectoryAt cacheRoot above := by
  by_cases hroot : ∃ above, f.DirectoryAt cacheRoot above
  · obtain ⟨above, habove⟩ := hroot
    rcases Files.createDirectories_join hn habove habsent with ⟨_, hsame⟩ | ⟨_, hmade, _⟩
    · rw [h] at hsame
      exact .inl (Prod.mk.inj hsame).1
    · rw [h] at hmade
      cases (Prod.mk.inj hmade).2
  · exact .inr fun above habove => hroot ⟨above, habove⟩

/-- Where the directory is there, it is not filled. -/
theorem loadModels_of_stat (hname : isDirectoryName name = true) {node : FileNode}
    (h : f.stat (Files.join cacheRoot name) = .ok node) (source : String) :
    loadModels f cacheRoot name source = (f, .alreadyExists) := by
  rw [loadModels, directoryFor, if_pos hname]
  dsimp only
  rw [h]

/-- Everything that a call can come to. -/
theorem loadModels_cases (f : Files) (cacheRoot name source : String) :
    (∃ outcome, loadModels f cacheRoot name source = (f, outcome) ∧ outcome ≠ .created ∧
      ∀ cause, outcome = .failed cause → cause.ofSource = false) ∨
    (isDirectoryName name = true ∧ f.stat (Files.join cacheRoot name) = .error .notFound ∧
      ((∃ made fault, f.createDirectories (Files.join cacheRoot name) = (made, some fault) ∧
          loadModels f cacheRoot name source =
            (made, .failed (.cannotCreate (Files.join cacheRoot name) fault))) ∨
        ∃ made, f.createDirectories (Files.join cacheRoot name) = (made, none) ∧
          loadModels f cacheRoot name source = fill made (Files.join cacheRoot name) source)) := by
  unfold loadModels directoryFor
  by_cases hname : isDirectoryName name = true
  · rw [if_pos hname]
    dsimp only
    split
    · exact .inl ⟨_, rfl, nofun, nofun⟩
    · rename_i hstat
      refine .inr ⟨hname, hstat, ?_⟩
      split
      · rename_i made fault hmade
        exact .inl ⟨made, fault, hmade, rfl⟩
      · rename_i made hmade
        exact .inr ⟨made, hmade, rfl⟩
    · refine .inl ⟨_, rfl, nofun, ?_⟩
      rintro cause ⟨⟩
      rfl
  · rw [if_neg hname]
    refine .inl ⟨_, rfl, nofun, ?_⟩
    rintro cause ⟨⟩
    rfl

/-! ## A whole call -/

/-- What a call leaves when the directory was made and the source looked at. -/
theorem changed_fill (hf : f.root.Named) (hname : isDirectoryName name = true)
    (habsent : f.stat (Files.join cacheRoot name) = .error .notFound)
    (hmade : f.createDirectories (Files.join cacheRoot name) = (made, none)) (source : String) :
    let r := fill made (Files.join cacheRoot name) source
    ∃ place, r.1.DirectoryAt (Files.join cacheRoot name) place ∧
      ((r.2 = .created ∧ f.Changed (OnTheWay f r.1 cacheRoot name) (FileIn place) r.1) ∨
        ∃ cause, r.2 = .failed cause ∧ cause.ofSource = true ∧
          f.Changed (OnTheWay f r.1 cacheRoot name) (fun _ _ => False) r.1) := by
  intro r
  have hentry := entryName_of_isDirectoryName hname
  have hmaking := changed_making hentry habsent
  have hnamed := Files.named_createDirectories hf (Files.join cacheRoot name)
  rw [hmade] at hmaking hnamed
  obtain ⟨place, hat⟩ := Files.directoryAt_createDirectories hmade
  have hd := Files.bare_join cacheRoot hentry.nonempty hentry.slash
  rcases fill_cases hnamed hd hat source with ⟨hcreated, hfilled⟩ | ⟨cause, hcause, hfailed⟩
  · refine ⟨place, hat.later hfilled, .inl ⟨hcreated, ?_⟩⟩
    -- the ways to the directory are those that led there before it was filled
    have hbefore : f.Changed (OnTheWay f r.1 cacheRoot name) (FileIn place) made :=
      hmaking.mono (fun p hp => ⟨hfilled.onTheWay hp.1, hp.2⟩) fun _ _ => False.elim
    exact hbefore.trans (hfilled.mono (fun _ => False.elim) fun _ _ hw => hw)
  · have hr : r = (made, .failed cause) := hfailed
    rw [hr]
    exact ⟨place, hat, .inr ⟨cause, rfl, hcause, hmaking⟩⟩

/-- If the cache directory is filled, it was not there and is there, and all that is new are
directories on the way to it and files in it. If it was there, nothing is done. If the call fails,
no file is written. Nor is a directory made, if the source is not to blame and the root of the cache
is a directory. But if the source is to blame, the cache directory is there afterwards, and whatever
the source of a later call is, it copies nothing. -/
theorem seeding_footprint (f : Files) (hf : f.root.Named) (cacheRoot name source : String) :
    let target := Files.join cacheRoot name
    let r := loadModels f cacheRoot name source
    (r.2 = .created → f.stat target = .error .notFound ∧ ∃ place, r.1.DirectoryAt target place ∧
      f.Changed (OnTheWay f r.1 cacheRoot name) (FileIn place) r.1) ∧
    (r.2 = .alreadyExists → r.1 = f) ∧
    ∀ cause, r.2 = .failed cause →
      f.Changed (OnTheWay f r.1 cacheRoot name) (fun _ _ => False) r.1 ∧
      (cause.ofSource = false →
        r.1 = f ∨ cause.ofMaking = true ∧ ∀ above, ¬ f.DirectoryAt cacheRoot above) ∧
      (cause.ofSource = true → f.stat target = .error .notFound ∧
        (∃ place, r.1.DirectoryAt target place) ∧
        ∀ source', loadModels r.1 cacheRoot name source' = (r.1, .alreadyExists)) := by
  intro target r
  rcases loadModels_cases f cacheRoot name source with
    ⟨outcome, hr, hcreated, hfailed⟩ |
      ⟨hname, habsent, ⟨made, fault, hmade, hr⟩ | ⟨made, hmade, hr⟩⟩
  · have hr : r = (f, outcome) := hr
    rw [hr]
    refine ⟨fun h => absurd h hcreated, fun _ => rfl, fun cause h => ?_⟩
    refine ⟨.refl .., fun _ => .inl rfl, fun hsource => ?_⟩
    rw [hfailed cause h] at hsource
    contradiction
  · have hr : r = (made, .failed (.cannotCreate target fault)) := hr
    have hentry := entryName_of_isDirectoryName hname
    have hmaking := changed_making hentry habsent
    rw [hmade] at hmaking
    rw [hr]
    refine ⟨nofun, nofun, ?_⟩
    rintro cause ⟨⟩
    have hunmade := unmade_of_fault hentry habsent hmade
    exact ⟨hmaking, fun _ => hunmade.imp_right fun hroot => ⟨rfl, hroot⟩, nofun⟩
  · have hr : r = fill made target source := hr
    obtain ⟨place, hat, hwhole⟩ := changed_fill hf hname habsent hmade source
    rw [← hr] at hat hwhole
    rcases hwhole with ⟨hcreated, hchanged⟩ | ⟨cause, hfailed, hsource, hchanged⟩
    · rw [hcreated]
      exact ⟨fun _ => ⟨habsent, place, hat, hchanged⟩, nofun, nofun⟩
    · rw [hfailed]
      refine ⟨nofun, nofun, ?_⟩
      rintro _ ⟨⟩
      refine ⟨hchanged, fun h => ?_, fun _ => ⟨habsent, ⟨place, hat⟩, fun source' => ?_⟩⟩
      · rw [hsource] at h
        contradiction
      · obtain ⟨_, hstat⟩ := hat.stat
        exact loadModels_of_stat hname hstat source'

/-- Files with a cache that is empty, and a module to fill it with. -/
def beforeSeeding : Files :=
  ⟨"", .directory [("c", .directory []), ("t.yang", .file "module t".toUTF8)]⟩

theorem seeding_footprint_one_file :
    let r := loadModels beforeSeeding "/c" "d" "/t.yang"
    beforeSeeding.root.Named ∧ r.2 = .created ∧ r.1.readText "/c/d/t.yang" = .ok "module t" ∧
      beforeSeeding.Changed (· = ["c", "d"]) (FileIn ["c", "d"]) r.1 := by
  intro r
  have hc : EntryName "c" := ⟨by decide, by decide, by decide, by decide⟩
  have ht : EntryName "t.yang" := ⟨by decide, by decide, by decide, by decide⟩
  have hnamed : beforeSeeding.root.Named :=
    (FileNode.named_empty.insert ht (FileNode.named_file "module t".toUTF8)).insert hc
      FileNode.named_empty
  obtain ⟨_, place, hat, hchanged⟩ :=
    (seeding_footprint beforeSeeding hnamed "/c" "d" "/t.yang").1 rfl
  have hplace : place = ["c", "d"] := (Except.ok.inj hat.1).symm
  subst hplace
  refine ⟨hnamed, rfl, rfl, hchanged.mono (fun p hp => ?_) fun _ _ hw => hw⟩
  exact hp.2 ["c"] ⟨rfl, [], rfl⟩

/-- The source of the first call is missing. It leaves the directory, and the second call copies
nothing, although it would have made and filled the directory had it come first. -/
theorem failed_seeding_blocks_retry :
    let r := loadModels beforeSeeding "/c" "d" "/s.yang"
    let retry := loadModels r.1 "/c" "d" "/t.yang"
    r.2 = .failed (.cannotCopy "/s.yang" .notFound) ∧ r.1.list "/c/d" = .ok [] ∧
      beforeSeeding.stat "/c/d" = .error .notFound ∧
      retry.2 = .alreadyExists ∧ retry.1.list "/c/d" = .ok [] ∧
      (loadModels beforeSeeding "/c" "d" "/t.yang").2 = .created := by
  intro r retry
  exact ⟨rfl, rfl, rfl, rfl, rfl, rfl⟩

end Seeding

end MountRegistry
