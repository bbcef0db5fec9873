import Mathlib.Data.Set.Function
import MountRegistry.Proofs.Files.Directory
import MountRegistry.Proofs.Keyed
import MountRegistry.Source.Resolution

/-
  File names of sources. A file name announces an identifier only if it is the one that the
  identifier is kept under, so that no two files of a directory announce the same; but a name or a
  revision with the separator in it makes a file name that announces another identifier, or none.
-/

namespace MountRegistry

namespace SourceId

variable {file : String} {id : SourceId}

theorem ofFileName?_eq_some (h : ofFileName? file = some id) :
    ∃ stem, stem ≠ [] ∧ file.toList = stem ++ fileEnding.toList ∧ stem = id.toString.toList := by
  obtain ⟨stem, hstem, h⟩ := Option.bind_eq_some_iff.1 h
  have hfile := List.isSuffixOf?_eq_some_iff_append_eq.1 hstem
  split at h
  · split at h
    · cases h
    · rename_i hne
      cases h
      exact ⟨stem, fun hnil => hne (hnil ▸ rfl), hfile.symm, String.toList_ofList.symm⟩
  · rename_i name revision hcut
    split at h
    · cases h
    · cases h
      have heq := Text.eq_of_cut? hcut
      refine ⟨stem, ?_, hfile.symm, ?_⟩
      · rw [heq]
        exact List.append_ne_nil_of_right_ne_nil name (List.cons_ne_nil _ _)
      · rw [heq, toString]
        simp [String.toList_append]

/-- A file that announces an identifier is the one that it is kept in. -/
theorem fileName_of_ofFileName? (h : ofFileName? file = some id) : id.fileName = file := by
  obtain ⟨stem, _, hfile, rfl⟩ := ofFileName?_eq_some h
  apply String.toList_inj.1
  rw [hfile, fileName, String.toList_append]

/-! ## What can be read back -/

/-- There is a name, with no separator in it, and no empty revision. -/
def Plain (id : SourceId) : Prop :=
  id.name ≠ "" ∧ '@' ∉ id.name.toList ∧ id.revision ≠ some ""

/-- What a file name announces is plain. -/
theorem plain_of_ofFileName? (h : ofFileName? file = some id) : id.Plain := by
  obtain ⟨stem, _, h⟩ := Option.bind_eq_some_iff.1 h
  split at h
  · rename_i hcut
    split at h
    · cases h
    · rename_i hstem
      cases h
      refine ⟨fun hnil => hstem ?_, ?_, nofun⟩
      · rw [String.ofList_eq_empty_iff.1 hnil]
        rfl
      · rw [String.toList_ofList]
        exact Text.cut?_eq_none_iff.1 hcut
  · rename_i name revision hcut
    split at h
    · cases h
    · rename_i hparts
      cases h
      rw [Bool.or_eq_true, List.isEmpty_iff, List.isEmpty_iff, not_or] at hparts
      refine ⟨fun hnil => hparts.1 (String.ofList_eq_empty_iff.1 hnil), ?_, fun hnil => ?_⟩
      · rw [String.toList_ofList]
        exact Text.not_mem_of_cut? hcut
      · exact hparts.2 (String.ofList_eq_empty_iff.1 (Option.some.inj hnil))

theorem fileStem?_fileName (id : SourceId) : fileStem? id.fileName = some id.toString.toList := by
  unfold fileStem? fileName
  rw [String.toList_append]
  exact List.isSuffixOf?_eq_some_iff_append_eq.2 rfl

/-- A plain identifier is announced by its file name: the first separator is the one between its
parts. -/
theorem Plain.announced (h : id.Plain) : ofFileName? id.fileName = some id := by
  obtain ⟨name, revision⟩ := id
  obtain ⟨hname, hbare, hrevision⟩ := h
  have hne : name.toList ≠ [] := fun hnil => hname (String.toList_eq_nil_iff.1 hnil)
  unfold ofFileName?
  rw [fileStem?_fileName, Option.bind_eq_bind, Option.bind_some]
  cases revision with
  | none =>
    have hcut : Text.cut? '@' name.toList = none := Text.cut?_eq_none_iff.2 hbare
    simp only [toString, hcut, List.isEmpty_iff, if_neg hne, String.ofList_toList]
  | some revision =>
    have hstem :
        (toString ⟨name, some revision⟩).toList = name.toList ++ '@' :: revision.toList := by
      simp [toString, String.toList_append]
    have hrev : revision.toList ≠ [] := fun hnil =>
      hrevision (congrArg some (String.toList_eq_nil_iff.1 hnil))
    rw [hstem, Text.cut?_append hbare]
    simp [hne, hrev, String.ofList_toList]

/-- File names and identifiers stand for one another: a file announces an identifier only under the
name that the identifier is kept under, and that name announces just the plain identifiers. So
between these and the file names that announce something, keeping and reading are one to one. -/
theorem fileName_bijective :
    (∀ file id, ofFileName? file = some id → id.fileName = file) ∧
    (∀ id : SourceId, ofFileName? id.fileName = some id ↔
      id.name ≠ "" ∧ '@' ∉ id.name.toList ∧ id.revision ≠ some "") ∧
    Set.BijOn fileName {id | Plain id} {file | (ofFileName? file).isSome} := by
  refine ⟨fun _ _ => fileName_of_ofFileName?, fun id => ⟨plain_of_ofFileName?, Plain.announced⟩,
    ?_, ?_, ?_⟩
  · intro id hid
    exact Option.isSome_of_eq_some (Plain.announced hid)
  · intro a ha b hb hab
    have hannounced : some a = some b := by
      rw [← Plain.announced ha, ← Plain.announced hb, hab]
    exact Option.some.inj hannounced
  · intro file hfile
    obtain ⟨id, hid⟩ := Option.isSome_iff_exists.1 hfile
    exact ⟨id, plain_of_ofFileName? hid, fileName_of_ofFileName? hid⟩

/-- Only the first separator counts, and only the last ending. -/
example : ofFileName? "a.yang@b@c.yang.yang" = some ⟨"a.yang", some "b@c.yang"⟩ := by decide

/-! ## Names of directory entries -/

theorem entryName_of_ofFileName? (h : ofFileName? file = some id) (hslash : '/' ∉ file.toList) :
    Files.EntryName file := by
  obtain ⟨stem, hne, hfile, _⟩ := ofFileName?_eq_some h
  have hlong : 5 < file.toList.length := by
    have hpos := List.length_pos_of_ne_nil hne
    have hend : fileEnding.toList.length = 5 := by decide
    rw [hfile, List.length_append]
    omega
  refine ⟨?_, hslash, ?_, ?_⟩
  · intro hnil
    rw [hnil] at hlong
    contradiction
  · rintro rfl
    revert hlong
    decide
  · rintro rfl
    revert hlong
    decide

/-- The identifier is announced by the name of the file that it is kept in. -/
structure Legible (id : SourceId) : Prop where
  announced : ofFileName? id.fileName = some id
  slash : '/' ∉ id.fileName.toList

theorem Legible.entryName (h : id.Legible) : Files.EntryName id.fileName :=
  entryName_of_ofFileName? h.announced h.slash

theorem Legible.fileName_ne {other : SourceId} (h : id.Legible) (k : other.Legible)
    (hne : other ≠ id) : other.fileName ≠ id.fileName := by
  intro heq
  have hannounced := k.announced
  rw [heq, h.announced] at hannounced
  exact hne (Option.some.inj hannounced).symm

end SourceId

namespace Resolution

variable {entries : List (String × FileNode)} {id : SourceId}

theorem mem_scan :
    id ∈ scan entries ↔ ∃ file ∈ entries.map (·.1), SourceId.ofFileName? file = some id := by
  unfold scan
  rw [List.mem_filterMap]
  constructor
  · rintro ⟨e, he, hid⟩
    exact ⟨e.1, List.mem_map_of_mem he, hid⟩
  · rintro ⟨_, hfile, hid⟩
    obtain ⟨e, he, rfl⟩ := List.mem_map.1 hfile
    exact ⟨e, he, hid⟩

/-- With plain names of files, what they announce is legible. -/
theorem legible_of_mem_scan (hplain : ∀ file ∈ entries.map (·.1), '/' ∉ file.toList)
    (h : id ∈ scan entries) : id.Legible := by
  obtain ⟨file, hfile, hid⟩ := mem_scan.1 h
  have hname := SourceId.fileName_of_ofFileName? hid
  exact ⟨hname.symm ▸ hid, hname.symm ▸ hplain file hfile⟩

/-- A file written for a source announces it, and nothing else is announced anew. -/
theorem mem_scan_insert {other : SourceId} (h : id.Legible) (node : FileNode) :
    other ∈ scan (Keyed.insert entries id.fileName node) ↔ other = id ∨ other ∈ scan entries := by
  rw [mem_scan, mem_scan]
  constructor
  · rintro ⟨file, hfile, hother⟩
    rcases Keyed.mem_keys_insert.1 hfile with rfl | hfile
    · rw [h.announced] at hother
      exact .inl (Option.some.inj hother).symm
    · exact .inr ⟨file, hfile, hother⟩
  · rintro (rfl | ⟨file, hfile, hother⟩)
    · exact ⟨_, Keyed.mem_keys_insert.2 (.inl rfl), h.announced⟩
    · exact ⟨file, Keyed.mem_keys_insert.2 (.inr hfile), hother⟩

theorem entryName_of_isDirectoryName {name : String} (h : isDirectoryName name = true) :
    Files.EntryName name := by
  unfold isDirectoryName at h
  simp only [Bool.and_eq_true, Bool.not_eq_true', List.any_eq_false, bne_iff_ne] at h
  obtain ⟨⟨⟨hempty, hdot⟩, hdots⟩, hchars⟩ := h
  refine ⟨fun hnil => ?_, fun hin => hchars _ hin rfl, hdot, hdots⟩
  rw [String.toList_eq_nil_iff.1 hnil] at hempty
  cases hempty

theorem bare_of_directoryFor {cacheRoot name directory : String}
    (h : directoryFor cacheRoot name = .ok directory) : Files.Bare directory := by
  unfold directoryFor at h
  split at h
  · rename_i hname
    cases h
    have hentry := entryName_of_isDirectoryName hname
    exact Files.bare_join cacheRoot hentry.nonempty hentry.slash
  · cases h

end Resolution

end MountRegistry
