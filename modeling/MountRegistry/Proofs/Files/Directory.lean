import Mathlib.Data.List.Basic
import MountRegistry.Proofs.Files.Tree

/-
  A directory by its path text. What an entry of it holds is told by what it lists
  (`readText_join`), and writing an entry changes what it lists at that name only (`list_write`).
  A directory that can be listed is not made again.
-/

namespace MountRegistry.Files

/-- A name that leads from a directory to an entry of it. -/
structure EntryName (name : String) : Prop where
  nonempty : name.toList ≠ []
  slash : '/' ∉ name.toList
  dot : name ≠ "."
  dots : name ≠ ".."

variable {f f' : Files} {directory name : String} {entries : List (String × FileNode)}

/-! ## Path texts -/

theorem not_slash_suffix (s : List Char) {t : List Char} (ht : t ≠ []) (hslash : '/' ∉ t) :
    ['/'].isSuffixOf (s ++ t) = false := by
  rw [← Bool.not_eq_true, List.isSuffixOf_iff_suffix]
  rintro ⟨u, hu⟩
  rcases List.eq_nil_or_concat t with rfl | ⟨t', c, rfl⟩
  · exact ht rfl
  · rw [List.concat_eq_append, ← List.append_assoc] at hu
    obtain ⟨_, hc⟩ := List.append_inj' hu rfl
    cases hc
    exact hslash (List.concat_eq_append ▸ List.mem_append_right _ List.mem_cons_self)

theorem namesOf_entry (s : List Char) {t : List Char} (ht : t ≠ []) (hslash : '/' ∉ t) :
    namesOf (s ++ '/' :: t) =
      ((Text.fields '/' s).filter (!·.isEmpty)).map String.ofList ++ [String.ofList t] := by
  have hlast : ['/'].isSuffixOf (s ++ '/' :: t) = false := by
    rw [List.append_cons]
    exact not_slash_suffix _ ht hslash
  unfold namesOf
  rw [hlast, Text.fields_append, Text.fields_of_not_mem hslash]
  simp [ht]

theorem namesOf_slash (s : List Char) :
    namesOf (s ++ ['/']) =
      ((Text.fields '/' s).filter (!·.isEmpty)).map String.ofList ++ ["."] := by
  have hlast : ['/'].isSuffixOf (s ++ ['/']) = true :=
    List.isSuffixOf_iff_suffix.2 (List.suffix_append s ['/'])
  unfold namesOf
  rw [hlast, Text.fields_append]
  simp [Text.fields]

theorem namesOf_append {s t : List Char} (hs : ['/'].isSuffixOf s = false) (ht : t ≠ [])
    (hslash : '/' ∉ t) : namesOf (s ++ '/' :: t) = namesOf s ++ [String.ofList t] := by
  rw [namesOf_entry s ht hslash, namesOf, hs]
  rfl

/-- The text does not end with a slash. -/
def Bare (directory : String) : Prop := ['/'].isSuffixOf directory.toList = false

theorem EntryName.not_slash_prefix (hn : EntryName name) :
    "/".toList.isPrefixOf name.toList = false := by
  rw [← Bool.not_eq_true, List.isPrefixOf_iff_prefix]
  rintro ⟨rest, hrest⟩
  exact hn.slash (hrest ▸ List.mem_append_left _ (by decide))

theorem join_eq (hd : Bare directory) (hn : EntryName name) :
    (join directory name).toList = directory.toList ++ '/' :: name.toList := by
  have hlast : "/".toList.isSuffixOf directory.toList = false := hd
  unfold join
  rw [hn.not_slash_prefix, hlast]
  simp [String.toList_append]

theorem join_of_slash (hd : ['/'] <:+ directory.toList) (hn : EntryName name) :
    (join directory name).toList = directory.toList ++ name.toList := by
  have hlast : "/".toList.isSuffixOf directory.toList = true := List.isSuffixOf_iff_suffix.2 hd
  unfold join
  rw [hn.not_slash_prefix, hlast]
  exact String.toList_append

theorem bare_join (directory : String) (hne : name.toList ≠ []) (hslash : '/' ∉ name.toList) :
    Bare (join directory name) := by
  unfold Bare join
  split
  · exact not_slash_suffix [] hne hslash
  · split
    · rw [String.toList_append]
      exact not_slash_suffix _ hne hslash
    · rw [String.toList_append]
      exact not_slash_suffix _ hne hslash

theorem names?_eq_some_iff {path : String} {names : List String} :
    f.names? path = some names ↔ ∃ rest, f.base.toList ++ rest = path.toList ∧
      (∀ c, rest.head? = some c → c = '/') ∧ names = namesOf rest := by
  unfold names?
  constructor
  · intro h
    split at h
    · rename_i hrest
      cases h
      exact ⟨[], List.isPrefixOf?_eq_some_iff_append_eq.1 hrest, by simp, rfl⟩
    · rename_i rest hrest
      cases h
      exact ⟨_, List.isPrefixOf?_eq_some_iff_append_eq.1 hrest, by simp [eq_comm], rfl⟩
    · cases h
  · rintro ⟨rest, hrest, hhead, rfl⟩
    rw [List.isPrefixOf?_eq_some_iff_append_eq.2 hrest]
    cases rest with
    | nil => rfl
    | cons c rest =>
      cases hhead c rfl
      rfl

theorem names?_join (hd : Bare directory) (hn : EntryName name) {names : List String}
    (h : f.names? directory = some names) :
    f.names? (join directory name) = some (names ++ [name]) := by
  obtain ⟨rest, hrest, hhead, rfl⟩ := names?_eq_some_iff.1 h
  refine names?_eq_some_iff.2 ⟨rest ++ '/' :: name.toList, ?_, ?_, ?_⟩
  · rw [join_eq hd hn, ← hrest, List.append_assoc]
  · cases rest with
    | nil => simp [eq_comm]
    | cons c rest => simpa using hhead
  · have hbare : ['/'].isSuffixOf rest = false := by
      unfold Bare at hd
      rw [← Bool.not_eq_true, List.isSuffixOf_iff_suffix, ← hrest] at hd
      rw [← Bool.not_eq_true, List.isSuffixOf_iff_suffix]
      exact fun hs => hd (hs.trans (List.suffix_append _ _))
    rw [namesOf_append hbare hn.nonempty hn.slash, String.ofList_toList]

/-- The names that lead to an entry, if the path of the directory may end with a slash. -/
theorem exists_names_above (hn : EntryName name) {names names' : List String}
    (h : f.names? directory = some names) (h' : f.names? (join directory name) = some names') :
    ∃ above, names' = above ++ [name] ∧ (names = above ∨ names = above ++ ["."]) := by
  by_cases hd : Bare directory
  · rw [names?_join hd hn h] at h'
    exact ⟨names, (Option.some.inj h').symm, .inl rfl⟩
  · have hsuffix : ['/'] <:+ directory.toList := by
      unfold Bare at hd
      rwa [Bool.not_eq_false, List.isSuffixOf_iff_suffix] at hd
    obtain ⟨rest, hrest, _, rfl⟩ := names?_eq_some_iff.1 h
    obtain ⟨rest', hrest', hhead, rfl⟩ := names?_eq_some_iff.1 h'
    rw [join_of_slash hsuffix hn, ← hrest, List.append_assoc] at hrest'
    obtain rfl := List.append_cancel_left hrest'
    rcases List.eq_nil_or_concat rest with rfl | ⟨before, c, rfl⟩
    · -- the entry would stand right after the path of the top
      cases hname : name.toList with
      | nil => exact absurd hname hn.nonempty
      | cons c cs =>
        have hc : c = '/' := hhead c (by rw [List.nil_append, hname]; rfl)
        exact absurd (by rw [hname, hc]; exact List.mem_cons_self) hn.slash
    · rw [List.concat_eq_append] at hrest ⊢
      obtain ⟨d, hslash⟩ := hsuffix
      rw [← hslash, ← List.append_assoc] at hrest
      obtain ⟨_, hc⟩ := List.append_inj' hrest rfl
      cases hc
      refine ⟨((Text.fields '/' before).filter (!·.isEmpty)).map String.ofList, ?_, .inr ?_⟩
      · rw [List.append_assoc, List.singleton_append, namesOf_entry before hn.nonempty hn.slash,
          String.ofList_toList]
      · exact namesOf_slash before

/-! ## Entries -/

theorem place_eq_ok_iff {path : String} {target : List String} :
    f.place path = .ok target ↔ pathFault? path = none ∧
      ∃ names, f.names? path = some names ∧ f.root.walk [] names = .ok target := by
  unfold place
  split
  · rename_i fault hfault
    rw [hfault]
    exact ⟨(fun h => nomatch h), fun h => nomatch h.1⟩
  · rename_i names hfault hnames
    rw [hfault, hnames]
    exact ⟨fun h => ⟨rfl, names, rfl, h⟩, fun ⟨_, _, heq, h⟩ => Option.some.inj heq ▸ h⟩
  · rename_i hfault hnames
    rw [hfault, hnames]
    constructor
    · intro h
      obtain ⟨_, _, h⟩ := Outcome.bind_eq_ok.1 h
      cases h
    · rintro ⟨_, _, heq, _⟩
      cases heq

theorem list_eq_ok_iff :
    f.list directory = .ok entries ↔
      ∃ target, f.place directory = .ok target ∧
        f.root.find? target = some (.directory entries) := by
  unfold list stat
  constructor
  · intro h
    obtain ⟨node, hnode, h⟩ := Outcome.bind_eq_ok.1 h
    obtain ⟨target, htarget, hnode⟩ := Outcome.bind_eq_ok.1 hnode
    refine ⟨target, htarget, ?_⟩
    split at hnode
    · rename_i found hfound
      cases hnode
      rw [hfound]
      split at h
      · cases h
        rfl
      · cases h
    · cases hnode
  · rintro ⟨target, htarget, hdir⟩
    refine Outcome.bind_eq_ok.2
      ⟨.directory entries, Outcome.bind_eq_ok.2 ⟨target, htarget, ?_⟩, rfl⟩
    rw [hdir]

theorem readText_eq_ok_iff {path text : String} :
    f.readText path = .ok text ↔
      ∃ target bytes, f.place path = .ok target ∧ f.root.find? target = some (.file bytes) ∧
        String.fromUTF8? bytes = some text := by
  unfold readText read stat
  constructor
  · intro h
    obtain ⟨bytes, hbytes, h⟩ := Outcome.bind_eq_ok.1 h
    obtain ⟨node, hnode, hbytes⟩ := Outcome.bind_eq_ok.1 hbytes
    obtain ⟨target, htarget, hnode⟩ := Outcome.bind_eq_ok.1 hnode
    refine ⟨target, bytes, htarget, ?_, ?_⟩
    · split at hnode
      · rename_i found hfound
        cases hnode
        rw [hfound]
        split at hbytes
        · cases hbytes
          rfl
        · cases hbytes
      · cases hnode
    · split at h
      · rename_i htext
        cases h
        exact htext
      · cases h
  · rintro ⟨target, bytes, htarget, hfile, htext⟩
    refine Outcome.bind_eq_ok.2 ⟨bytes, Outcome.bind_eq_ok.2 ⟨.file bytes,
      Outcome.bind_eq_ok.2 ⟨target, htarget, ?_⟩, rfl⟩, ?_⟩
    · rw [hfile]
    · rw [htext]

/-- A directory that can be listed is not made again. -/
theorem createDirectories_of_list (h : f.list directory = .ok entries) :
    f.createDirectories directory = (f, none) := by
  obtain ⟨target, htarget, hdir⟩ := list_eq_ok_iff.1 h
  obtain ⟨hfault, names, hnames, hwalk⟩ := place_eq_ok_iff.1 htarget
  unfold createDirectories
  rw [hfault, hnames]
  dsimp only
  rw [FileNode.createDirectories_of_walk hwalk hdir]

/-- Where the path of an entry leads. -/
theorem place_join (hd : Bare directory) (hn : EntryName name) {target : List String}
    (h : f.place directory = .ok target) (hdir : f.root.find? target = some (.directory entries))
    (hfault : pathFault? (join directory name) = none) :
    f.place (join directory name) =
      if isTooLong name then .error .nameTooLong else .ok (target ++ [name]) := by
  obtain ⟨_, names, hnames, hwalk⟩ := place_eq_ok_iff.1 h
  unfold place
  rw [hfault, names?_join hd hn hnames]
  dsimp only
  rw [FileNode.walk_append hwalk, FileNode.walk, hdir]
  simp [hn.dot, hn.dots, FileNode.walk]

theorem eq_of_place_join (hd : Bare directory) (hn : EntryName name) {target place : List String}
    (h : f.place directory = .ok target) (hdir : f.root.find? target = some (.directory entries))
    (hplace : f.place (join directory name) = .ok place) : place = target ++ [name] := by
  rw [place_join hd hn h hdir (place_eq_ok_iff.1 hplace).1] at hplace
  split at hplace
  · cases hplace
  · exact (Except.ok.inj hplace).symm

theorem walk_names_above (hn : EntryName name) {above names : List String}
    (hplace : f.place directory = .ok above)
    (hnames : f.names? (join directory name) = some names) :
    ∃ before, names = before ++ [name] ∧ f.root.walk [] before = .ok above := by
  obtain ⟨_, names₀, hnames₀, hwalk⟩ := place_eq_ok_iff.1 hplace
  obtain ⟨before, rfl, rfl | rfl⟩ := exists_names_above hn hnames₀ hnames
  · exact ⟨_, rfl, hwalk⟩
  · obtain ⟨mid, hmid, hdot⟩ := FileNode.walk_append_eq_ok.1 hwalk
    obtain ⟨_, next, _, hleads, hnext⟩ := FileNode.walk_cons_eq_ok.1 hdot
    cases hnext
    rw [FileNode.eq_of_leads_dot hleads]
    exact ⟨before, rfl, hmid⟩

/-- What the text of an entry is, by what is listed at its name. -/
def textOf (path name : String) (found : Option FileNode) : Except FileFault String :=
  match pathFault? path with
  | some fault => .error fault
  | none =>
    if isTooLong name then .error .nameTooLong
    else match found with
      | none => .error .notFound
      | some (.directory _) => .error .isADirectory
      | some (.file bytes) =>
        match String.fromUTF8? bytes with
        | some text => .ok text
        | none => .error .notText

theorem readText_join (hd : Bare directory) (hn : EntryName name)
    (h : f.list directory = .ok entries) :
    f.readText (join directory name) =
      textOf (join directory name) name (Keyed.find? entries name) := by
  obtain ⟨target, htarget, hdir⟩ := list_eq_ok_iff.1 h
  unfold textOf
  cases hfault : pathFault? (join directory name) with
  | some fault =>
    unfold readText read stat place
    rw [hfault]
    rfl
  | none =>
    have hplace := place_join hd hn htarget hdir hfault
    have hfind : f.root.find? (target ++ [name]) = Keyed.find? entries name := by
      rw [FileNode.find?_append, hdir, Option.bind_some, FileNode.find?]
      exact Option.bind_fun_some _
    unfold readText read stat
    rw [hplace]
    dsimp only
    split
    · rfl
    · dsimp only [bind, Except.bind]
      rw [hfind]
      cases Keyed.find? entries name with
      | none => rfl
      | some node => cases node <;> rfl

/-- A written entry is listed, and a directory lists nothing else anew. -/
theorem list_write (hd : Bare directory) (hn : EntryName name) {bytes : ByteArray}
    (h : f.list directory = .ok entries)
    (hw : f.write (join directory name) bytes = .ok f') :
    f'.list directory = .ok (Keyed.insert entries name (.file bytes)) := by
  obtain ⟨target, htarget, hdir⟩ := list_eq_ok_iff.1 h
  obtain ⟨place, hplace, hw⟩ := Outcome.bind_eq_ok.1 hw
  obtain ⟨hfault, names, hnames, hwalk⟩ := place_eq_ok_iff.1 htarget
  obtain rfl := eq_of_place_join hd hn htarget hdir hplace
  split at hw
  · cases hw
  · rename_i hfile
    cases hw
    refine list_eq_ok_iff.2 ⟨target, place_eq_ok_iff.2 ⟨hfault, names, hnames, ?_⟩, ?_⟩
    · exact FileNode.walk_of_isDirectory
        (fun p hp => FileNode.isDirectory_set_entry hdir hfile _ hp) hwalk
    · exact FileNode.find?_set_entry hdir _

theorem fromUTF8?_toUTF8 (text : String) : String.fromUTF8? text.toUTF8 = some text := by
  unfold String.fromUTF8?
  rw [String.toUTF8_eq_toByteArray, dif_pos text.isValidUTF8]
  rfl

/-- A file that was written reads as the text that was written. -/
theorem readText_write_self (hd : Bare directory) (hn : EntryName name) {text : String}
    (h : f.list directory = .ok entries)
    (hw : f.write (join directory name) text.toUTF8 = .ok f') :
    f'.readText (join directory name) = .ok text := by
  obtain ⟨target, htarget, hdir⟩ := list_eq_ok_iff.1 h
  obtain ⟨place, hplace, _⟩ := Outcome.bind_eq_ok.1 hw
  have hfault := (place_eq_ok_iff.1 hplace).1
  rw [place_join hd hn htarget hdir hfault] at hplace
  split at hplace
  · cases hplace
  · rename_i hlong
    rw [readText_join hd hn (list_write hd hn h hw), Keyed.find?_insert_self, textOf, hfault]
    dsimp only
    rw [if_neg hlong, fromUTF8?_toUTF8]

theorem readText_write_of_ne (hd : Bare directory) (hn : EntryName name) {other : String}
    (ho : EntryName other) (hne : other ≠ name) {bytes : ByteArray}
    (h : f.list directory = .ok entries)
    (hw : f.write (join directory name) bytes = .ok f') :
    f'.readText (join directory other) = f.readText (join directory other) := by
  rw [readText_join hd ho (list_write hd hn h hw), readText_join hd ho h,
    Keyed.find?_insert_of_ne _ _ hne]

end MountRegistry.Files
