import MountRegistry.Proofs.Files.Change
import MountRegistry.Proofs.Keyed

/-
  Trees of files in which every entry of a directory has a name that leads to it (`Named`), so one
  without slashes in it that is neither `.` nor `..`. Making directories keeps this, because the
  names in a path text are the texts between its slashes.
-/

namespace MountRegistry

open Files (EntryName)

namespace FileNode

variable {root node : FileNode} {p place : List String} {name : String}
  {entries : List (String × FileNode)}

/-- Every entry of every directory has a name that leads to it. -/
def Named (root : FileNode) : Prop :=
  ∀ place entries, root.find? place = some (.directory entries) → ∀ e ∈ entries, EntryName e.1

theorem named_empty : (directory []).Named := by
  intro place entries hplace
  cases place with
  | nil =>
    cases hplace
    exact fun e he => nomatch he
  | cons first place => contradiction

theorem named_file (bytes : ByteArray) : (file bytes).Named := by
  intro place entries hplace
  cases place with
  | nil => cases hplace
  | cons first place => contradiction

/-- What stands in a named tree is named. -/
theorem Named.below (h : root.Named) (hp : root.find? p = some node) : node.Named := by
  intro q entries hq
  refine h (p ++ q) entries ?_
  rw [find?_append, hp]
  exact hq

theorem Named.insert (h : (directory entries).Named) (hname : EntryName name) (hnode : node.Named) :
    (directory (Keyed.insert entries name node)).Named := by
  intro q sub hq
  cases q with
  | nil =>
    cases hq
    intro e he
    rcases Keyed.mem_insert he with rfl | he
    · exact hname
    · exact h [] entries rfl e he
  | cons first q =>
    rw [find?] at hq
    by_cases hfirst : first = name
    · rw [hfirst, Keyed.find?_insert_self] at hq
      exact hnode q sub hq
    · rw [Keyed.find?_insert_of_ne _ _ hfirst] at hq
      exact h (first :: q) sub hq

theorem Named.set (h : root.Named) (hplace : root.find? place = some (.directory entries))
    (hname : EntryName name) (hnode : node.Named) : (set node (place ++ [name]) root).Named := by
  induction place generalizing root with
  | nil =>
    cases hplace
    exact h.insert hname hnode
  | cons above place ih =>
    obtain ⟨siblings, child, rfl, hc, hn⟩ := find?_cons_eq_directory hplace
    have hchild : child.Named := h.below (p := [above]) (by rw [find?, hc]; rfl)
    rw [List.cons_append, FileNode.set, hc]
    exact h.insert (h [] siblings rfl _ (Keyed.mem_of_find? hc)) (ih hchild hn)

/-! ## Making directories -/

/-- A text between slashes, which may be a dot or two. -/
def IsName (name : String) : Prop := name.toList ≠ [] ∧ '/' ∉ name.toList

theorem Named.withDirectory {next : List String} (h : root.Named)
    (hplace : root.find? place = some (.directory entries)) (hleads : Leads place name next)
    (hname : IsName name) : (root.withDirectory next).Named := by
  rcases withDirectory_cases hplace hleads with heq | ⟨rfl, dot, dots, _, heq⟩
  · rw [heq]
    exact h
  · rw [heq]
    exact h.set hplace ⟨hname.1, hname.2, dot, dots⟩ named_empty

theorem Named.createDirectories {names : List String} (h : root.Named)
    (hnames : ∀ name ∈ names, IsName name) : (root.createDirectories p names).1.Named := by
  induction names generalizing root p with
  | nil => exact h
  | cons name rest ih =>
    rcases createDirectories_cons root p name rest with
      ⟨fault, hfault⟩ | ⟨sub, next, hplace, hleads, hnext⟩
    · rw [hfault]
      exact h
    · rw [hnext]
      exact ih (h.withDirectory hplace hleads (hnames name List.mem_cons_self))
        fun n hn => hnames n (List.mem_cons_of_mem name hn)

end FileNode

namespace Files

variable {f : Files} {path : String}

theorem isName_of_mem_namesOf {text : List Char} {name : String} (h : name ∈ namesOf text) :
    FileNode.IsName name := by
  have hfield : ∀ n ∈ ((Text.fields '/' text).filter (!·.isEmpty)).map String.ofList,
      FileNode.IsName n := by
    intro n hn
    obtain ⟨field, hfield, rfl⟩ := List.mem_map.1 hn
    obtain ⟨hmem, hne⟩ := List.mem_filter.1 hfield
    refine ⟨?_, ?_⟩
    · simpa using hne
    · rw [String.toList_ofList]
      exact Text.not_mem_of_mem_fields hmem
  unfold namesOf at h
  dsimp only at h
  split at h
  · rcases List.mem_append.1 h with h | h
    · exact hfield name h
    · rw [List.mem_singleton.1 h]
      exact ⟨by decide, by decide⟩
  · exact hfield name h

theorem named_createDirectories (h : f.root.Named) (path : String) :
    (f.createDirectories path).1.root.Named := by
  unfold createDirectories
  split
  · exact h
  · rename_i names hfault hnames
    obtain ⟨rest, _, _, rfl⟩ := names?_eq_some_iff.1 hnames
    have hname : ∀ name ∈ namesOf rest, FileNode.IsName name := fun _ => isName_of_mem_namesOf
    have hroot := h.createDirectories (p := []) hname
    rcases hmade : f.root.createDirectories [] (namesOf rest) with ⟨root, r⟩
    rw [hmade] at hroot
    cases r <;> exact hroot
  · exact h

end Files

end MountRegistry
