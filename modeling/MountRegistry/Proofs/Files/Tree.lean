import MountRegistry.Files.Tree
import MountRegistry.Proofs.Outcome

/-
  Writing a file into a directory that is there. The directory lists one more entry or another file
  under its name, every directory stays one, and so every path that led to a directory still does.
-/

namespace MountRegistry.FileNode

variable {root node : FileNode} {place : List String} {name : String}
  {entries : List (String × FileNode)}

theorem find?_append (p q : List String) (root : FileNode) :
    root.find? (p ++ q) = (root.find? p).bind (find? q) := by
  induction p generalizing root with
  | nil => rfl
  | cons name p ih =>
    cases root with
    | file bytes => rfl
    | directory entries =>
      rw [List.cons_append, find?, find?]
      cases Keyed.find? entries name with
      | none => rfl
      | some child => exact ih child

theorem find?_cons_eq_directory {rest : List String}
    (h : root.find? (name :: rest) = some node) :
    ∃ entries child, root = .directory entries ∧ Keyed.find? entries name = some child ∧
      child.find? rest = some node := by
  cases root with
  | file bytes => cases h
  | directory entries =>
    obtain ⟨child, hc, hn⟩ := Option.bind_eq_some_iff.1 h
    exact ⟨entries, child, rfl, hc, hn⟩

/-! ## Writing an entry -/

/-- A directory lists what was put into it. -/
theorem find?_set_entry (h : root.find? place = some (.directory entries)) (node : FileNode) :
    (set node (place ++ [name]) root).find? place =
      some (.directory (Keyed.insert entries name node)) := by
  induction place generalizing root with
  | nil =>
    cases h
    rfl
  | cons above place ih =>
    obtain ⟨siblings, child, rfl, hc, hn⟩ := find?_cons_eq_directory h
    rw [List.cons_append, set, hc, find?, Keyed.find?_insert_self]
    exact ih hn

/-- An entry that is not a directory is written without taking any directory away. -/
theorem isDirectory_set_entry (h : root.find? place = some (.directory entries))
    (hfile : ∀ sub, root.find? (place ++ [name]) ≠ some (.directory sub)) (node : FileNode)
    {other : List String} (ho : ∃ sub, root.find? other = some (.directory sub)) :
    ∃ sub, (set node (place ++ [name]) root).find? other = some (.directory sub) := by
  induction place generalizing root other with
  | nil =>
    cases h
    obtain ⟨sub, ho⟩ := ho
    cases other with
    | nil => exact ⟨_, rfl⟩
    | cons first other =>
      obtain ⟨_, child, heq, hc, hsub⟩ := find?_cons_eq_directory ho
      cases heq
      have hne : first ≠ name := by
        rintro rfl
        -- below a file nothing is found
        cases child with
        | directory sub' => exact hfile sub' (by rw [List.nil_append, find?, hc]; rfl)
        | file bytes => cases other <;> cases hsub
      refine ⟨sub, ?_⟩
      rw [List.nil_append, set, find?, Keyed.find?_insert_of_ne _ _ hne, hc]
      exact hsub
  | cons above place ih =>
    obtain ⟨siblings, child, rfl, hc, hn⟩ := find?_cons_eq_directory h
    rw [List.cons_append, set, hc]
    cases other with
    | nil => exact ⟨_, rfl⟩
    | cons first other =>
      rw [find?]
      by_cases hfirst : first = above
      · subst hfirst
        rw [Keyed.find?_insert_self]
        rw [find?, hc] at ho
        refine ih hn (fun sub hsub => hfile sub ?_) ho
        rw [List.cons_append, find?, hc]
        exact hsub
      · rw [Keyed.find?_insert_of_ne _ _ hfirst]
        exact ho

/-! ## Walking -/

/-- Where a name leads from a directory. -/
inductive Leads (place : List String) : String → List String → Prop where
  | stay : Leads place "." place
  | up (below : place ≠ []) : Leads place ".." place.dropLast
  | into (name : String) (dot : name ≠ ".") (dots : name ≠ "..") (short : isTooLong name = false) :
    Leads place name (place ++ [name])

theorem eq_of_leads_dot {next : List String} (h : Leads place "." next) : next = place := by
  generalize hname : "." = name at h
  cases h with
  | stay => rfl
  | up below => exact absurd hname (by decide)
  | into name dot => exact absurd hname.symm dot

theorem walk_cons_eq_ok {rest target : List String} :
    root.walk place (name :: rest) = .ok target ↔
      ∃ sub next, root.find? place = some (.directory sub) ∧ Leads place name next ∧
        root.walk next rest = .ok target := by
  rw [walk]
  constructor
  · intro h
    split at h
    · cases h
    · cases h
    · rename_i sub hsub
      split at h
      · rename_i hdot
        subst hdot
        exact ⟨sub, place, hsub, .stay, h⟩
      · rename_i hdot
        split at h
        · rename_i hdots
          subst hdots
          split at h
          · cases h
          · rename_i hbelow
            exact ⟨sub, _, hsub, .up fun hnil => hbelow (hnil ▸ rfl), h⟩
        · rename_i hdots
          split at h
          · cases h
          · rename_i hshort
            exact ⟨sub, _, hsub, .into name hdot hdots (Bool.eq_false_iff.2 hshort), h⟩
  · rintro ⟨sub, next, hsub, hleads, h⟩
    rw [hsub]
    cases hleads with
    | stay => exact h
    | up below => simpa [below] using h
    | into _ dot dots short => simpa [dot, dots, short] using h

/-- A walk goes the same way in a tree that has all the directories of the first. -/
theorem walk_of_isDirectory {root' : FileNode} {names target : List String}
    (hdirs : ∀ p, (∃ sub, root.find? p = some (.directory sub)) →
      ∃ sub, root'.find? p = some (.directory sub))
    (h : root.walk place names = .ok target) : root'.walk place names = .ok target := by
  induction names generalizing place with
  | nil => exact h
  | cons name rest ih =>
    obtain ⟨sub, next, hsub, hleads, hrest⟩ := walk_cons_eq_ok.1 h
    obtain ⟨sub', hsub'⟩ := hdirs place ⟨sub, hsub⟩
    exact walk_cons_eq_ok.2 ⟨sub', next, hsub', hleads, ih hrest⟩

theorem walk_append {names target : List String} (h : root.walk place names = .ok target)
    (rest : List String) : root.walk place (names ++ rest) = root.walk target rest := by
  induction names generalizing place with
  | nil =>
    cases h
    rfl
  | cons name names ih =>
    obtain ⟨sub, next, hsub, hleads, hrest⟩ := walk_cons_eq_ok.1 h
    rw [List.cons_append, walk, hsub, ← ih hrest]
    cases hleads with
    | stay => rfl
    | up below => simp [below]
    | into _ dot dots short => simp [dot, dots, short]

theorem walk_append_eq_ok {names rest target : List String} :
    root.walk place (names ++ rest) = .ok target ↔
      ∃ mid, root.walk place names = .ok mid ∧ root.walk mid rest = .ok target := by
  constructor
  · intro h
    induction names generalizing place with
    | nil => exact ⟨place, rfl, h⟩
    | cons name names ih =>
      obtain ⟨sub, next, hsub, hleads, hrest⟩ := walk_cons_eq_ok.1 h
      obtain ⟨mid, hmid, htarget⟩ := ih hrest
      exact ⟨mid, walk_cons_eq_ok.2 ⟨sub, next, hsub, hleads, hmid⟩, htarget⟩
  · rintro ⟨mid, hmid, htarget⟩
    rw [walk_append hmid, htarget]

/-! ## Making directories -/

theorem find?_dropLast (h : root.find? place = some node) :
    ∃ above, root.find? place.dropLast = some above := by
  rcases List.eq_nil_or_concat place with rfl | ⟨above, name, rfl⟩
  · exact ⟨node, h⟩
  · rw [List.concat_eq_append, find?_append] at h
    obtain ⟨parent, hparent, _⟩ := Option.bind_eq_some_iff.1 h
    rw [List.concat_eq_append, List.dropLast_concat]
    exact ⟨parent, hparent⟩

/-- The tree with a directory put where there is nothing. -/
def withDirectory (place : List String) (root : FileNode) : FileNode :=
  if (root.find? place).isSome then root else set (.directory []) place root

theorem withDirectory_of_find? (h : root.find? place = some node) :
    root.withDirectory place = root := by
  rw [withDirectory, h]
  rfl

/-- Where a name leads from a directory something is, or it is an entry that the directory has
not. -/
theorem withDirectory_cases {next : List String}
    (hplace : root.find? place = some (.directory entries)) (hleads : Leads place name next) :
    root.withDirectory next = root ∨
      (next = place ++ [name] ∧ name ≠ "." ∧ name ≠ ".." ∧ root.find? next = none ∧
        root.withDirectory next = set (.directory []) next root) := by
  cases hnext : root.find? next with
  | some node => exact .inl (withDirectory_of_find? hnext)
  | none =>
    refine .inr ?_
    cases hleads with
    | stay => simp [hplace] at hnext
    | up below =>
      obtain ⟨above, habove⟩ := find?_dropLast hplace
      simp [habove] at hnext
    | into name dot dots short =>
      refine ⟨rfl, dot, dots, rfl, ?_⟩
      rw [withDirectory, hnext]
      rfl

/-- Making directories goes where the first name leads and puts a directory there, if nothing is, or
it does nothing. -/
theorem createDirectories_cons (root : FileNode) (place : List String) (name : String)
    (rest : List String) :
    (∃ fault, root.createDirectories place (name :: rest) = (root, .error fault)) ∨
      ∃ sub next, root.find? place = some (.directory sub) ∧ Leads place name next ∧
        root.createDirectories place (name :: rest) =
          (root.withDirectory next).createDirectories next rest := by
  rw [createDirectories]
  split
  · exact .inl ⟨_, rfl⟩
  · exact .inl ⟨_, rfl⟩
  · rename_i sub hsub
    split
    · rename_i hdot
      subst hdot
      exact .inr ⟨sub, place, hsub, .stay, by rw [withDirectory_of_find? hsub]⟩
    · rename_i hdot
      split
      · rename_i hdots
        subst hdots
        split
        · exact .inl ⟨_, rfl⟩
        · rename_i hbelow
          obtain ⟨above, habove⟩ := find?_dropLast hsub
          exact .inr ⟨sub, place.dropLast, hsub, .up fun hnil => hbelow (hnil ▸ rfl),
            by rw [withDirectory_of_find? habove]⟩
      · rename_i hdots
        split
        · exact .inl ⟨_, rfl⟩
        · rename_i hshort
          exact .inr ⟨sub, _, hsub, .into name hdot hdots (Bool.eq_false_iff.2 hshort), rfl⟩

/-- Where a walk leads to a directory, directories are made from there only. -/
theorem createDirectories_append {names target : List String}
    (h : root.walk place names = .ok target)
    (hto : root.find? target = some (.directory entries)) (rest : List String) :
    root.createDirectories place (names ++ rest) = root.createDirectories target rest := by
  induction names generalizing place with
  | nil =>
    cases h
    rfl
  | cons name names ih =>
    obtain ⟨sub, next, hsub, hleads, hrest⟩ := walk_cons_eq_ok.1 h
    rw [List.cons_append, createDirectories, hsub, ← ih hrest]
    cases hleads with
    | stay => rfl
    | up below => simp [below]
    | into _ dot dots short =>
      -- what the walk goes into is there
      have hthere : (root.find? (place ++ [name])).isSome = true := by
        cases names with
        | nil =>
          cases hrest
          rw [hto]
          rfl
        | cons =>
          obtain ⟨sub', _, hsub', _, _⟩ := walk_cons_eq_ok.1 hrest
          rw [hsub']
          rfl
      simp [dot, dots, short, hthere]

theorem createDirectories_of_walk {names target : List String}
    (h : root.walk place names = .ok target)
    (hto : root.find? target = some (.directory entries)) :
    root.createDirectories place names = (root, .ok target) := by
  rw [← List.append_nil names, createDirectories_append h hto, createDirectories, hto]

end MountRegistry.FileNode
