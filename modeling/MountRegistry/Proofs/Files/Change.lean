import MountRegistry.Proofs.Files.Directory

/-
  What was done to a tree of files, told place by place. `Changed made written` says of a tree
  before and after that every directory is still one, that a file keeps its bytes unless its place
  is among the `written` ones, and that where there was nothing there is still nothing, or a
  directory that was `made`, or a file that was `written`. Changes one after the other are one
  change (`Changed.trans`). Writing a file writes the place that its path leads to and no other
  (`Files.changed_write`); making a directory writes nothing and makes directories on the way of its
  path only (`Files.changed_createDirectories`).
-/

namespace MountRegistry

namespace FileNode

variable {root root' mid node : FileNode} {place p q : List String} {name : String}
  {entries : List (String × FileNode)}
  {made made' : List String → Prop} {written written' : List String → ByteArray → Prop}

/-- A tree before and after, by what stands at each place. -/
structure Changed (made : List String → Prop) (written : List String → ByteArray → Prop)
    (root root' : FileNode) : Prop where
  directory : ∀ p entries, root.find? p = some (.directory entries) →
    ∃ entries', root'.find? p = some (.directory entries')
  file : ∀ p bytes, root.find? p = some (.file bytes) →
    ∃ bytes', root'.find? p = some (.file bytes') ∧ (bytes' = bytes ∨ written p bytes')
  absent : ∀ p, root.find? p = none →
    root'.find? p = none ∨ (∃ entries, root'.find? p = some (.directory entries) ∧ made p) ∨
      ∃ bytes, root'.find? p = some (.file bytes) ∧ written p bytes

theorem Changed.refl (made : List String → Prop) (written : List String → ByteArray → Prop)
    (root : FileNode) : Changed made written root root :=
  ⟨fun _ entries h => ⟨entries, h⟩, fun _ bytes h => ⟨bytes, h, .inl rfl⟩, fun _ h => .inl h⟩

theorem Changed.trans (h : Changed made written root mid) (k : Changed made written mid root') :
    Changed made written root root' := by
  refine ⟨fun p entries hp => ?_, fun p bytes hp => ?_, fun p hp => ?_⟩
  · obtain ⟨entries₁, h₁⟩ := h.directory p entries hp
    exact k.directory p entries₁ h₁
  · obtain ⟨bytes₁, h₁, hkept⟩ := h.file p bytes hp
    obtain ⟨bytes₂, h₂, hkept'⟩ := k.file p bytes₁ h₁
    refine ⟨bytes₂, h₂, ?_⟩
    rcases hkept' with rfl | hwritten
    · exact hkept
    · exact .inr hwritten
  · rcases h.absent p hp with h₁ | ⟨entries, h₁, hmade⟩ | ⟨bytes, h₁, hwritten⟩
    · exact k.absent p h₁
    · obtain ⟨entries', h₂⟩ := k.directory p entries h₁
      exact .inr (.inl ⟨entries', h₂, hmade⟩)
    · obtain ⟨bytes', h₂, hkept⟩ := k.file p bytes h₁
      refine .inr (.inr ⟨bytes', h₂, ?_⟩)
      rcases hkept with rfl | hwritten'
      · exact hwritten
      · exact hwritten'

theorem Changed.mono (h : Changed made written root root') (hmade : ∀ p, made p → made' p)
    (hwritten : ∀ p bytes, written p bytes → written' p bytes) :
    Changed made' written' root root' := by
  refine ⟨h.directory, fun p bytes hp => ?_, fun p hp => ?_⟩
  · obtain ⟨bytes', h', hkept⟩ := h.file p bytes hp
    exact ⟨bytes', h', hkept.imp_right (hwritten p bytes')⟩
  · rcases h.absent p hp with h' | ⟨entries, h', hp'⟩ | ⟨bytes, h', hp'⟩
    · exact .inl h'
    · exact .inr (.inl ⟨entries, h', hmade p hp'⟩)
    · exact .inr (.inr ⟨bytes, h', hwritten p bytes hp'⟩)

/-- What is told twice of the new directories holds of them together. -/
theorem Changed.and (h : Changed made written root root') (k : Changed made' written root root') :
    Changed (fun p => made p ∧ made' p) written root root' := by
  refine ⟨h.directory, h.file, fun p hp => ?_⟩
  rcases h.absent p hp with h' | ⟨entries, h', hmade⟩ | h'
  · exact .inl h'
  · rcases k.absent p hp with k' | ⟨_, _, hmade'⟩ | ⟨bytes, k', _⟩
    · exact .inl k'
    · exact .inr (.inl ⟨entries, h', hmade, hmade'⟩)
    · simp [h'] at k'
  · exact .inr (.inr h')

/-- What was found before is still found. -/
theorem Changed.absent_of_absent (h : Changed made written root root')
    (hp : root'.find? p = none) : root.find? p = none := by
  cases hnode : root.find? p with
  | none => rfl
  | some node =>
    cases node with
    | directory entries =>
      obtain ⟨_, h'⟩ := h.directory p entries hnode
      rw [hp] at h'
      contradiction
    | file bytes =>
      obtain ⟨_, h', _⟩ := h.file p bytes hnode
      rw [hp] at h'
      contradiction

/-- A directory that was not made was there before. -/
theorem Changed.directory_earlier (h : Changed (fun _ => False) written root root')
    (hp : root'.find? p = some (.directory entries)) :
    ∃ sub, root.find? p = some (.directory sub) := by
  cases hnode : root.find? p with
  | none =>
    rcases h.absent p hnode with h' | ⟨_, _, hmade⟩ | ⟨_, h', _⟩
    · simp [h'] at hp
    · exact hmade.elim
    · simp [h'] at hp
  | some node =>
    cases node with
    | directory sub => exact ⟨sub, rfl⟩
    | file bytes =>
      obtain ⟨_, h', _⟩ := h.file p bytes hnode
      simp [h'] at hp

/-- A file was there before, with these bytes, or it was written. -/
theorem Changed.file_earlier {bytes : ByteArray} (h : Changed made written root root')
    (hp : root'.find? p = some (.file bytes)) :
    root.find? p = some (.file bytes) ∨ written p bytes := by
  cases hnode : root.find? p with
  | none =>
    rcases h.absent p hnode with h' | ⟨_, h', _⟩ | ⟨_, h', hwritten⟩
    · simp [h'] at hp
    · simp [h'] at hp
    · rw [h'] at hp
      cases hp
      exact .inr hwritten
  | some node =>
    cases node with
    | directory sub =>
      obtain ⟨_, h'⟩ := h.directory p sub hnode
      simp [h'] at hp
    | file old =>
      obtain ⟨_, h', hkept⟩ := h.file p old hnode
      rw [h'] at hp
      cases hp
      exact hkept.imp_left fun heq => congrArg (some <| FileNode.file ·) heq.symm

theorem Changed.walk (h : Changed made written root root') {names target : List String}
    (hw : root.walk place names = .ok target) : root'.walk place names = .ok target :=
  walk_of_isDirectory (fun p ⟨sub, hp⟩ => h.directory p sub hp) hw

/-! ## Putting one node into a directory -/

/-- Below the new node its own entries are found. -/
theorem find?_set_below (h : root.find? place = some (.directory entries)) (node : FileNode)
    (rest : List String) :
    (set node (place ++ [name]) root).find? (place ++ name :: rest) = node.find? rest := by
  rw [find?_append, find?_set_entry h node, Option.bind_some, find?, Keyed.find?_insert_self,
    Option.bind_some]

/-- A place that is not at or below the new node holds what it held, or a directory as before. -/
theorem find?_set_elsewhere (h : root.find? place = some (.directory entries)) (node : FileNode)
    (hq : ¬ place ++ [name] <+: q) :
    (set node (place ++ [name]) root).find? q = root.find? q ∨
      (∃ sub, root.find? q = some (.directory sub)) ∧
        ∃ sub, (set node (place ++ [name]) root).find? q = some (.directory sub) := by
  induction place generalizing root q with
  | nil =>
    cases h
    cases q with
    | nil => exact .inr ⟨⟨entries, rfl⟩, ⟨_, rfl⟩⟩
    | cons first q =>
      have hne : first ≠ name := by
        rintro rfl
        exact hq ⟨q, rfl⟩
      refine .inl ?_
      rw [List.nil_append, set, find?, find?, Keyed.find?_insert_of_ne _ _ hne]
  | cons above place ih =>
    obtain ⟨siblings, child, rfl, hc, hn⟩ := find?_cons_eq_directory h
    rw [List.cons_append, set, hc]
    cases q with
    | nil => exact .inr ⟨⟨siblings, rfl⟩, ⟨_, rfl⟩⟩
    | cons first q =>
      rw [find?, find?]
      by_cases hfirst : first = above
      · subst hfirst
        have hq' : ¬ place ++ [name] <+: q := by
          rintro ⟨rest, hrest⟩
          exact hq ⟨rest, congrArg (first :: ·) hrest⟩
        rw [Keyed.find?_insert_self, hc]
        exact ih hn hq'
      · exact .inl (congrArg (·.bind (find? q)) (Keyed.find?_insert_of_ne _ _ hfirst))

/-- Below what is no directory nothing is found. -/
theorem find?_below_eq_none (h : ∀ sub, root.find? place ≠ some (.directory sub)) (name : String)
    (rest : List String) : root.find? (place ++ name :: rest) = none := by
  rw [find?_append]
  cases hfound : root.find? place with
  | none => rfl
  | some found =>
    cases found with
    | directory sub => exact absurd hfound (h sub)
    | file bytes => rfl

/-- What putting a file, or a new directory with nothing in it, into a directory does. -/
theorem changed_set (h : root.find? place = some (.directory entries))
    (hold : ∀ sub, root.find? (place ++ [name]) ≠ some (.directory sub))
    (hnode : (∃ bytes, node = .file bytes ∧ written (place ++ [name]) bytes) ∨
      node = .directory [] ∧ made (place ++ [name]) ∧ root.find? (place ++ [name]) = none) :
    Changed made written root (set node (place ++ [name]) root) := by
  -- below the place nothing was found and nothing is
  have hbelow : ∀ first rest, root.find? (place ++ name :: first :: rest) = none := by
    intro first rest
    rw [List.append_cons]
    exact find?_below_eq_none hold first rest
  have hnew : ∀ first rest, node.find? (first :: rest) = none := by
    intro first rest
    rcases hnode with ⟨bytes, rfl, _⟩ | ⟨rfl, _⟩ <;> rfl
  have hcases : ∀ q, (∃ rest, q = place ++ name :: rest) ∨ ¬ place ++ [name] <+: q := by
    intro q
    by_cases hq : place ++ [name] <+: q
    · obtain ⟨rest, rfl⟩ := hq
      exact .inl ⟨rest, (List.append_cons place name rest).symm⟩
    · exact .inr hq
  refine ⟨fun q sub hsub => ?_, fun q bytes hbytes => ?_, fun q hnone => ?_⟩
  · rcases hcases q with ⟨_ | ⟨first, rest⟩, rfl⟩ | hq
    · exact absurd hsub (hold sub)
    · rw [hbelow] at hsub
      contradiction
    · rcases find?_set_elsewhere h node hq with heq | ⟨_, hdir⟩
      · exact ⟨sub, heq.trans hsub⟩
      · exact hdir
  · rcases hcases q with ⟨_ | ⟨first, rest⟩, rfl⟩ | hq
    · rcases hnode with ⟨bytes', rfl, hwritten⟩ | ⟨_, _, hnone⟩
      · exact ⟨bytes', find?_set_below h _ [], .inr hwritten⟩
      · rw [hnone] at hbytes
        contradiction
    · rw [hbelow] at hbytes
      contradiction
    · rcases find?_set_elsewhere h node hq with heq | ⟨⟨sub, hdir⟩, _⟩
      · exact ⟨bytes, heq.trans hbytes, .inl rfl⟩
      · simp [hbytes] at hdir
  · rcases hcases q with ⟨_ | ⟨first, rest⟩, rfl⟩ | hq
    · rw [find?_set_below h node []]
      rcases hnode with ⟨bytes, rfl, hwritten⟩ | ⟨rfl, hmade, _⟩
      · exact .inr (.inr ⟨bytes, rfl, hwritten⟩)
      · exact .inr (.inl ⟨[], rfl, hmade⟩)
    · rw [find?_set_below h node (first :: rest)]
      exact .inl (hnew first rest)
    · rcases find?_set_elsewhere h node hq with heq | ⟨⟨sub, hdir⟩, _⟩
      · exact .inl (heq.trans hnone)
      · simp [hnone] at hdir

/-- A tree that is a file only is written as a whole. -/
theorem changed_set_top (hold : ∀ sub, root.find? [] ≠ some (.directory sub)) (bytes : ByteArray) :
    Changed made (fun p b => p = [] ∧ b = bytes) root (set (.file bytes) [] root) := by
  cases root with
  | directory sub => exact absurd rfl (hold sub)
  | file old =>
    refine ⟨fun q sub hsub => ?_, fun q b hb => ?_, fun q hq => ?_⟩
    · cases q with
      | nil => exact absurd hsub (hold sub)
      | cons first rest => contradiction
    · cases q with
      | nil => exact ⟨bytes, rfl, .inr ⟨rfl, rfl⟩⟩
      | cons first rest => contradiction
    · cases q with
      | nil => contradiction
      | cons first rest => exact .inl rfl

/-! ## Where a walk can end -/

/-- The top, or a name in a directory. -/
def InDirectory (root : FileNode) (place : List String) : Prop :=
  place = [] ∨ ∃ above name entries,
    place = above ++ [name] ∧ root.find? above = some (.directory entries)

theorem inDirectory_of_find? (h : root.find? place = some node) : InDirectory root place := by
  rcases List.eq_nil_or_concat place with rfl | ⟨above, name, rfl⟩
  · exact .inl rfl
  · rw [List.concat_eq_append] at h ⊢
    rw [find?_append] at h
    obtain ⟨parent, hparent, hnode⟩ := Option.bind_eq_some_iff.1 h
    cases parent with
    | file bytes => contradiction
    | directory entries => exact .inr ⟨above, name, entries, rfl, hparent⟩

theorem inDirectory_of_walk {names target : List String} (hplace : InDirectory root place)
    (h : root.walk place names = .ok target) : InDirectory root target := by
  induction names generalizing place with
  | nil =>
    cases h
    exact hplace
  | cons name rest ih =>
    obtain ⟨sub, next, hsub, hleads, hrest⟩ := walk_cons_eq_ok.1 h
    refine ih ?_ hrest
    cases hleads with
    | stay => exact hplace
    | up below =>
      -- the directory above one that is found is found
      obtain ⟨above, name, entries, rfl, hdir⟩ := hplace.resolve_left below
      rw [List.dropLast_concat]
      exact inDirectory_of_find? hdir
    | into name dot dots short => exact .inr ⟨place, name, sub, rfl, hsub⟩

/-! ## Making directories -/

/-- The names lead through this place, or to it. -/
def Passes (root : FileNode) (place names p : List String) : Prop :=
  ∃ before rest, names = before ++ rest ∧ root.walk place before = .ok p

/-- The first name leads somewhere, perhaps after a directory was made there, and the others are
gone from there in a tree that has all that was there before. -/
theorem Changed.next {mid : FileNode} {sub : List (String × FileNode)} {next rest : List String}
    (hplace : root.find? place = some (.directory sub)) (hleads : Leads place name next)
    (hmid : Changed (· = next) written root mid)
    (hrest : Changed (root'.Passes next rest) written mid root') :
    Changed (root'.Passes place (name :: rest)) written root root' := by
  obtain ⟨sub₁, hsub₁⟩ := hmid.directory place sub hplace
  obtain ⟨sub₂, hsub₂⟩ := hrest.directory place sub₁ hsub₁
  have hwalk : ∀ {before p}, root'.walk next before = .ok p →
      root'.walk place (name :: before) = .ok p := fun hp =>
    walk_cons_eq_ok.2 ⟨sub₂, next, hsub₂, hleads, hp⟩
  refine (hmid.mono ?_ fun _ _ hw => hw).trans (hrest.mono ?_ fun _ _ hw => hw)
  · rintro p rfl
    exact ⟨[name], rest, rfl, hwalk rfl⟩
  · rintro p ⟨before, rest', rfl, hp⟩
    exact ⟨name :: before, rest', rfl, hwalk hp⟩

theorem changed_withDirectory (written : List String → ByteArray → Prop) {next : List String}
    {sub : List (String × FileNode)} (hplace : root.find? place = some (.directory sub))
    (hleads : Leads place name next) :
    Changed (· = next) written root (root.withDirectory next) := by
  rcases withDirectory_cases hplace hleads with h | ⟨rfl, _, _, hnone, h⟩
  · rw [h]
    exact .refl ..
  · have hold : ∀ sub, root.find? (place ++ [name]) ≠ some (.directory sub) := by simp [hnone]
    rw [h]
    exact changed_set hplace hold (.inr ⟨rfl, rfl, hnone⟩)

/-- The directories that are made are those that the names lead through. -/
theorem changed_createDirectories (written : List String → ByteArray → Prop) (root : FileNode)
    (place names : List String) :
    Changed ((root.createDirectories place names).1.Passes place names) written
      root (root.createDirectories place names).1 := by
  induction names generalizing root place with
  | nil => exact .refl ..
  | cons name rest ih =>
    rcases createDirectories_cons root place name rest with
      ⟨fault, h⟩ | ⟨sub, next, hplace, hleads, h⟩
    · rw [h]
      exact .refl ..
    · rw [h]
      exact .next hplace hleads (changed_withDirectory written hplace hleads) (ih _ next)

/-- The names lead to a directory that is made, if none is there. -/
theorem walk_createDirectories {names target : List String}
    (h : root.createDirectories place names = (root', .ok target)) :
    root'.walk place names = .ok target ∧
      ∃ entries, root'.find? target = some (.directory entries) := by
  induction names generalizing root place with
  | nil =>
    rw [createDirectories] at h
    split at h
    · rename_i entries hdir
      cases h
      exact ⟨rfl, entries, hdir⟩
    · cases h
    · cases h
  | cons name rest ih =>
    rcases createDirectories_cons root place name rest with
      ⟨fault, hfault⟩ | ⟨sub, next, hplace, hleads, hnext⟩
    · rw [hfault] at h
      cases h
    · rw [hnext] at h
      obtain ⟨hwalk, hdir⟩ := ih h
      have hlater :=
        changed_createDirectories (fun _ _ => False) (root.withDirectory next) next rest
      rw [h] at hlater
      obtain ⟨sub₁, h₁⟩ :=
        (changed_withDirectory (fun _ _ => False) hplace hleads).directory _ _ hplace
      obtain ⟨sub₂, h₂⟩ := hlater.directory _ _ h₁
      exact ⟨walk_cons_eq_ok.2 ⟨sub₂, next, h₂, hleads, hwalk⟩, hdir⟩

end FileNode

namespace Files

variable {f f' g : Files} {path : String} {target : List String} {bytes : ByteArray}
  {made made' : List String → Prop} {written written' : List String → ByteArray → Prop}

/-- Files before and after, under the same top. -/
structure Changed (made : List String → Prop) (written : List String → ByteArray → Prop)
    (f f' : Files) : Prop where
  base : f'.base = f.base
  root : f.root.Changed made written f'.root

theorem Changed.refl (made : List String → Prop) (written : List String → ByteArray → Prop)
    (f : Files) : Changed made written f f :=
  ⟨rfl, .refl ..⟩

theorem Changed.trans (h : Changed made written f g) (k : Changed made written g f') :
    Changed made written f f' :=
  ⟨k.base.trans h.base, h.root.trans k.root⟩

theorem Changed.mono (h : Changed made written f f') (hmade : ∀ p, made p → made' p)
    (hwritten : ∀ p bytes, written p bytes → written' p bytes) : Changed made' written' f f' :=
  ⟨h.base, h.root.mono hmade hwritten⟩

theorem Changed.and (h : Changed made written f f') (k : Changed made' written f f') :
    Changed (fun p => made p ∧ made' p) written f f' :=
  ⟨h.base, h.root.and k.root⟩

theorem Changed.names?_eq (h : Changed made written f f') (path : String) :
    f'.names? path = f.names? path := by
  unfold names?
  rw [h.base]

/-- Paths lead where they led. -/
theorem Changed.place (h : Changed made written f f') (hp : f.place path = .ok target) :
    f'.place path = .ok target := by
  obtain ⟨hfault, names, hnames, hwalk⟩ := place_eq_ok_iff.1 hp
  exact place_eq_ok_iff.2 ⟨hfault, names, (h.names?_eq path).trans hnames, h.root.walk hwalk⟩

/-- If no directory was made, a text that is read was there before or was written. -/
theorem Changed.readText_earlier {text : String} (h : Changed (fun _ => False) written f f')
    (hr : f'.readText path = .ok text) :
    f.readText path = .ok text ∨
      ∃ p bytes, written p bytes ∧ String.fromUTF8? bytes = some text := by
  obtain ⟨target, bytes, hplace, hfile, htext⟩ := readText_eq_ok_iff.1 hr
  obtain ⟨hfault, names, hnames, hwalk⟩ := place_eq_ok_iff.1 hplace
  have hplace' : f.place path = .ok target := by
    refine place_eq_ok_iff.2 ⟨hfault, names, (h.names?_eq path).symm.trans hnames, ?_⟩
    exact FileNode.walk_of_isDirectory (fun p ⟨sub, hp⟩ => h.root.directory_earlier hp) hwalk
  rcases h.root.file_earlier hfile with hold | hwritten
  · exact .inl (readText_eq_ok_iff.2 ⟨target, bytes, hplace', hold, htext⟩)
  · exact .inr ⟨target, bytes, hwritten, htext⟩

/-- Writing a file changes the place that its path leads to. -/
theorem changed_write (made : List String → Prop) (h : f.write path bytes = .ok f') :
    ∃ target, f.place path = .ok target ∧
      Changed made (fun p b => p = target ∧ b = bytes) f f' := by
  unfold write at h
  obtain ⟨target, htarget, h⟩ := Outcome.bind_eq_ok.1 h
  obtain ⟨_, names, _, hwalk⟩ := place_eq_ok_iff.1 htarget
  refine ⟨target, htarget, ?_⟩
  split at h
  · contradiction
  · rename_i hfile
    cases h
    refine ⟨rfl, ?_⟩
    rcases FileNode.inDirectory_of_walk (.inl rfl) hwalk with
      rfl | ⟨above, name, entries, rfl, hdir⟩
    · exact FileNode.changed_set_top hfile bytes
    · exact FileNode.changed_set hdir hfile (.inl ⟨bytes, rfl, rfl, rfl⟩)

/-- The place is one that a path leads through from the top, or leads to. -/
def OnTheWay (f : Files) (path : String) (p : List String) : Prop :=
  ∃ names, f.names? path = some names ∧ f.root.Passes [] names p

/-- The path leads through the same places, and perhaps more. -/
theorem Changed.onTheWay (h : Changed made written f f') (hp : f.OnTheWay path target) :
    f'.OnTheWay path target := by
  obtain ⟨names, hnames, before, rest, hsplit, hwalk⟩ := hp
  exact ⟨names, (h.names?_eq path).trans hnames, before, rest, hsplit, h.root.walk hwalk⟩

/-- Making a directory writes no file, and makes directories only where its path leads through. -/
theorem changed_createDirectories (f : Files) (path : String)
    (written : List String → ByteArray → Prop) :
    Changed ((f.createDirectories path).1.OnTheWay path) written f
      (f.createDirectories path).1 := by
  unfold createDirectories
  split
  · exact .refl ..
  · rename_i names hfault hnames
    have hroot := FileNode.changed_createDirectories written f.root [] names
    rcases hmade : f.root.createDirectories [] names with ⟨root, r⟩
    rw [hmade] at hroot
    have hchanged : Changed (OnTheWay { f with root } path) written f { f with root } :=
      ⟨rfl, hroot.mono (fun p hp => ⟨names, hnames, hp⟩) fun _ _ hw => hw⟩
    cases r <;> exact hchanged
  · exact .refl ..

theorem find?_of_stat (h : f.stat path = .error .notFound) (hplace : f.place path = .ok target) :
    f.root.find? target = none := by
  unfold stat at h
  rw [hplace] at h
  dsimp only [bind, Except.bind] at h
  split at h
  · contradiction
  · assumption

/-- A directory that a path leads to. -/
def DirectoryAt (f : Files) (path : String) (place : List String) : Prop :=
  f.place path = .ok place ∧ ∃ entries, f.root.find? place = some (.directory entries)

theorem DirectoryAt.later (h : f.DirectoryAt path target) (hc : Changed made written f f') :
    f'.DirectoryAt path target := by
  obtain ⟨hplace, entries, hdir⟩ := h
  exact ⟨hc.place hplace, hc.root.directory target entries hdir⟩

theorem DirectoryAt.stat (h : f.DirectoryAt path target) :
    ∃ entries, f.stat path = .ok (.directory entries) := by
  obtain ⟨hplace, entries, hdir⟩ := h
  refine ⟨entries, Outcome.bind_eq_ok.2 ⟨target, hplace, ?_⟩⟩
  rw [hdir]

theorem directoryAt_createDirectories (h : f.createDirectories path = (f', none)) :
    ∃ target, f'.DirectoryAt path target := by
  unfold createDirectories at h
  split at h
  · cases h
  · rename_i names hfault hnames
    split at h
    · rename_i root target hmade
      cases h
      obtain ⟨hwalk, hdir⟩ := FileNode.walk_createDirectories hmade
      exact ⟨target, place_eq_ok_iff.2 ⟨hfault, names, hnames, hwalk⟩, hdir⟩
    · cases h
  · cases h

/-- An entry that a directory has not is made into a directory, or nothing is made. -/
theorem createDirectories_join {directory name : String} {above : List String} (hn : EntryName name)
    (hd : f.DirectoryAt directory above)
    (habsent : f.stat (join directory name) = .error .notFound) :
    (∃ fault, f.createDirectories (join directory name) = (f, some fault)) ∨
      ∃ f', f.createDirectories (join directory name) = (f', none) ∧
        Changed (· = above ++ [name]) (fun _ _ => False) f f' := by
  obtain ⟨hplace, entries, hdir⟩ := hd
  unfold createDirectories
  split
  · exact .inl ⟨_, rfl⟩
  · rename_i names hfault hnames
    obtain ⟨before, rfl, hwalk⟩ := walk_names_above hn hplace hnames
    rw [FileNode.createDirectories_append hwalk hdir]
    rcases FileNode.createDirectories_cons f.root above name [] with
      ⟨fault, h⟩ | ⟨sub, next, hsub, hleads, h⟩
    · rw [h]
      exact .inl ⟨fault, rfl⟩
    · obtain rfl : next = above ++ [name] := by
        cases hleads with
        | stay => exact absurd rfl hn.dot
        | up below => exact absurd rfl hn.dots
        | into => rfl
      have hthere : f.place (join directory name) = .ok (above ++ [name]) := by
        refine place_eq_ok_iff.2 ⟨hfault, _, hnames, ?_⟩
        rw [FileNode.walk_append hwalk]
        exact FileNode.walk_cons_eq_ok.2 ⟨sub, _, hsub, hleads, rfl⟩
      have hmade : (f.root.withDirectory (above ++ [name])).find? (above ++ [name]) =
          some (.directory []) := by
        rw [FileNode.withDirectory, find?_of_stat habsent hthere]
        exact FileNode.find?_set_below hdir _ []
      rw [h, FileNode.createDirectories, hmade]
      exact .inr ⟨_, rfl, rfl, FileNode.changed_withDirectory _ hdir hleads⟩
  · exact .inl ⟨_, rfl⟩

end Files

end MountRegistry
