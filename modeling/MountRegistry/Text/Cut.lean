/-
  Cutting text at a separator. `cut?` splits at the first one (`eq_of_cut?`), `fields` at every one:
  texts without the separator that are joined with it are the fields again (`fields_joinWith`).
-/

namespace MountRegistry.Text

/-- The texts before and after the first `sep`. -/
def cut? (sep : Char) : List Char → Option (List Char × List Char)
  | [] => none
  | c :: rest =>
    if c = sep then some ([], rest)
    else (cut? sep rest).map fun (before, after) => (c :: before, after)

/-- The texts between the separators, at least one. -/
def fields (sep : Char) : List Char → List (List Char)
  | [] => [[]]
  | c :: rest =>
    if c = sep then [] :: fields sep rest
    else match fields sep rest with
      | [] => [[c]]
      | f :: fs => (c :: f) :: fs

/-- The texts with a separator between each two of them. -/
def joinWith (sep : List Char) : List (List Char) → List Char
  | [] => []
  | [f] => f
  | f :: fs => f ++ sep ++ joinWith sep fs

/-- Whether `part` stands anywhere in the text. -/
def occursIn (part : List Char) : List Char → Bool
  | [] => part.isEmpty
  | c :: rest => part.isPrefixOf (c :: rest) || occursIn part rest

theorem eq_of_cut? {sep : Char} {s a b : List Char} (h : cut? sep s = some (a, b)) :
    s = a ++ sep :: b := by
  induction s generalizing a with
  | nil => simp [cut?] at h
  | cons c rest ih =>
    by_cases hc : c = sep
    · simp [cut?, hc] at h
      simp [hc, h]
    · simp only [cut?, hc, if_false, Option.map_eq_some_iff] at h
      obtain ⟨⟨a', b'⟩, h', he⟩ := h
      simp only [Prod.mk.injEq] at he
      obtain ⟨rfl, rfl⟩ := he
      simp [ih h']

theorem cut?_eq_none_iff {sep : Char} {s : List Char} : cut? sep s = none ↔ sep ∉ s := by
  induction s with
  | nil => simp [cut?]
  | cons c rest ih =>
    by_cases hc : c = sep
    · simp [cut?, hc]
    · simp [cut?, hc, ih, Ne.symm hc]

/-- The cut is at the first separator. -/
theorem not_mem_of_cut? {sep : Char} {s a b : List Char} (h : cut? sep s = some (a, b)) :
    sep ∉ a := by
  induction s generalizing a with
  | nil => simp [cut?] at h
  | cons c rest ih =>
    by_cases hc : c = sep
    · simp [cut?, hc] at h
      simp [h]
    · simp only [cut?, hc, if_false, Option.map_eq_some_iff] at h
      obtain ⟨⟨a', b'⟩, h', he⟩ := h
      simp only [Prod.mk.injEq] at he
      obtain ⟨rfl, rfl⟩ := he
      rw [List.mem_cons, not_or]
      exact ⟨Ne.symm hc, ih h'⟩

theorem cut?_append {sep : Char} {s : List Char} (h : sep ∉ s) (t : List Char) :
    cut? sep (s ++ sep :: t) = some (s, t) := by
  induction s with
  | nil => simp [cut?]
  | cons c rest ih =>
    rw [List.mem_cons, not_or] at h
    simp [cut?, Ne.symm h.1, ih h.2]

theorem occursIn_iff {part s : List Char} : occursIn part s = true ↔ part <:+: s := by
  induction s with
  | nil => simp [occursIn]
  | cons c rest ih => simp [occursIn, ih, List.infix_cons_iff]

theorem fields_ne_nil (sep : Char) (s : List Char) : fields sep s ≠ [] := by
  cases s with
  | nil => simp [fields]
  | cons c rest =>
    simp only [fields]
    split
    · simp
    · split <;> simp

theorem fields_of_not_mem {sep : Char} {s : List Char} (h : sep ∉ s) : fields sep s = [s] := by
  induction s with
  | nil => rfl
  | cons c rest ih =>
    rw [List.mem_cons, not_or] at h
    simp [fields, Ne.symm h.1, ih h.2]

/-- The fields of two texts with a separator between them are those of both. -/
theorem fields_append (sep : Char) (s t : List Char) :
    fields sep (s ++ sep :: t) = fields sep s ++ fields sep t := by
  induction s with
  | nil => simp [fields]
  | cons c rest ih =>
    rw [List.cons_append, fields, fields, ih]
    split
    · rfl
    · cases hf : fields sep rest with
      | nil => exact absurd hf (fields_ne_nil sep rest)
      | cons f fs => rfl

theorem fields_joinWith {sep : Char} {f : List Char} {fs : List (List Char)} (hf : sep ∉ f)
    (hfs : ∀ g ∈ fs, sep ∉ g) : fields sep (joinWith [sep] (f :: fs)) = f :: fs := by
  induction fs generalizing f with
  | nil => exact fields_of_not_mem hf
  | cons g gs ih =>
    obtain ⟨hg, hgs⟩ := List.forall_mem_cons.1 hfs
    have hjoin : joinWith [sep] (f :: g :: gs) = f ++ sep :: joinWith [sep] (g :: gs) :=
      List.append_assoc _ _ _
    rw [hjoin, fields_append, fields_of_not_mem hf, ih hg hgs]
    rfl

theorem joinWith_cons_append (sep front f : List Char) (fs : List (List Char)) :
    joinWith sep ((front ++ f) :: fs) = front ++ joinWith sep (f :: fs) := by
  cases fs with
  | nil => rfl
  | cons g gs => simp only [joinWith, List.append_assoc]

/-- A longer separator is a shorter one and the rest of it at the start of each text but the
first. -/
theorem joinWith_append (a b f : List Char) (fs : List (List Char)) :
    joinWith (a ++ b) (f :: fs) = joinWith a (f :: fs.map (b ++ ·)) := by
  induction fs generalizing f with
  | nil => rfl
  | cons g gs ih =>
    show f ++ (a ++ b) ++ joinWith (a ++ b) (g :: gs) = f ++ a ++ joinWith a ((b ++ g) :: _)
    rw [ih, joinWith_cons_append]
    simp only [List.append_assoc]

/-- No field has the separator in it. -/
theorem not_mem_of_mem_fields {sep : Char} {s f : List Char} (h : f ∈ fields sep s) : sep ∉ f := by
  induction s generalizing f with
  | nil =>
    rw [List.mem_singleton.1 h]
    exact List.not_mem_nil
  | cons c rest ih =>
    rw [fields] at h
    split at h
    · rcases List.mem_cons.1 h with rfl | h
      · exact List.not_mem_nil
      · exact ih h
    · rename_i hc
      split at h
      · rw [List.mem_singleton.1 h, List.mem_singleton]
        exact Ne.symm hc
      · rename_i g gs hgs
        rcases List.mem_cons.1 h with rfl | h
        · rw [List.mem_cons, not_or]
          exact ⟨Ne.symm hc, ih (hgs ▸ List.mem_cons_self)⟩
        · exact ih (hgs ▸ List.mem_cons_of_mem g h)

end MountRegistry.Text
