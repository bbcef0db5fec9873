import MountRegistry.Proofs.Yang.Grammar
import MountRegistry.Yang.Module

/-
  What a source declares. A text is read as a module just if its tokens write one `module` statement
  that has a name, a namespace and a short name, and that names what it imports (`IsModule`). The
  module is the one that the statement declares (`Declares`): of several namespaces or short names
  the first counts, of several revisions the greatest, and the data nodes are the arguments of the
  data definitions directly in the statement.
-/

namespace MountRegistry.Yang

variable {names texts : List String} {name text r : String} {s c : Statement} {keyword : String}
  {m m' : Module} {i : Import}

/-! ## Texts in order -/

theorem compare_eq_lt_iff {a b : String} : compare a b = .lt ↔ a < b := compareOfLessAndEq_eq_lt

theorem isLE_compare_iff {a b : String} : (compare a b).isLE ↔ a ≤ b :=
  isLE_compareOfLessAndEq String.le_antisymm String.not_le String.le_total

/-- `r` is one of the texts, and none of them is greater. -/
def Greatest (texts : List String) (r : String) : Prop := r ∈ texts ∧ ∀ t ∈ texts, t ≤ r

theorem greatest_cons_cons {a b : String} (hab : a ≤ b) :
    Greatest (a :: b :: texts) r ↔ Greatest (b :: texts) r := by
  unfold Greatest
  rw [List.forall_mem_cons]
  constructor
  · rintro ⟨hr, har, hall⟩
    refine ⟨?_, hall⟩
    rcases List.mem_cons.1 hr with rfl | hr
    · exact List.mem_cons.2 (.inl (String.le_antisymm hab (hall b List.mem_cons_self)))
    · exact hr
  · rintro ⟨hr, hall⟩
    exact ⟨List.mem_cons_of_mem a hr, String.le_trans hab (hall b List.mem_cons_self), hall⟩

theorem greatest_swap {a b : String} :
    Greatest (a :: b :: texts) r ↔ Greatest (b :: a :: texts) r := by
  unfold Greatest
  simp only [(List.Perm.swap b a texts).mem_iff]

/-- Going through texts and keeping the greater. -/
theorem foldl_eq_some_iff {f : Option String → String → Option String}
    (hnone : ∀ t, f none t = some t)
    (hsome : ∀ b t, f (some b) t = if (compare b t).isLE then some t else some b)
    (best : Option String) :
    texts.foldl f best = some r ↔ Greatest (best.toList ++ texts) r := by
  induction texts generalizing best with
  | nil =>
    cases best with
    | none => simp [Greatest]
    | some b =>
      simp only [List.foldl_nil, Option.some.injEq, Option.toList_some, List.append_nil, Greatest,
        List.mem_singleton, forall_eq]
      exact ⟨fun h => ⟨h.symm, h ▸ String.le_refl b⟩, fun h => h.1.symm⟩
  | cons t rest ih =>
    rw [List.foldl_cons, ih]
    cases best with
    | none => rw [hnone]; rfl
    | some b =>
      rw [hsome]
      split
      · rename_i hle
        exact (greatest_cons_cons (isLE_compare_iff.1 hle)).symm
      · rename_i hle
        rw [isLE_compare_iff] at hle
        exact (greatest_cons_cons ((String.le_total b t).resolve_left hle)).symm.trans greatest_swap

theorem greatest?_eq_some_iff : greatest? texts = some r ↔ Greatest texts r :=
  foldl_eq_some_iff (fun _ => rfl) (fun _ _ => rfl) none

theorem mem_insertName : text ∈ insertName names name ↔ text = name ∨ text ∈ names := by
  induction names with
  | nil => simp [insertName]
  | cons n rest ih =>
    rw [insertName]
    split
    · rename_i heq
      rw [heq, List.mem_cons, or_self_left]
    · split
      · exact List.mem_cons
      · rw [List.mem_cons, ih, List.mem_cons, or_left_comm]

theorem pairwise_insertName (h : names.Pairwise (· < ·)) :
    (insertName names name).Pairwise (· < ·) := by
  induction names with
  | nil => exact List.pairwise_singleton _ name
  | cons n rest ih =>
    rw [insertName]
    obtain ⟨hn, hrest⟩ := List.pairwise_cons.1 h
    split
    · exact h
    · rename_i hne
      split
      · rename_i hlt
        rw [compare_eq_lt_iff] at hlt
        refine List.pairwise_cons.2 ⟨fun x hx => ?_, h⟩
        rcases List.mem_cons.1 hx with rfl | hx
        · exact hlt
        · exact String.lt_trans hlt (hn x hx)
      · rename_i hlt
        rw [compare_eq_lt_iff] at hlt
        refine List.pairwise_cons.2 ⟨fun x hx => ?_, ih hrest⟩
        rcases mem_insertName.1 hx with rfl | hx
        · grind
        · exact hn x hx

theorem mem_foldl_insertName :
    text ∈ texts.foldl insertName names ↔ text ∈ names ∨ text ∈ texts := by
  induction texts generalizing names with
  | nil => simp
  | cons t rest ih =>
    rw [List.foldl_cons, ih, mem_insertName, List.mem_cons, or_assoc, or_left_comm]

theorem pairwise_foldl_insertName (h : names.Pairwise (· < ·)) :
    (texts.foldl insertName names).Pairwise (· < ·) := by
  induction texts generalizing names with
  | nil => exact h
  | cons t rest ih => exact ih (pairwise_insertName h)

theorem nodup_of_pairwise (h : names.Pairwise (· < ·)) : names.Nodup := by
  refine List.Pairwise.imp ?_ h
  intro a b hlt heq
  rw [heq] at hlt
  exact String.lt_irrefl b hlt

/-- An ascending list is known by its members. -/
theorem eq_of_pairwise {xs ys : List String} (hx : xs.Pairwise (· < ·)) (hy : ys.Pairwise (· < ·))
    (h : ∀ t, t ∈ xs ↔ t ∈ ys) : xs = ys := by
  have hperm := (List.perm_ext_iff_of_nodup (nodup_of_pairwise hx) (nodup_of_pairwise hy)).2 h
  refine hperm.eq_of_pairwise (fun a b _ _ hab hba => ?_) hx hy
  exact absurd (String.lt_trans hab hba) (String.lt_irrefl a)

/-! ## Substatements -/

namespace Statement

/-- `c` is the first substatement with this keyword. -/
def IsFirst (s : Statement) (keyword : String) (c : Statement) : Prop :=
  ∃ before after, s.children = before ++ c :: after ∧ c.keyword = keyword ∧
    ∀ d ∈ before, d.keyword ≠ keyword

/-- A substatement with this keyword has this argument. -/
def Gives (s : Statement) (keyword text : String) : Prop :=
  ∃ c ∈ s.children, c.keyword = keyword ∧ c.argument = some text

/-- The first substatement with this keyword has this argument. -/
def GivesFirst (s : Statement) (keyword text : String) : Prop :=
  ∃ c, s.IsFirst keyword c ∧ c.argument = some text

theorem childArgument_eq_some_iff :
    s.childArgument keyword = some text ↔ s.GivesFirst keyword text := by
  unfold childArgument childrenNamed GivesFirst IsFirst
  rw [List.head?_filter, Option.bind_eq_some_iff]
  refine exists_congr fun c => and_congr_left fun _ => ?_
  rw [List.find?_eq_some_iff_append]
  simp only [beq_iff_eq, Bool.not_eq_true', beq_eq_false_iff_ne]
  constructor
  · rintro ⟨hc, before, after, hs, hbefore⟩
    exact ⟨before, after, hs, hc, hbefore⟩
  · rintro ⟨before, after, hs, hc, hbefore⟩
    exact ⟨hc, before, after, hs, hbefore⟩

theorem mem_arguments_iff (p : Statement → Bool) :
    text ∈ (s.children.filter p).filterMap (·.argument) ↔
      ∃ c ∈ s.children, p c = true ∧ c.argument = some text := by
  rw [List.mem_filterMap]
  simp only [List.mem_filter, and_assoc]

end Statement

open Statement

/-! ## Modules -/

/-- The statement declares a module: it has a name, a namespace and a short name, and names what it
imports. -/
structure IsModule (s : Statement) : Prop where
  keyword : s.keyword = "module"
  name : ∃ name, s.argument = some name
  namespaceUri : ∃ text, s.GivesFirst "namespace" text
  shortName : ∃ text, s.GivesFirst "prefix" text
  imports : ∀ c ∈ s.children, c.keyword = "import" → ∃ name, c.argument = some name

/-- The statement imports what `i` says. -/
structure DeclaresImport (s : Statement) (i : Import) : Prop where
  moduleName : s.argument = some i.moduleName
  shortName : ∀ text, i.shortName = some text ↔ s.GivesFirst "prefix" text
  revision : ∀ text, i.revision = some text ↔ s.GivesFirst "revision-date" text

/-- The statement declares this module. -/
structure Declares (s : Statement) (m : Module) : Prop where
  keyword : s.keyword = "module"
  name : s.argument = some m.name
  namespaceUri : s.GivesFirst "namespace" m.namespaceUri
  shortName : s.GivesFirst "prefix" m.shortName
  revision : ∀ r, m.revision = some r ↔
    s.Gives "revision" r ∧ ∀ text, s.Gives "revision" text → text ≤ r
  imports : List.Forall₂ DeclaresImport (s.childrenNamed "import") m.imports
  dataNodes : ∀ node, node ∈ m.dataNodes ↔ ∃ keyword ∈ dataKeywords, s.Gives keyword node
  ascending : m.dataNodes.Pairwise (· < ·)

namespace Module

theorem importOf_eq_ok_iff : importOf s = .ok i ↔ DeclaresImport s i := by
  unfold importOf
  constructor
  · intro h
    split at h
    · cases h
    · rename_i name harg
      cases h
      exact ⟨harg, fun _ => childArgument_eq_some_iff, fun _ => childArgument_eq_some_iff⟩
  · rintro ⟨harg, hshort, hrevision⟩
    obtain ⟨name, short, revision⟩ := i
    have hs : s.childArgument "prefix" = short :=
      Option.ext fun text => childArgument_eq_some_iff.trans (hshort text).symm
    have hr : s.childArgument "revision-date" = revision :=
      Option.ext fun text => childArgument_eq_some_iff.trans (hrevision text).symm
    rw [harg, hs, hr]

theorem revisionOf_eq_some_iff :
    revisionOf s = some r ↔ s.Gives "revision" r ∧ ∀ text, s.Gives "revision" text → text ≤ r := by
  have hmem : ∀ text, text ∈ (s.childrenNamed "revision").filterMap (·.argument) ↔
      s.Gives "revision" text := by
    intro text
    rw [childrenNamed, mem_arguments_iff]
    simp only [beq_iff_eq]
    rfl
  rw [revisionOf, greatest?_eq_some_iff, Greatest]
  simp only [hmem]

theorem mem_dataNodesOf :
    text ∈ dataNodesOf s ↔ ∃ keyword ∈ dataKeywords, s.Gives keyword text := by
  rw [dataNodesOf, mem_foldl_insertName, or_iff_right List.not_mem_nil, mem_arguments_iff]
  simp only [List.contains_iff_mem]
  constructor
  · rintro ⟨c, hc, hkeyword, harg⟩
    exact ⟨_, hkeyword, c, hc, rfl, harg⟩
  · rintro ⟨_, hkeyword, c, hc, rfl, harg⟩
    exact ⟨c, hc, hkeyword, harg⟩

theorem required_eq_ok {text : Option String} {e : Lined SourceFailure} :
    (match text with
      | some t => Except.ok t
      | none => .error e) = .ok name ↔ text = some name := by
  cases text with
  | none => simp
  | some t => simp

theorem ofStatement_eq_ok_iff : ofStatement s = .ok m ↔ Declares s m := by
  constructor
  · intro h
    unfold ofStatement at h
    dsimp only at h
    split at h
    · cases h
    split at h
    · cases h
    rename_i hkeyword
    obtain ⟨name, hname, h⟩ := Outcome.bind_eq_ok.1 h
    obtain ⟨uri, huri, h⟩ := Outcome.bind_eq_ok.1 h
    obtain ⟨short, hshort, h⟩ := Outcome.bind_eq_ok.1 h
    obtain ⟨imports, himports, h⟩ := Outcome.bind_eq_ok.1 h
    cases h
    exact {
      keyword := Decidable.not_not.1 hkeyword
      name := required_eq_ok.1 hname
      namespaceUri := childArgument_eq_some_iff.1 (required_eq_ok.1 huri)
      shortName := childArgument_eq_some_iff.1 (required_eq_ok.1 hshort)
      revision := fun r => revisionOf_eq_some_iff
      imports := (Outcome.mapM_eq_ok.1 himports).imp fun _ _ => importOf_eq_ok_iff.1
      dataNodes := fun node => mem_dataNodesOf
      ascending := pairwise_foldl_insertName .nil }
  · intro h
    obtain ⟨name, uri, short, revision, imports, nodes⟩ := m
    have hname := h.name
    have hrevision : revisionOf s = revision :=
      Option.ext fun r => revisionOf_eq_some_iff.trans (h.revision r).symm
    have hnodes : dataNodesOf s = nodes :=
      eq_of_pairwise (pairwise_foldl_insertName .nil) h.ascending
        fun node => mem_dataNodesOf.trans (h.dataNodes node).symm
    have hsubmodule : s.keyword ≠ "submodule" := by simp [h.keyword]
    unfold ofStatement
    dsimp only
    rw [if_neg hsubmodule, if_neg (not_not_intro h.keyword), hrevision, hnodes]
    refine Outcome.bind_eq_ok.2 ⟨name, required_eq_ok.2 h.name, ?_⟩
    refine Outcome.bind_eq_ok.2
      ⟨uri, required_eq_ok.2 (childArgument_eq_some_iff.2 h.namespaceUri), ?_⟩
    refine Outcome.bind_eq_ok.2
      ⟨short, required_eq_ok.2 (childArgument_eq_some_iff.2 h.shortName), ?_⟩
    have himports := Outcome.mapM_eq_ok.2 (h.imports.imp fun _ _ => importOf_eq_ok_iff.2)
    exact Outcome.bind_eq_ok.2 ⟨imports, himports, rfl⟩

theorem exists_importOf_iff : (∃ i, importOf s = .ok i) ↔ ∃ name, s.argument = some name := by
  unfold importOf
  cases s.argument with
  | none => simp
  | some name => simp

theorem exists_imports_iff :
    (∃ imports, (s.childrenNamed "import").mapM importOf = .ok imports) ↔
      ∀ c ∈ s.children, c.keyword = "import" → ∃ name, c.argument = some name := by
  simp only [Outcome.exists_mapM_iff, exists_importOf_iff, childrenNamed, List.mem_filter,
    beq_iff_eq, and_imp]

theorem exists_ofStatement_iff : (∃ m, ofStatement s = .ok m) ↔ IsModule s := by
  constructor
  · rintro ⟨m, hm⟩
    have h := ofStatement_eq_ok_iff.1 hm
    have himports := Outcome.mapM_eq_ok.2 (h.imports.imp fun _ _ => importOf_eq_ok_iff.2)
    exact ⟨h.keyword, ⟨_, h.name⟩, ⟨_, h.namespaceUri⟩, ⟨_, h.shortName⟩,
      exists_imports_iff.1 ⟨_, himports⟩⟩
  · intro h
    obtain ⟨name, hname⟩ := h.name
    obtain ⟨uri, huri⟩ := h.namespaceUri
    obtain ⟨short, hshort⟩ := h.shortName
    obtain ⟨imports, himports⟩ := exists_imports_iff.2 h.imports
    refine ⟨⟨name, uri, short, revisionOf s, imports, dataNodesOf s⟩, ofStatement_eq_ok_iff.2 ?_⟩
    exact {
      keyword := h.keyword
      name := hname
      namespaceUri := huri
      shortName := hshort
      revision := fun r => revisionOf_eq_some_iff
      imports := (Outcome.mapM_eq_ok.1 himports).imp fun _ _ => importOf_eq_ok_iff.1
      dataNodes := fun node => mem_dataNodesOf
      ascending := pairwise_foldl_insertName .nil }

theorem parse_eq_ok_iff :
    parse text = .ok m ↔ ∃ ts, tokenize text.toList = .ok ts ∧
      ∃ s, ofTokens ts = .ok s ∧ ofStatement s = .ok m := by
  unfold parse
  simp only [Outcome.bind_eq_ok, Outcome.mapError_eq_ok]

/-- Which lists of tokens the reader answers, and with which statement: those that write one
statement, no more than 64 inside one another. Of any other list it says what is wrong. And a text
is read as a module just if its tokens write a module statement; it is the module that the statement
declares. -/
theorem read_just_as_written :
    (∀ ts, (∀ s, ofTokens ts = .ok s ↔ Writes 64 ts [s]) ∧
      ((∃ s, ofTokens ts = .ok s) ∨ ∃ e, ofTokens ts = .error e ∧
        (ts = [] ∧ e = ⟨.emptySource, 1⟩ ∨ Reader.Shows ts e))) ∧
    ∀ text : String,
      ((∃ m, parse text = .ok m) ↔
        ∃ ts s, tokenize text.toList = .ok ts ∧ Writes 64 ts [s] ∧ IsModule s) ∧
      ∀ m, parse text = .ok m ↔
        ∃ ts s, tokenize text.toList = .ok ts ∧ Writes 64 ts [s] ∧ Declares s m := by
  have htokens : ∀ ts s, ofTokens ts = .ok s ↔ Writes 64 ts [s] := fun _ _ => ofTokens_eq_ok_iff
  refine ⟨fun ts => ⟨htokens ts, ?_⟩, fun text => ⟨?_, fun m => ?_⟩⟩
  · cases h : ofTokens ts with
    | ok s => exact .inl ⟨s, rfl⟩
    | error e =>
      refine .inr ⟨e, rfl, ?_⟩
      by_cases hnil : ts = []
      · subst hnil
        cases h
        exact .inl ⟨rfl, rfl⟩
      · exact .inr (shows_of_ofTokens h hnil)
  · simp only [parse_eq_ok_iff, htokens, ← exists_ofStatement_iff]
    constructor
    · rintro ⟨m, ts, hts, s, hs, hm⟩
      exact ⟨ts, s, hts, hs, m, hm⟩
    · rintro ⟨ts, s, hts, hs, m, hm⟩
      exact ⟨m, ts, hts, s, hs, hm⟩
  · simp only [parse_eq_ok_iff, htokens, ofStatement_eq_ok_iff]
    constructor
    · rintro ⟨ts, hts, s, hs, hm⟩
      exact ⟨ts, s, hts, hs, hm⟩
    · rintro ⟨ts, s, hts, hs, hm⟩
      exact ⟨ts, hts, s, hs, hm⟩

end Module

end MountRegistry.Yang
