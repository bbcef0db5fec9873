import MountRegistry.Proofs.Source.Compilation

/-
  All mount points of a process agree on every module. A text enters the library under the
  identifier that it declares itself, whatever it was asked for by and whatever file it came from,
  and only if nothing is kept there: a source is sought on disk only when nothing in the library
  satisfies the request, and what it declares does satisfy it (`text?_of_fetch`). So what a
  resolution compiles is what the library tells of it, and the library never tells anything else.
-/

namespace MountRegistry

namespace SourceLibrary

/-- Every text is that of the module that its identifier names. -/
def Genuine (l : SourceLibrary) : Prop :=
  ∀ id text, l.text? id = some text → ∃ m, Yang.Module.parse text = .ok m ∧ m.sourceId = id

/-- The module that the library's text of an identifier is read as. -/
def Tells (l : SourceLibrary) (id : SourceId) (m : Yang.Module) : Prop :=
  ∃ text, l.text? id = some text ∧ Yang.Module.parse text = .ok m

variable {l l' : SourceLibrary} {id : SourceId} {m n : Yang.Module}

theorem Tells.mono (h : l.Tells id m) (hl : l.Extends l') : l'.Tells id m := by
  obtain ⟨text, ht, hm⟩ := h
  exact ⟨text, hl id text ht, hm⟩

theorem Tells.unique (h : l.Tells id m) (k : l.Tells id n) : m = n := by
  obtain ⟨text, ht, hm⟩ := h
  obtain ⟨text', ht', hn⟩ := k
  rw [ht] at ht'
  cases ht'
  rw [hm] at hn
  exact Except.ok.inj hn

end SourceLibrary

/-! ## One resolution -/

/-- What is compiled is what the library tells, and the library is genuine. -/
structure Build.Faithful (b : Build) : Prop where
  genuine : b.library.Genuine
  compiled : ∀ id m, Keyed.find? b.compiled id = some m → b.library.Tells id m

namespace Resolution

open SourceLibrary

variable {directory : String} {wanted : SourceId} {b b' : Build} {source : Source}
  {origin : Origin} {m : Yang.Module}

/-- What is acquired is kept under its own identifier: the library had the same text there, or
none. -/
theorem text?_of_fetch (hb : b.library.Genuine)
    (found : fetch directory wanted b = .ok (source, origin))
    (checked : check wanted source = .ok m) :
    (b.library.register ⟨m.sourceId, source.text⟩).1.text? m.sourceId = some source.text := by
  rw [text?_register, if_pos rfl]
  obtain ⟨hparse, hsat⟩ := check_eq_ok checked
  rcases fetch_eq_ok found with ⟨_, hl⟩ | ⟨_, hl, _⟩
  · obtain ⟨htext, _⟩ := lookup?_eq_some hl
    obtain ⟨n, hn, hid⟩ := hb _ _ htext
    rw [hparse] at hn
    cases hn
    rw [hid, htext]
    rfl
  · cases ht : b.library.text? m.sourceId with
    | none => rfl
    | some text => exact absurd hsat (not_satisfies_of_lookup? hl ht)

theorem extends_acquire (h : run (acquire directory wanted) b = (.ok m, b')) :
    b.library.Extends b'.library := by
  obtain ⟨source, origin, _, _, rfl⟩ := acquire_eq_ok h
  rw [keep_library]
  exact extends_register _ _

theorem tells_acquire (hb : b.library.Genuine)
    (h : run (acquire directory wanted) b = (.ok m, b')) : b'.library.Tells m.sourceId m := by
  obtain ⟨source, origin, found, checked, rfl⟩ := acquire_eq_ok h
  refine ⟨source.text, ?_, (check_eq_ok checked).1⟩
  rw [keep_library]
  exact text?_of_fetch hb found checked

theorem faithful_acquire (hb : b.Faithful)
    (h : run (acquire directory wanted) b = (.ok m, b')) : b'.Faithful := by
  have hext := extends_acquire h
  have htells := tells_acquire hb.genuine h
  obtain ⟨source, origin, _, _, rfl⟩ := acquire_eq_ok h
  refine ⟨fun id text htext => ?_, fun id n hn => ?_⟩
  · by_cases hid : id = m.sourceId
    · obtain ⟨kept, hkept, hm⟩ := htells
      rw [hid, hkept] at htext
      cases htext
      exact ⟨m, hm, hid.symm⟩
    · rw [keep_library, text?_register, if_neg hid] at htext
      exact hb.genuine id text htext
  · rw [keep_compiled] at hn
    exact (hb.compiled id n hn).mono hext

theorem faithful_enter (hb : b.Faithful) (hm : b.library.Tells m.sourceId m) :
    (b.enter m).Faithful := by
  refine ⟨hb.genuine, fun id n hn => ?_⟩
  rw [Build.enter, Keyed.find?_insert] at hn
  split at hn
  · rename_i hid
    cases hn
    exact hid ▸ hm
  · exact hb.compiled id n hn

theorem Compiling.faithful {chain : List String} {requests : List SourceId}
    {r : Except ResolutionFailure (List SourceId)}
    (h : Compiling directory chain requests b r b') (hb : b.Faithful) :
    b'.Faithful ∧ b.library.Extends b'.library := by
  induction h with
  | done chain b => exact ⟨hb, .refl _⟩
  | known known others ih => exact ih hb
  | cycle new met => exact ⟨hb, .refl _⟩
  | refused new fresh refused =>
    cases acquire_eq_error refused
    exact ⟨hb, .refl _⟩
  | broken new fresh acquired imports ih =>
    obtain ⟨hb', hext⟩ := ih (faithful_acquire hb acquired)
    exact ⟨hb', (extends_acquire acquired).trans hext⟩
  | built new fresh acquired imports others ih₁ ih =>
    obtain ⟨hb₂, hext₂⟩ := ih₁ (faithful_acquire hb acquired)
    have htells := (tells_acquire hb.genuine acquired).mono hext₂
    obtain ⟨hb', hext⟩ := ih (faithful_enter hb₂ htells)
    exact ⟨hb', ((extends_acquire acquired).trans hext₂).trans hext⟩

theorem resolveIn_faithful (directory : String) (capabilities : List Capability)
    (hb : b.Faithful) :
    (resolveIn directory capabilities b).library.Genuine ∧
      b.library.Extends (resolveIn directory capabilities b).library ∧
      ∀ model, (resolveIn directory capabilities b).result = .ok model →
        ∀ id m, Keyed.find? model.modules id = some m →
          (resolveIn directory capabilities b).library.Tells id m := by
  obtain ⟨r, b', hcompiling, hout⟩ := exists_compiling directory capabilities b
  obtain ⟨hb', hext⟩ := hcompiling.faithful hb
  rw [hout]
  refine ⟨hb'.genuine, hext, fun model hmodel id m hm => ?_⟩
  cases r with
  | error e => cases hmodel
  | ok ids =>
    cases hmodel
    exact hb'.compiled id m hm

/-- A resolution keeps the library genuine and all its texts, and returns only what the library
tells afterwards. -/
theorem resolve_faithful (cacheRoot name : String) {library : SourceLibrary} (files : Files)
    (capabilities : List Capability) (hl : library.Genuine) :
    (resolve cacheRoot name library files capabilities).library.Genuine ∧
      library.Extends (resolve cacheRoot name library files capabilities).library ∧
      ∀ model, (resolve cacheRoot name library files capabilities).result = .ok model →
        ∀ id m, Keyed.find? model.modules id = some m →
          (resolve cacheRoot name library files capabilities).library.Tells id m := by
  unfold resolve
  split
  · exact ⟨hl, .refl _, fun model h => (by cases h)⟩
  · split
    · exact ⟨hl, .refl _, fun model h => (by cases h)⟩
    · split
      · exact ⟨hl, .refl _, fun model h => (by cases h)⟩
      · exact resolveIn_faithful _ capabilities ⟨hl, fun id m h => (by cases h)⟩

end Resolution

/-! ## Any number of resolutions -/

/-- One resolution of a process: where it looks, the files as it finds them, and what it is asked
for. -/
structure ResolutionRequest where
  cacheRoot : String
  directory : String
  files : Files
  capabilities : List Capability

namespace SourceLibrary

/-- A resolution with this library. -/
def resolve (l : SourceLibrary) (r : ResolutionRequest) : Resolution.Outcome :=
  Resolution.resolve r.cacheRoot r.directory l r.files r.capabilities

/-- The library after some resolutions, one after the other. -/
def after (l : SourceLibrary) : List ResolutionRequest → SourceLibrary
  | [] => l
  | r :: rest => (l.resolve r).library.after rest

/-- What some resolutions return, one after the other. -/
def results (l : SourceLibrary) :
    List ResolutionRequest → List (Except ResolutionFailure Yang.Model)
  | [] => []
  | r :: rest => (l.resolve r).result :: (l.resolve r).library.results rest

theorem after_append (l : SourceLibrary) (rs ss : List ResolutionRequest) :
    l.after (rs ++ ss) = (l.after rs).after ss := by
  induction rs generalizing l with
  | nil => rfl
  | cons r rs ih => exact ih _

theorem Genuine.after {l : SourceLibrary} (h : l.Genuine) (rs : List ResolutionRequest) :
    (l.after rs).Genuine ∧ l.Extends (l.after rs) ∧
      ∀ model, .ok model ∈ l.results rs → ∀ id m, Keyed.find? model.modules id = some m →
        (l.after rs).Tells id m := by
  induction rs generalizing l with
  | nil => exact ⟨h, .refl l, fun model hm => nomatch hm⟩
  | cons r rs ih =>
    obtain ⟨hgen, hext, htells⟩ :=
      Resolution.resolve_faithful r.cacheRoot r.directory r.files r.capabilities h
    obtain ⟨hgen', hext', htells'⟩ := ih hgen
    refine ⟨hgen', hext.trans hext', fun model hmodel id m hm => ?_⟩
    rcases List.mem_cons.1 hmodel with heq | hmodel
    · exact (htells model heq.symm id m hm).mono hext'
    · exact htells' model hmodel id m hm

/-- From an empty library, whatever is resolved in whatever directories, with whatever files there
at each time, and whether or not it succeeds: every text that is kept is that of the module that its
identifier names and stays as it is, and the modules of the models returned are what the library
tells of them, so that no two models differ on a module. -/
theorem mount_points_agree (rs : List ResolutionRequest) :
    let l := SourceLibrary.empty.after rs
    (∀ id text, Keyed.find? l.texts id = some text →
      ∃ m, Yang.Module.parse text = .ok m ∧ m.sourceId = id) ∧
    (∀ before rest, rs = before ++ rest → ∀ id text,
      Keyed.find? (SourceLibrary.empty.after before).texts id = some text →
        Keyed.find? l.texts id = some text) ∧
    (∀ model, .ok model ∈ SourceLibrary.empty.results rs → ∀ id m,
      Keyed.find? model.modules id = some m →
        ∃ text, Keyed.find? l.texts id = some text ∧ Yang.Module.parse text = .ok m) ∧
    (∀ model model', .ok model ∈ SourceLibrary.empty.results rs →
      .ok model' ∈ SourceLibrary.empty.results rs → ∀ id m n,
      Keyed.find? model.modules id = some m → Keyed.find? model'.modules id = some n → m = n) := by
  intro l
  have hempty : SourceLibrary.empty.Genuine := fun id text h => nomatch h
  obtain ⟨hgen, _, htells⟩ := hempty.after rs
  refine ⟨hgen, ?_, htells, ?_⟩
  · rintro before rest rfl
    have hext := ((hempty.after before).1.after rest).2.1
    rwa [← after_append] at hext
  · intro model model' hm hm' id m n hfind hfind'
    exact (htells model hm id m hfind).unique (htells model' hm' id n hfind')

end SourceLibrary

end MountRegistry
