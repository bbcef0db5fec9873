import Mathlib.Data.List.Nodup
import Mathlib.Data.List.Pairwise
import Mathlib.Data.List.Perm.Subperm
import MountRegistry.Proofs.Data.Commuting
import MountRegistry.Proofs.Store.Rebase

/-
  Writers that have nothing to do with each other. They are sealed on one version, the schema allows
  their edits, no path of one overlaps a path of another, and the log has room for a commit of each.
  Then however they take turns to vote, prepare and commit, and whatever else is done meanwhile but
  commit, every call succeeds, and the tree is in the end what their edits make of the tree they
  began on, in any order (`independent_commits`).

  What carries a run through: each writer has some of its calls left (`Turn`), and what has been
  committed since the start are edit lists of writers that have none left (`Underway`). So nothing
  that a writer overlaps was committed since its base, the log still tells so, and its paths show
  what they showed there.
-/

namespace MountRegistry.Store

/-- The answer to a call that goes well. -/
def Move.success : Move → Answer
  | .vote _ => .flag true
  | _ => .done

/-- A move that stages no value but a canonical one. -/
def Move.Canonical : Move → Prop
  | .stage _ e => e.Canonical
  | _ => True

/-- The moves that a party makes in a run. -/
def movesOf (i : Nat) (ms : List Move) : List Move := ms.filter (·.party? = some i)

/-- The answers that a party hears in a run. -/
def answersTo (i : Nat) (heard : List (Move × Answer)) : List (Move × Answer) :=
  heard.filter (·.1.party? = some i)

theorem movesOf_cons_of_party {i : Nat} {m : Move} (h : m.party? = some i) (ms : List Move) :
    movesOf i (m :: ms) = m :: movesOf i ms :=
  List.filter_cons_of_pos (decide_eq_true h)

theorem movesOf_cons_of_ne {i : Nat} {m : Move} (h : m.party? ≠ some i) (ms : List Move) :
    movesOf i (m :: ms) = movesOf i ms :=
  List.filter_cons_of_neg (by simpa using h)

theorem movesOf_eq_nil_of_cons {i : Nat} {m : Move} {ms : List Move}
    (h : movesOf i (m :: ms) = []) : movesOf i ms = [] := by
  by_cases hm : m.party? = some i
  · rw [movesOf_cons_of_party hm] at h
    cases h
  · rwa [movesOf_cons_of_ne hm] at h

/-- The edits of a party, committing or not. -/
def Party.edits : Party → List Edit
  | .drafting d | .committing d _ => d.edits

namespace Traffic

variable {s t : Traffic} {m : Move} {a : Answer}

/-- What is answered was asked. -/
theorem mem_of_mem_transcript {ms : List Move} (h : (m, a) ∈ s.transcript ms) : m ∈ ms := by
  induction ms generalizing s with
  | nil => cases h
  | cons n ms ih =>
    rcases List.mem_cons.1 h with heq | h
    · cases heq
      exact List.mem_cons_self
    · exact List.mem_cons_of_mem n (ih h)

/-! ## What a move leaves as it is -/

theorem Effect.party?_of_ne (h : Effect s m a t) {i : Nat} (hm : m.party? ≠ some i) :
    t.party? i = s.party? i := by
  cases h with
  | idle => rfl
  | _ => exact if_neg fun hi => hm (congrArg some hi.symm)

theorem Effect.model (h : Effect s m a t) : t.store.model = s.store.model := by
  cases h with
  | committed i d c store party commit =>
    obtain ⟨_, _, _, hto⟩ := Cohort.commit_eq_ok commit
    exact hto.model
  | _ => rfl

theorem Effect.logCapacity (h : Effect s m a t) : t.store.logCapacity = s.store.logCapacity := by
  cases h with
  | committed i d c store party commit =>
    obtain ⟨_, _, _, hto⟩ := Cohort.commit_eq_ok commit
    exact hto.logCapacity
  | _ => rfl

/-- A move that commits nothing leaves the commits and the tree. -/
theorem Effect.quiet (h : Effect s m a t) (hc : committed? (m, a) = none) :
    t.commits = s.commits ∧ t.store.tree = s.store.tree := by
  cases h with
  | committed => cases hc
  | _ => exact ⟨rfl, rfl⟩

/-! ## Canonical trees and edits -/

/-- The tree and all edits are canonical. -/
structure Canonical (s : Traffic) : Prop where
  tree : s.store.tree.Canonical
  edits : ∀ i p, s.party? i = some p → ∀ e ∈ p.edits, e.Canonical

theorem canonical_start (name : String) (kind : StoreKind) (model : Yang.Model) (capacity : Nat) :
    (start (Store.create name kind model capacity)).Canonical :=
  ⟨Json.canonical_emptyObject, fun i p h => by cases h⟩

theorem Canonical.setParty (h : s.Canonical) (i : Nat) {p : Party}
    (hp : ∀ e ∈ p.edits, e.Canonical) : (s.setParty i p).Canonical := by
  refine ⟨h.tree, fun j q hq => ?_⟩
  rw [setParty_party?] at hq
  split at hq
  · cases hq
    exact hp
  · exact h.edits j q hq

theorem Canonical.resetParty (h : s.Canonical) {i : Nat} {p q : Party} (hi : s.party? i = some q)
    (hpq : p.edits = q.edits) : (s.setParty i p).Canonical :=
  h.setParty i (hpq ▸ h.edits i q hi)

theorem Canonical.effect (h : s.Canonical) (hs : s.Sound) (hm : m.Canonical)
    (he : Effect s m a t) : t.Canonical := by
  cases he with
  | idle => exact ⟨h.tree, h.edits⟩
  | opened i free => exact h.setParty i fun e he => by cases he
  | staged i e d d' party stage =>
    have hd := h.edits i _ party
    obtain ⟨working, _, rfl⟩ := StoreDraft.stage_eq_ok stage
    refine h.setParty i fun f hf => ?_
    rcases List.mem_append.1 hf with hf | hf
    · exact hd f hf
    · rw [List.mem_singleton.1 hf]
      exact canonical_canonicalEdit d.model hm
  | shut i d party => exact h.resetParty party rfl
  | prepared i d c c' party prepare => exact h.resetParty party rfl
  | committed i d c store party commit =>
    obtain ⟨hmade, _, _⟩ := hs.commit_makes (hs.parties i _ party).2 commit
    exact ⟨Edit.canonical_applyAll (h.edits i _ party) h.tree hmade,
      (h.resetParty (p := .committing d c.release) party rfl).edits⟩
  | failed i d c e party => exact h.resetParty party rfl
  | aborted i d c party => exact h.resetParty party rfl

theorem Canonical.after {ms : List Move} (h : s.Canonical) (hs : s.Sound)
    (hms : ∀ m ∈ ms, m.Canonical) : (s.after ms).Canonical := by
  induction ms generalizing s with
  | nil => exact h
  | cons m ms ih =>
    have he := effect_step s m
    exact ih (h.effect hs (hms m List.mem_cons_self) he) (hs.effect he) fun n hn =>
      hms n (List.mem_cons_of_mem m hn)

/-! ## A draft that nothing overlapping was committed after -/

theorem Sound.conflict?_eq_none (h : s.Sound) {edits : List Edit} {base : Nat}
    (hbase : base ≤ s.store.version) (hroom : s.store.version ≤ base + s.store.logCapacity)
    (hu : s.Untouched edits base s.store.version) :
    s.store.conflict? base (edits.map (·.path)) = none := by
  refine h.records.conflict?_eq_none hbase hroom fun k entry hk hle p hp q hq => ?_
  rw [List.getElem?_map] at hk
  obtain ⟨c, hc, rfl⟩ := Option.map_eq_some_iff.1 hk
  obtain ⟨e, he, rfl⟩ := List.mem_map.1 hp
  obtain ⟨f, hf, rfl⟩ := mem_touchedPaths.1 hq
  have hlt : k < s.store.version := h.version_eq ▸ (List.getElem?_eq_some_iff.1 hc).1
  exact hu k c hc hle hlt e he f hf

theorem Sound.exists_applyAll (h : s.Sound) {d : StoreDraft} (hd : s.Opened d)
    (hu : s.Untouched d.edits d.base s.store.version) :
    ∃ tree, Edit.applyAll s.store.tree d.edits = .ok tree := by
  obtain ⟨hle, j, hj, hw⟩ := hd
  exact Edit.exists_applyAll_of_readAt hw fun e he => h.readAt_of_untouched hle hj h.current hu he

/-! ## Writers -/

/-- Writers that are sealed on the present version, and are all the schema and the log have room
for, with no path of one that overlaps a path of another. -/
structure Independent (s : Traffic) (writers : List (Nat × StoreDraft)) : Prop where
  party : ∀ w ∈ writers, ∃ c, s.party? w.1 = some (.committing w.2 c)
  base : ∀ w ∈ writers, w.2.base = s.store.version
  valid : ∀ w ∈ writers, validate s.store.model w.2.edits = .ok ()
  distinct : (writers.map (·.1)).Nodup
  clear : writers.Pairwise fun v w => Edit.Clear v.2.edits w.2.edits
  room : writers.length ≤ s.store.logCapacity

/-- The calls that a writer has left, when these commits have been made since the start. -/
inductive Turn (t : Traffic) (done : List Commit) (i : Nat) (d : StoreDraft) :
    List Move → Prop where
  | all (c : Cohort) (party : t.party? i = some (.committing d c)) :
    Turn t done i d [.vote i, .prepare i, .commit i]
  | voted (c : Cohort) (party : t.party? i = some (.committing d c)) :
    Turn t done i d [.prepare i, .commit i]
  | prepared (c : Cohort) (p : Prepared) (party : t.party? i = some (.committing d c))
    (prepared : c.prepared = some p) : Turn t done i d [.commit i]
  | committed (c : Commit) (mem : c ∈ done) (party : c.party = i) (draft : c.draft = d) :
    Turn t done i d []

/-- Between the start `s` and now `t` these commits were made, and these moves are to come. -/
structure Underway (s : Traffic) (writers : List (Nat × StoreDraft)) (t : Traffic)
    (done : List Commit) (ms : List Move) : Prop where
  sound : t.Sound
  model : t.store.model = s.store.model
  logCapacity : t.store.logCapacity = s.store.logCapacity
  commits : t.commits = s.commits ++ done
  tree : (done.map (·.draft.edits)).foldlM Edit.applyAll s.store.tree = .ok t.store.tree
  distinct : (done.map (·.party)).Nodup
  writer : ∀ c ∈ done, (c.party, c.draft) ∈ writers ∧ movesOf c.party ms = []
  turn : ∀ w ∈ writers, t.Turn done w.1 w.2 (movesOf w.1 ms)

variable {u : Traffic} {writers : List (Nat × StoreDraft)} {done : List Commit} {ms : List Move}

theorem Independent.clear_of_ne (h : s.Independent writers) {v w : Nat × StoreDraft}
    (hv : v ∈ writers) (hw : w ∈ writers) (hne : v.1 ≠ w.1) :
    Edit.Clear v.2.edits w.2.edits := by
  have : Std.Symm fun v w : Nat × StoreDraft => Edit.Clear v.2.edits w.2.edits :=
    ⟨fun _ _ hab => hab.symm⟩
  exact h.clear.forall hv hw fun heq => hne (congrArg Prod.fst heq)

theorem Turn.of_ne {i : Nat} {d : StoreDraft} {left : List Move} (h : t.Turn done i d left)
    (he : Effect t m a u) (hm : m.party? ≠ some i) : u.Turn done i d left := by
  have hi := he.party?_of_ne hm
  cases h with
  | all c party => exact .all c (hi.trans party)
  | voted c party => exact .voted c (hi.trans party)
  | prepared c p party prepared => exact .prepared c p (hi.trans party) prepared
  | committed c mem party draft => exact .committed c mem party draft

theorem Turn.concat {i : Nat} {d : StoreDraft} {left : List Move} (h : t.Turn done i d left)
    (c : Commit) : t.Turn (done ++ [c]) i d left := by
  cases h with
  | all c party => exact .all c party
  | voted c party => exact .voted c party
  | prepared c p party prepared => exact .prepared c p party prepared
  | committed c mem party draft => exact .committed c (List.mem_append_left _ mem) party draft

namespace Underway

theorem version_eq (h : Underway s writers t done ms) (hs : s.Sound) :
    t.store.version = s.store.version + done.length := by
  rw [h.sound.version_eq, hs.version_eq, h.commits, List.length_append]

theorem version_le (h : Underway s writers t done ms) (hs : s.Sound) :
    s.store.version ≤ t.store.version :=
  h.version_eq hs ▸ Nat.le_add_right _ _

/-- The log still holds all that was committed since the start. -/
theorem room (h : Underway s writers t done ms) (hs : s.Sound) (hw : s.Independent writers) :
    t.store.version ≤ s.store.version + t.store.logCapacity := by
  have hsub : done.map (·.party) ⊆ writers.map (·.1) := by
    intro i hi
    obtain ⟨c, hc, rfl⟩ := List.mem_map.1 hi
    exact List.mem_map_of_mem (h.writer c hc).1
  have hlen := (List.Nodup.subperm h.distinct hsub).length_le
  rw [List.length_map, List.length_map] at hlen
  have hroom := hw.room
  rw [h.version_eq hs, h.logCapacity]
  omega

/-- Nothing that overlaps a writer with calls left was committed since the start. -/
theorem untouched (h : Underway s writers t done ms) (hs : s.Sound) (hw : s.Independent writers)
    {w : Nat × StoreDraft} (hmem : w ∈ writers) (hleft : movesOf w.1 ms ≠ []) :
    t.Untouched w.2.edits s.store.version t.store.version := by
  intro k c hk hle _
  rw [h.commits, List.getElem?_append_right (hs.version_eq ▸ hle)] at hk
  obtain ⟨hc, hnone⟩ := h.writer c (List.mem_of_getElem? hk)
  have hne : w.1 ≠ c.party := by
    intro heq
    exact hleft (heq ▸ hnone)
  exact hw.clear_of_ne hmem hc hne

theorem conflict?_eq_none (h : Underway s writers t done ms) (hs : s.Sound)
    (hw : s.Independent writers) {w : Nat × StoreDraft} (hmem : w ∈ writers)
    (hleft : movesOf w.1 ms ≠ []) {base : Nat} (hbase : s.store.version ≤ base)
    (hle : base ≤ t.store.version) :
    t.store.conflict? base (w.2.edits.map (·.path)) = none := by
  have hroom := h.room hs hw
  refine h.sound.conflict?_eq_none hle (by omega) fun k c hk hbk => ?_
  exact h.untouched hs hw hmem hleft k c hk (Nat.le_trans hbase hbk)

theorem exists_applyAll (h : Underway s writers t done ms) (hs : s.Sound)
    (hw : s.Independent writers) {w : Nat × StoreDraft} (hmem : w ∈ writers)
    (hleft : movesOf w.1 ms ≠ []) {c : Cohort} (hc : t.party? w.1 = some (.committing w.2 c)) :
    ∃ tree, Edit.applyAll t.store.tree w.2.edits = .ok tree := by
  have hu := h.untouched hs hw hmem hleft
  rw [← hw.base w hmem] at hu
  exact h.sound.exists_applyAll (h.sound.parties _ _ hc).1 hu

theorem valid (h : Underway s writers t done ms) (hw : s.Independent writers)
    {w : Nat × StoreDraft} (hmem : w ∈ writers) :
    validate t.store.model w.2.edits = .ok () := by
  rw [h.model]
  exact hw.valid w hmem

theorem vote_eq_ok (h : Underway s writers t done ms) (hs : s.Sound) (hw : s.Independent writers)
    {w : Nat × StoreDraft} (hmem : w ∈ writers) (hleft : movesOf w.1 ms ≠ []) {c : Cohort}
    (hi : t.party? w.1 = some (.committing w.2 c)) : c.vote t.store = .ok true := by
  have hc := (h.sound.parties _ _ hi).2
  unfold Cohort.vote
  rw [hc.base, hc.edits, hw.base w hmem]
  exact vote_of_conflict? (h.conflict?_eq_none hs hw hmem hleft (Nat.le_refl _) (h.version_le hs))
    (h.valid hw hmem)

theorem exists_prepare (h : Underway s writers t done ms) (hs : s.Sound)
    (hw : s.Independent writers) {w : Nat × StoreDraft} (hmem : w ∈ writers)
    (hleft : movesOf w.1 ms ≠ []) {c : Cohort} (hi : t.party? w.1 = some (.committing w.2 c)) :
    ∃ c' p, c.prepare t.store = .ok c' ∧ c'.prepared = some p := by
  have hc := (h.sound.parties _ _ hi).2
  obtain ⟨tree, htree⟩ := h.exists_applyAll hs hw hmem hleft hi
  have hprep := prepare_of_conflict?
    (h.conflict?_eq_none hs hw hmem hleft (Nat.le_refl _) (h.version_le hs)) htree (h.valid hw hmem)
  unfold Cohort.prepare
  rw [hc.base, hc.edits, hw.base w hmem, hprep]
  exact ⟨_, _, rfl, rfl⟩

theorem exists_commit (h : Underway s writers t done ms) (hs : s.Sound)
    (hw : s.Independent writers) {w : Nat × StoreDraft} (hmem : w ∈ writers)
    (hleft : movesOf w.1 ms ≠ []) {c : Cohort} {p : Prepared}
    (hi : t.party? w.1 = some (.committing w.2 c)) (hp : c.prepared = some p) :
    ∃ store, c.commit t.store = .ok store := by
  have hc := (h.sound.parties _ _ hi).2
  have hholds := hc.prepared p hp
  obtain ⟨tree, htree⟩ := h.exists_applyAll hs hw hmem hleft hi
  have hno := h.conflict?_eq_none hs hw hmem hleft (hw.base w hmem ▸ hholds.base_le)
    hholds.version_le
  obtain ⟨installed, hinst⟩ := exists_committedTree hno htree
  exact Cohort.commit_of_committedTree hp (hc.edits ▸ hinst)

/-! ## One move -/

/-- A move that commits nothing, and after which its writer has the other calls left. -/
theorem quiet (h : Underway s writers t done (m :: ms)) (he : Effect t m a u)
    (hc : committed? (m, a) = none)
    (hturn : ∀ w ∈ writers, m.party? = some w.1 → u.Turn done w.1 w.2 (movesOf w.1 ms)) :
    Underway s writers u done ms := by
  obtain ⟨hcommits, htree⟩ := he.quiet hc
  refine ⟨h.sound.effect he, he.model.trans h.model, he.logCapacity.trans h.logCapacity,
    hcommits.trans h.commits, htree ▸ h.tree, h.distinct, fun c hc => ?_, fun w hw => ?_⟩
  · exact (h.writer c hc).imp_right movesOf_eq_nil_of_cons
  · by_cases hm : m.party? = some w.1
    · exact hturn w hw hm
    · have hkeep := h.turn w hw
      rw [movesOf_cons_of_ne hm] at hkeep
      exact hkeep.of_ne he hm

theorem commit {i : Nat} {d : StoreDraft} {c : Cohort} {store : Store}
    (h : Underway s writers t done (.commit i :: ms)) (hw : s.Independent writers)
    (hmem : (i, d) ∈ writers) (hi : t.party? i = some (.committing d c))
    (hc : c.commit t.store = .ok store) (hleft : movesOf i ms = []) :
    Underway s writers
      { t.setParty i (.committing d c.release) with
        store, commits := t.commits ++ [⟨i, d, t.store, store⟩] }
      (done ++ [⟨i, d, t.store, store⟩]) ms := by
  have he := Effect.committed i d c store hi hc
  have hnew : i ∉ done.map (·.party) := by
    intro hin
    obtain ⟨co, hco, rfl⟩ := List.mem_map.1 hin
    have hnone := (h.writer co hco).2
    rw [movesOf_cons_of_party rfl] at hnone
    cases hnone
  refine ⟨h.sound.effect he, he.model.trans h.model, he.logCapacity.trans h.logCapacity,
    ?_, ?_, ?_, fun co hco => ?_, fun w hwm => ?_⟩
  · change t.commits ++ _ = _
    rw [h.commits, List.append_assoc]
  · obtain ⟨hmade, _, _⟩ := h.sound.commit_makes (h.sound.parties i _ hi).2 hc
    rw [List.map_append]
    exact Outcome.foldlM_concat_eq_ok.2 ⟨t.store.tree, h.tree, hmade⟩
  · rw [List.map_append, List.map_singleton, ← List.concat_eq_append]
    exact List.Nodup.concat hnew h.distinct
  · rcases List.mem_append.1 hco with hco | hco
    · exact (h.writer co hco).imp_right movesOf_eq_nil_of_cons
    · rw [List.mem_singleton.1 hco]
      exact ⟨hmem, hleft⟩
  · by_cases hwi : w.1 = i
    · have hwd : w = (i, d) := List.inj_on_of_nodup_map hw.distinct hwm hmem hwi
      rw [hwd, hleft]
      exact .committed _ (List.mem_append_right _ (List.mem_singleton.2 rfl)) rfl rfl
    · have hm : (Move.commit i).party? ≠ some w.1 := fun heq => hwi (Option.some.inj heq).symm
      have hkeep := h.turn w hwm
      rw [movesOf_cons_of_ne hm] at hkeep
      exact (hkeep.of_ne he hm).concat _

/-- The next call of a writer goes well. -/
theorem turn_step (h : Underway s writers t done (m :: ms)) (hs : s.Sound)
    (hw : s.Independent writers) {w : Nat × StoreDraft} (hmem : w ∈ writers)
    (hm : m.party? = some w.1) :
    (∃ done, Underway s writers (t.step m).1 done ms) ∧ (t.step m).2 = m.success := by
  have he := effect_step t m
  have hcons := movesOf_cons_of_party hm ms
  have hleft : movesOf w.1 (m :: ms) ≠ [] := by
    rw [hcons]
    exact List.cons_ne_nil _ _
  -- the writers are told apart by their numbers
  have honly : ∀ v ∈ writers, m.party? = some v.1 → v = w := fun v hv hmv =>
    List.inj_on_of_nodup_map hw.distinct hv hmem (Option.some.inj (hmv.symm.trans hm))
  have hturn := h.turn w hmem
  generalize hl : movesOf w.1 (m :: ms) = left at hturn
  rw [hcons] at hl
  cases hturn with
  | all c party =>
    obtain ⟨rfl, hrest⟩ := List.cons.inj hl
    have hvote := h.vote_eq_ok hs hw hmem hleft party
    have hstep : t.step (.vote w.1) = (t, .flag true) := by
      simp only [Traffic.step, withCohort, party, hvote]
    rw [hstep] at he ⊢
    refine ⟨⟨done, h.quiet he rfl fun v hv hmv => ?_⟩, rfl⟩
    rw [honly v hv hmv, hrest]
    exact .voted c party
  | voted c party =>
    obtain ⟨rfl, hrest⟩ := List.cons.inj hl
    obtain ⟨c', p, hprep, hp⟩ := h.exists_prepare hs hw hmem hleft party
    have hstep : t.step (.prepare w.1) = (t.setParty w.1 (.committing w.2 c'), .done) := by
      simp only [Traffic.step, withCohort, party, hprep]
    rw [hstep] at he ⊢
    refine ⟨⟨done, h.quiet he rfl fun v hv hmv => ?_⟩, rfl⟩
    rw [honly v hv hmv, hrest]
    exact .prepared c' p (if_pos rfl) hp
  | prepared c p party prepared =>
    obtain ⟨rfl, hrest⟩ := List.cons.inj hl
    obtain ⟨store, hcommit⟩ := h.exists_commit hs hw hmem hleft party prepared
    have hstep : t.step (.commit w.1) =
        ({ t.setParty w.1 (.committing w.2 c.release) with
          store, commits := t.commits ++ [⟨w.1, w.2, t.store, store⟩] }, .done) := by
      simp only [Traffic.step, withCohort, party, hcommit]
    rw [hstep]
    exact ⟨⟨_, h.commit hw hmem party hcommit hrest⟩, rfl⟩
  | committed => cases hl

/-- Any move leaves the writers under way, as long as nobody else commits. -/
theorem step (h : Underway s writers t done (m :: ms)) (hs : s.Sound) (hw : s.Independent writers)
    (alone : ∀ j, (m, (t.step m).2) = (.commit j, .done) → j ∈ writers.map (·.1)) :
    ∃ done, Underway s writers (t.step m).1 done ms := by
  by_cases hm : ∃ w ∈ writers, m.party? = some w.1
  · obtain ⟨w, hmem, hmw⟩ := hm
    exact (h.turn_step hs hw hmem hmw).1
  · refine ⟨done, h.quiet (effect_step t m) ?_ fun w hmem hmw => absurd ⟨w, hmem, hmw⟩ hm⟩
    cases hc : committed? (m, (t.step m).2) with
    | none => rfl
    | some j =>
      have hcommit := eq_of_committed? hc
      obtain ⟨w, hmem, rfl⟩ := List.mem_map.1 (alone j hcommit)
      exact absurd ⟨w, hmem, congrArg (fun x => x.1.party?) hcommit⟩ hm

/-! ## A run -/

theorem after (h : Underway s writers t done ms) (hs : s.Sound) (hw : s.Independent writers)
    (alone : ∀ j, (.commit j, .done) ∈ t.transcript ms → j ∈ writers.map (·.1)) :
    (∃ done, Underway s writers (t.after ms) done []) ∧
      ∀ w ∈ writers, answersTo w.1 (t.transcript ms) =
        (movesOf w.1 ms).map fun m => (m, m.success) := by
  induction ms generalizing t done with
  | nil => exact ⟨⟨done, h⟩, fun w _ => rfl⟩
  | cons m ms ih =>
    obtain ⟨done', h'⟩ := h.step hs hw fun j hj => alone j (hj ▸ List.mem_cons_self)
    obtain ⟨hend, hanswers⟩ := ih h' fun j hj => alone j (List.mem_cons_of_mem _ hj)
    refine ⟨hend, fun w hmem => ?_⟩
    by_cases hm : m.party? = some w.1
    · rw [movesOf_cons_of_party hm, List.map_cons, ← hanswers w hmem,
        ← (h.turn_step hs hw hmem hm).2]
      exact List.filter_cons_of_pos (decide_eq_true hm)
    · rw [movesOf_cons_of_ne hm, ← hanswers w hmem]
      exact List.filter_cons_of_neg (by simpa using hm)

/-- When no writer has a call left, the commits made are those of the writers. -/
theorem perm (h : Underway s writers t done []) (hw : s.Independent writers) :
    (done.map fun c => (c.party, c.draft)).Perm writers := by
  have hdone : (done.map fun c => (c.party, c.draft)).Nodup := by
    refine List.Nodup.of_map Prod.fst ?_
    rw [List.map_map]
    exact h.distinct
  refine (List.perm_ext_iff_of_nodup hdone (List.Nodup.of_map _ hw.distinct)).2 fun w => ?_
  constructor
  · intro hin
    obtain ⟨c, hc, rfl⟩ := List.mem_map.1 hin
    exact (h.writer c hc).1
  · intro hin
    obtain ⟨i, d⟩ := w
    cases h.turn (i, d) hin with
    | committed c mem party draft => exact List.mem_map.2 ⟨c, mem, by rw [party, draft]⟩

/-- The tree is in the end what the edit lists of the writers make of it, in any order. -/
theorem tree_eq (h : Underway s writers t done []) (hw : s.Independent writers)
    (hcan : s.Canonical) :
    (writers.map (·.2.edits)).foldlM Edit.applyAll s.store.tree = .ok t.store.tree := by
  have hperm := (h.perm hw).map (·.2.edits)
  rw [List.map_map] at hperm
  have hclear : (writers.map (·.2.edits)).Pairwise Edit.Clear := List.pairwise_map.2 hw.clear
  refine Edit.applyAll_perm hperm (hperm.symm.pairwise hclear fun hab => hab.symm) ?_ hcan.tree
    h.tree
  intro es hes e he
  obtain ⟨w, hmem, rfl⟩ := List.mem_map.1 (hperm.mem_iff.1 hes)
  obtain ⟨c, hc⟩ := hw.party w hmem
  exact hcan.edits w.1 _ hc e he

end Underway

theorem Independent.underway (hs : s.Sound) (hw : s.Independent writers)
    (hms : ∀ w ∈ writers, movesOf w.1 ms = [.vote w.1, .prepare w.1, .commit w.1]) :
    Underway s writers s [] ms where
  sound := hs
  model := rfl
  logCapacity := rfl
  commits := (List.append_nil _).symm
  tree := rfl
  distinct := List.nodup_nil
  writer := fun c hc => by cases hc
  turn := by
    intro w hmem
    obtain ⟨c, hc⟩ := hw.party w hmem
    rw [hms w hmem]
    exact .all c hc

/-- The edits of the writers can be made one after the other. -/
theorem Independent.exists_foldlM (hs : s.Sound) (hw : s.Independent writers) :
    ∃ tree, (writers.map (·.2.edits)).foldlM Edit.applyAll s.store.tree = .ok tree := by
  refine Edit.exists_foldlM_applyAll (List.pairwise_map.2 hw.clear) fun es hes => ?_
  obtain ⟨w, hmem, rfl⟩ := List.mem_map.1 hes
  obtain ⟨c, hc⟩ := hw.party w hmem
  obtain ⟨_, t, ht, hmade⟩ := (hs.parties _ _ hc).1
  rw [hw.base w hmem, hs.current] at ht
  exact ⟨w.2.working, Option.some.inj ht ▸ hmade⟩

/-- Take any reachable store, and sealed writers on its present version that the schema allows, no
more than the log has room for, with no path of one overlapping a path of another. In whatever order
they take their turns, and whatever else is done meanwhile as long as nobody else commits, every
vote is for the commit, every preparation and every commit succeeds, and the tree is in the end the
same. -/
theorem independent_commits (name : String) (kind : StoreKind) (model : Yang.Model)
    (capacity : Nat) (ms : List Move) (hms : ∀ m ∈ ms, m.Canonical)
    (writers : List (Nat × StoreDraft)) :
    let s := (start (Store.create name kind model capacity)).after ms
    s.Independent writers →
    ∃ tree, (writers.map (·.2.edits)).foldlM Edit.applyAll s.store.tree = .ok tree ∧
      ∀ ns, (∀ w ∈ writers, movesOf w.1 ns = [.vote w.1, .prepare w.1, .commit w.1]) →
        (∀ j, (.commit j, .done) ∈ s.transcript ns → j ∈ writers.map (·.1)) →
        (∀ w ∈ writers, answersTo w.1 (s.transcript ns) =
          [(.vote w.1, .flag true), (.prepare w.1, .done), (.commit w.1, .done)]) ∧
        (s.after ns).store.tree = tree := by
  intro s hw
  have hs₀ := sound_start name kind model capacity
  have hs : s.Sound := hs₀.after ms
  have hcan : s.Canonical := (canonical_start name kind model capacity).after hs₀ hms
  obtain ⟨tree, htree⟩ := hw.exists_foldlM hs
  refine ⟨tree, htree, fun ns hns alone => ?_⟩
  obtain ⟨⟨done, hend⟩, hanswers⟩ := (hw.underway hs hns).after hs hw alone
  constructor
  · intro w hmem
    rw [hanswers w hmem, hns w hmem]
    rfl
  · have hsame := hend.tree_eq hw hcan
    rw [htree] at hsame
    exact (Except.ok.inj hsame).symm

/-- Two writers below one missing container, under a log with room for just two: the second commit
finds the container there and makes its edits anew, whichever writer it is. -/
theorem independent_commits_below_missing_parent :
    let s := (start (Store.create "s" .configuration (schemaOf ["a"]) 2)).after
      [.openDraft 0, .openDraft 1, .stage 0 (.put ⟨["a", "x"]⟩ .null),
        .stage 1 (.merge ⟨["a", "y"]⟩ .null), .sealDraft 0, .sealDraft 1]
    let writers : List (Nat × StoreDraft) :=
      [(0, ⟨schemaOf ["a"], 0, .object [("a", .object [("x", .null)])],
          [.put ⟨["a", "x"]⟩ .null]⟩),
        (1, ⟨schemaOf ["a"], 0, .object [("a", .object [("y", .null)])],
          [.merge ⟨["a", "y"]⟩ .null]⟩)]
    s.Independent writers ∧
      (s.after [.vote 0, .vote 1, .prepare 0, .prepare 1, .commit 0, .commit 1]).store.tree =
        (s.after [.vote 1, .prepare 1, .vote 0, .commit 1, .prepare 0, .commit 0]).store.tree := by
  intro s writers
  have both : ∀ {P : Nat × StoreDraft → Prop},
      P writers[0] → P writers[1] → ∀ w ∈ writers, P w := by
    intro P h₀ h₁ w hw
    rcases List.mem_pair.1 hw with rfl | rfl
    · exact h₀
    · exact h₁
  have hw : s.Independent writers := {
    party := both ⟨_, rfl⟩ ⟨_, rfl⟩
    base := both rfl rfl
    valid := both rfl rfl
    distinct := by decide
    clear := List.pairwise_pair.2 (by simp [Edit.Clear, Edit.path]; decide)
    room := Nat.le_refl _ }
  -- said of `s` by name, so that no run is evaluated where two of them are compared
  obtain ⟨tree, hall⟩ : ∃ tree, ∀ ns, _ → _ → (s.after ns).store.tree = tree := by
    obtain ⟨tree, _, hall⟩ := independent_commits "s" .configuration (schemaOf ["a"]) 2 _
      (by simp [Move.Canonical, Edit.Canonical, Json.Canonical]) writers hw
    exact ⟨tree, fun ns hns alone => (hall ns hns alone).2⟩
  have alone : ∀ {ns}, (∀ j, .commit j ∈ ns → j ∈ [0, 1]) →
      ∀ j, (.commit j, .done) ∈ s.transcript ns → j ∈ writers.map (·.1) :=
    fun hns j hj => hns j (mem_of_mem_transcript hj)
  have first := hall [.vote 0, .vote 1, .prepare 0, .prepare 1, .commit 0, .commit 1]
    (both rfl rfl) (alone (by simp))
  have second := hall [.vote 1, .prepare 1, .vote 0, .commit 1, .prepare 0, .commit 0]
    (both rfl rfl) (alone (by simp))
  exact ⟨hw, first.trans second.symm⟩

end Traffic

end MountRegistry.Store
