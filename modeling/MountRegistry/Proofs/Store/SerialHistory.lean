import Mathlib.Data.List.NodupEquivFin
import MountRegistry.Proofs.Store.History

/-
  A store has a serial history: whatever the order of the calls, its tree is what the successful
  commits make of the empty object one after the other (`serial_history`), and a commit never
  follows another that touched something overlapping since the base of the former
  (`first_committer_wins`). Both are read off the links between the commits.
-/

namespace MountRegistry.Store.Traffic

variable {s t : Traffic} {ms : List Move}

/-- The tree after the first commits is what these commits make one after the other. -/
theorem Sound.replay (h : s.Sound) {n : Nat} {j : Json} (hn : s.treeAt n = some j) :
    (s.commits.take n).foldlM (fun tree c => Edit.applyAll tree c.draft.edits) Json.emptyObject =
      .ok j := by
  induction n generalizing j with
  | zero =>
    cases hn
    rfl
  | succ n ih =>
    obtain ⟨c, hc, rfl⟩ := Option.map_eq_some_iff.1 hn
    have hl := h.links n c hc
    rw [List.take_add_one, hc, Option.toList_some, Outcome.foldlM_concat_eq_ok]
    exact ⟨c.before.tree, ih hl.before_tree, hl.after_tree⟩

theorem Sound.after_version (h : s.Sound) {k : Nat} {c : Commit} (hk : s.commits[k]? = some c) :
    c.after.version = k + 1 := by
  rw [(h.links k c hk).after.version, (h.links k c hk).before_version]

/-- Between the base of a commit and the commit nothing overlapping was committed. -/
theorem Sound.clear_between (h : s.Sound) {a b : Commit} (ha : a ∈ s.commits)
    (hb : b ∈ s.commits) (hbase : b.draft.base < a.after.version)
    (hlt : a.after.version < b.after.version) {e f : Edit} (he : e ∈ a.draft.edits)
    (hf : f ∈ b.draft.edits) : e.path.overlaps f.path = false := by
  obtain ⟨j, hj⟩ := List.getElem?_of_mem ha
  obtain ⟨k, hk⟩ := List.getElem?_of_mem hb
  rw [h.after_version hj] at hbase hlt
  rw [h.after_version hk] at hlt
  rw [DataPath.overlaps_comm]
  exact (h.links k b hk).untouched j a hj (by omega) (by omega) f hf e he

theorem Sound.draft_eq (h : s.Sound) {a b : Commit} (ha : a ∈ s.commits) (hb : b ∈ s.commits)
    (hp : a.party = b.party) : a.draft = b.draft := by
  obtain ⟨j, hj⟩ := List.getElem?_of_mem ha
  obtain ⟨k, hk⟩ := List.getElem?_of_mem hb
  obtain ⟨ca, hca⟩ := (h.links j a hj).party
  obtain ⟨cb, hcb⟩ := (h.links k b hk).party
  rw [hp, hcb] at hca
  exact (Party.committing.inj (Option.some.inj hca)).1.symm

/-- A second commit of a party would overlap its first, which its base does not include. -/
theorem Sound.no_second_commit (h : s.Sound) {j k : Nat} {a b : Commit}
    (hj : s.commits[j]? = some a) (hk : s.commits[k]? = some b) (hp : a.party = b.party)
    (hne : a.draft.edits ≠ []) : ¬ j < k := by
  intro hlt
  have ha := List.mem_of_getElem? hj
  have hb := List.mem_of_getElem? hk
  have hd := h.draft_eq ha hb hp
  obtain ⟨e, he⟩ := List.exists_mem_of_ne_nil _ hne
  have hle : b.draft.base ≤ j := hd ▸ (h.links j a hj).base_le
  have hclear := h.clear_between ha hb (by rw [h.after_version hj]; omega)
    (by rw [h.after_version hj, h.after_version hk]; omega) he (hd ▸ he)
  rw [DataPath.overlaps_self] at hclear
  cases hclear

theorem Sound.count_le_one (h : s.Sound) {i : Nat} {d : StoreDraft} {c : Cohort}
    (hi : s.party? i = some (.committing d c)) (hne : d.edits ≠ []) :
    (s.commits.map (·.party)).count i ≤ 1 := by
  by_contra hcount
  have hdup : List.Duplicate i (s.commits.map (·.party)) :=
    List.duplicate_iff_two_le_count.2 (by omega)
  obtain ⟨⟨j, hj⟩, ⟨k, hk⟩, hjk, hij, hik⟩ := List.duplicate_iff_exists_distinct_get.1 hdup
  rw [List.length_map] at hj hk
  simp only [List.get_eq_getElem, List.getElem_map] at hij hik
  obtain ⟨co, hco⟩ := (h.links j _ (List.getElem?_eq_getElem hj)).party
  rw [← hij, hi] at hco
  cases hco
  exact h.no_second_commit (List.getElem?_eq_getElem hj) (List.getElem?_eq_getElem hk)
    (hij.symm.trans hik) hne hjk

/-! ## A preparation is good for one commit -/

/-- The party is sealed and has nothing prepared. -/
def Spent (s : Traffic) (i : Nat) : Prop :=
  ∃ d c, s.party? i = some (.committing d c) ∧ c.prepared = none

theorem spent_release {i : Nat} {d : StoreDraft} {c : Cohort} (store : Store)
    (commits : List Commit) :
    Spent { s.setParty i (.committing d c.release) with store, commits } i :=
  ⟨d, c.release, if_pos rfl, rfl⟩

theorem spent_step {i : Nat} {m : Move} {d : StoreDraft} {c : Cohort}
    (hm : m = .commit i ∨ m = .abort i) (hi : s.party? i = some (.committing d c)) :
    (s.step m).1.Spent i := by
  rcases hm with rfl | rfl
  · simp only [step, withCohort, hi]
    cases c.commit s.store <;> exact spent_release _ _
  · simp only [step, withCohort, hi]
    exact spent_release _ _

theorem Spent.of_setParty {i j : Nat} {p : Party} (h : s.Spent i) (hj : j ≠ i) :
    (s.setParty j p).Spent i := by
  obtain ⟨d, c, hi, hc⟩ := h
  exact ⟨d, c, by rw [setParty_party?, if_neg hj.symm, hi], hc⟩

/-- Only a new preparation brings something to commit. -/
theorem Spent.effect {i : Nat} {m : Move} {a : Answer} (h : s.Spent i) (he : Effect s m a t)
    (hm : (m, a) ≠ (.prepare i, .done)) : t.Spent i := by
  obtain ⟨d, c, hi, hc⟩ := h
  have other : ∀ {j p}, s.party? j = some (.drafting p) → j ≠ i := by
    rintro j p hj rfl
    rw [hi] at hj
    cases hj
  cases he with
  | idle => exact ⟨d, c, hi, hc⟩
  | opened j free =>
    refine Spent.of_setParty ⟨d, c, hi, hc⟩ ?_
    rintro rfl
    rw [hi] at free
    cases free
  | staged j e p p' party => exact Spent.of_setParty ⟨d, c, hi, hc⟩ (other party)
  | shut j p party => exact Spent.of_setParty ⟨d, c, hi, hc⟩ (other party)
  | prepared j =>
    refine Spent.of_setParty ⟨d, c, hi, hc⟩ ?_
    rintro rfl
    exact hm rfl
  | committed j p co store party =>
    by_cases hj : j = i
    · subst hj
      exact spent_release _ _
    · exact ⟨d, c, (if_neg (Ne.symm hj)).trans hi, hc⟩
  | failed j p co f party =>
    by_cases hj : j = i
    · subst hj
      exact spent_release _ _
    · exact Spent.of_setParty ⟨d, c, hi, hc⟩ hj
  | aborted j p co party =>
    by_cases hj : j = i
    · subst hj
      exact spent_release _ _
    · exact Spent.of_setParty ⟨d, c, hi, hc⟩ hj

theorem Spent.after {i : Nat} (h : s.Spent i) {ms : List Move}
    (hms : (Move.prepare i, Answer.done) ∉ s.transcript ms) : (s.after ms).Spent i := by
  induction ms generalizing s with
  | nil => exact h
  | cons m ms ih =>
    rw [transcript, List.mem_cons, not_or] at hms
    exact ih (h.effect (effect_step s m) (Ne.symm hms.1)) hms.2

/-- A commit with nothing prepared is refused, and leaves everything as it is. -/
theorem Spent.step_commit {i : Nat} (hs : s.Sound) (h : s.Spent i) :
    s.step (.commit i) = (s, .failed (.notPrepared s.store.name)) := by
  obtain ⟨d, c, hi, hc⟩ := h
  have hrel : c.release = c := by
    unfold Cohort.release
    rw [← hc]
  obtain ⟨_, hmem⟩ := hs.parties i _ hi
  simp only [step, withCohort, hi, Cohort.commit_of_prepared_eq_none hc, hrel,
    setParty_of_party? hi, hmem.store]

/-- After a commit or an abort, and no preparation since, a commit is refused. -/
theorem step_commit_after (hs : (s.after ms).Sound) {before between : List Move} {m : Move}
    {i : Nat} {d : StoreDraft} {c : Cohort} (hms : ms = before ++ m :: between)
    (hm : m = .commit i ∨ m = .abort i)
    (hi : (s.after before).party? i = some (.committing d c))
    (hbetween : (Move.prepare i, Answer.done) ∉ (s.after (before ++ [m])).transcript between) :
    (s.after ms).step (.commit i) =
      (s.after ms, .failed (.notPrepared (s.after ms).store.name)) := by
  have hspent : (s.after (before ++ [m])).Spent i := by
    rw [after_append]
    exact spent_step hm hi
  have hrest : s.after ms = (s.after (before ++ [m])).after between := by
    rw [← after_append, List.append_assoc, List.singleton_append, ← hms]
  rw [hrest] at hs ⊢
  exact (hspent.after hbetween).step_commit hs

/-- A run against a new store leaves it with the tree that its successful commits make of the empty
object, one after the other and each with all its edits; the version counts them. Each commit makes
its edits on the tree that it finds. A party whose commits all failed is not among them, one that
has edits is at most once, and a commit after an abort or another commit, without a new
preparation, is refused and changes nothing. -/
theorem serial_history (name : String) (kind : StoreKind) (model : Yang.Model) (capacity : Nat)
    (ms : List Move) :
    let s₀ := start (Store.create name kind model capacity)
    let s := s₀.after ms
    let succeeded := (s₀.transcript ms).filterMap committed?
    s.store.version = succeeded.length ∧
    s.commits.map (·.party) = succeeded ∧
    s.commits.foldlM (fun tree c => Edit.applyAll tree c.draft.edits) Json.emptyObject =
      .ok s.store.tree ∧
    (∀ k c, s.commits[k]? = some c →
      c.after.version = k + 1 ∧ Edit.applyAll c.before.tree c.draft.edits = .ok c.after.tree ∧
      ∃ co, s.party? c.party = some (.committing c.draft co) ∧ co.edits = c.draft.edits) ∧
    (∀ i, (Move.commit i, Answer.done) ∉ s₀.transcript ms → ∀ c ∈ s.commits, c.party ≠ i) ∧
    (∀ i d c, s.party? i = some (.committing d c) → d.edits ≠ [] → succeeded.count i ≤ 1) ∧
    (∀ before m between i d c, ms = before ++ m :: between → (m = .commit i ∨ m = .abort i) →
      (s₀.after before).party? i = some (.committing d c) →
      (Move.prepare i, Answer.done) ∉ (s₀.after (before ++ [m])).transcript between →
      s.step (.commit i) = (s, .failed (.notPrepared name))) := by
  intro s₀ s succeeded
  have h : s.Sound := (sound_start name kind model capacity).after ms
  have hparties : s.commits.map (·.party) = succeeded := commits_after s₀ ms
  have hname : s.store.name = name := (extends_after s₀ ms).name
  refine ⟨?_, hparties, ?_, ?_, ?_, ?_, ?_⟩
  · rw [h.version_eq, ← hparties, List.length_map]
  · have hall := h.replay h.current
    rwa [h.version_eq, List.take_length] at hall
  · intro k c hk
    have hl := h.links k c hk
    obtain ⟨co, hco⟩ := hl.party
    exact ⟨h.after_version hk, hl.after_tree, co, hco, (h.parties _ _ hco).2.edits⟩
  · rintro i hi c hc rfl
    have hmem : c.party ∈ succeeded := hparties ▸ List.mem_map_of_mem hc
    exact hi (mem_of_mem_filterMap_committed? hmem)
  · intro i d c hi hne
    rw [← hparties]
    exact h.count_le_one hi hne
  · intro before m between i d c hms hm hi hbetween
    rw [← hname]
    exact step_commit_after h hms hm hi hbetween

/-! ## Bases -/

/-- A party keeps the base that it has. -/
theorem Effect.base {m : Move} {a : Answer} (h : Effect s m a t) {i : Nat} {p : Party}
    (hi : s.party? i = some p) : ∃ q, t.party? i = some q ∧ q.base = p.base := by
  have keep : ∀ {j q}, (∀ p, s.party? j = some p → q.base = p.base) →
      ∃ r, (s.setParty j q).party? i = some r ∧ r.base = p.base := by
    intro j q hq
    by_cases hj : i = j
    · subst hj
      exact ⟨q, if_pos rfl, hq p hi⟩
    · exact ⟨p, (if_neg hj).trans hi, rfl⟩
  cases h with
  | idle => exact ⟨p, hi, rfl⟩
  | opened j free => exact keep fun q hq => by rw [free] at hq; cases hq
  | staged j e d d' party stage =>
    obtain ⟨working, _, rfl⟩ := StoreDraft.stage_eq_ok stage
    exact keep fun q hq => by rw [party] at hq; cases hq; rfl
  | shut j d party => exact keep fun q hq => by rw [party] at hq; cases hq; rfl
  | prepared j d c c' party => exact keep fun q hq => by rw [party] at hq; cases hq; rfl
  | committed j d c store party => exact keep fun q hq => by rw [party] at hq; cases hq; rfl
  | failed j d c e party => exact keep fun q hq => by rw [party] at hq; cases hq; rfl
  | aborted j d c party => exact keep fun q hq => by rw [party] at hq; cases hq; rfl

theorem base_after {i : Nat} {p : Party} (hi : s.party? i = some p) (ms : List Move) :
    ∃ q, (s.after ms).party? i = some q ∧ q.base = p.base := by
  induction ms generalizing s p with
  | nil => exact ⟨p, hi, rfl⟩
  | cons m ms ih =>
    obtain ⟨q, hq, hqp⟩ := (effect_step s m).base hi
    obtain ⟨r, hr, hrq⟩ := ih hq
    exact ⟨r, hr, hrq.trans hqp⟩

/-- The party has begun, and has not committed yet. -/
def Open (s : Traffic) (i : Nat) : Prop :=
  (s.party? i).isSome ∧ ∀ c ∈ s.commits, c.party ≠ i

/-- What is open at a moment has its base there or before, and commits after it. -/
theorem Sound.around_open (h : s.Sound) {i : Nat} (hi : s.Open i) (ms : List Move) {c : Commit}
    (hc : c ∈ (s.after ms).commits) (hp : c.party = i) :
    c.draft.base ≤ s.store.version ∧ s.store.version < c.after.version := by
  have ht := h.after ms
  have hext := extends_after s ms
  obtain ⟨k, hk⟩ := List.getElem?_of_mem hc
  constructor
  · obtain ⟨p, hpi⟩ := Option.isSome_iff_exists.1 hi.1
    obtain ⟨q, hq, hqp⟩ := base_after hpi ms
    obtain ⟨co, hco⟩ := (ht.links k c hk).party
    rw [hp, hq] at hco
    cases hco
    have hfit := h.parties i p hpi
    rw [show c.draft.base = p.base from hqp]
    cases p with
    | drafting d => exact hfit.base_le
    | committing d co => exact hfit.1.base_le
  · rw [h.version_eq, ht.after_version hk]
    by_contra hlt
    have hkl : k < s.commits.length := by omega
    rw [hext.commits_eq hkl] at hk
    exact hi.2 c (List.mem_of_getElem? hk) hp

/-- A commit is the first of all that overlap it since its base. So of two parties that are open at
one moment, and whose edits overlap, one commits at most, however often and in whatever order they
prepare and commit, and however short the log is. -/
theorem first_committer_wins (name : String) (kind : StoreKind) (model : Yang.Model)
    (capacity : Nat) (ms : List Move) :
    let s₀ := start (Store.create name kind model capacity)
    let s := s₀.after ms
    (∀ c ∈ s.commits, ∃ co, s.party? c.party = some (.committing c.draft co) ∧
      co.base = c.draft.base ∧ co.edits = c.draft.edits) ∧
    (∀ a ∈ s.commits, ∀ b ∈ s.commits, b.draft.base < a.after.version →
      a.after.version < b.after.version →
      ∀ e ∈ a.draft.edits, ∀ f ∈ b.draft.edits, e.path.overlaps f.path = false) ∧
    (∀ before rest i j, ms = before ++ rest → i ≠ j → (s₀.after before).Open i →
      (s₀.after before).Open j → ∀ a ∈ s.commits, ∀ b ∈ s.commits, a.party = i → b.party = j →
      ∀ e ∈ a.draft.edits, ∀ f ∈ b.draft.edits, e.path.overlaps f.path = false) := by
  intro s₀ s
  have h₀ : s₀.Sound := sound_start name kind model capacity
  have h : s.Sound := h₀.after ms
  refine ⟨?_, ?_, ?_⟩
  · intro c hc
    obtain ⟨k, hk⟩ := List.getElem?_of_mem hc
    obtain ⟨co, hco⟩ := (h.links k c hk).party
    have hmem := (h.parties _ _ hco).2
    exact ⟨co, hco, hmem.base, hmem.edits⟩
  · intro a ha b hb hbase hlt e he f hf
    exact h.clear_between ha hb hbase hlt he hf
  · rintro before rest i j rfl hij hi hj a ha b hb hai hbj e he f hf
    have ht := h₀.after before
    have hs : s = (s₀.after before).after rest := after_append s₀ before rest
    obtain ⟨habase, haver⟩ := ht.around_open hi rest (hs ▸ ha) hai
    obtain ⟨hbbase, hbver⟩ := ht.around_open hj rest (hs ▸ hb) hbj
    rcases Nat.lt_trichotomy a.after.version b.after.version with hlt | heq | hgt
    · exact h.clear_between ha hb (by omega) hlt he hf
    · -- one version is one commit, and one commit has one party
      obtain ⟨k, hk⟩ := List.getElem?_of_mem ha
      obtain ⟨l, hl⟩ := List.getElem?_of_mem hb
      rw [h.after_version hk, h.after_version hl] at heq
      have hkl : k = l := by omega
      subst hkl
      rw [hk] at hl
      cases hl
      exact absurd (hai.symm.trans hbj) hij
    · rw [DataPath.overlaps_comm]
      exact h.clear_between hb ha (by omega) hgt hf he

/-- The log has room for one commit, which is not the one that overlaps. -/
example :
    let s := (start (Store.create "s" .configuration (schemaOf ["a", "b"]) 1)).after
      [.openDraft 0, .openDraft 1, .openDraft 2, .stage 0 (.put ⟨["a"]⟩ .null),
        .stage 1 (.put ⟨["a"]⟩ .null), .stage 2 (.put ⟨["b"]⟩ .null), .sealDraft 0, .sealDraft 1,
        .sealDraft 2, .prepare 0, .prepare 1, .prepare 2, .commit 0, .commit 2]
    (s.step (.commit 1)).2 = .failed (.conflict "/a") := rfl

end MountRegistry.Store.Traffic
