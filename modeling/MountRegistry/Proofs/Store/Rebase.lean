import Mathlib.Data.Nat.Init
import MountRegistry.Proofs.Store.History

/-
  A transaction stages its edits on the tree of its base, and its commit makes them on the tree of
  a later version. The two trees show the same at the paths of the edits, since no commit in between
  touched anything overlapping; so does what the edits make of them (`commit_shows_sealed_copy`).
  What the commit leaves alone is everything that overlaps none of the paths it announces.
-/

namespace MountRegistry.Store.Traffic

variable {s t : Traffic}

/-- A path shows the same at two versions if no commit between them touched anything overlapping. -/
theorem Sound.readAt_of_untouched (h : s.Sound) {edits : List Edit} {a b : Nat} {j k : Json}
    (hab : a ≤ b) (ha : s.treeAt a = some j) (hb : s.treeAt b = some k)
    (hu : s.Untouched edits a b) {e : Edit} (he : e ∈ edits) :
    k.readAt e.path = j.readAt e.path := by
  induction b, hab using Nat.le_induction generalizing k with
  | base =>
    rw [ha] at hb
    rw [Option.some.inj hb]
  | succ b hab ih =>
    obtain ⟨c, hc, rfl⟩ := Option.map_eq_some_iff.1 hb
    have hl := h.links b c hc
    have hbefore := ih hl.before_tree fun l co hl hal hlb => hu l co hl hal (Nat.lt_succ_of_lt hlb)
    rw [← hbefore]
    exact Edit.readAt_applyAll_of_clear hl.after_tree fun f hf =>
      hu b c hc hab (Nat.lt_succ_self b) e he f hf

/-- What the writer saw is what the commit shows. -/
theorem Sound.readAt_commit (h : s.Sound) {d : StoreDraft} {c : Cohort} {s' : Store}
    (hd : s.Opened d) (hc : s.Member d c) (hs : c.commit s.store = .ok s') {e : Edit}
    (he : e ∈ d.edits) : s'.tree.readAt e.path = d.working.readAt e.path := by
  obtain ⟨hle, j, hj, hw⟩ := hd
  obtain ⟨hmade, hu, _⟩ := h.commit_makes hc hs
  have hagree : ∀ f ∈ d.edits, s.store.tree.readAt f.path = j.readAt f.path := fun f hf =>
    h.readAt_of_untouched hle hj h.current hu hf
  exact Edit.readAt_applyAll_congr hmade hw hagree (hagree e he)

/-! ## The moment of sealing -/

theorem Effect.committing {m : Move} {a : Answer} (h : Effect s m a t) {i : Nat}
    {d : StoreDraft} {c : Cohort} (hi : t.party? i = some (.committing d c)) :
    (∃ c', s.party? i = some (.committing d c')) ∨
      (m = .sealDraft i ∧ s.party? i = some (.drafting d)) := by
  have here : ∀ {j p}, (s.setParty j p).party? i = some (.committing d c) →
      s.party? i = some (.committing d c) ∨ (i = j ∧ p = .committing d c) := by
    intro j p hp
    rw [setParty_party?] at hp
    split at hp
    · rename_i hj
      exact .inr ⟨hj, Option.some.inj hp⟩
    · exact .inl hp
  have stay : ∀ {j d' c' c''}, s.party? j = some (.committing d' c') →
      (s.setParty j (.committing d' c'')).party? i = some (.committing d c) →
      ∃ c', s.party? i = some (.committing d c') := by
    intro j d' c' c'' hj hp
    rcases here hp with hsame | ⟨rfl, heq⟩
    · exact ⟨c, hsame⟩
    · cases heq
      exact ⟨c', hj⟩
  cases h with
  | idle => exact .inl ⟨c, hi⟩
  | opened j free =>
    rcases here hi with hsame | ⟨_, heq⟩
    · exact .inl ⟨c, hsame⟩
    · cases heq
  | staged j e d' d'' party =>
    rcases here hi with hsame | ⟨_, heq⟩
    · exact .inl ⟨c, hsame⟩
    · cases heq
  | shut j d' party =>
    rcases here hi with hsame | ⟨rfl, heq⟩
    · exact .inl ⟨c, hsame⟩
    · cases heq
      exact .inr ⟨rfl, party⟩
  | prepared j d' c' c'' party => exact .inl (stay party hi)
  | committed j d' c' store party => exact .inl (stay party hi)
  | failed j d' c' e party => exact .inl (stay party hi)
  | aborted j d' c' party => exact .inl (stay party hi)

/-- A sealed draft is the draft that the party had when it sealed it. -/
theorem sealed_after {ms : List Move} {i : Nat} {d : StoreDraft} {c : Cohort}
    (hi : (s.after ms).party? i = some (.committing d c)) :
    (∃ c', s.party? i = some (.committing d c')) ∨
      ∃ before rest, ms = before ++ .sealDraft i :: rest ∧
        (s.after before).party? i = some (.drafting d) := by
  induction ms generalizing s with
  | nil => exact .inl ⟨c, hi⟩
  | cons m ms ih =>
    rcases ih hi with ⟨c', hc'⟩ | ⟨before, rest, rfl, hd⟩
    · rcases (effect_step s m).committing hc' with h | ⟨rfl, hd⟩
      · exact .inl h
      · exact .inr ⟨[], ms, rfl, hd⟩
    · exact .inr ⟨m :: before, rest, rfl, hd⟩

theorem step_commit_done {i : Nat} (h : s.step (.commit i) = (t, .done)) :
    ∃ d c, s.party? i = some (.committing d c) ∧ c.commit s.store = .ok t.store := by
  have he := effect_step s (.commit i)
  rw [h] at he
  generalize hm : Move.commit i = m, ha : Answer.done = a at he
  cases he with
  | idle m a changes none => subst hm ha; cases none
  | committed j d c store party commit => cases hm; exact ⟨d, c, party, commit⟩
  | failed => cases ha
  | _ => cases hm

/-- At every commit that succeeds, in whatever run, the paths of its edits show afterwards what they
showed in the copy of the transaction when it was sealed, and every path that overlaps none of the
announced paths, which are the paths of the edits, shows what it showed just before. -/
theorem commit_shows_sealed_copy (name : String) (kind : StoreKind) (model : Yang.Model)
    (capacity : Nat) (ms : List Move) (i : Nat) (t : Traffic)
    (h : ((start (Store.create name kind model capacity)).after ms).step (.commit i) =
      (t, .done)) :
    let s₀ := start (Store.create name kind model capacity)
    let s := s₀.after ms
    ∃ d c change before rest,
      s.party? i = some (.committing d c) ∧ c.edits = d.edits ∧
      ms = before ++ .sealDraft i :: rest ∧ (s₀.after before).party? i = some (.drafting d) ∧
      (∀ e ∈ d.edits, t.store.tree.readAt e.path = d.working.readAt e.path) ∧
      t.store.changes = s.store.changes.send change ∧ change.version = t.store.version ∧
      (∀ p, p ∈ change.paths ↔ ∃ e ∈ d.edits, e.path = p) ∧
      (∀ q, (∀ p ∈ change.paths, q.overlaps p = false) →
        t.store.tree.readAt q = s.store.tree.readAt q) := by
  intro s₀ s
  have hs : s.Sound := (sound_start name kind model capacity).after ms
  obtain ⟨d, c, hi, hcommit⟩ := step_commit_done h
  obtain ⟨hd, hc⟩ := hs.parties i _ hi
  obtain ⟨hmade, _, hto⟩ := hs.commit_makes hc hcommit
  rcases sealed_after hi with ⟨c', hc'⟩ | ⟨before, rest, hms, hdraft⟩
  · cases hc'
  · refine ⟨d, c, s.store.nextChange d.edits, before, rest, hi, hc.edits, hms, hdraft, ?_,
      hto.changes, hto.version.symm, fun p => mem_touchedPaths, ?_⟩
    · intro e he
      exact hs.readAt_commit hd hc hcommit he
    · intro q hq
      exact Edit.readAt_applyAll_of_clear hmade fun e he =>
        hq e.path (mem_touchedPaths.2 ⟨e, he, rfl⟩)

/-- The commit of the second party finds the tree of the first, and makes its edits anew. -/
theorem commit_shows_sealed_copy_after_other :
    let s := (start (Store.create "s" .configuration (schemaOf ["a", "b"]) 1)).after
      [.openDraft 0, .openDraft 1, .stage 0 (.put ⟨["a"]⟩ .null), .stage 1 (.put ⟨["b"]⟩ .null),
        .sealDraft 0, .sealDraft 1, .prepare 0, .prepare 1, .commit 0]
    let t := (s.step (.commit 1)).1
    s.step (.commit 1) = (t, .done) ∧ s.store.version = 1 ∧ t.store.version = 2 ∧
    ∃ d c, s.party? 1 = some (.committing d c) ∧ d.base = 0 ∧
      ∀ e ∈ d.edits, t.store.tree.readAt e.path = d.working.readAt e.path := by
  intro s t
  have hstep : s.step (.commit 1) = (t, .done) := rfl
  obtain ⟨d, c, _, _, _, hi, _, _, _, hshow, _⟩ :=
    commit_shows_sealed_copy "s" .configuration (schemaOf ["a", "b"]) 1 _ 1 t hstep
  refine ⟨hstep, rfl, rfl, d, c, hi, ?_, hshow⟩
  cases hi
  rfl

end MountRegistry.Store.Traffic
