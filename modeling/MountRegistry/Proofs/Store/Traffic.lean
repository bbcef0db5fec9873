import MountRegistry.Proofs.Keyed
import MountRegistry.Store.Session

/-
  All that can happen to one store. Any number of parties, known by numbers, each open a draft,
  stage edits in it and seal it; the cohorts that come of it vote, prepare, commit and abort in
  whatever order and as often as they like, while subscribers come and go. A run is a list of
  moves. The store itself forgets its past but for the log; the traffic keeps every commit that was
  made, with the store just before and just after it.
-/

namespace MountRegistry.Store

/-- A transaction of a store. -/
inductive Party where
  | drafting (d : StoreDraft)
  /-- The draft as it was sealed, and the cohort that came of it. -/
  | committing (d : StoreDraft) (c : Cohort)

/-- A commit that was made. -/
structure Commit where
  party : Nat
  /-- The draft of the party as it was sealed. -/
  draft : StoreDraft
  before : Store
  after : Store

/-- A store, the parties that write to it, and all commits that were made. -/
structure Traffic where
  store : Store
  party? : Nat → Option Party
  /-- Every commit, oldest first. -/
  commits : List Commit

/-- What a party does, or somebody who listens or reads. -/
inductive Move where
  | openDraft (i : Nat)
  | stage (i : Nat) (edit : Edit)
  | sealDraft (i : Nat)
  | vote (i : Nat)
  | prepare (i : Nat)
  | commit (i : Nat)
  | abort (i : Nat)
  | subscribe
  | collect (receiver : Nat)
  | unsubscribe (receiver : Nat)
  deriving Repr

/-- The party that makes a move. -/
def Move.party? : Move → Option Nat
  | .openDraft i | .stage i _ | .sealDraft i | .vote i | .prepare i | .commit i | .abort i => some i
  | .subscribe | .collect _ | .unsubscribe _ => none

/-- What the base of a draft is stays its base when it is sealed. -/
def Party.base : Party → Nat
  | .drafting d => d.base
  | .committing d _ => d.base

namespace Traffic

/-- A store on which nothing is open. -/
def start (s : Store) : Traffic := ⟨s, fun _ => none, []⟩

/-- The party of this number has come so far. -/
def setParty (s : Traffic) (i : Nat) (p : Party) : Traffic :=
  { s with party? := fun j => if j = i then some p else s.party? j }

/-- Does something with the cohort of a party that has sealed its draft. -/
def withCohort (s : Traffic) (i : Nat) (f : StoreDraft → Cohort → Traffic × Answer) :
    Traffic × Answer :=
  match s.party? i with
  | some (.committing d c) => f d c
  | _ => (s, .unknown)

/-- Does something with the draft of a party that has not. -/
def withDraft (s : Traffic) (i : Nat) (f : StoreDraft → Traffic × Answer) : Traffic × Answer :=
  match s.party? i with
  | some (.drafting d) => f d
  | _ => (s, .unknown)

/-- A move and its answer, which is `unknown` where the party is not that far. -/
def step (s : Traffic) : Move → Traffic × Answer
  | .openDraft i =>
    match s.party? i with
    | none => (s.setParty i (.drafting s.store.openDraft), .done)
    | some _ => (s, .unknown)
  | .stage i e => s.withDraft i fun d =>
    match d.stage e with
    | .ok d => (s.setParty i (.drafting d), .done)
    | .error e => (s, .failed e)
  | .sealDraft i => s.withDraft i fun d =>
    (s.setParty i (.committing d (d.toCohort s.store.name)), .edits d.edits)
  | .vote i => s.withCohort i fun _ c =>
    match c.vote s.store with
    | .ok b => (s, .flag b)
    | .error e => (s, .failed e)
  | .prepare i => s.withCohort i fun d c =>
    match c.prepare s.store with
    | .ok c => (s.setParty i (.committing d c), .done)
    | .error e => (s, .failed e)
  | .commit i => s.withCohort i fun d c =>
    let released := s.setParty i (.committing d c.release)
    match c.commit s.store with
    | .ok store =>
      ({ released with store, commits := s.commits ++ [⟨i, d, s.store, store⟩] }, .done)
    | .error e => (released, .failed e)
  | .abort i => s.withCohort i fun d c => (s.setParty i (.committing d c.release), .done)
  | .subscribe =>
    let (store, receiver) := s.store.subscribe
    ({ s with store }, .number receiver)
  | .collect receiver =>
    let (mailbox, store) := s.store.collect receiver
    ({ s with store }, .changes mailbox)
  | .unsubscribe receiver => ({ s with store := s.store.unsubscribe receiver }, .done)

/-- A schema of one module with these data nodes. -/
def schemaOf (nodes : List String) : Yang.Model :=
  Yang.Model.ofModules [{
    name := "m", namespaceUri := "urn:m", shortName := "m", revision := none, imports := []
    dataNodes := nodes }]

/-- The state after a run. -/
def after (s : Traffic) : List Move → Traffic
  | [] => s
  | m :: ms => (s.step m).1.after ms

/-- The moves of a run, each with the answer to it. -/
def transcript (s : Traffic) : List Move → List (Move × Answer)
  | [] => []
  | m :: ms => (m, (s.step m).2) :: (s.step m).1.transcript ms

theorem after_append (s : Traffic) (ms ns : List Move) :
    s.after (ms ++ ns) = (s.after ms).after ns := by
  induction ms generalizing s with
  | nil => rfl
  | cons m ms ih => exact ih (s.step m).1

@[simp] theorem setParty_store (s : Traffic) (i : Nat) (p : Party) :
    (s.setParty i p).store = s.store := rfl

@[simp] theorem setParty_commits (s : Traffic) (i : Nat) (p : Party) :
    (s.setParty i p).commits = s.commits := rfl

theorem setParty_party? (s : Traffic) (i j : Nat) (p : Party) :
    (s.setParty i p).party? j = if j = i then some p else s.party? j := rfl

/-- Setting a party to what it is changes nothing. -/
theorem setParty_of_party? {s : Traffic} {i : Nat} {p : Party} (h : s.party? i = some p) :
    s.setParty i p = s := by
  unfold setParty
  rw [Keyed.set_eq_self h]

/-! ## What a move can do -/

/-- The party whose commit succeeded, if the move was one. -/
def committed? : Move × Answer → Option Nat
  | (.commit i, .done) => some i
  | _ => none

theorem eq_of_committed? {x : Move × Answer} {i : Nat} (h : committed? x = some i) :
    x = (.commit i, .done) := by
  unfold committed? at h
  split at h
  · cases h
    rfl
  · cases h

theorem mem_of_mem_filterMap_committed? {l : List (Move × Answer)} {i : Nat}
    (h : i ∈ l.filterMap committed?) : (Move.commit i, Answer.done) ∈ l := by
  obtain ⟨x, hx, hcom⟩ := List.mem_filterMap.1 h
  exact eq_of_committed? hcom ▸ hx

/-- The effects of a move and the answers to it, with what had to hold for them. -/
inductive Effect (s : Traffic) : Move → Answer → Traffic → Prop where
  /-- Nothing, or something that only the subscribers of the store see. -/
  | idle (m : Move) (a : Answer) (changes : Broadcast Change) (none : committed? (m, a) = none) :
    Effect s m a { s with store := { s.store with changes } }
  | opened (i : Nat) (free : s.party? i = none) :
    Effect s (.openDraft i) .done (s.setParty i (.drafting s.store.openDraft))
  | staged (i : Nat) (e : Edit) (d d' : StoreDraft) (party : s.party? i = some (.drafting d))
    (stage : d.stage e = .ok d') : Effect s (.stage i e) .done (s.setParty i (.drafting d'))
  | shut (i : Nat) (d : StoreDraft) (party : s.party? i = some (.drafting d)) :
    Effect s (.sealDraft i) (.edits d.edits)
      (s.setParty i (.committing d (d.toCohort s.store.name)))
  | prepared (i : Nat) (d : StoreDraft) (c c' : Cohort)
    (party : s.party? i = some (.committing d c)) (prepare : c.prepare s.store = .ok c') :
    Effect s (.prepare i) .done (s.setParty i (.committing d c'))
  | committed (i : Nat) (d : StoreDraft) (c : Cohort) (store : Store)
    (party : s.party? i = some (.committing d c)) (commit : c.commit s.store = .ok store) :
    Effect s (.commit i) .done
      { s.setParty i (.committing d c.release) with
        store, commits := s.commits ++ [⟨i, d, s.store, store⟩] }
  | failed (i : Nat) (d : StoreDraft) (c : Cohort) (e : StoreFailure)
    (party : s.party? i = some (.committing d c)) (commit : c.commit s.store = .error e) :
    Effect s (.commit i) (.failed e) (s.setParty i (.committing d c.release))
  | aborted (i : Nat) (d : StoreDraft) (c : Cohort) (party : s.party? i = some (.committing d c)) :
    Effect s (.abort i) .done (s.setParty i (.committing d c.release))

theorem effect_refl (s : Traffic) {m : Move} {a : Answer} (h : committed? (m, a) = none) :
    Effect s m a s :=
  .idle m a s.store.changes h

theorem effect_step (s : Traffic) (m : Move) : Effect s m (s.step m).2 (s.step m).1 := by
  cases m with
  | openDraft i =>
    simp only [step]
    cases h : s.party? i with
    | none => exact .opened i h
    | some p => exact effect_refl s rfl
  | stage i e =>
    simp only [step, withDraft]
    split
    · rename_i d h
      cases hd : d.stage e with
      | ok d' => exact .staged i e d d' h hd
      | error f => exact effect_refl s rfl
    · exact effect_refl s rfl
  | sealDraft i =>
    simp only [step, withDraft]
    split
    · rename_i d h
      exact .shut i d h
    · exact effect_refl s rfl
  | vote i =>
    simp only [step, withCohort]
    split
    · rename_i d c h
      cases c.vote s.store <;> exact effect_refl s rfl
    · exact effect_refl s rfl
  | prepare i =>
    simp only [step, withCohort]
    split
    · rename_i d c h
      cases hc : c.prepare s.store with
      | ok c' => exact .prepared i d c c' h hc
      | error f => exact effect_refl s rfl
    · exact effect_refl s rfl
  | commit i =>
    simp only [step, withCohort]
    split
    · rename_i d c h
      cases hc : c.commit s.store with
      | ok store => exact .committed i d c store h hc
      | error f => exact .failed i d c f h hc
    · exact effect_refl s rfl
  | abort i =>
    simp only [step, withCohort]
    split
    · rename_i d c h
      exact .aborted i d c h
    · exact effect_refl s rfl
  | subscribe => exact .idle _ _ _ rfl
  | collect receiver => exact .idle _ _ _ rfl
  | unsubscribe receiver => exact .idle _ _ _ rfl

theorem Effect.commits {s t : Traffic} {m : Move} {a : Answer} (h : Effect s m a t) :
    t.commits.map (·.party) = s.commits.map (·.party) ++ (committed? (m, a)).toList := by
  cases h with
  | idle _ _ _ none =>
    rw [none]
    exact (List.append_nil _).symm
  | committed => exact List.map_append
  | _ => exact (List.append_nil _).symm

/-- The commits of a run are those whose calls succeeded, in the order of the calls. -/
theorem commits_after (s : Traffic) (ms : List Move) :
    (s.after ms).commits.map (·.party) =
      s.commits.map (·.party) ++ (s.transcript ms).filterMap committed? := by
  induction ms generalizing s with
  | nil => exact (List.append_nil _).symm
  | cons m ms ih =>
    rw [after, ih, (effect_step s m).commits, List.append_assoc]
    simp only [transcript, List.filterMap_cons]
    cases committed? (m, (s.step m).2) <;> rfl

end Traffic

end MountRegistry.Store
