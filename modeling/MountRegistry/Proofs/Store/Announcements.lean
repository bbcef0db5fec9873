import Mathlib.Data.List.Nodup
import MountRegistry.Proofs.Broadcast
import MountRegistry.Proofs.Store.Commit
import MountRegistry.Proofs.Store.Traffic

/-
  Commits on one store when a commit and its announcement are two steps. The commit itself takes the
  store for itself, and gives the change its version; the change is sent after the store was given
  free, so that any other commit, and its announcement, may come in between. Every commit is
  announced once (`Sound.sent`), and whoever subscribes hears what is announced from then on, in the
  order of the announcements (`Hears`). That is the order of the versions except for commits that
  overlap: a later version is heard first only if it was made while the earlier one waited to be
  announced (`Sound.inTurn`), and then it can be (`announced_out_of_order`).
-/

namespace MountRegistry.Store

/-- What subscribers are to hear of a commit. -/
def Commit.change (c : Commit) : Change :=
  ⟨c.after.name, c.after.kind, c.after.version, touchedPaths c.draft.edits⟩

/-- The traffic on a store with the commits that are not announced yet. -/
structure Announcing where
  traffic : Traffic
  /-- The changes that wait to be announced, each with the party that made it. -/
  waiting : List (Nat × Change) := []
  /-- What was announced, oldest first. -/
  announced : List Change := []
  /-- What each receiver has collected so far. -/
  collected : Nat → Mailbox Change := fun _ => {}
  /-- The pairs of changes of which the first waited when the commit of the second was made. -/
  overlaps : List (Change × Change) := []

namespace Announcing

/-- What happens on the store, a commit in two moves. -/
inductive Move where
  /-- A commit is made only; everything else is as it is in the traffic. -/
  | act (m : Store.Move)
  | announce (i : Nat)

/-- Nothing was committed and nobody listens. -/
def start (s : Store) : Announcing := { traffic := Traffic.start s }

/-- The party has made a commit and not announced it yet. -/
def isBusy (s : Announcing) (i : Nat) : Bool := s.waiting.any (·.1 == i)

/-- The changes that were made and not announced. -/
def unannounced (s : Announcing) : List Change := s.waiting.map (·.2)

/-- The first step of a commit: what was prepared is installed, and its change waits. -/
def install (s : Announcing) (i : Nat) : Announcing :=
  match s.traffic.party? i with
  | some (.committing d c) =>
    let released := s.traffic.setParty i (.committing d c.release)
    match c.install s.traffic.store with
    | .ok (store, change) =>
      { s with
        traffic := { released with
          store, commits := s.traffic.commits ++ [⟨i, d, s.traffic.store, store⟩] }
        waiting := s.waiting ++ [(i, change)]
        overlaps := s.overlaps ++ s.unannounced.map (·, change) }
    | .error _ => { s with traffic := released }
  | _ => s

/-- The second step: the change goes to the subscribers, and the commit returns. -/
def announce (s : Announcing) (i : Nat) : Announcing :=
  match s.waiting.find? (·.1 == i) with
  | some w =>
    { s with
      traffic := { s.traffic with store := s.traffic.store.announce w.2 }
      waiting := s.waiting.erase w
      announced := s.announced ++ [w.2] }
  | none => s

/-- A receiver takes what waits for it, and has it with what it took before. -/
def collect (s : Announcing) (receiver : Nat) : Announcing :=
  let (mailbox, store) := s.traffic.store.collect receiver
  let old := s.collected receiver
  { s with
    traffic := { s.traffic with store }
    collected := fun r =>
      if r = receiver then ⟨old.missed + mailbox.missed, old.pending ++ mailbox.pending⟩
      else s.collected r }

/-- A party that has a commit to announce does nothing else before. -/
def step (s : Announcing) : Move → Announcing
  | .announce i => s.announce i
  | .act m =>
    if m.party?.any s.isBusy then s
    else match m with
      | .commit i => s.install i
      | .collect receiver => s.collect receiver
      | m => { s with traffic := (s.traffic.step m).1 }

/-- The moves one after the other. -/
def after (s : Announcing) : List Move → Announcing
  | [] => s
  | m :: ms => (s.step m).after ms

/-- The mailbox of a receiver. -/
def mailbox? (s : Announcing) (receiver : Nat) : Option (Mailbox Change) :=
  s.traffic.store.changes.mailbox? receiver

/-- All that came to a receiver, collected or not. -/
def received (s : Announcing) (receiver : Nat) : List Change :=
  (s.collected receiver).pending ++ ((s.mailbox? receiver).getD {}).pending

/-- How many changes a receiver has lost. -/
def missed (s : Announcing) (receiver : Nat) : Nat :=
  (s.collected receiver).missed + ((s.mailbox? receiver).getD {}).missed

/-! ## What a step can do -/

/-- Receivers come and go, and nothing is sent. -/
inductive Retuned (b : Broadcast Change) : Broadcast Change → Prop where
  | same : Retuned b b
  | joined : Retuned b b.subscribe.1
  | left (receiver : Nat) : Retuned b (b.unsubscribe receiver)

/-- A cohort has the edits of the draft that it came of. -/
def Aligned (t : Traffic) : Prop :=
  ∀ i d c, t.party? i = some (.committing d c) → c.edits = d.edits

/-- What a move can do to what was made, announced and collected. -/
inductive Effect (s : Announcing) : Announcing → Prop where
  /-- The store gets no new version, and nothing is announced or collected. -/
  | quiet (t : Traffic) (b : Broadcast Change) (retuned : Retuned s.traffic.store.changes b)
    (store : t.store = { s.traffic.store with changes := b })
    (commits : t.commits = s.traffic.commits) (aligned : Aligned s.traffic → Aligned t) :
    Effect s { s with traffic := t }
  | made (i : Nat) (d : StoreDraft) (c : Cohort) (store : Store) (change : Change)
    (party : s.traffic.party? i = some (.committing d c))
    (installed : c.install s.traffic.store = .ok (store, change)) :
    Effect s { s with
      traffic := { s.traffic.setParty i (.committing d c.release) with
        store, commits := s.traffic.commits ++ [⟨i, d, s.traffic.store, store⟩] }
      waiting := s.waiting ++ [(i, change)]
      overlaps := s.overlaps ++ s.unannounced.map (·, change) }
  | announced (w : Nat × Change) (waits : w ∈ s.waiting) :
    Effect s { s with
      traffic := { s.traffic with store := s.traffic.store.announce w.2 }
      waiting := s.waiting.erase w
      announced := s.announced ++ [w.2] }
  | collected (receiver : Nat) : Effect s (s.collect receiver)

theorem aligned_setParty {t : Traffic} (h : Aligned t) {i : Nat} {p : Party}
    (hp : ∀ d c, p = .committing d c → c.edits = d.edits) : Aligned (t.setParty i p) := by
  intro j d c hj
  rw [Traffic.setParty_party?] at hj
  split at hj
  · exact hp d c (Option.some.inj hj)
  · exact h j d c hj

theorem aligned_step {t : Traffic} (h : Aligned t) (m : Store.Move) : Aligned (t.step m).1 := by
  have he := Traffic.effect_step t m
  generalize (t.step m).1 = t', (t.step m).2 = a at he
  cases he with
  | idle => exact h
  | opened i free => exact aligned_setParty h fun d c heq => by cases heq
  | staged i e d d' party stage => exact aligned_setParty h fun d c heq => by cases heq
  | shut i d party => exact aligned_setParty h fun d' c heq => by cases heq; rfl
  | prepared i d c c' party prepare =>
    obtain ⟨p, _, rfl⟩ := Cohort.prepare_eq_ok prepare
    exact aligned_setParty h fun d' c' heq => by cases heq; exact h i d c party
  | committed i d c store party commit =>
    exact aligned_setParty h fun d' c' heq => by cases heq; exact h i d c party
  | failed i d c e party commit =>
    exact aligned_setParty h fun d' c' heq => by cases heq; exact h i d c party
  | aborted i d c party =>
    exact aligned_setParty h fun d' c' heq => by cases heq; exact h i d c party

/-- A party that does not commit leaves the store alone. -/
theorem store_step (t : Traffic) {m : Store.Move} (hparty : m.party? ≠ none)
    (hm : ∀ i, m ≠ .commit i) :
    (t.step m).1.store = t.store ∧ (t.step m).1.commits = t.commits := by
  cases m with
  | openDraft i =>
    simp only [Traffic.step]
    split <;> exact ⟨rfl, rfl⟩
  | stage i e =>
    simp only [Traffic.step, Traffic.withDraft]
    split
    · split <;> exact ⟨rfl, rfl⟩
    · exact ⟨rfl, rfl⟩
  | sealDraft i =>
    simp only [Traffic.step, Traffic.withDraft]
    split <;> exact ⟨rfl, rfl⟩
  | vote i =>
    simp only [Traffic.step, Traffic.withCohort]
    split
    · split <;> exact ⟨rfl, rfl⟩
    · exact ⟨rfl, rfl⟩
  | prepare i =>
    simp only [Traffic.step, Traffic.withCohort]
    split
    · split <;> exact ⟨rfl, rfl⟩
    · exact ⟨rfl, rfl⟩
  | commit i => exact absurd rfl (hm i)
  | abort i =>
    simp only [Traffic.step, Traffic.withCohort]
    split <;> exact ⟨rfl, rfl⟩
  | subscribe => exact absurd rfl hparty
  | collect receiver => exact absurd rfl hparty
  | unsubscribe receiver => exact absurd rfl hparty

theorem effect_refl (s : Announcing) : Effect s s :=
  .quiet s.traffic s.traffic.store.changes .same rfl rfl id

theorem effect_act (s : Announcing) {m : Store.Move} (hparty : m.party? ≠ none)
    (hm : ∀ i, m ≠ .commit i) : Effect s { s with traffic := (s.traffic.step m).1 } := by
  obtain ⟨hstore, hcommits⟩ := store_step s.traffic hparty hm
  exact .quiet _ s.traffic.store.changes .same hstore hcommits fun h => aligned_step h m

theorem effect_install (s : Announcing) (i : Nat) : Effect s (s.install i) := by
  unfold install
  split
  · rename_i d c hi
    dsimp only
    split
    · rename_i store change hok
      exact .made i d c store change hi hok
    · refine .quiet _ s.traffic.store.changes .same rfl rfl fun h => ?_
      exact aligned_setParty h fun d' c' heq => by cases heq; exact h i d c hi
  · exact effect_refl s

theorem effect_announce (s : Announcing) (i : Nat) : Effect s (s.announce i) := by
  unfold announce
  split
  · rename_i w hw
    exact .announced w (List.mem_of_find?_eq_some hw)
  · exact effect_refl s

theorem effect_step (s : Announcing) (m : Move) : Effect s (s.step m) := by
  cases m with
  | announce i => exact effect_announce s i
  | act m =>
    simp only [step]
    split
    · exact effect_refl s
    · cases m with
      | commit i => exact effect_install s i
      | collect receiver => exact .collected receiver
      | subscribe => exact .quiet _ _ .joined rfl rfl id
      | unsubscribe receiver => exact .quiet _ _ (.left receiver) rfl rfl id
      | _ => exact effect_act s (fun h => nomatch h) fun i h => nomatch h

/-! ## Every commit is announced once -/

/-- The first may be heard before the second: it is the older one, or the second waited when the
commit of the first was made. -/
def InTurn (overlaps : List (Change × Change)) (a b : Change) : Prop :=
  b.version < a.version → (b, a) ∈ overlaps

theorem InTurn.mono {overlaps more : List (Change × Change)} {a b : Change}
    (h : InTurn overlaps a b) : InTurn (overlaps ++ more) a b :=
  fun hlt => List.mem_append_left more (h hlt)

/-- The changes of all commits, oldest first. -/
def changes (s : Announcing) : List Change := s.traffic.commits.map Commit.change

/-- What holds between the moves: every change was announced once or waits, and none out of turn. -/
structure Sound (s : Announcing) : Prop where
  aligned : Aligned s.traffic
  version : s.traffic.store.version = s.traffic.commits.length
  numbered : s.changes.map (·.version) = List.range' 1 s.changes.length
  sent : (s.announced ++ s.unannounced).Perm s.changes
  inTurn : s.announced.Pairwise (InTurn s.overlaps)
  due : ∀ a ∈ s.announced ++ s.unannounced, ∀ b ∈ s.unannounced, InTurn s.overlaps a b
  overlapped : ∀ p ∈ s.overlaps, p.2 ∈ s.changes

theorem sound_start (name : String) (kind : StoreKind) (model : Yang.Model) (capacity : Nat) :
    (start (Store.create name kind model capacity)).Sound where
  aligned := fun i d c h => by cases h
  version := rfl
  numbered := rfl
  sent := .refl _
  inTurn := .nil
  due := fun a ha => by cases ha
  overlapped := fun p hp => by cases hp

section
variable {s s' : Announcing}

theorem version_le_of_mem (h : s.Sound) {c : Change} (hc : c ∈ s.changes) :
    c.version ≤ s.traffic.store.version := by
  have hmem : c.version ∈ s.changes.map (·.version) := List.mem_map_of_mem hc
  rw [h.numbered, List.mem_range'_1] at hmem
  have hlen : s.changes.length = s.traffic.commits.length := List.length_map ..
  have hversion := h.version
  omega

/-- A commit that is made gives the change the next version, and sends nothing. -/
theorem install_eq_ok {t t' : Store} {c : Cohort} {change : Change}
    (h : c.install t = .ok (t', change)) :
    t'.version = t.version + 1 ∧ t'.changes = t.changes ∧
      change = ⟨t'.name, t'.kind, t'.version, touchedPaths c.edits⟩ := by
  unfold Cohort.install at h
  split at h
  · cases h
  · unfold Store.install at h
    obtain ⟨tree, _, h⟩ := Outcome.bind_eq_ok.1 h
    cases h
    exact ⟨rfl, rfl, rfl⟩

theorem Sound.made (h : s.Sound) {i : Nat} {d : StoreDraft} {c : Cohort} {store : Store}
    {change : Change} (hi : s.traffic.party? i = some (.committing d c))
    (hok : c.install s.traffic.store = .ok (store, change)) :
    Sound { s with
      traffic := { s.traffic.setParty i (.committing d c.release) with
        store, commits := s.traffic.commits ++ [⟨i, d, s.traffic.store, store⟩] }
      waiting := s.waiting ++ [(i, change)]
      overlaps := s.overlaps ++ s.unannounced.map (·, change) } := by
  have hedits : c.edits = d.edits := h.aligned i d c hi
  obtain ⟨hversion, _, hnew⟩ := install_eq_ok hok
  have hchange : (Commit.mk i d s.traffic.store store).change = change := by
    rw [hnew, hedits]
    rfl
  have hnext : change.version = s.traffic.store.version + 1 := by
    rw [hnew]
    exact hversion
  have hlen : s.changes.length = s.traffic.commits.length := List.length_map ..
  set s' : Announcing := { s with
    traffic := { s.traffic.setParty i (.committing d c.release) with
      store, commits := s.traffic.commits ++ [⟨i, d, s.traffic.store, store⟩] }
    waiting := s.waiting ++ [(i, change)]
    overlaps := s.overlaps ++ s.unannounced.map (·, change) } with hs'
  have hchanges : s'.changes = s.changes ++ [change] := by
    simp [changes, hs', hchange]
  have hunannounced : s'.unannounced = s.unannounced ++ [change] := by
    simp [unannounced, hs']
  have hlast : ∀ a ∈ s.announced ++ s.unannounced, a.version < change.version := by
    intro a ha
    have hle := version_le_of_mem h (h.sent.subset ha)
    omega
  refine ⟨?_, ?_, ?_, ?_, ?_, ?_, ?_⟩
  · exact aligned_setParty h.aligned fun d' c' heq => by cases heq; exact hedits
  · have hold := h.version
    simp [hs', hversion, hold]
  · have hold := h.version
    rw [hchanges, List.map_append, h.numbered, List.length_append, List.length_singleton,
      List.range'_concat, List.map_singleton, hnext]
    congr 2
    omega
  · rw [hchanges, hunannounced, ← List.append_assoc]
    exact h.sent.append_right [change]
  · exact h.inTurn.imp fun hab => hab.mono
  · intro a ha b hb
    rw [hunannounced] at ha hb
    rw [← List.append_assoc, List.mem_append, List.mem_singleton] at ha
    rw [List.mem_append, List.mem_singleton] at hb
    rcases hb with hb | rfl
    · rcases ha with ha | rfl
      · exact (h.due a ha b hb).mono
      · -- whatever waits now is overtaken if its announcement comes later
        intro _
        exact List.mem_append_right _ (List.mem_map_of_mem hb)
    · intro hlt
      rcases ha with ha | rfl
      · have := hlast a ha
        omega
      · omega
  · intro p hp
    rw [hchanges, List.mem_append, List.mem_singleton]
    rcases List.mem_append.1 hp with hp | hp
    · exact .inl (h.overlapped p hp)
    · obtain ⟨b, _, rfl⟩ := List.mem_map.1 hp
      exact .inr rfl

theorem Sound.announced (h : s.Sound) {w : Nat × Change} (hw : w ∈ s.waiting) :
    Sound { s with
      traffic := { s.traffic with store := s.traffic.store.announce w.2 }
      waiting := s.waiting.erase w
      announced := s.announced ++ [w.2] } := by
  have hperm : s.unannounced.Perm (w.2 :: (s.waiting.erase w).map (·.2)) :=
    (List.perm_cons_erase hw).map _
  have hsub : ∀ b ∈ (s.waiting.erase w).map (·.2), b ∈ s.unannounced := by
    intro b hb
    exact hperm.symm.subset (List.mem_cons_of_mem _ hb)
  have hmem : w.2 ∈ s.unannounced := List.mem_map_of_mem hw
  have hall : ∀ a ∈ s.announced ++ [w.2] ++ (s.waiting.erase w).map (·.2),
      a ∈ s.announced ++ s.unannounced := by
    intro a ha
    rw [List.mem_append, List.mem_append, List.mem_singleton] at ha
    rw [List.mem_append]
    rcases ha with (ha | rfl) | ha
    · exact .inl ha
    · exact .inr hmem
    · exact .inr (hsub a ha)
  refine ⟨h.aligned, h.version, h.numbered, ?_, ?_, ?_, h.overlapped⟩
  · refine List.Perm.trans ?_ h.sent
    rw [List.append_assoc, List.singleton_append]
    exact hperm.symm.append_left s.announced
  · refine List.pairwise_append.2 ⟨h.inTurn, List.pairwise_singleton _ _, ?_⟩
    intro a ha b hb
    rw [List.mem_singleton] at hb
    subst hb
    exact h.due a (List.mem_append_left _ ha) w.2 hmem
  · intro a ha b hb
    exact h.due a (hall a ha) b (hsub b hb)

theorem Sound.effect (h : s.Sound) (he : Effect s s') : s'.Sound := by
  cases he with
  | quiet t b retuned store commits aligned =>
    refine ⟨aligned h.aligned, ?_, ?_, ?_, h.inTurn, h.due, ?_⟩
    · show t.store.version = t.commits.length
      rw [store, commits]
      exact h.version
    all_goals
      show _
      simp only [changes, commits]
    · exact h.numbered
    · exact h.sent
    · exact h.overlapped
  | made i d c store change party installed => exact h.made party installed
  | announced w waits => exact h.announced waits
  | collected receiver =>
    exact ⟨h.aligned, h.version, h.numbered, h.sent, h.inTurn, h.due, h.overlapped⟩

theorem Sound.after (h : s.Sound) (ms : List Move) : (s.after ms).Sound := by
  induction ms generalizing s with
  | nil => exact h
  | cons m ms ih => exact ih (h.effect (effect_step s m))

theorem prefix_effect (he : Effect s s') : s.changes <+: s'.changes := by
  cases he with
  | quiet t b retuned store commits aligned =>
    show s.changes <+: t.commits.map Commit.change
    rw [commits]
    exact List.prefix_rfl
  | made => exact (List.prefix_append _ _).map _
  | announced => exact List.prefix_rfl
  | collected => exact List.prefix_rfl

theorem prefix_after (s : Announcing) (ms : List Move) : s.changes <+: (s.after ms).changes := by
  induction ms generalizing s with
  | nil => exact List.prefix_rfl
  | cons m ms ih => exact (prefix_effect (effect_step s m)).trans (ih _)

end

/-! ## What a subscriber hears -/

/-- A receiver that is not there yet has collected nothing. -/
structure Listed (s : Announcing) : Prop where
  numbered : s.traffic.store.changes.Numbered
  untouched : ∀ r, s.traffic.store.changes.nextReceiver ≤ r → s.collected r = {}

/-- A receiver that joined when `past` was announced, and has lost nothing, has all that was
announced since, in the same order. -/
structure Hears (s : Announcing) (receiver : Nat) (past : List Change) : Prop where
  known : receiver < s.traffic.store.changes.nextReceiver
  heard : ∀ m, s.mailbox? receiver = some m → (s.collected receiver).missed + m.missed = 0 →
    s.announced = past ++ ((s.collected receiver).pending ++ m.pending)

theorem listed_start (name : String) (kind : StoreKind) (model : Yang.Model) (capacity : Nat) :
    (start (Store.create name kind model capacity)).Listed where
  numbered := fun x hx => by cases hx
  untouched := fun r _ => rfl

section
variable {s s' : Announcing} {receiver : Nat} {past : List Change}

theorem Retuned.numbered {b b' : Broadcast Change} (h : Retuned b b') (hb : b.Numbered) :
    b'.Numbered ∧ b.nextReceiver ≤ b'.nextReceiver := by
  cases h with
  | same => exact ⟨hb, Nat.le_refl _⟩
  | joined => exact ⟨hb.subscribe, Nat.le_succ _⟩
  | left r => exact ⟨hb.unsubscribe r, Nat.le_refl _⟩

/-- A receiver that stays keeps its mailbox while others come and go. -/
theorem Retuned.mailbox? {b b' : Broadcast Change} (h : Retuned b b') (hb : b.Numbered)
    (hr : receiver < b.nextReceiver) {m : Mailbox Change} (hm : b'.mailbox? receiver = some m) :
    b.mailbox? receiver = some m := by
  cases h with
  | same => exact hm
  | joined =>
    rw [Broadcast.mailbox?_subscribe hb, if_neg (Nat.ne_of_lt hr)] at hm
    exact hm
  | left r =>
    rw [Broadcast.mailbox?_unsubscribe] at hm
    split at hm
    · cases hm
    · exact hm

theorem Listed.effect (h : s.Listed) (he : Effect s s') : s'.Listed := by
  cases he with
  | quiet t b retuned store commits aligned =>
    obtain ⟨hnumbered, hle⟩ := retuned.numbered h.numbered
    refine ⟨?_, fun r hr => ?_⟩
    · show t.store.changes.Numbered
      rw [store]
      exact hnumbered
    · have hr : t.store.changes.nextReceiver ≤ r := hr
      rw [store] at hr
      exact h.untouched r (Nat.le_trans hle hr)
  | made i d c store change party installed =>
    obtain ⟨_, hchanges, _⟩ := install_eq_ok installed
    refine ⟨?_, fun r hr => ?_⟩
    · show store.changes.Numbered
      rw [hchanges]
      exact h.numbered
    · have hr : store.changes.nextReceiver ≤ r := hr
      rw [hchanges] at hr
      exact h.untouched r hr
  | announced w waits => exact ⟨h.numbered.send w.2, h.untouched⟩
  | collected r =>
    refine ⟨h.numbered.collect r, fun q hq => ?_⟩
    have hq : s.traffic.store.changes.nextReceiver ≤ q := hq
    have hold : s.collected q = {} := h.untouched q hq
    have hnone : s.traffic.store.changes.mailboxes.lookup q = none := h.numbered.mailbox?_eq_none hq
    show (if q = r then _ else s.collected q) = _
    split
    · rename_i hqr
      subst hqr
      simp [hold, hnone]
    · exact hold

theorem Listed.after (h : s.Listed) (ms : List Move) : (s.after ms).Listed := by
  induction ms generalizing s with
  | nil => exact h
  | cons m ms ih => exact ih (h.effect (effect_step s m))

/-- An item that was pushed without a loss came to the end. -/
theorem pending_of_push {capacity : Nat} {m : Mailbox Change} {c : Change} {k : Nat}
    (h : k + (m.push capacity c).missed = 0) :
    k + m.missed = 0 ∧ (m.push capacity c).pending = m.pending ++ [c] := by
  unfold Mailbox.push at h ⊢
  split at h
  · rename_i hroom
    rw [if_pos hroom]
    exact ⟨h, rfl⟩
  · have h : k + (m.missed + 1) = 0 := h
    omega

theorem Hears.effect (h : s.Hears receiver past) (hl : s.Listed) (he : Effect s s') :
    s'.Hears receiver past := by
  cases he with
  | quiet t b retuned store commits aligned =>
    obtain ⟨_, hle⟩ := retuned.numbered hl.numbered
    refine ⟨?_, fun m hm hlost => h.heard m ?_ hlost⟩
    · show receiver < t.store.changes.nextReceiver
      rw [store]
      exact Nat.lt_of_lt_of_le h.known hle
    · have hm : t.store.changes.mailbox? receiver = some m := hm
      rw [store] at hm
      exact retuned.mailbox? hl.numbered h.known hm
  | made i d c store change party installed =>
    obtain ⟨_, hchanges, _⟩ := install_eq_ok installed
    refine ⟨?_, fun m hm hlost => h.heard m ?_ hlost⟩
    · show receiver < store.changes.nextReceiver
      rw [hchanges]
      exact h.known
    · have hm : store.changes.mailbox? receiver = some m := hm
      rw [hchanges] at hm
      exact hm
  | announced w waits =>
    refine ⟨h.known, fun m hm hlost => ?_⟩
    have hm : (s.traffic.store.changes.send w.2).mailbox? receiver = some m := hm
    rw [Broadcast.mailbox?_send] at hm
    obtain ⟨old, hold, rfl⟩ := Option.map_eq_some_iff.1 hm
    obtain ⟨hlost', hpending⟩ := pending_of_push hlost
    show s.announced ++ [w.2] = _
    rw [h.heard old hold hlost', hpending]
    simp only [List.append_assoc]
  | collected r =>
    refine ⟨h.known, fun m hm hlost => ?_⟩
    have hm : (s.traffic.store.changes.collect r).2.mailbox? receiver = some m := hm
    rw [Broadcast.mailbox?_collect] at hm
    obtain ⟨old, hold, rfl⟩ := Option.map_eq_some_iff.1 hm
    by_cases hr : receiver = r
    · -- what waited is now collected
      subst hr
      have hlookup : s.traffic.store.changes.mailboxes.lookup receiver = some old := hold
      have hcollected : (s.collect receiver).collected receiver =
          ⟨(s.collected receiver).missed + old.missed,
            (s.collected receiver).pending ++ old.pending⟩ := by
        simp [collect, Store.collect, Broadcast.collect, hlookup]
      rw [hcollected] at hlost ⊢
      rw [if_pos rfl] at hlost ⊢
      simp only [List.append_nil]
      exact h.heard old hold hlost
    · have hcollected : (s.collect r).collected receiver = s.collected receiver := if_neg hr
      rw [hcollected] at hlost ⊢
      rw [if_neg hr] at hlost ⊢
      exact h.heard old hold hlost

theorem Hears.after (h : s.Hears receiver past) (hl : s.Listed) (ms : List Move) :
    (s.after ms).Hears receiver past := by
  induction ms generalizing s with
  | nil => exact h
  | cons m ms ih =>
    have he := effect_step s m
    exact ih (h.effect hl he) (hl.effect he)

/-- Who subscribes has heard nothing yet. -/
theorem hears_subscribe (hl : s.Listed) :
    (s.step (.act .subscribe)).Hears s.traffic.store.changes.nextReceiver s.announced := by
  refine ⟨Nat.lt_succ_self _, fun m hm _ => ?_⟩
  have hm : s.traffic.store.changes.subscribe.1.mailbox? s.traffic.store.changes.nextReceiver =
    some m := hm
  rw [Broadcast.mailbox?_subscribe hl.numbered, if_pos rfl] at hm
  cases hm
  show s.announced = s.announced ++ ((s.collected _).pending ++ [])
  rw [hl.untouched _ (Nat.le_refl _)]
  simp

/-- All that a receiver without losses has received was announced since it joined. -/
theorem Hears.announced_eq (h : s.Hears receiver past) (hstays : (s.mailbox? receiver).isSome)
    (hlost : s.missed receiver = 0) : s.announced = past ++ s.received receiver := by
  obtain ⟨m, hm⟩ := Option.isSome_iff_exists.1 hstays
  unfold missed at hlost
  unfold received
  rw [hm] at hlost ⊢
  exact h.heard m hm hlost

end

/-! ## From a subscription on -/

section
variable {joined s : Announcing} {heard : List Change}

/-- The changes of the commits that `s` has and `joined` has not. -/
def since (joined s : Announcing) : List Change := s.changes.drop joined.changes.length

theorem append_since (h : joined.changes <+: s.changes) :
    joined.changes ++ since joined s = s.changes :=
  (List.prefix_iff_eq_append.1 h)

theorem version_since (h : s.Sound) :
    (since joined s).map (·.version) =
      List.range' (joined.changes.length + 1) (since joined s).length := by
  have hdrop := congrArg (List.drop joined.changes.length) h.numbered
  rw [← List.map_drop, List.drop_range'] at hdrop
  rw [since, hdrop, List.length_drop, Nat.mul_one, Nat.add_comm]

theorem lt_version_of_mem_since (hs : s.Sound) {c : Change} (hc : c ∈ since joined s) :
    joined.changes.length < c.version := by
  have hmem : c.version ∈ (since joined s).map (·.version) := List.mem_map_of_mem hc
  rw [version_since hs, List.mem_range'_1] at hmem
  omega

/-- What was heard since, and what is still to be announced, was waiting or was made since. -/
theorem heard_perm (hj : joined.Sound) (hs : s.Sound) (hgrown : joined.changes <+: s.changes)
    (hheard : s.announced = joined.announced ++ heard) :
    (heard ++ s.unannounced).Perm (joined.unannounced ++ since joined s) := by
  have hall : (joined.announced ++ (heard ++ s.unannounced)).Perm
      (joined.announced ++ (joined.unannounced ++ since joined s)) :=
    calc joined.announced ++ (heard ++ s.unannounced)
      _ = s.announced ++ s.unannounced := by rw [hheard, List.append_assoc]
      _ |>.Perm s.changes := hs.sent
      _ = joined.changes ++ since joined s := (append_since hgrown).symm
      _ |>.Perm (joined.announced ++ joined.unannounced ++ since joined s) :=
        hj.sent.symm.append_right _
      _ = joined.announced ++ (joined.unannounced ++ since joined s) := List.append_assoc ..
  exact (List.perm_append_left_iff _).1 hall

theorem eq_of_version_eq (h : s.Sound) {a b : Change} (ha : a ∈ s.changes) (hb : b ∈ s.changes)
    (hab : a.version = b.version) : a = b := by
  have hnodup : (s.changes.map (·.version)).Nodup := by
    rw [h.numbered]
    exact List.nodup_range'
  exact List.inj_on_of_nodup_map hnodup ha hb hab

/-- With no overlap since, and nothing waiting at first, the order is that of the versions. -/
theorem heard_eq_since (hj : joined.Sound) (hs : s.Sound) (hgrown : joined.changes <+: s.changes)
    (hheard : s.announced = joined.announced ++ heard) (hwaiting : joined.unannounced = [])
    (hoverlaps : s.overlaps = joined.overlaps) : heard ++ s.unannounced = since joined s := by
  have hperm := heard_perm hj hs hgrown hheard
  rw [hwaiting, List.nil_append] at hperm
  have hle : ∀ a ∈ heard ++ s.unannounced, ∀ b, InTurn s.overlaps a b → a.version ≤ b.version := by
    intro a ha b hab
    by_contra hlt
    -- the later of two that overlapped before would be among those made since
    have hold : a ∈ joined.changes := by
      have hmem := hab (Nat.lt_of_not_le hlt)
      rw [hoverlaps] at hmem
      exact hj.overlapped _ hmem
    have hnew := lt_version_of_mem_since hs (hperm.subset ha)
    have hversion := version_le_of_mem hj hold
    have hlen : joined.changes.length = joined.traffic.commits.length := List.length_map ..
    have := hj.version
    omega
  have hsub : ∀ a ∈ since joined s, a ∈ s.changes := fun a ha => List.mem_of_mem_drop ha
  have hheardSorted : (heard ++ s.unannounced).Pairwise fun a b => a.version ≤ b.version := by
    have hturn : (heard ++ s.unannounced).Pairwise (InTurn s.overlaps) := by
      have hheard' : heard.Pairwise (InTurn s.overlaps) := by
        have hall := hs.inTurn
        rw [hheard] at hall
        exact (List.pairwise_append.1 hall).2.1
      have hmem : ∀ a ∈ heard, a ∈ s.announced := by
        intro a ha
        rw [hheard]
        exact List.mem_append_right _ ha
      refine List.pairwise_append.2 ⟨hheard', ?_, fun a ha b hb => ?_⟩
      · exact List.pairwise_of_forall_mem_list fun a ha b hb =>
          hs.due a (List.mem_append_right _ ha) b hb
      · exact hs.due a (List.mem_append_left _ (hmem a ha)) b hb
    exact hturn.imp_of_mem fun ha _ hab => hle _ ha _ hab
  have hsinceSorted : (since joined s).Pairwise fun a b => a.version ≤ b.version := by
    have hlt := List.pairwise_lt_range' (s := joined.changes.length + 1)
      (n := (since joined s).length)
    rw [← version_since hs, List.pairwise_map] at hlt
    exact hlt.imp Nat.le_of_lt
  refine List.Perm.eq_of_pairwise (fun a b ha hb hab hba => ?_) hheardSorted hsinceSorted hperm
  exact eq_of_version_eq hs (hsub a (hperm.subset ha)) (hsub b hb) (Nat.le_antisymm hab hba)

end

/-- Any number of parties commit on a new store, and whatever turns they take. The changes of the
commits have the versions from 1 on, without a gap. A receiver that joins at any time and loses
nothing hears every change that is announced from then on, once and in the order of the
announcements: those of the commits made since, and of those that were made before and not yet
announced. A later version comes before an earlier one only if the commit of the later was made
while the earlier waited to be announced. So if nothing waited when the receiver joined and no two
commits have overlapped since, it hears the versions in ascending order and without a gap. -/
theorem changes_heard (name : String) (kind : StoreKind) (model : Yang.Model) (capacity : Nat)
    (before rest : List Move) :
    let joined := (start (Store.create name kind model capacity)).after before
    let receiver := joined.traffic.store.changes.nextReceiver
    let s := (joined.step (.act .subscribe)).after rest
    (since joined s).map (·.version) =
      List.range' (joined.traffic.store.version + 1) (since joined s).length ∧
    ((s.mailbox? receiver).isSome → s.missed receiver = 0 →
      s.announced = joined.announced ++ s.received receiver ∧
      (s.received receiver ++ s.unannounced).Perm (joined.unannounced ++ since joined s) ∧
      (s.received receiver).Pairwise
        (fun a b => b.version < a.version → (b, a) ∈ s.overlaps) ∧
      (joined.unannounced = [] → s.overlaps = joined.overlaps →
        s.received receiver ++ s.unannounced = since joined s)) := by
  intro joined receiver s
  have hj : joined.Sound := (sound_start name kind model capacity).after before
  have hl : joined.Listed := (listed_start name kind model capacity).after before
  have he : Effect joined (joined.step (.act .subscribe)) := effect_step joined _
  have hs : s.Sound := (hj.effect he).after rest
  have hgrown : joined.changes <+: s.changes := (prefix_effect he).trans (prefix_after _ rest)
  have hhears : s.Hears receiver joined.announced :=
    (hears_subscribe hl).after (hl.effect he) rest
  have hlen : joined.changes.length = joined.traffic.store.version := by
    rw [hj.version]
    exact List.length_map ..
  refine ⟨?_, fun hstays hlost => ?_⟩
  · rw [← hlen]
    exact version_since hs
  have hheard := hhears.announced_eq hstays hlost
  refine ⟨hheard, heard_perm hj hs hgrown hheard, ?_, heard_eq_since hj hs hgrown hheard⟩
  have hall := hs.inTurn
  rw [hheard] at hall
  exact (List.pairwise_append.1 hall).2.1

/-- Two parties with something prepared each. -/
def readyToCommit : List Move :=
  [.act (.openDraft 0), .act (.openDraft 1), .act (.stage 0 (.put ⟨["a"]⟩ .null)),
    .act (.stage 1 (.put ⟨["b"]⟩ .null)), .act (.sealDraft 0), .act (.sealDraft 1),
    .act (.vote 0), .act (.vote 1), .act (.prepare 0), .act (.prepare 1)]

/-- The data nodes that they write to. -/
def twoNodes : Yang.Model := Traffic.schemaOf ["a", "b"]

/-- One commit is announced before the other is made. -/
theorem changes_heard_one_by_one :
    let joined := (start (Store.create "s" .configuration twoNodes 8)).after readyToCommit
    let s := (joined.step (.act .subscribe)).after
      [.act (.commit 1), .announce 1, .act (.commit 0), .announce 0]
    s.received 0 = since joined s ∧ (s.received 0).map (·.version) = [1, 2] := by
  intro joined s
  obtain ⟨_, hheard⟩ := changes_heard "s" .configuration twoNodes 8 readyToCommit
    [.act (.commit 1), .announce 1, .act (.commit 0), .announce 0]
  obtain ⟨_, _, _, horder⟩ := hheard (by decide +kernel) (by decide +kernel)
  have heq := horder (by decide +kernel) (by decide +kernel)
  have hdone : s.unannounced = [] := by decide +kernel
  have hreceived : s.received 0 ++ s.unannounced = since joined s := heq
  rw [hdone, List.append_nil] at hreceived
  exact ⟨hreceived, by decide +kernel⟩

/-- Both commits are made before either is announced, and the second is announced first. -/
theorem announced_out_of_order :
    let s := (start (Store.create "s" .configuration twoNodes 8)).after
      (.act .subscribe :: readyToCommit ++
        [.act (.commit 0), .act (.commit 1), .announce 1, .announce 0])
    s.changes.map (·.version) = [1, 2] ∧ s.missed 0 = 0 ∧
      s.received 0 =
        [⟨"s", .configuration, 2, [⟨["b"]⟩]⟩, ⟨"s", .configuration, 1, [⟨["a"]⟩]⟩] := by
  decide +kernel

end Announcing

end MountRegistry.Store
