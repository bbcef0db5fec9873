import MountRegistry.Proofs.Broker.Progress
import MountRegistry.Proofs.Broker.Traffic

/-
  The invariant of the traffic of a broker. A store is what the installs in it make one after the
  other (`Recorded`). A preparation makes the edits on the store as it was, which counts for nothing
  once the store has gone on (`Ready`). Every submission is as far as what it installed says
  (`Driven`), and a deal that is not submitted has installed nothing.
-/

namespace MountRegistry

/-! ## What a writer is to install -/

namespace Writer

/-- The edits of the drafts that hold edits, with the numbers of their stores. -/
def parts (w : Writer) : List (Nat × List Edit) :=
  (w.drafts.filter (!·.2.edits.isEmpty)).map fun (kind, d) => (w.broker.storeNumber kind, d.edits)

/-- The edits staged for a kind of store. -/
def edits (w : Writer) (kind : StoreKind) : List Edit :=
  ((w.draft? kind).map (·.edits)).getD []

theorem mem_parts {w : Writer} (h : Keyed.Ascending w.drafts) {n : Nat} {es : List Edit} :
    (n, es) ∈ w.parts ↔ ∃ kind, w.broker.storeNumber kind = n ∧ w.edits kind = es ∧ es ≠ [] := by
  unfold parts
  rw [List.mem_map]
  constructor
  · rintro ⟨⟨kind, d⟩, hmem, heq⟩
    obtain ⟨hmem, hne⟩ := List.mem_filter.1 hmem
    cases heq
    refine ⟨kind, rfl, ?_, by simpa using hne⟩
    unfold edits draft?
    rw [Keyed.find?_of_mem h.nodup hmem]
    rfl
  · rintro ⟨kind, rfl, rfl, hne⟩
    unfold edits at hne ⊢
    cases hd : w.draft? kind with
    | none =>
      rw [hd] at hne
      exact absurd rfl hne
    | some d =>
      rw [hd] at hne
      refine ⟨(kind, d), List.mem_filter.2 ⟨Keyed.mem_of_find? hd, ?_⟩, rfl⟩
      simpa using hne

theorem parts_nodup {w : Writer} (h : Keyed.Ascending w.drafts)
    (hne : w.broker.configuration ≠ w.broker.operational) : (w.parts.map (·.1)).Nodup := by
  have hkeys : ((w.drafts.filter (!·.2.edits.isEmpty)).map (·.1)).Nodup :=
    (List.filter_sublist.map _).nodup h.nodup
  have heq : w.parts.map (·.1) =
      ((w.drafts.filter (!·.2.edits.isEmpty)).map (·.1)).map w.broker.storeNumber := by
    unfold parts
    rw [List.map_map, List.map_map]
    rfl
  rw [heq]
  refine List.pairwise_map.2 (hkeys.imp ?_)
  intro a b hab hsame
  cases a <;> cases b
  · exact hab rfl
  · exact hne hsame
  · exact hne hsame.symm
  · exact hab rfl

theorem parts_cohorts (w : Writer) (pool : StorePool) :
    (w.cohorts pool).map (fun x => (x.1, x.2.edits)) = w.parts := by
  unfold cohorts parts
  rw [List.map_map]
  rfl

theorem stage_broker (w : Writer) (pool : StorePool) (kind : StoreKind) (e : Edit) :
    (w.stage pool kind e).1.broker = w.broker := by
  unfold stage
  split
  · rfl
  · dsimp only
    split <;> rfl

theorem stage_ascending {w : Writer} (h : Keyed.Ascending w.drafts) (pool : StorePool)
    (kind : StoreKind) (e : Edit) : Keyed.Ascending (w.stage pool kind e).1.drafts := by
  unfold stage
  split
  · exact h
  · dsimp only
    split <;> exact h.insert kind _

end Writer

namespace Broker

/-! ## The invariant -/

/-- What the cohort prepared is its edits made on the store, unless the store has gone on. -/
def Ready (store : Store) (c : Cohort) : Prop :=
  ∀ p, c.prepared = some p → p.version ≤ store.version ∧
    (p.version = store.version → Edit.applyAll store.tree c.edits = .ok p.tree)

theorem Ready.ahead {store store' : Store} {c : Cohort} (h : Ready store c)
    (hv : store.version < store'.version) : Ready store' c := by
  intro p hp
  obtain ⟨hle, _⟩ := h p hp
  exact ⟨by omega, fun heq => by omega⟩

theorem ready_prepare {store : Store} {c : Cohort} {p : Prepared}
    (hp : store.prepare c.base c.edits = .ok p) :
    p.version ≤ store.version ∧
      (p.version = store.version → Edit.applyAll store.tree c.edits = .ok p.tree) := by
  obtain ⟨_, htree, _, hv⟩ := Store.prepare_eq_ok hp
  exact ⟨Nat.le_of_eq hv, fun _ => htree⟩

theorem Ready.commit {store store' : Store} {c : Cohort} (h : Ready store c)
    (hc : c.commit store = .ok store') :
    Edit.applyAll store.tree c.edits = .ok store'.tree ∧ store'.version = store.version + 1 := by
  obtain ⟨p, hp, htree, hto⟩ := Cohort.commit_eq_ok hc
  obtain ⟨_, hready⟩ := h p hp
  rcases Store.committedTree_eq_ok htree with ⟨hv, ht⟩ | ⟨_, _, ht⟩
  · rw [ht]
    exact ⟨hready hv.symm, hto.version⟩
  · exact ⟨ht, hto.version⟩

/-- The store is what the installs make of an empty one. -/
structure Recorded (store : Store) (installs : List Install) : Prop where
  version : store.version = installs.length
  tree : installs.foldlM (fun tree x => Edit.applyAll tree x.edits) Json.emptyObject =
    .ok store.tree

namespace Traffic

/-- The writer is one of the broker, with one draft for each kind. -/
structure Staging (s : Traffic) (w : Writer) : Prop where
  broker : w.broker = s.broker
  drafts : Keyed.Ascending w.drafts

/-- The submission came of the writer, and what it has installed is what its state says. -/
structure Driven (s : Traffic) (i : Nat) (w : Writer) (sub : Submission) : Prop where
  staging : s.Staging w
  cohorts : sub.cohorts.map (fun x => (x.1, x.2.edits)) = w.parts
  stores : sub.coordinator.stores.length = w.parts.length
  waiting : sub.coordinator.waiting.Nodup
  ready : ∀ n c, (n, c) ∈ sub.cohorts → Ready (s.pool.store n) c
  primed : Primed sub.cohorts sub.coordinator.waiting sub.coordinator.state
  elsewhere : ∀ n, (∀ es, (n, es) ∉ w.parts) → s.made i n = []
  progress : Progress (s.made i) w.parts sub.coordinator.waiting sub.coordinator.state

/-- What holds of a deal by itself. One that is not submitted has installed nothing. -/
def Fits (s : Traffic) (i : Nat) : Deal → Prop
  | .staging w => s.Staging w ∧ ∀ n, s.made i n = []
  | .submitted w sub => s.Driven i w sub

/-- What holds between the moves: each store is made by the installs in it, and each deal has
done what it says. -/
structure Sound (s : Traffic) : Prop where
  numbers : ∀ kind, s.broker.storeNumber kind < s.pool.stores.length
  apart : s.broker.configuration ≠ s.broker.operational
  recorded : ∀ kind, Recorded (s.store kind) (s.installsIn (s.broker.storeNumber kind))
  free : ∀ i, s.deal? i = none → ∀ n, s.made i n = []
  deals : ∀ i d, s.deal? i = some d → s.Fits i d

theorem start_eq (node : NodeId) (model : Yang.Model) : ∃ keys, start node model =
    ⟨{ node, model, configuration := 0, operational := 1 },
      ⟨StoreKind.all.map fun kind => Store.create (node.mountPath.storeName kind) kind model, keys⟩,
      fun _ => none, []⟩ := by
  have hother : (node.mountPath, StoreKind.operational) ≠ (node.mountPath, .configuration) :=
    fun h => StoreKind.noConfusion (Prod.mk.inj h).2
  unfold start Broker.ofPool
  rw [StorePool.getOrCreate_of_lookup?_eq_none rfl]
  dsimp only
  rw [StorePool.getOrCreate_of_lookup?_eq_none]
  · exact ⟨_, rfl⟩
  · exact Keyed.find?_insert_of_ne [] _ hother

theorem sound_start (node : NodeId) (model : Yang.Model) : (start node model).Sound := by
  obtain ⟨keys, h⟩ := start_eq node model
  rw [h]
  refine ⟨?_, Nat.zero_ne_one, ?_, fun _ _ _ => rfl, fun i d h => by cases h⟩
  · intro kind
    cases kind
    · exact Nat.zero_lt_two
    · exact Nat.one_lt_two
  · intro kind
    cases kind <;> exact ⟨rfl, rfl⟩

/-! ## What others leave as it is -/

/-- `t` is `s` but for the deal `i`, and for stores that have gone on. -/
structure Apart (s t : Traffic) (i : Nat) : Prop where
  broker : t.broker = s.broker
  numbers : t.pool.stores.length = s.pool.stores.length
  ahead : ∀ n, t.pool.store n = s.pool.store n ∨
    (s.pool.store n).version < (t.pool.store n).version
  made : ∀ k, k ≠ i → t.made k = s.made k
  deals : ∀ k, k ≠ i → t.deal? k = s.deal? k

theorem apart_setDeal (s : Traffic) (i : Nat) (d : Deal) : s.Apart (s.setDeal i d) i where
  broker := rfl
  numbers := rfl
  ahead := fun _ => .inl rfl
  made := fun _ _ => rfl
  deals := fun _ hk => if_neg hk

theorem Apart.staging {s t : Traffic} {i : Nat} (h : s.Apart t i) {w : Writer}
    (hw : s.Staging w) : t.Staging w :=
  ⟨hw.broker.trans h.broker.symm, hw.drafts⟩

theorem Apart.ready {s t : Traffic} {i : Nat} (h : s.Apart t i) {n : Nat} {c : Cohort}
    (hc : Ready (s.pool.store n) c) : Ready (t.pool.store n) c := by
  rcases h.ahead n with heq | hlt
  · rw [heq]
    exact hc
  · exact hc.ahead hlt

theorem Apart.fits {s t : Traffic} {i k : Nat} (h : s.Apart t i) (hk : k ≠ i) {d : Deal}
    (hd : s.Fits k d) : t.Fits k d := by
  cases d with
  | staging w =>
    refine ⟨h.staging hd.1, fun n => ?_⟩
    rw [h.made k hk]
    exact hd.2 n
  | submitted w sub =>
    obtain ⟨hstage, hcohorts, hstores, hwait, hready, hprimed, helse, hprog⟩ := hd
    rw [← h.made k hk] at helse hprog
    exact ⟨h.staging hstage, hcohorts, hstores, hwait, fun n c hc => h.ready (hready n c hc),
      hprimed, helse, hprog⟩

theorem Sound.of_apart {s t : Traffic} (h : s.Sound) {i : Nat} (ha : s.Apart t i)
    (hr : ∀ kind, Recorded (t.store kind) (t.installsIn (t.broker.storeNumber kind))) {d : Deal}
    (hi : t.deal? i = some d) (hd : t.Fits i d) : t.Sound where
  numbers := by
    rw [ha.broker, ha.numbers]
    exact h.numbers
  apart := by
    rw [ha.broker]
    exact h.apart
  recorded := hr
  free := by
    intro k hk n
    have hki : k ≠ i := by
      rintro rfl
      rw [hi] at hk
      cases hk
    rw [ha.made k hki]
    exact h.free k (ha.deals k hki ▸ hk) n
  deals := by
    intro k e hk
    by_cases hki : k = i
    · subst hki
      rw [hi] at hk
      cases hk
      exact hd
    · exact ha.fits hki (h.deals k e (ha.deals k hki ▸ hk))

theorem Sound.setDeal {s : Traffic} (h : s.Sound) {i : Nat} {d : Deal}
    (hd : (s.setDeal i d).Fits i d) : (s.setDeal i d).Sound :=
  h.of_apart (apart_setDeal s i d) h.recorded (if_pos rfl) hd

/-! ## One move -/

theorem driven_create {s : Traffic} {i : Nat} {w : Writer} (hw : s.Staging w)
    (hm : ∀ n, s.made i n = []) : s.Driven i w (Submission.create (w.cohorts s.pool)) := by
  have hlen : (Coordinator.begin { stores := (w.cohorts s.pool).map (·.2.store) }).stores.length =
      w.parts.length := by
    rw [Coordinator.begin_stores, ← w.parts_cohorts s.pool, List.length_map, List.length_map]
  refine ⟨hw, w.parts_cohorts s.pool, hlen, Coordinator.begin_waiting_nodup _, ?_,
    primed_begin _ _, fun n _ => hm n, Progress.begin hm ?_⟩
  · intro n c hc p hp
    obtain ⟨⟨kind, d⟩, _, heq⟩ := List.mem_map.1 hc
    cases heq
    cases hp
  · rw [← hlen, Coordinator.begin_stores]

theorem answered_cohorts {sub : Submission} {j n : Nat} {c c' : Cohort} {a : CallAnswer}
    (hc : sub.cohorts[j]? = some (n, c)) (he : c'.edits = c.edits) :
    (answered sub j n c' a).cohorts.map (fun x => (x.1, x.2.edits)) =
      sub.cohorts.map fun x => (x.1, x.2.edits) := by
  have hj : (sub.cohorts.map fun x => (x.1, x.2.edits))[j]? = some (n, c.edits) := by
    rw [List.getElem?_map, hc]
    rfl
  obtain ⟨hlt, heq⟩ := List.getElem?_eq_some_iff.1 hj
  unfold answered
  rw [List.map_set, he, ← heq, List.set_getElem_self]

theorem Driven.part {s : Traffic} {i : Nat} {w : Writer} {sub : Submission}
    (h : s.Driven i w sub) {j n : Nat} {c : Cohort} (hc : sub.cohorts[j]? = some (n, c)) :
    w.parts[j]? = some (n, c.edits) := by
  rw [← h.cohorts, List.getElem?_map, hc]
  rfl

theorem Driven.nodup {s : Traffic} (hs : s.Sound) {i : Nat} {w : Writer} {sub : Submission}
    (h : s.Driven i w sub) : (w.parts.map (·.1)).Nodup :=
  w.parts_nodup h.staging.drafts (h.staging.broker ▸ hs.apart)

/-- The submission after an answer, if that answer agrees with what is installed by now. -/
theorem Driven.answered {s t : Traffic} {i : Nat} {w : Writer} {sub : Submission}
    (h : s.Driven i w sub) (ha : s.Apart t i) {j n : Nat} {c c' : Cohort} {a : CallAnswer}
    (hc : sub.cohorts[j]? = some (n, c)) (he : c'.edits = c.edits)
    (hready : Ready (t.pool.store n) c') (hj : j ∈ sub.coordinator.waiting)
    (hprimed : sub.coordinator.state.call? = some (.phase .preCommit) →
      c'.prepared.isSome ∨ ∃ e, a = .error e)
    (helse : ∀ m, (∀ es, (m, es) ∉ w.parts) → t.made i m = [])
    (hprog : Progress (t.made i) w.parts (sub.coordinator.report j a).waiting
      (sub.coordinator.report j a).state) : t.Driven i w (answered sub j n c' a) where
  staging := ha.staging h.staging
  cohorts := (answered_cohorts hc he).trans h.cohorts
  stores := by
    rw [← h.stores]
    exact congrArg List.length (Coordinator.report_stores _ j a)
  waiting := Coordinator.report_waiting_nodup h.waiting j a
  ready := by
    intro m co hco
    rcases List.mem_or_eq_of_mem_set hco with hmem | heq
    · exact ha.ready (h.ready m co hmem)
    · cases heq
      exact hready
  primed := by
    refine h.primed.report h.waiting ?_ hj hprimed
    rw [h.stores, ← h.cohorts, List.length_map]
  elsewhere := helse
  progress := hprog

theorem Sound.asked {s : Traffic} (h : s.Sound) {i j n : Nat} {w : Writer} {sub : Submission}
    {c c' : Cohort} {call : Call} {a : CallAnswer} (deal : s.deal? i = some (.submitted w sub))
    (due : Due sub j n c call) (other : call ≠ .phase .commit) (edits : c'.edits = c.edits)
    (prepared : ∀ p, c'.prepared = some p →
      c.prepared = some p ∨ (s.pool.store n).prepare c.base c.edits = .ok p)
    (primed : call = .phase .preCommit → c'.prepared.isSome ∨ ∃ e, a = .error e) :
    (s.setDeal i (.submitted w (answered sub j n c' a))).Sound := by
  have hd : s.Driven i w sub := h.deals i _ deal
  refine h.setDeal (hd.answered (apart_setDeal s i _) due.cohort edits ?_ due.awaited ?_
    hd.elsewhere ?_)
  · intro p hp
    rw [edits]
    rcases prepared p hp with hold | hnew
    · exact hd.ready n c (List.mem_of_getElem? due.cohort) p hold
    · exact ready_prepare hnew
  · rw [due.call]
    exact fun heq => primed (Option.some.inj heq)
  · refine hd.progress.report_other hd.stores due.awaited (hd.part due.cohort) ?_ a
    rw [due.call]
    exact fun heq => other (Option.some.inj heq)

theorem Due.not_preCommit {sub : Submission} {j n : Nat} {c : Cohort}
    (h : Due sub j n c (.phase .commit)) {p : Prop}
    (hp : sub.coordinator.state.call? = some (.phase .preCommit)) : p := by
  rw [h.call] at hp
  cases hp

theorem ready_release (store : Store) (c : Cohort) : Ready store c.release :=
  fun p hp => by cases hp

theorem Sound.failed {s : Traffic} (h : s.Sound) {i j n : Nat} {w : Writer} {sub : Submission}
    {c : Cohort} {e : StoreFailure} (deal : s.deal? i = some (.submitted w sub))
    (due : Due sub j n c (.phase .commit)) :
    (s.setDeal i (.submitted w (answered sub j n c.release (.error e)))).Sound := by
  have hd : s.Driven i w sub := h.deals i _ deal
  have hpart := hd.part due.cohort
  have hnone : s.made i n = [] := hd.progress.awaited due.call due.awaited hpart
  refine h.setDeal (hd.answered (apart_setDeal s i _) due.cohort rfl (ready_release _ c)
    due.awaited due.not_preCommit hd.elsewhere ?_)
  exact hd.progress.report_commit hd.waiting (hd.nodup h) due.awaited hpart due.call
    (fun _ _ => rfl) (.inr ⟨hnone, e, rfl⟩)

theorem apart_install (s : Traffic) (i : Nat) (d : Deal) {n : Nat}
    (hn : n < s.pool.stores.length) {store : Store}
    (hv : (s.pool.store n).version < store.version) (es : List Edit) :
    s.Apart ((s.setDeal i d).install i n store es) i where
  broker := rfl
  numbers := List.length_set
  ahead := by
    intro m
    change (s.pool.setStore n store).store m = _ ∨ _ < ((s.pool.setStore n store).store m).version
    rw [StorePool.store_setStore hn]
    by_cases hm : m = n
    · rw [if_pos hm, hm]
      exact .inr hv
    · rw [if_neg hm]
      exact .inl rfl
  made := by
    intro k hk
    funext m
    rw [made_install, if_neg fun hi => hk hi.1, List.append_nil]
    rfl
  deals := fun _ hk => if_neg hk

theorem Sound.recorded_install {s : Traffic} (h : s.Sound) (i : Nat) (d : Deal) {n : Nat}
    (hn : n < s.pool.stores.length) {store : Store} {es : List Edit}
    (htree : Edit.applyAll (s.pool.store n).tree es = .ok store.tree)
    (hversion : store.version = (s.pool.store n).version + 1) (kind : StoreKind) :
    Recorded (((s.setDeal i d).install i n store es).store kind)
      (((s.setDeal i d).install i n store es).installsIn (s.broker.storeNumber kind)) := by
  have hr : Recorded (s.pool.store (s.broker.storeNumber kind)) _ := h.recorded kind
  change Recorded ((s.pool.setStore n store).store (s.broker.storeNumber kind)) _
  rw [installsIn_install, StorePool.store_setStore hn]
  by_cases hm : s.broker.storeNumber kind = n
  · rw [hm] at hr ⊢
    rw [if_pos rfl, if_pos rfl]
    refine ⟨?_, Outcome.foldlM_concat_eq_ok.2 ⟨_, hr.tree, htree⟩⟩
    rw [hversion, hr.version, List.length_append]
    rfl
  · rw [if_neg hm, if_neg hm, List.append_nil]
    exact hr

theorem Sound.committed {s : Traffic} (h : s.Sound) {i j n : Nat} {w : Writer}
    {sub : Submission} {c : Cohort} {store : Store} (deal : s.deal? i = some (.submitted w sub))
    (due : Due sub j n c (.phase .commit)) (commit : c.commit (s.pool.store n) = .ok store) :
    ((s.setDeal i (.submitted w (Traffic.answered sub j n c.release (.ok true)))).install i n
      store c.edits).Sound := by
  have hd : s.Driven i w sub := h.deals i _ deal
  have hpart := hd.part due.cohort
  have hnone : s.made i n = [] := hd.progress.awaited due.call due.awaited hpart
  obtain ⟨htree, hversion⟩ := (hd.ready n c (List.mem_of_getElem? due.cohort)).commit commit
  have hn : n < s.pool.stores.length := by
    obtain ⟨kind, rfl, _⟩ := (w.mem_parts hd.staging.drafts).1 (List.mem_of_getElem? hpart)
    rw [hd.staging.broker]
    exact h.numbers kind
  have hlt : (s.pool.store n).version < store.version := by omega
  have ha := apart_install s i (.submitted w (Traffic.answered sub j n c.release (.ok true))) hn hlt
    c.edits
  refine h.of_apart ha (h.recorded_install i _ hn htree hversion) (if_pos rfl)
    (hd.answered ha due.cohort rfl (ready_release _ c) due.awaited due.not_preCommit ?_ ?_)
  · intro m hm
    have hmn : m ≠ n := by
      rintro rfl
      exact hm _ (List.mem_of_getElem? hpart)
    rw [made_install, if_neg fun hi => hmn hi.2, List.append_nil]
    exact hd.elsewhere m hm
  · refine hd.progress.report_commit hd.waiting (hd.nodup h) due.awaited hpart due.call ?_
      (.inl ⟨?_, rfl⟩)
    · intro m hm
      rw [made_install, if_neg fun hi => hm hi.2, List.append_nil]
      rfl
    · rw [made_install, if_pos ⟨rfl, rfl⟩]
      exact congrArg (· ++ [c.edits]) hnone

theorem Sound.effect {s t : Traffic} {m : Move} (h : s.Sound) (he : Effect s m t) : t.Sound := by
  cases he with
  | idle => exact h
  | begun i free => exact h.setDeal ⟨⟨rfl, List.Pairwise.nil⟩, h.free i free⟩
  | staged i kind e w deal =>
    obtain ⟨hw, hm⟩ : s.Fits i (.staging w) := h.deals i _ deal
    exact h.setDeal ⟨⟨(w.stage_broker s.pool kind e).trans hw.broker,
      w.stage_ascending hw.drafts s.pool kind e⟩, hm⟩
  | submitted i w deal =>
    obtain ⟨hw, hm⟩ : s.Fits i (.staging w) := h.deals i _ deal
    have ha := apart_setDeal s i (.submitted w (Submission.create (w.cohorts s.pool)))
    exact h.setDeal (driven_create (ha.staging hw) hm)
  | asked i j w sub n c c' call a deal due other edits prepared primed =>
    exact h.asked deal due other edits prepared primed
  | committed i j w sub n c store deal due commit => exact h.committed deal due commit
  | failed i j w sub n c e deal due => exact h.failed deal due

theorem Sound.after {s : Traffic} (h : s.Sound) (ms : List Move) : (s.after ms).Sound := by
  induction ms generalizing s with
  | nil => exact h
  | cons m ms ih => exact ih (h.effect (effect_step s m))

end Traffic

end Broker

end MountRegistry
