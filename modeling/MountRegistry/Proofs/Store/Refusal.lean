import MountRegistry.Proofs.Store.Independence
import MountRegistry.Proofs.Store.SerialHistory

/-
  Why a preparation or a commit is refused. Since the base of a draft, commits may have overtaken
  it: one of them overlaps an edit, or there were more than the log holds. That is what `conflict?`
  finds, no more and no less (`Sound.conflict?_eq_none_iff`), and once it is so it stays so. A draft
  that is not overtaken finds on the way to its edits what it found when they were staged, so the
  edits can be made; and the schema, which never changes, has nothing against them after a vote that
  did not fail. So only commits of others can stand in the way (`refused_only_when_overtaken`).
-/

namespace MountRegistry.Store

/-! ## The log and the answers of a store -/

theorem vote_eq_ok_iff {s : Store} {base : Nat} {edits : List Edit} {b : Bool} :
    s.vote base edits = .ok b ↔
      validate s.model edits = .ok () ∧ (s.conflict? base (edits.map (·.path))).isNone = b := by
  unfold vote
  constructor
  · intro h
    obtain ⟨_, hv, h⟩ := Outcome.bind_eq_ok.1 h
    cases h
    exact ⟨hv, rfl⟩
  · rintro ⟨hv, rfl⟩
    rw [hv]
    rfl

/-- A log that cannot hold all commits since the base names a path whenever there is one. -/
theorem Records.eq_nil_of_conflict?_eq_none {s : Store} {entries : List LogEntry}
    (h : s.Records entries) {base : Nat} {paths : List DataPath}
    (hc : s.conflict? base paths = none) (hlt : base + s.logCapacity < s.version) : paths = [] := by
  rw [h.conflict?_eq (by omega), if_neg (by omega)] at hc
  exact List.head?_eq_none_iff.1 hc

theorem mem_of_conflict?_eq_some {s : Store} {base : Nat} {paths : List DataPath} {p : DataPath}
    (h : s.conflict? base paths = some p) : p ∈ paths := by
  unfold conflict? at h
  split at h
  · cases h
  · split at h
    · exact List.mem_of_find?_eq_some h
    · exact List.mem_of_head? h

theorem checkConflict_of_conflict?_eq_some {s : Store} {base : Nat} {edits : List Edit}
    {p : DataPath} (h : s.conflict? base (edits.map (·.path)) = some p) :
    s.checkConflict base edits = .error (.conflict p.toString) := by
  unfold checkConflict
  rw [h]

theorem prepare_of_conflict?_eq_some {s : Store} {base : Nat} {edits : List Edit} {p : DataPath}
    (h : s.conflict? base (edits.map (·.path)) = some p) :
    s.prepare base edits = .error (.conflict p.toString) := by
  unfold prepare
  rw [checkConflict_of_conflict?_eq_some h]
  rfl

theorem committedTree_of_conflict?_eq_some {s : Store} {prepared : Prepared} {edits : List Edit}
    {p : DataPath} (h : s.conflict? prepared.version (edits.map (·.path)) = some p) :
    s.committedTree prepared edits = .error (.conflict p.toString) := by
  unfold committedTree
  split
  · rename_i hv
    unfold conflict? at h
    rw [if_pos hv] at h
    cases h
  · rw [checkConflict_of_conflict?_eq_some h]
    rfl

namespace Traffic

variable {s t : Traffic} {m : Move} {a : Answer} {i : Nat} {d : StoreDraft} {c : Cohort}

/-! ## Being overtaken -/

/-- Since this version a commit overlapped one of the edits, or more commits were made than the log
holds. -/
def Overtaken (s : Traffic) (edits : List Edit) (base : Nat) : Prop :=
  (∃ k c, s.commits[k]? = some c ∧ base ≤ k ∧
    ∃ e ∈ edits, ∃ f ∈ c.draft.edits, e.path.overlaps f.path = true) ∨
  (edits ≠ [] ∧ base + s.store.logCapacity < s.store.version)

/-- The log tells of exactly the drafts that are overtaken. -/
theorem Sound.conflict?_eq_none_iff (h : s.Sound) {edits : List Edit} {base : Nat}
    (hbase : base ≤ s.store.version) :
    s.store.conflict? base (edits.map (·.path)) = none ↔ ¬ s.Overtaken edits base := by
  constructor
  · rintro hc (⟨k, c, hk, hle, e, he, f, hf, hov⟩ | ⟨hne, hlt⟩)
    · have hlt : k < k + 1 := Nat.lt_succ_self k
      rw [h.untouched_of_conflict? hc (k + 1) k c hk hle hlt e he f hf] at hov
      cases hov
    · exact hne (List.map_eq_nil_iff.1 (h.records.eq_nil_of_conflict?_eq_none hc hlt))
  · intro hno
    by_cases hroom : s.store.version ≤ base + s.store.logCapacity
    · refine h.conflict?_eq_none hbase hroom fun k c hk hle _ e he f hf => ?_
      rw [← Bool.not_eq_true]
      exact fun hov => hno (.inl ⟨k, c, hk, hle, e, he, f, hf, hov⟩)
    · have hnil : edits = [] := by
        by_contra hne
        exact hno (.inr ⟨hne, by omega⟩)
      cases hp : s.store.conflict? base (edits.map (·.path)) with
      | none => rfl
      | some p =>
        have hmem := mem_of_conflict?_eq_some hp
        rw [hnil] at hmem
        cases hmem

theorem Sound.exists_conflict? (h : s.Sound) {edits : List Edit} {base : Nat}
    (hbase : base ≤ s.store.version) (ho : s.Overtaken edits base) :
    ∃ e ∈ edits, s.store.conflict? base (edits.map (·.path)) = some e.path := by
  cases hp : s.store.conflict? base (edits.map (·.path)) with
  | none => exact absurd ho ((h.conflict?_eq_none_iff hbase).1 hp)
  | some p =>
    obtain ⟨e, he, rfl⟩ := List.mem_map.1 (mem_of_conflict?_eq_some hp)
    exact ⟨e, he, rfl⟩

theorem Overtaken.extends {edits : List Edit} {base : Nat} (ho : s.Overtaken edits base)
    (h : s.Extends t) (hcap : t.store.logCapacity = s.store.logCapacity) :
    t.Overtaken edits base := by
  rcases ho with ⟨k, c, hk, hrest⟩ | ⟨hne, hlt⟩
  · refine .inl ⟨k, c, ?_, hrest⟩
    rw [h.commits_eq (List.getElem?_eq_some_iff.1 hk).1, hk]
  · exact .inr ⟨hne, hcap ▸ Nat.lt_of_lt_of_le hlt h.version_le⟩

/-! ## What stays as it is in a run -/

theorem model_after (s : Traffic) (ms : List Move) :
    (s.after ms).store.model = s.store.model := by
  induction ms generalizing s with
  | nil => rfl
  | cons m ms ih => exact (ih _).trans (effect_step s m).model

theorem logCapacity_after (s : Traffic) (ms : List Move) :
    (s.after ms).store.logCapacity = s.store.logCapacity := by
  induction ms generalizing s with
  | nil => rfl
  | cons m ms ih => exact (ih _).trans (effect_step s m).logCapacity

theorem Overtaken.after {edits : List Edit} {base : Nat} (ho : s.Overtaken edits base)
    (ms : List Move) : (s.after ms).Overtaken edits base :=
  ho.extends (extends_after s ms) (logCapacity_after s ms)

/-- A party that is sealed keeps its draft. -/
theorem Effect.stays_sealed (h : Effect s m a t) (hi : s.party? i = some (.committing d c)) :
    ∃ c', t.party? i = some (.committing d c') := by
  have reset : ∀ {j d' c' c''}, s.party? j = some (.committing d' c') →
      ∃ c₁, (s.setParty j (.committing d' c'')).party? i = some (.committing d c₁) := by
    intro j d' c' c'' hj
    rw [setParty_party?]
    split
    · rename_i hij
      rw [hij, hj] at hi
      cases hi
      exact ⟨c'', rfl⟩
    · exact ⟨c, hi⟩
  have other : ∀ {j p}, s.party? j ≠ s.party? i →
      (s.setParty j p).party? i = some (.committing d c) := by
    intro j p hj
    rw [setParty_party?, if_neg fun hij => hj (congrArg s.party? hij.symm), hi]
  cases h with
  | idle => exact ⟨c, hi⟩
  | opened j free => exact ⟨c, other (by rw [free, hi]; simp)⟩
  | staged j e d' d'' party => exact ⟨c, other (by rw [party, hi]; simp)⟩
  | shut j d' party => exact ⟨c, other (by rw [party, hi]; simp)⟩
  | prepared j d' c' c'' party => exact reset party
  | committed j d' c' store party => exact reset party
  | failed j d' c' e party => exact reset party
  | aborted j d' c' party => exact reset party

theorem stays_sealed_after (hi : s.party? i = some (.committing d c)) (ms : List Move) :
    ∃ c', (s.after ms).party? i = some (.committing d c') := by
  induction ms generalizing s c with
  | nil => exact ⟨c, hi⟩
  | cons m ms ih =>
    obtain ⟨c', hc'⟩ := (effect_step s m).stays_sealed hi
    exact ih hc'

/-- A party keeps what it is until it commits or aborts, or prepares anew. -/
theorem Effect.party?_of_sealed (h : Effect s m a t) (hi : s.party? i = some (.committing d c))
    (hcommit : m ≠ .commit i) (habort : m ≠ .abort i) (hprepare : (m, a) ≠ (.prepare i, .done)) :
    t.party? i = s.party? i := by
  have other : ∀ {j p}, j ≠ i → (s.setParty j p).party? i = s.party? i := by
    intro j p hj
    rw [setParty_party?, if_neg hj.symm]
  have open_ne : ∀ {j}, s.party? j ≠ s.party? i → j ≠ i := by
    rintro j hj rfl
    exact hj rfl
  cases h with
  | idle => rfl
  | opened j free => exact other (open_ne (by rw [free, hi]; simp))
  | staged j e d' d'' party => exact other (open_ne (by rw [party, hi]; simp))
  | shut j d' party => exact other (open_ne (by rw [party, hi]; simp))
  | prepared j => exact other (by rintro rfl; exact hprepare rfl)
  | committed j => exact other (by rintro rfl; exact hcommit rfl)
  | failed j => exact other (by rintro rfl; exact hcommit rfl)
  | aborted j => exact other (by rintro rfl; exact habort rfl)

theorem party?_after_of_sealed {ms : List Move} (hi : s.party? i = some (.committing d c))
    (hcommit : .commit i ∉ ms) (habort : .abort i ∉ ms)
    (hprepare : (.prepare i, .done) ∉ s.transcript ms) :
    (s.after ms).party? i = some (.committing d c) := by
  induction ms generalizing s with
  | nil => exact hi
  | cons m ms ih =>
    refine ih ?_ (List.not_mem_of_not_mem_cons hcommit) (List.not_mem_of_not_mem_cons habort)
      (List.not_mem_of_not_mem_cons hprepare)
    rw [← hi]
    exact (effect_step s m).party?_of_sealed hi (List.ne_of_not_mem_cons hcommit).symm
      (List.ne_of_not_mem_cons habort).symm (List.ne_of_not_mem_cons hprepare).symm

/-! ## The answers to a sealed party -/

theorem step_vote_eq_flag {b : Bool} (h : (s.step (.vote i)).2 = .flag b) :
    ∃ d c, s.party? i = some (.committing d c) ∧ c.vote s.store = .ok b := by
  simp only [step, withCohort] at h
  split at h
  · rename_i d c hi
    refine ⟨d, c, hi, ?_⟩
    split at h
    · rename_i b' hb
      cases h
      exact hb
    · cases h
  · cases h

theorem step_prepare_eq_done (h : (s.step (.prepare i)).2 = .done) :
    ∃ d c p, s.party? i = some (.committing d c) ∧ s.store.prepare c.base c.edits = .ok p ∧
      (s.step (.prepare i)).1 = s.setParty i (.committing d { c with prepared := some p }) := by
  simp only [step, withCohort] at h ⊢
  split at h
  · rename_i d c hi
    cases hc : c.prepare s.store with
    | error e =>
      rw [hc] at h
      cases h
    | ok c' =>
      obtain ⟨p, hp, rfl⟩ := Cohort.prepare_eq_ok hc
      exact ⟨d, c, p, hi, hp, rfl⟩
  · cases h

/-- The call succeeds as long as the edits are not overtaken since the version, and fails with a
conflict at one of their paths from then on. -/
def Decided (s : Traffic) (m : Move) (edits : List Edit) (base : Nat) : Prop :=
  (¬ s.Overtaken edits base ∧ (s.step m).2 = .done) ∨
  (s.Overtaken edits base ∧ ∃ e ∈ edits, (s.step m).2 = .failed (.conflict e.path.toString))

/-- Only what was committed since the base decides on a preparation. -/
theorem Sound.decided_prepare (h : s.Sound) (hi : s.party? i = some (.committing d c))
    (hv : validate s.store.model d.edits = .ok ()) :
    s.Decided (.prepare i) d.edits d.base := by
  obtain ⟨hd, hc⟩ := h.parties i _ hi
  by_cases ho : s.Overtaken d.edits d.base
  · refine .inr ⟨ho, ?_⟩
    obtain ⟨e, he, hp⟩ := h.exists_conflict? hd.base_le ho
    have hprep : c.prepare s.store = .error (.conflict e.path.toString) := by
      unfold Cohort.prepare
      rw [hc.base, hc.edits, prepare_of_conflict?_eq_some hp]
      rfl
    exact ⟨e, he, by simp only [step, withCohort, hi, hprep]⟩
  · refine .inl ⟨ho, ?_⟩
    have hno := (h.conflict?_eq_none_iff hd.base_le).2 ho
    obtain ⟨tree, htree⟩ := h.exists_applyAll hd (h.untouched_of_conflict? hno _)
    have hprep : c.prepare s.store = .ok { c with prepared := some ⟨tree, s.store.version⟩ } := by
      unfold Cohort.prepare
      rw [hc.base, hc.edits, prepare_of_conflict? hno htree hv]
      rfl
    simp only [step, withCohort, hi, hprep]

theorem Untouched.trans {edits : List Edit} {a b v : Nat} (hab : s.Untouched edits a b)
    (hbv : s.Untouched edits b v) : s.Untouched edits a v := by
  intro k co hk ha hv
  rcases Nat.lt_or_ge k b with hlt | hge
  · exact hab k co hk ha hlt
  · exact hbv k co hk hge hv

/-- Only what was committed since the preparation decides on a commit. -/
theorem Sound.decided_commit (h : s.Sound) (hi : s.party? i = some (.committing d c))
    {p : Prepared} (hp : c.prepared = some p) : s.Decided (.commit i) d.edits p.version := by
  obtain ⟨hd, hc⟩ := h.parties i _ hi
  have hholds := hc.prepared p hp
  by_cases ho : s.Overtaken d.edits p.version
  · refine .inr ⟨ho, ?_⟩
    obtain ⟨e, he, hpath⟩ := h.exists_conflict? hholds.version_le ho
    have hcommit : c.commit s.store = .error (.conflict e.path.toString) := by
      unfold Cohort.commit Cohort.install Store.install
      rw [hp, hc.edits]
      dsimp only
      rw [committedTree_of_conflict?_eq_some hpath]
      rfl
    exact ⟨e, he, by simp only [step, withCohort, hi, hcommit]⟩
  · refine .inl ⟨ho, ?_⟩
    have hno := (h.conflict?_eq_none_iff hholds.version_le).2 ho
    have hu := hholds.untouched.trans (h.untouched_of_conflict? hno s.store.version)
    obtain ⟨tree, htree⟩ := h.exists_applyAll hd hu
    obtain ⟨installed, hinst⟩ := exists_committedTree hno htree
    obtain ⟨store, hcommit⟩ := Cohort.commit_of_committedTree hp (hc.edits ▸ hinst)
    simp only [step, withCohort, hi, hcommit]

theorem Sound.commit_failed (h : s.Sound) {e : StoreFailure}
    (hf : (s.step (.commit i)).2 = .failed e) :
    (∃ p, e = .conflict p) ∨ e = .notPrepared s.store.name := by
  cases hi : s.party? i with
  | none =>
    simp only [step, withCohort, hi] at hf
    cases hf
  | some party =>
    cases party with
    | drafting d =>
      simp only [step, withCohort, hi] at hf
      cases hf
    | committing d c =>
      cases hp : c.prepared with
      | none =>
        simp only [step, withCohort, hi, Cohort.commit_of_prepared_eq_none hp] at hf
        cases hf
        exact .inr (congrArg _ (h.parties i _ hi).2.store)
      | some p =>
        rcases h.decided_commit hi hp with ⟨_, hdone⟩ | ⟨_, f, _, hconflict⟩
        · rw [hdone] at hf
          cases hf
        · rw [hconflict] at hf
          cases hf
          exact .inl ⟨_, rfl⟩

theorem Sound.step_vote_of_overtaken (h : s.Sound) (hi : s.party? i = some (.committing d c))
    (hv : validate s.store.model d.edits = .ok ()) (ho : s.Overtaken d.edits d.base) :
    s.step (.vote i) = (s, .flag false) := by
  obtain ⟨hd, hc⟩ := h.parties i _ hi
  obtain ⟨e, _, hp⟩ := h.exists_conflict? hd.base_le ho
  have hvote : c.vote s.store = .ok false := by
    unfold Cohort.vote
    rw [hc.base, hc.edits, vote_eq_ok_iff]
    exact ⟨hv, by rw [hp]; rfl⟩
  simp only [step, withCohort, hi, hvote]

/-- A vote that does not fail settles what becomes of a later preparation. -/
theorem Sound.decided_of_vote (h : s.Sound) {b : Bool} (hvote : (s.step (.vote i)).2 = .flag b) :
    ∃ d c, s.party? i = some (.committing d c) ∧ ∀ between,
      (s.after (.vote i :: between)).Decided (.prepare i) d.edits d.base ∧
      (b = false → (s.after (.vote i :: between)).Overtaken d.edits d.base ∧
        ((s.after (.vote i :: between)).step (.vote i)).2 = .flag false) := by
  obtain ⟨d, c, hi, hb⟩ := step_vote_eq_flag hvote
  obtain ⟨hd, hc⟩ := h.parties i _ hi
  unfold Cohort.vote at hb
  rw [hc.base, hc.edits, vote_eq_ok_iff] at hb
  obtain ⟨hv, hb⟩ := hb
  refine ⟨d, c, hi, fun between => ?_⟩
  obtain ⟨c', hi'⟩ := stays_sealed_after hi (.vote i :: between)
  have ht := h.after (.vote i :: between)
  have hv' : validate (s.after (.vote i :: between)).store.model d.edits = .ok () := by
    rw [model_after]
    exact hv
  refine ⟨ht.decided_prepare hi' hv', fun hfalse => ?_⟩
  have hover : s.Overtaken d.edits d.base := by
    by_contra hno
    rw [(h.conflict?_eq_none_iff hd.base_le).2 hno, hfalse] at hb
    cases hb
  have hover' := hover.after (.vote i :: between)
  exact ⟨hover', by rw [ht.step_vote_of_overtaken hi' hv' hover']⟩

/-- A preparation settles what becomes of a later commit, until it is used up or replaced. -/
theorem Sound.decided_of_prepare (h : s.Sound) (hprepare : (s.step (.prepare i)).2 = .done) :
    ∃ d c, s.party? i = some (.committing d c) ∧
      ∀ between, .commit i ∉ between → .abort i ∉ between →
        (.prepare i, .done) ∉ (s.step (.prepare i)).1.transcript between →
        (s.after (.prepare i :: between)).Decided (.commit i) d.edits s.store.version := by
  obtain ⟨d, c, p, hi, hp, hstep⟩ := step_prepare_eq_done hprepare
  obtain ⟨_, _, _, hversion⟩ := prepare_eq_ok hp
  refine ⟨d, c, hi, fun between hcommit habort hagain => ?_⟩
  rw [← hversion]
  have hprepared : (s.step (.prepare i)).1.party? i =
      some (.committing d { c with prepared := some p }) := by
    rw [hstep]
    exact if_pos rfl
  have hkept := party?_after_of_sealed hprepared hcommit habort hagain
  exact (h.after (.prepare i :: between)).decided_commit hkept rfl

/-! ## A run alone -/

theorem commits_after_of_quiet {ms : List Move}
    (hquiet : ∀ j, (.commit j, .done) ∉ s.transcript ms) :
    (s.after ms).commits.length = s.commits.length := by
  have hnone : (s.transcript ms).filterMap committed? = [] := by
    refine List.eq_nil_iff_forall_not_mem.2 fun j hj => ?_
    exact hquiet j (mem_of_mem_filterMap_committed? hj)
  have hparties := congrArg List.length (commits_after s ms)
  rwa [hnone, List.append_nil, List.length_map, List.length_map] at hparties

/-- A draft that was opened on this version is still based on the present one. -/
theorem Sound.base_of_quiet (h : s.Sound) (hfree : s.party? i = none) {ms : List Move}
    (hquiet : ∀ j, (.commit j, .done) ∉ s.transcript (.openDraft i :: ms))
    (hi : (s.after (.openDraft i :: ms)).party? i = some (.committing d c)) :
    d.base = (s.after (.openDraft i :: ms)).store.version := by
  have hopen : s.step (.openDraft i) = (s.setParty i (.drafting s.store.openDraft), .done) := by
    simp only [step, hfree]
  have hparty : (s.step (.openDraft i)).1.party? i = some (.drafting s.store.openDraft) := by
    rw [hopen]
    exact if_pos rfl
  obtain ⟨q, hq, hbase⟩ := base_after hparty ms
  have hsame : q = .committing d c := Option.some.inj (hq.symm.trans hi)
  calc d.base = q.base := by rw [hsame]; rfl
    _ = s.store.version := hbase
    _ = (s.after (.openDraft i :: ms)).store.version := by
      rw [h.version_eq, (h.after _).version_eq, commits_after_of_quiet hquiet]

/-- One writer that is based on the present version has nobody to depend on. -/
theorem independent_singleton (hi : s.party? i = some (.committing d c))
    (hbase : d.base = s.store.version) (hv : validate s.store.model d.edits = .ok ())
    (hcap : 1 ≤ s.store.logCapacity) : s.Independent [(i, d)] where
  party := List.forall_mem_singleton.2 ⟨c, hi⟩
  base := List.forall_mem_singleton.2 hbase
  valid := List.forall_mem_singleton.2 hv
  distinct := List.nodup_singleton i
  clear := List.pairwise_singleton _ _
  room := hcap

/-- While nobody else commits, one writer that is based on the present version gets its way. -/
theorem Sound.answers_alone (h : s.Sound) (hi : s.party? i = some (.committing d c))
    (hbase : d.base = s.store.version) (hv : validate s.store.model d.edits = .ok ())
    (hcap : 1 ≤ s.store.logCapacity) {ns : List Move}
    (hns : movesOf i ns = [.vote i, .prepare i, .commit i])
    (alone : ∀ j, (.commit j, .done) ∈ s.transcript ns → j = i) :
    answersTo i (s.transcript ns) =
      [(.vote i, .flag true), (.prepare i, .done), (.commit i, .done)] := by
  have hw := independent_singleton hi hbase hv hcap
  have hturns : ∀ w ∈ [(i, d)], movesOf w.1 ns = [.vote w.1, .prepare w.1, .commit w.1] :=
    List.forall_mem_singleton.2 hns
  obtain ⟨_, hanswers⟩ := (hw.underway h hturns).after h hw fun j hj =>
    List.mem_singleton.2 (alone j hj)
  rw [hanswers (i, d) List.mem_cons_self, hns]
  rfl

/-- In every reachable state: after a vote that does not fail, whatever happens, a preparation
succeeds until the edits are overtaken since their base, and fails with a conflict from then on; a
vote against the commit says that they are, and is repeated for ever. After a preparation, until it
is used up or another takes its place, a commit succeeds unless the edits are overtaken since the
preparation, and fails with a conflict if they are. No commit fails in any other way, but for want
of a preparation. So if nobody commits between the opening of a draft that the schema allows and its
commit, its vote is for the commit, and its preparation and its commit succeed. -/
theorem refused_only_when_overtaken (name : String) (kind : StoreKind) (model : Yang.Model)
    (capacity : Nat) (ms : List Move) (i : Nat) :
    let s₀ := start (Store.create name kind model capacity)
    let s := s₀.after ms
    (∀ b, (s.step (.vote i)).2 = .flag b → ∃ d c, s.party? i = some (.committing d c) ∧
      ∀ between, let t := s.after (.vote i :: between)
        t.Decided (.prepare i) d.edits d.base ∧
        (b = false → t.Overtaken d.edits d.base ∧ (t.step (.vote i)).2 = .flag false)) ∧
    ((s.step (.prepare i)).2 = .done → ∃ d c, s.party? i = some (.committing d c) ∧
      ∀ between, .commit i ∉ between → .abort i ∉ between →
        (.prepare i, .done) ∉ (s.step (.prepare i)).1.transcript between →
        (s.after (.prepare i :: between)).Decided (.commit i) d.edits s.store.version) ∧
    (∀ e, (s.step (.commit i)).2 = .failed e → (∃ p, e = .conflict p) ∨ e = .notPrepared name) ∧
    (∀ before rest d c, ms = before ++ .openDraft i :: rest → (s₀.after before).party? i = none →
      (∀ j, (.commit j, .done) ∉ (s₀.after before).transcript (.openDraft i :: rest)) →
      s.party? i = some (.committing d c) → validate model d.edits = .ok () →
      ∀ ns, movesOf i ns = [.vote i, .prepare i, .commit i] →
        (∀ j, (.commit j, .done) ∈ s.transcript ns → j = i) →
        answersTo i (s.transcript ns) =
          [(.vote i, .flag true), (.prepare i, .done), (.commit i, .done)]) := by
  intro s₀ s
  have hs₀ : s₀.Sound := sound_start name kind model capacity
  have hs : s.Sound := hs₀.after ms
  have hmodel : s.store.model = model := model_after s₀ ms
  refine ⟨fun b => hs.decided_of_vote, hs.decided_of_prepare, fun e hcommit => ?_, ?_⟩
  · have hname : s.store.name = name := (extends_after s₀ ms).name
    rw [← hname]
    exact hs.commit_failed hcommit
  · rintro before rest d c rfl hfree hquiet hi hv ns hns alone
    have hopen : s = (s₀.after before).after (.openDraft i :: rest) := after_append _ _ _
    have hbase : d.base = s.store.version := by
      rw [hopen] at hi ⊢
      exact (hs₀.after before).base_of_quiet hfree hquiet hi
    have hcap : 1 ≤ s.store.logCapacity := by
      rw [logCapacity_after]
      exact Nat.le_max_right capacity 1
    exact hs.answers_alone hi hbase (hmodel ▸ hv) hcap hns alone

/-- Two commits on another path, under a log that holds one: the preparation and the commit are
refused as they would be for a real overlap. Without them the calls of the writer go well. -/
theorem refused_only_when_overtaken_evicted :
    let s := (start (Store.create "s" .configuration (schemaOf ["a", "b"]) 1)).after
      [.openDraft 0, .stage 0 (.put ⟨["a"]⟩ .null), .sealDraft 0]
    let others : List Move :=
      [.openDraft 1, .stage 1 (.put ⟨["b"]⟩ .null), .sealDraft 1, .prepare 1, .commit 1,
        .openDraft 2, .stage 2 (.delete ⟨["b"]⟩), .sealDraft 2, .prepare 2, .commit 2]
    ((s.step (.vote 0)).2 = .flag true ∧
      (s.after (.vote 0 :: others)).Overtaken [.put ⟨["a"]⟩ .null] 0) ∧
    ((s.step (.prepare 0)).2 = .done ∧
      (s.after (.prepare 0 :: others)).Overtaken [.put ⟨["a"]⟩ .null] 0) ∧
    answersTo 0 (s.transcript [.vote 0, .prepare 0, .commit 0]) =
      [(.vote 0, .flag true), (.prepare 0, .done), (.commit 0, .done)] := by
  intro s others
  obtain ⟨hvote, hprepare, _, halone⟩ := refused_only_when_overtaken "s" .configuration
    (schemaOf ["a", "b"]) 1 [.openDraft 0, .stage 0 (.put ⟨["a"]⟩ .null), .sealDraft 0] 0
  obtain ⟨d, c, hi, hvoted⟩ := hvote true rfl
  cases hi
  obtain ⟨_, _, hi', hprepared⟩ := hprepare rfl
  cases hi'
  refine ⟨⟨rfl, ?_⟩, ⟨rfl, ?_⟩, ?_⟩
  · rcases (hvoted others).1 with ⟨_, hdone⟩ | ⟨hover, _⟩
    · cases hdone
    · exact hover
  · have hkept : (.prepare 0, .done) ∉ (s.step (.prepare 0)).1.transcript others := fun hin =>
      absurd (mem_of_mem_transcript hin) (by simp [others])
    rcases hprepared others (by simp [others]) (by simp [others]) hkept with
      ⟨_, hdone⟩ | ⟨hover, _⟩
    · cases hdone
    · exact hover
  · exact halone [] _ _ _ rfl rfl
      (fun j hj => absurd (mem_of_mem_transcript hj) (by simp)) rfl rfl _ rfl
      (fun j hj => by simpa using mem_of_mem_transcript hj)

end Traffic

end MountRegistry.Store
