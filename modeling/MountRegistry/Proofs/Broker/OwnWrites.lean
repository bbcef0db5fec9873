import MountRegistry.Proofs.Broker.Privacy
import MountRegistry.Proofs.Broker.Spelling

/-
  What a transaction sees that reads and writes. Its draft of a kind is opened on the store as it is
  when the kind is first written to, also if that write fails, and holds the edits of the writes
  that succeeded since (`Writer.Replays`). Reads go to the draft, and before there is one to the
  store as it is. Nobody else has access to a draft, and until it is submitted it writes to no
  store. So between its opening and its end a transaction reads its own writes on a tree that does
  not move (`reads_own_writes`), whatever else is committed meanwhile.
-/

namespace MountRegistry

/-! ## The draft of a kind -/

namespace Writer

/-- The store of a kind when it was first written to, and the edits staged since: the draft is what
they make of its tree. -/
inductive Replays (w : Writer) (kind : StoreKind) : Option Store → List Edit → Prop where
  | untouched (draft : w.draft? kind = none) : Replays w kind none []
  | touched (s : Store) (edits : List Edit) (d : StoreDraft) (draft : w.draft? kind = some d)
    (model : d.model = s.model)
    (working : Edit.applyAll s.tree (edits.map (Store.canonicalEdit s.model)) = .ok d.working) :
    Replays w kind (some s) edits

variable {w : Writer} {pool : StorePool} {kind : StoreKind} {touched : Option Store}
  {edits : List Edit} {e : Edit}

theorem draft?_setDraft (w : Writer) (k kind : StoreKind) (d : StoreDraft) :
    (w.setDraft k d).draft? kind = if kind = k then some d else w.draft? kind :=
  Keyed.find?_insert ..

theorem Replays.of_draft? {w' : Writer} (h : w.Replays kind touched edits)
    (hd : w'.draft? kind = w.draft? kind) : w'.Replays kind touched edits := by
  cases h with
  | untouched draft => exact .untouched (hd.trans draft)
  | touched s edits d draft model working => exact .touched s edits d (hd.trans draft) model working

/-- The draft that the next edit is staged in. -/
theorem Replays.draft (h : w.Replays kind touched edits) (pool : StorePool) :
    let s := touched.getD (w.broker.store pool kind)
    (w.draft pool kind).model = s.model ∧
      Edit.applyAll s.tree (edits.map (Store.canonicalEdit s.model)) =
        .ok (w.draft pool kind).working := by
  unfold Writer.draft
  cases h with
  | untouched draft =>
    rw [draft]
    exact ⟨rfl, rfl⟩
  | touched s edits d draft model working =>
    rw [draft]
    exact ⟨model, working⟩

/-- An edit below the root opens the draft, and joins it unless it fails. -/
theorem Replays.stage (h : w.Replays kind touched edits) (hroot : e.path.isRoot = false) :
    (∃ f, (w.stage pool kind e).2 = .error f ∧
      (w.stage pool kind e).1.Replays kind
        (some (touched.getD (w.broker.store pool kind))) edits) ∨
    ((w.stage pool kind e).2 = .ok () ∧
      (w.stage pool kind e).1.Replays kind
        (some (touched.getD (w.broker.store pool kind))) (edits ++ [e])) := by
  obtain ⟨hmodel, hworking⟩ := h.draft pool
  unfold Writer.stage
  rw [if_neg (by rw [hroot]; exact Bool.false_ne_true)]
  dsimp only
  cases hd : (w.draft pool kind).stage e with
  | error f =>
    refine .inl ⟨_, rfl, .touched _ _ (w.draft pool kind) ?_ hmodel hworking⟩
    rw [draft?_setDraft, if_pos rfl]
  | ok d =>
    refine .inr ⟨rfl, .touched _ _ d ?_ ((StoreDraft.model_stage hd).trans hmodel) ?_⟩
    · rw [draft?_setDraft, if_pos rfl]
    · obtain ⟨working, happly, rfl⟩ := StoreDraft.stage_eq_ok hd
      rw [List.map_append, List.map_singleton, ← hmodel]
      exact Outcome.foldlM_concat_eq_ok.2 ⟨_, hmodel ▸ hworking, happly⟩

theorem draft?_stage_of_ne {k : StoreKind} (hk : kind ≠ k) :
    (w.stage pool k e).1.draft? kind = w.draft? kind := by
  unfold Writer.stage
  split
  · rfl
  · dsimp only
    split
    all_goals rw [draft?_setDraft, if_neg hk]

end Writer

namespace Reader

variable {r : Reader} {pool : StorePool} {kind : StoreKind} {path : DataPath}

theorem read_of_reading (h : r.reading = true) (draft : Option StoreDraft) :
    r.read pool draft kind path = (r, .error (stillReading r.id)) := by
  unfold read
  rw [if_pos h]

/-- Reading leaves the reader of its broker, under its identifier. -/
theorem read_id (draft : Option StoreDraft) : (r.read pool draft kind path).1.id = r.id := by
  unfold read
  split
  · rfl
  · dsimp only
    split <;> rfl

/-- What a reader finds that is not reading: in the draft if there is one, else in the store. -/
theorem read_eq (h : r.reading = false) (draft : Option StoreDraft) :
    (r.read pool draft kind path).2 =
      (draft.elim (r.broker.readCommitted pool kind path) (·.read path)).mapError .store := by
  unfold read
  rw [if_neg (by rw [h]; exact Bool.false_ne_true)]
  cases draft with
  | none =>
    dsimp only [Option.elim]
    cases r.broker.readCommitted pool kind path <;> rfl
  | some d =>
    dsimp only [Option.elim]
    cases d.read path <;> rfl

/-- What a read finds beside the writer of its transaction. -/
theorem read_of_replays (h : r.reading = false) {w : Writer} {touched : Option Store}
    {edits : List Edit} (hw : w.Replays kind touched edits) (path : DataPath) :
    let s := touched.getD (r.broker.store pool kind)
    ∃ tree, Edit.applyAll s.tree (edits.map (Store.canonicalEdit s.model)) = .ok tree ∧
      (r.read pool (w.draft? kind) kind path).2 =
        (tree.readAt (Store.canonicalPath s.model path)).mapError .store := by
  cases hw with
  | untouched draft =>
    rw [read_eq h, draft]
    exact ⟨_, rfl, rfl⟩
  | touched s edits d draft model working =>
    rw [read_eq h, draft]
    refine ⟨d.working, working, ?_⟩
    show (d.working.readAt (Store.canonicalPath d.model path)).mapError TransactionFailure.store = _
    rw [model]
    rfl

end Reader

namespace Broker

namespace Bustle

/-! ## A run -/

/-- The state after a run. -/
def after (s : Bustle) : List Move → Bustle
  | [] => s
  | m :: ms => (s.step m).1.after ms

/-- The moves of a run, each with the answer to it. -/
def transcript (s : Bustle) : List Move → List (Move × Answer)
  | [] => []
  | m :: ms => (m, (s.step m).2) :: (s.step m).1.transcript ms

theorem after_append (s : Bustle) (ms ns : List Move) :
    s.after (ms ++ ns) = (s.after ms).after ns := by
  induction ms generalizing s with
  | nil => rfl
  | cons m ms ih => exact ih (s.step m).1

/-- The transaction of this name is over with the move, or another one begins. -/
def Move.ends (name : String) : Move → Bool
  | act a => a.ends name
  | submit n _ => name = n
  | call _ _ => false

/-- The store of a kind, if the transaction tries to write to it below the root. -/
def touch? (name : String) (b : Broker) (kind : StoreKind) (s : Bustle) : Move → Option Store
  | .act (.stage n k e) =>
    if name = n ∧ kind = k ∧ e.path.isRoot = false then some (b.store s.session.pool kind) else none
  | _ => none

/-- The store of a kind as it was when the transaction first tried to write to it. -/
def firstTouch? (name : String) (b : Broker) (kind : StoreKind) (s : Bustle) :
    List Move → Option Store
  | [] => none
  | m :: ms => (s.touch? name b kind m).or ((s.step m).1.firstTouch? name b kind ms)

/-- The edit of a write that succeeded. -/
def written? (name : String) (kind : StoreKind) : Move × Answer → Option Edit
  | (.act (.stage n k e), .acted .done) => if name = n ∧ kind = k then some e else none
  | _ => none

/-- The edits of the writes of a transaction to a kind that succeeded, in order. -/
def written (name : String) (kind : StoreKind) (heard : List (Move × Answer)) : List Edit :=
  heard.filterMap (written? name kind)

/-- A transaction that reads and writes is open, and for each kind its draft replays these edits. -/
structure Open (s : Bustle) (name id : String) (b : Broker) (r : Reader) (w : Writer)
    (touched : StoreKind → Option Store) (edits : StoreKind → List Edit) : Prop where
  transaction : s.session.transaction? name = some (.readWrite r w)
  id : r.id = id
  reader : r.broker = b
  writer : w.broker = b
  replays : ∀ kind, w.Replays kind (touched kind) (edits kind)

variable {s t : Bustle} {name id : String} {b : Broker} {r : Reader} {w : Writer}
  {touched : StoreKind → Option Store} {edits : StoreKind → List Edit} {m : Move}

/-- What is staged elsewhere is not written here. -/
theorem not_written_of_ne {n : String} {kind k : StoreKind} (h : ¬ (name = n ∧ kind = k)) (e : Edit)
    (x : Answer) :
    s.touch? name b kind (.act (.stage n k e)) = none ∧
      written? name kind (.act (.stage n k e), x) = none := by
  refine ⟨if_neg fun hn => h ⟨hn.1, hn.2.1⟩, ?_⟩
  unfold written?
  split
  · rename_i heq
    cases heq
    exact if_neg h
  · rfl

theorem not_written_of_not_concerned {a : Action} (h : a.concerns name = false) (kind : StoreKind)
    (x : Answer) :
    s.touch? name b kind (.act a) = none ∧ written? name kind (.act a, x) = none := by
  cases a with
  | stage n k e => exact not_written_of_ne (fun hn => of_decide_eq_false h hn.1) e x
  | _ => exact ⟨rfl, rfl⟩

/-- A move that stages nothing for the transaction leaves its drafts. -/
theorem Open.quiet (h : s.Open name id b r w touched edits) {r' : Reader}
    (ht : (s.step m).1.session.transaction? name = some (.readWrite r' w)) (hid : r'.id = r.id)
    (hb : r'.broker = r.broker) (htouch : ∀ kind, s.touch? name b kind m = none)
    (hwritten : ∀ kind, written? name kind (m, (s.step m).2) = none) :
    (s.step m).1.Open name id b r' w (fun kind => (touched kind).or (s.touch? name b kind m))
      fun kind => edits kind ++ (written? name kind (m, (s.step m).2)).toList where
  transaction := ht
  id := hid.trans h.id
  reader := hb.trans h.reader
  writer := h.writer
  replays := by
    intro kind
    rw [htouch, hwritten, Option.or_none, Option.toList_none, List.append_nil]
    exact h.replays kind

theorem Open.stage (h : s.Open name id b r w touched edits) (k : StoreKind) (e : Edit) :
    ∃ w', (s.step (.act (.stage name k e))).1.Open name id b r w'
      (fun kind => (touched kind).or (s.touch? name b kind (.act (.stage name k e))))
      fun kind => edits kind ++
        (written? name kind
          (.act (.stage name k e), (s.step (.act (.stage name k e))).2)).toList := by
  have hact := Session.stage_of_readWrite h.transaction k e
  cases hroot : e.path.isRoot with
  | true =>
    have hrefused : w.stage s.session.pool k e = (w, .error Writer.rootRefused) := by
      unfold Writer.stage
      rw [if_pos hroot]
    rw [hrefused] at hact
    refine ⟨w, h.quiet ?_ rfl rfl ?_ ?_⟩
    · change (s.session.stage name k e).1.transaction? name = _
      rw [hact, Session.transaction?_setTransaction, if_pos rfl]
    · exact fun kind => if_neg fun hn => by rw [hroot] at hn; cases hn.2.2
    · intro kind
      change written? name kind (_, .acted (s.session.stage name k e).2) = none
      rw [hact]
      rfl
  | false =>
    refine ⟨(w.stage s.session.pool k e).1, ?_, h.id, h.reader,
      (w.stage_broker _ k e).trans h.writer, fun kind => ?_⟩
    · change (s.session.stage name k e).1.transaction? name = _
      rw [hact, Session.transaction?_setTransaction, if_pos rfl]
    · change Writer.Replays _ kind _ (edits kind ++
        (written? name kind (_, .acted (s.session.stage name k e).2)).toList)
      rw [hact]
      by_cases hk : kind = k
      · subst hk
        have htouch : s.touch? name b kind (.act (.stage name kind e)) =
            some (w.broker.store s.session.pool kind) := by
          rw [h.writer]
          exact if_pos ⟨rfl, rfl, hroot⟩
        rw [htouch, Option.or_some]
        rcases (h.replays kind).stage hroot with ⟨f, hfailed, hreplays⟩ | ⟨hdone, hreplays⟩
        · rw [hfailed]
          exact (List.append_nil (edits kind)).symm ▸ hreplays
        · rw [hdone]
          have hwritten : written? name kind (.act (.stage name kind e), .acted .done) = some e :=
            if_pos ⟨rfl, rfl⟩
          exact hwritten ▸ hreplays
      · obtain ⟨htouch, hwritten⟩ := not_written_of_ne (s := s) (b := b) (fun hn => hk hn.2) e _
        rw [htouch, hwritten, Option.or_none, Option.toList_none, List.append_nil]
        exact (h.replays kind).of_draft? (Writer.draft?_stage_of_ne hk)

/-- What a move makes of the transaction, unless it ends it. -/
theorem Open.step (h : s.Open name id b r w touched edits) (hm : m.ends name = false) :
    ∃ r' w', (s.step m).1.Open name id b r' w'
      (fun kind => (touched kind).or (s.touch? name b kind m))
      fun kind => edits kind ++ (written? name kind (m, (s.step m).2)).toList := by
  cases m with
  | call i j =>
    refine ⟨r, w, h.quiet ?_ rfl rfl (fun _ => rfl) fun _ => rfl⟩
    simp only [Bustle.step]
    split
    · exact h.transaction
    · exact h.transaction
  | submit n i =>
    refine ⟨r, w, h.quiet ?_ rfl rfl (fun _ => rfl) fun _ => rfl⟩
    simp only [Bustle.step]
    split
    · refine (Session.transaction?_forget s.session n).trans ?_
      rw [if_neg (of_decide_eq_false hm)]
      exact h.transaction
    · exact h.transaction
  | act a =>
    cases hc : a.concerns name with
    | false =>
      refine ⟨r, w, h.quiet ?_ rfl rfl ?_ ?_⟩
      · exact (Session.transaction?_act hc).trans h.transaction
      · exact fun kind => (not_written_of_not_concerned hc kind .refused).1
      · exact fun kind => (not_written_of_not_concerned (s := s) (b := b) hc kind _).2
    | true =>
      cases a with
      | read n kind path =>
        obtain rfl := of_decide_eq_true hc
        have ht := Session.transaction?_read h.transaction kind path .node
        exact ⟨_, w, h.quiet ht (Reader.read_id _) (Reader.read_broker ..) (fun _ => rfl)
          fun _ => rfl⟩
      | hasNode n kind path =>
        obtain rfl := of_decide_eq_true hc
        have ht := Session.transaction?_read h.transaction kind path fun found => .flag found.isSome
        exact ⟨_, w, h.quiet ht (Reader.read_id _) (Reader.read_broker ..) (fun _ => rfl)
          fun _ => rfl⟩
      | close n =>
        obtain rfl := of_decide_eq_true hc
        have ht : (s.session.act (.close name)).1.transaction? name =
            some (.readWrite r.close w) := by
          simp only [Session.act, h.transaction, Session.transaction?_setTransaction, if_pos]
          rfl
        exact ⟨_, w, h.quiet ht rfl rfl (fun _ => rfl) fun _ => rfl⟩
      | stage n k e =>
        obtain rfl := of_decide_eq_true hc
        obtain ⟨w', hw'⟩ := h.stage k e
        exact ⟨r, w', hw'⟩
      | openTransaction => exact absurd hc (Bool.eq_false_iff.1 hm)
      | cancel => exact absurd hc (Bool.eq_false_iff.1 hm)
      | submit => exact absurd hc (Bool.eq_false_iff.1 hm)
      | submitAll => exact absurd hc (Bool.eq_false_iff.1 hm)
      | _ => cases hc

theorem Open.after {ms : List Move} (h : s.Open name id b r w touched edits)
    (hms : ∀ m ∈ ms, m.ends name = false) :
    ∃ r' w', (s.after ms).Open name id b r' w'
      (fun kind => (touched kind).or (s.firstTouch? name b kind ms))
      fun kind => edits kind ++ written name kind (s.transcript ms) := by
  induction ms generalizing s r w touched edits with
  | nil =>
    refine ⟨r, w, h.transaction, h.id, h.reader, h.writer, fun kind => ?_⟩
    unfold firstTouch? transcript written
    rw [Option.or_none, List.filterMap_nil, List.append_nil]
    exact h.replays kind
  | cons m ms ih =>
    obtain ⟨hm, hms⟩ := List.forall_mem_cons.1 hms
    obtain ⟨r₁, w₁, h₁⟩ := h.step hm
    obtain ⟨r', w', h'⟩ := ih h₁ hms
    refine ⟨r', w', h'.transaction, h'.id, h'.reader, h'.writer, fun kind => ?_⟩
    have hreplays := h'.replays kind
    rw [Option.or_assoc, List.append_assoc] at hreplays
    have hwritten : written name kind (s.transcript (m :: ms)) =
        (written? name kind (m, (s.step m).2)).toList ++
          written name kind ((s.step m).1.transcript ms) := by
      unfold written
      rw [transcript, List.filterMap_cons]
      cases written? name kind (m, (s.step m).2) <;> rfl
    rw [hwritten]
    exact hreplays

theorem open_openTransaction {n : Nat} (hb : s.session.broker? n = some b) (name id : String) :
    (s.step (.act (.openTransaction name n .readWrite id))).1.Open name id b
      { id, broker := b } { broker := b } (fun _ => none) fun _ => [] where
  transaction := by
    have hact : (s.session.act (.openTransaction name n .readWrite id)).1 =
        s.session.setTransaction name (.readWrite { id, broker := b } { broker := b }) := by
      simp only [Session.act, Session.withBroker, hb]
      rfl
    change (s.session.act (.openTransaction name n .readWrite id)).1.transaction? name = _
    rw [hact, Session.transaction?_setTransaction, if_pos rfl]
  id := rfl
  reader := rfl
  writer := rfl
  replays := fun _ => .untouched rfl

/-- What is answered to a read. -/
def reply (found : Except StoreFailure (Option Json)) (f : Option Json → Broker.Answer) :
    Broker.Answer :=
  match found with
  | .ok found => f found
  | .error e => .failed (.store e)

theorem Open.read (h : s.Open name id b r w touched edits) (kind : StoreKind) (path : DataPath) :
    let base := (touched kind).getD (b.store s.session.pool kind)
    ∃ tree, Edit.applyAll base.tree ((edits kind).map (Store.canonicalEdit base.model)) = .ok tree ∧
      ∀ f, (s.session.read name kind path f).2 =
        if r.reading then .failed (Reader.stillReading id)
        else reply (tree.readAt (Store.canonicalPath base.model path)) f := by
  intro base
  have hread := fun f => congrArg Prod.snd (Session.read_of_readWrite h.transaction kind path f)
  cases hr : r.reading with
  | true =>
    obtain ⟨_, htree⟩ := (h.replays kind).draft s.session.pool
    rw [h.writer] at htree
    refine ⟨_, htree, fun f => (hread f).trans ?_⟩
    rw [Reader.read_of_reading hr, h.id]
    rfl
  | false =>
    obtain ⟨tree, htree, hfound⟩ := Reader.read_of_replays hr (h.replays kind) path
    rw [h.reader] at htree hfound
    refine ⟨tree, htree, fun f => (hread f).trans ?_⟩
    rw [hfound]
    cases tree.readAt (Store.canonicalPath base.model path) <;> rfl

/-! ## What a transaction does to the stores -/

theorem undisturbed_act {a : Action} (h : (s.session.act a).1.pool = s.session.pool) :
    s.session.pool.Undisturbed (s.step (.act a)).1.session.pool := by
  rw [← h]
  exact Session.undisturbed_hearAll _

/-- The move opens a transaction under this name. -/
def Move.opens (name : String) : Move → Bool
  | act (.openTransaction n _ _ _) => name = n
  | _ => false

theorem step_transaction?_eq_none (h : s.session.transaction? name = none)
    (hm : m.opens name = false) : (s.step m).1.session.transaction? name = none := by
  cases m with
  | call i j =>
    simp only [Bustle.step]
    split <;> exact h
  | submit n i =>
    simp only [Bustle.step]
    split
    · refine (Session.transaction?_forget s.session n).trans ?_
      rw [h, ite_self]
    · exact h
  | act a =>
    refine Session.transaction?_act_eq_none h fun k access id ha => ?_
    subst ha
    exact of_decide_eq_false hm rfl

theorem after_transaction?_eq_none {ms : List Move} (h : s.session.transaction? name = none)
    (hms : ∀ m ∈ ms, m.opens name = false) : (s.after ms).session.transaction? name = none := by
  induction ms generalizing s with
  | nil => exact h
  | cons m ms ih =>
    obtain ⟨hm, hms⟩ := List.forall_mem_cons.1 hms
    exact ih (step_transaction?_eq_none h hm) hms

/-- Under a name that nothing is open under, nothing is committed. -/
theorem undisturbed_of_transaction?_eq_none (h : s.session.transaction? name = none) (i : Nat) :
    s.session.pool.Undisturbed (s.step (.act (.submit name))).1.session.pool ∧
      s.session.pool.Undisturbed (s.step (.submit name i)).1.session.pool := by
  constructor
  · refine undisturbed_act ?_
    simp only [Session.act, Session.submit?, h, Option.bind_none, Option.map_none]
  · simp only [Bustle.step, h, Option.bind_none]
    exact .refl _

/-- Take a transaction that reads and writes, from its opening on until it ends, and all that goes
on at its broker and others meanwhile. A read or a look-up of a kind is refused while an earlier one
is open. Else it finds, at the canonical path, what the writes of the transaction to the kind that
succeeded make, in order, of the tree that the store had when the transaction first tried to write
to the kind below the root, and of the present one if it never did. Nothing that it does short of a
commit disturbs a store; and once it is cancelled, neither does a commit under its name. -/
theorem reads_own_writes (slots : Slots) (before rest : List Move) (name id : String) (n : Nat)
    (b : Broker) (hb : ((start slots).after before).session.broker? n = some b)
    (hrest : ∀ m ∈ rest, m.ends name = false) :
    let opened := (start slots).after (before ++ [.act (.openTransaction name n .readWrite id)])
    let s := opened.after rest
    (∃ r w, s.session.transaction? name = some (.readWrite r w) ∧ ∀ kind path,
      let base := (opened.firstTouch? name b kind rest).getD (b.store s.session.pool kind)
      let own := written name kind (opened.transcript rest)
      ∃ tree, Edit.applyAll base.tree (own.map (Store.canonicalEdit base.model)) = .ok tree ∧
        let found := tree.readAt (Store.canonicalPath base.model path)
        (s.step (.act (.read name kind path))).2 =
          .acted (if r.reading then .failed (Reader.stillReading id) else reply found .node) ∧
        (s.step (.act (.hasNode name kind path))).2 =
          .acted (if r.reading then .failed (Reader.stillReading id)
            else reply found fun found => .flag found.isSome)) ∧
    (∀ a, a.concerns name = true → a.commits = false →
      s.session.pool.Undisturbed (s.step (.act a)).1.session.pool) ∧
    (∀ later, (∀ m ∈ later, m.opens name = false) →
      let t := (s.step (.act (.cancel name))).1.after later
      t.session.transaction? name = none ∧ ∀ i,
        t.session.pool.Undisturbed (t.step (.act (.submit name))).1.session.pool ∧
        t.session.pool.Undisturbed (t.step (.submit name i)).1.session.pool) := by
  intro opened s
  have hopened : opened.Open name id b { id, broker := b } { broker := b } (fun _ => none)
      fun _ => [] := by
    rw [show opened = _ from after_append ..]
    exact open_openTransaction hb name id
  obtain ⟨r, w, hs⟩ := hopened.after hrest
  have hopen : s.session.transaction? name = some (.readWrite r w) := hs.transaction
  refine ⟨⟨r, w, hopen, fun kind path => ?_⟩, fun a hname ha => ?_, fun later hlater => ?_⟩
  · obtain ⟨tree, htree, hread⟩ := hs.read kind path
    exact ⟨tree, htree, congrArg Answer.acted (hread _), congrArg Answer.acted (hread _)⟩
  · exact undisturbed_act (Session.act_pool hname ha)
  · have hcancelled : (s.session.act (.cancel name)).1.transaction? name = none := by
      simp only [Session.act, hopen, Session.transaction?_forget, if_pos]
    have hgone := after_transaction?_eq_none (s := (s.step (.act (.cancel name))).1) hcancelled
      hlater
    exact ⟨hgone, undisturbed_of_transaction?_eq_none hgone⟩

/-- A schema of one module with two data nodes. -/
def twoNodes : Yang.Model :=
  ⟨[(⟨"m", none⟩, ⟨"m", "urn:m", "m", none, [], ["a", "b"]⟩)], [], []⟩

/-- A broker, and another transaction that writes through it. -/
def besideOther : Bustle :=
  (start (Slots.create 1 0)).after
    ([.act (.createBroker ⟨"n"⟩ twoNodes), .act (.openTransaction "v" 0 .writeOnly "v")] ++
      [.act (.openTransaction "w" 0 .readWrite "w")])

/-- The transaction writes, and the other one writes and commits. -/
def writesAndCommit : List Move :=
  [.act (.stage "w" .configuration (.put ⟨["m:a"]⟩ .null)),
    .act (.stage "v" .configuration (.put ⟨["b"]⟩ .null)), .act (.submit "v")]

/-- The transaction sees its own write, and not the later commit. -/
theorem reads_own_writes_beside_commit :
    ((besideOther.after writesAndCommit).session.pool.store 0).version = 1 ∧
      ((besideOther.after writesAndCommit).step (.act (.hasNode "w" .configuration ⟨["a"]⟩))).2 =
        .acted (.flag true) ∧
      ((besideOther.after writesAndCommit).step (.act (.hasNode "w" .configuration ⟨["b"]⟩))).2 =
        .acted (.flag false) := by
  have hbroker : ((start (Slots.create 1 0)).after [.act (.createBroker ⟨"n"⟩ twoNodes),
      .act (.openTransaction "v" 0 .writeOnly "v")]).session.broker? 0 =
      some ⟨⟨"n"⟩, twoNodes, 0, 1⟩ := rfl
  have hrest : ∀ m ∈ writesAndCommit, m.ends "w" = false := by decide
  obtain ⟨⟨r, w, hopen, hread⟩, _⟩ := reads_own_writes _ _ _ _ "w" _ _ hbroker hrest
  have hfree : some r.reading = some false :=
    (congrArg (fun t => (t.bind Transaction.reader?).map Reader.reading) hopen).symm
  obtain ⟨_, htree, _, ha⟩ := hread .configuration ⟨["a"]⟩
  obtain ⟨_, htree', _, hb⟩ := hread .configuration ⟨["b"]⟩
  rw [Option.some.inj hfree] at ha hb
  cases htree
  cases htree'
  exact ⟨rfl, ha, hb⟩

end Bustle

end Broker

end MountRegistry
