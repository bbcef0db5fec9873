import MountRegistry.Proofs.Node.Replay
import MountRegistry.Proofs.Replaced

/-
  Any number of calls that set and remove nodes of one topology, each in two steps: the nodes change
  under a lock, and then the change is sent, which waits while the feed is full. The changes replay
  to the nodes in the order in which the nodes changed (`Followed.replayed`). They arrive in the
  order in which they were sent, and that is another order if two calls change one node in turn and
  the second sends first (`sent_out_of_order`). Calls for different nodes may overlap as they like.
-/

namespace MountRegistry

/-- A call on the topology, as far as it has come. -/
inductive TopologyCall where
  | putting (node : TopologyNode)
  | removing (id : NodeId)
  /-- The nodes have changed, and the change is to be sent. -/
  | sending (change : TopologyChange)
  | returned
  deriving DecidableEq

namespace TopologyCall

/-- The node that the call is about to change. -/
def target? : TopologyCall → Option NodeId
  | putting node => some node.nodeId
  | removing id => some id
  | _ => none

/-- The change that the call has made and not sent. -/
def unsent? : TopologyCall → Option TopologyChange
  | sending change => some change
  | _ => none

end TopologyCall

/-- A topology, the calls on it, and what its consumer has received. -/
structure Feed where
  topology : Topology := {}
  /-- How many batches may wait. -/
  capacity : Nat
  calls : List TopologyCall
  received : List (List TopologyChange) := []
  /-- The changes in the order in which the nodes changed. -/
  updates : List TopologyChange := []

namespace Feed

/-- What is asked of a topology. -/
inductive Request where
  | put (node : TopologyNode)
  | remove (id : NodeId)

/-- The call at its beginning. -/
def Request.call : Request → TopologyCall
  | put node => .putting node
  | remove id => .removing id

/-- All calls on an empty topology are about to begin. -/
def start (capacity : Nat) (requests : List Request) : Feed :=
  { capacity, calls := requests.map Request.call }

/-- The nodes have changed; the call that changed them has yet to send the change. -/
def changed (s : Feed) (place : TopologyCall → List TopologyCall) (t : Topology)
    (c : TopologyChange) : Feed :=
  { s with topology := t, calls := place (.sending c), updates := s.updates ++ [c] }

/-- The change is sent, and the call returns. -/
def published (s : Feed) (place : TopologyCall → List TopologyCall) (c : TopologyChange) : Feed :=
  { s with topology := s.topology.publish [c], calls := place .returned }

/-- A call takes its next step; `place` puts it back among the others. -/
def turn (s : Feed) (place : TopologyCall → List TopologyCall) : TopologyCall → Feed
  | .putting node => let (t, c) := s.topology.update node; s.changed place t c
  | .removing id =>
    match s.topology.withdraw id with
    | (t, some c) => s.changed place t c
    | (t, none) => { s with topology := t, calls := place .returned }
  | .sending c =>
    if s.topology.feed.length < s.capacity then s.published place c else s
  | .returned => s

/-- It is the turn of the call of this number, if there is one. -/
def turnOf (s : Feed) (i : Nat) : Feed :=
  match s.calls[i]? with
  | none => s
  | some call => s.turn (s.calls.set i) call

/-- The consumer receives a batch, if one waits. -/
def receive (s : Feed) : Feed :=
  match s.topology.feed with
  | [] => s
  | batch :: rest =>
    { s with topology := { s.topology with feed := rest }, received := s.received ++ [batch] }

/-- A call takes its next step, or the consumer receives a batch. -/
inductive Move where
  | turn (i : Nat)
  | receive

/-- The move of whoever it is. -/
def step (s : Feed) : Move → Feed
  | .turn i => s.turnOf i
  | .receive => s.receive

/-- The moves one after the other. -/
def run (s : Feed) : List Move → Feed
  | [] => s
  | move :: rest => (s.step move).run rest

/-- The changes in the order in which they arrive. -/
def arrivals (s : Feed) : List TopologyChange := (s.received ++ s.topology.feed).flatten

/-- The changes that were made and not sent. -/
def unsent (s : Feed) : List TopologyChange := s.calls.filterMap TopologyCall.unsent?

/-- Whether no change is unsent of the node that the call of this number is about to change. -/
def isClear (s : Feed) (i : Nat) : Bool :=
  match s.calls[i]?.bind TopologyCall.target? with
  | some id => (TopologyChange.of id s.unsent).isEmpty
  | none => true

/-- Whether no call changes a node while another change of that node is unsent. -/
def isOrderly (s : Feed) : List Move → Bool
  | [] => true
  | .turn i :: rest => s.isClear i && (s.turnOf i).isOrderly rest
  | .receive :: rest => s.receive.isOrderly rest

open TopologyChange

/-- The changes tell what became of the nodes, and each is sent once. -/
structure Followed (s : Feed) : Prop where
  consumer : s.topology.hasConsumer = true
  replayed : replay? [] s.updates = some s.topology.nodes
  sent : (s.arrivals ++ s.unsent).Perm s.updates

/-- The changes of each node are sent in the order of the updates. -/
structure InOrder (s : Feed) : Prop where
  alone : ∀ id, (of id s.unsent).length ≤ 1
  same : ∀ id, of id s.arrivals ++ of id s.unsent = of id s.updates

/-! ## One step -/

theorem replay?_update (t : Topology) (node : TopologyNode) :
    replay? t.nodes [(t.update node).2] = some (t.update node).1.nodes := by
  unfold Topology.update Keyed.contains
  cases h : Keyed.find? t.nodes node.nodeId <;> simp [replay?, make?, h, put]

theorem replay?_withdraw {t t' : Topology} {id : NodeId} {c : TopologyChange}
    (h : t.withdraw id = (t', some c)) :
    c.nodeId = id ∧ t'.feed = t.feed ∧ t'.hasConsumer = t.hasConsumer ∧
      replay? t.nodes [c] = some t'.nodes := by
  unfold Topology.withdraw at h
  split at h
  · rename_i hin
    obtain ⟨node, hnode⟩ := Option.isSome_iff_exists.1 hin
    cases h
    exact ⟨rfl, rfl, rfl, by simp [replay?, make?, hnode, put]⟩
  · cases h

theorem withdraw_eq_none {t t' : Topology} {id : NodeId} (h : t.withdraw id = (t', none)) :
    t' = t := by
  unfold Topology.withdraw at h
  split at h <;> cases h
  rfl

section
variable {s : Feed} {before after : List TopologyCall} {call : TopologyCall}

/-- One that stands among others may as well come last. -/
theorem perm_last {α : Type} (xs ys : List α) (a : α) : (xs ++ a :: ys).Perm (xs ++ ys ++ [a]) :=
  List.perm_middle.trans (List.perm_append_singleton a (xs ++ ys)).symm

theorem unsent_of_none (hs : s.calls = before ++ call :: after) (h : call.unsent? = none) :
    s.unsent =
      before.filterMap TopologyCall.unsent? ++ after.filterMap TopologyCall.unsent? := by
  unfold unsent
  rw [hs, List.filterMap_append, List.filterMap_cons_none h]

theorem unsent_of_some (hs : s.calls = before ++ call :: after) {c : TopologyChange}
    (h : call.unsent? = some c) :
    s.unsent =
      before.filterMap TopologyCall.unsent? ++ c :: after.filterMap TopologyCall.unsent? := by
  unfold unsent
  rw [hs, List.filterMap_append, List.filterMap_cons_some h]

theorem arrivals_changed (place : TopologyCall → List TopologyCall) {t : Topology}
    (hfeed : t.feed = s.topology.feed) (c : TopologyChange) :
    (s.changed place t c).arrivals = s.arrivals :=
  congrArg (fun feed => (s.received ++ feed).flatten) hfeed

theorem unsent_changed (t : Topology) (c : TopologyChange) :
    (s.changed (before ++ · :: after) t c).unsent =
      before.filterMap TopologyCall.unsent? ++ c :: after.filterMap TopologyCall.unsent? := by
  have hcalls : (s.changed (before ++ · :: after) t c).calls = before ++ .sending c :: after := rfl
  exact unsent_of_some hcalls rfl

theorem arrivals_published (h : s.topology.hasConsumer = true)
    (place : TopologyCall → List TopologyCall) (c : TopologyChange) :
    (s.published place c).arrivals = s.arrivals ++ [c] := by
  unfold arrivals published Topology.publish
  rw [if_pos h]
  simp

theorem unsent_published (c : TopologyChange) :
    (s.published (before ++ · :: after) c).unsent =
      before.filterMap TopologyCall.unsent? ++ after.filterMap TopologyCall.unsent? := by
  have hcalls : (s.published (before ++ · :: after) c).calls = before ++ .returned :: after := rfl
  exact unsent_of_none hcalls rfl

/-- A call that has nothing to send returns. -/
theorem unsent_returned (hs : s.calls = before ++ call :: after) (h : call.unsent? = none) :
    Feed.unsent { s with calls := before ++ .returned :: after } = s.unsent := by
  have hcalls : Feed.calls { s with calls := before ++ .returned :: after } =
    before ++ .returned :: after := rfl
  rw [unsent_of_none hs h, unsent_of_none hcalls rfl]

theorem Followed.changed (h : s.Followed) (hs : s.calls = before ++ call :: after)
    (hcall : call.unsent? = none) {t : Topology} {c : TopologyChange}
    (hfeed : t.feed = s.topology.feed) (hconsumer : t.hasConsumer = s.topology.hasConsumer)
    (hc : replay? s.topology.nodes [c] = some t.nodes) :
    (s.changed (before ++ · :: after) t c).Followed where
  consumer := hconsumer.trans h.consumer
  replayed := by
    refine (replay?_append s.updates [c]).trans ?_
    rw [h.replayed]
    exact hc
  sent := by
    have hsent := h.sent
    rw [unsent_of_none hs hcall] at hsent
    rw [arrivals_changed _ hfeed, unsent_changed]
    -- the new change comes last of the updates, wherever its call stands
    refine ((perm_last _ _ c).append_left s.arrivals).trans ?_
    rw [← List.append_assoc]
    exact hsent.append_right [c]

/-- A change that is sent joins those that arrive. -/
theorem Followed.published (h : s.Followed) {c : TopologyChange}
    (hs : s.calls = before ++ .sending c :: after) :
    (s.published (before ++ · :: after) c).Followed where
  consumer := by
    unfold Feed.published Topology.publish
    rw [if_pos h.consumer]
    exact h.consumer
  replayed := by
    refine h.replayed.trans (congrArg some ?_)
    unfold Feed.published Topology.publish
    rw [if_pos h.consumer]
  sent := by
    have hsent := h.sent
    rw [unsent_of_some hs rfl] at hsent
    rw [arrivals_published h.consumer, unsent_published]
    refine List.Perm.trans ?_ hsent
    rw [List.append_assoc, List.singleton_append]
    exact List.perm_middle.symm.append_left s.arrivals

theorem InOrder.changed (h : s.InOrder) (hs : s.calls = before ++ call :: after)
    (hcall : call.unsent? = none) {t : Topology} {c : TopologyChange}
    (hfeed : t.feed = s.topology.feed) (hclear : of c.nodeId s.unsent = []) :
    (s.changed (before ++ · :: after) t c).InOrder := by
  have hof : ∀ id, of id (s.changed (before ++ · :: after) t c).unsent =
      if c.nodeId = id then [c] else of id s.unsent := by
    intro id
    rw [unsent_changed, of_middle]
    rw [unsent_of_none hs hcall, of_append] at hclear ⊢
    split
    · rename_i hid
      obtain ⟨hbefore, hafter⟩ := List.append_eq_nil_iff.1 hclear
      rw [← hid, hbefore, hafter]
      rfl
    · rfl
  refine ⟨fun id => ?_, fun id => ?_⟩
  · rw [hof]
    split
    · exact Nat.le_refl 1
    · exact h.alone id
  · have hsame := h.same id
    rw [arrivals_changed _ hfeed, hof]
    change _ = of id (s.updates ++ [c])
    rw [of_append, of_cons, ← hsame]
    split
    · rename_i hid
      rw [← hid, hclear, List.append_nil]
      rfl
    · exact (List.append_nil _).symm

theorem InOrder.published (h : s.InOrder) (hconsumer : s.topology.hasConsumer = true)
    {c : TopologyChange} (hs : s.calls = before ++ .sending c :: after) :
    (s.published (before ++ · :: after) c).InOrder := by
  refine ⟨fun id => ?_, fun id => ?_⟩
  · have halone := h.alone id
    rw [unsent_of_some hs rfl, of_middle] at halone
    rw [unsent_published, of_append]
    simp only [List.length_append] at halone ⊢
    omega
  · have halone := h.alone id
    have hsame := h.same id
    rw [unsent_of_some hs rfl, of_middle] at halone hsame
    rw [arrivals_published hconsumer, unsent_published, of_append, of_append, of_cons]
    refine Eq.trans ?_ hsame
    split
    · -- no other change of the node is unsent, so none is overtaken
      rename_i hid
      rw [if_pos hid] at halone
      simp only [List.length_append, List.length_singleton] at halone
      have hbefore : of id (before.filterMap TopologyCall.unsent?) = [] :=
        List.eq_nil_of_length_eq_zero (by omega)
      rw [hbefore]
      simp [of]
    · simp [of]

end

variable {s : Feed}

theorem arrivals_receive (s : Feed) : s.receive.arrivals = s.arrivals := by
  unfold receive
  split
  · rfl
  · rename_i batch rest hfeed
    unfold arrivals
    rw [hfeed, List.append_assoc]
    rfl

theorem receive_same (s : Feed) :
    s.receive.unsent = s.unsent ∧ s.receive.updates = s.updates ∧
      s.receive.topology.nodes = s.topology.nodes ∧
      s.receive.topology.hasConsumer = s.topology.hasConsumer := by
  unfold receive
  split <;> exact ⟨rfl, rfl, rfl, rfl⟩

theorem Followed.receive (h : s.Followed) : s.receive.Followed := by
  obtain ⟨hunsent, hupdates, hnodes, hconsumer⟩ := receive_same s
  refine ⟨hconsumer.trans h.consumer, ?_, ?_⟩
  · rw [hupdates, hnodes]
    exact h.replayed
  · rw [arrivals_receive, hunsent, hupdates]
    exact h.sent

theorem Followed.turn (h : s.Followed) {before after : List TopologyCall} {call : TopologyCall}
    (hs : s.calls = before ++ call :: after) : (s.turn (before ++ · :: after) call).Followed := by
  cases call with
  | putting node => exact h.changed hs rfl rfl rfl (replay?_update s.topology node)
  | removing id =>
    simp only [Feed.turn]
    split
    · rename_i t c hc
      obtain ⟨_, hfeed, hconsumer, hreplay⟩ := replay?_withdraw hc
      exact h.changed hs rfl hfeed hconsumer hreplay
    · rename_i t hc
      obtain rfl := withdraw_eq_none hc
      refine ⟨h.consumer, h.replayed, ?_⟩
      rw [unsent_returned hs rfl]
      exact h.sent
  | sending c =>
    simp only [Feed.turn]
    split
    · exact h.published hs
    · exact h
  | returned => exact h

theorem Followed.turnOf (h : s.Followed) (i : Nat) : (s.turnOf i).Followed := by
  unfold Feed.turnOf
  cases hi : s.calls[i]? with
  | none => exact h
  | some call =>
    obtain ⟨before, after, hs, hset⟩ := Replaced.exists_split hi
    dsimp only
    rw [hset]
    exact h.turn hs

theorem Followed.step (h : s.Followed) (move : Move) : (s.step move).Followed := by
  cases move with
  | turn i => exact h.turnOf i
  | receive => exact h.receive

theorem Followed.run (h : s.Followed) (moves : List Move) : (s.run moves).Followed := by
  induction moves generalizing s with
  | nil => exact h
  | cons move moves ih => exact ih (h.step move)

theorem InOrder.receive (h : s.InOrder) : s.receive.InOrder := by
  obtain ⟨hunsent, hupdates, _, _⟩ := receive_same s
  refine ⟨fun id => ?_, fun id => ?_⟩
  · rw [hunsent]
    exact h.alone id
  · rw [arrivals_receive, hunsent, hupdates]
    exact h.same id

theorem InOrder.turn (h : s.InOrder) (hconsumer : s.topology.hasConsumer = true)
    {before after : List TopologyCall} {call : TopologyCall}
    (hs : s.calls = before ++ call :: after)
    (hclear : ∀ id, call.target? = some id → of id s.unsent = []) :
    (s.turn (before ++ · :: after) call).InOrder := by
  cases call with
  | putting node => exact h.changed hs rfl rfl (hclear node.nodeId rfl)
  | removing id =>
    simp only [Feed.turn]
    split
    · rename_i t c hc
      obtain ⟨hid, hfeed, _, _⟩ := replay?_withdraw hc
      exact h.changed hs rfl hfeed (hid ▸ hclear id rfl)
    · rename_i t hc
      obtain rfl := withdraw_eq_none hc
      have hunsent := unsent_returned hs rfl
      refine ⟨fun q => ?_, fun q => ?_⟩
      · rw [hunsent]
        exact h.alone q
      · rw [hunsent]
        exact h.same q
  | sending c =>
    simp only [Feed.turn]
    split
    · exact h.published hconsumer hs
    · exact h
  | returned => exact h

theorem of_isClear {i : Nat} (h : s.isClear i = true) {call : TopologyCall} {id : NodeId}
    (hcall : s.calls[i]? = some call) (hid : call.target? = some id) : of id s.unsent = [] := by
  unfold isClear at h
  rw [hcall, Option.bind_some, hid] at h
  exact List.isEmpty_iff.1 h

theorem InOrder.turnOf (h : s.InOrder) (hconsumer : s.topology.hasConsumer = true) {i : Nat}
    (hclear : s.isClear i = true) : (s.turnOf i).InOrder := by
  unfold Feed.turnOf
  cases hi : s.calls[i]? with
  | none => exact h
  | some call =>
    obtain ⟨before, after, hs, hset⟩ := Replaced.exists_split hi
    dsimp only
    rw [hset]
    exact h.turn hconsumer hs fun id hid => of_isClear hclear hi hid

theorem InOrder.run (h : s.InOrder) (hf : s.Followed) {moves : List Move}
    (ho : s.isOrderly moves = true) :
    (s.run moves).InOrder := by
  induction moves generalizing s with
  | nil => exact h
  | cons move moves ih =>
    cases move with
    | receive => exact ih h.receive hf.receive ho
    | turn i =>
      obtain ⟨hclear, ho⟩ := Bool.and_eq_true_iff.1 ho
      exact ih (h.turnOf hf.consumer hclear) (hf.turnOf i) ho

/-! ## When all calls have returned -/

theorem unsent_start (capacity : Nat) (requests : List Request) :
    (start capacity requests).unsent = [] := by
  refine List.filterMap_eq_nil_iff.2 fun call hcall => ?_
  obtain ⟨r, _, rfl⟩ := List.mem_map.1 hcall
  cases r <;> rfl

theorem followed_start (capacity : Nat) (requests : List Request) :
    (start capacity requests).Followed := by
  refine ⟨rfl, rfl, ?_⟩
  rw [unsent_start]
  exact List.Perm.refl []

theorem inOrder_start (capacity : Nat) (requests : List Request) :
    (start capacity requests).InOrder := by
  refine ⟨fun id => ?_, fun id => ?_⟩
  · rw [unsent_start]
    exact Nat.zero_le 1
  · rw [unsent_start]
    rfl

/-- Whatever turns the calls take, their changes replay to the nodes in the order in which the nodes
changed. Once all calls have returned, each of these changes arrives once; and if no call changed a
node while another change of that node was unsent, they replay to the nodes in the order in which
they arrive. -/
theorem changes_replay (capacity : Nat) (requests : List Request) (moves : List Move) :
    let s := (start capacity requests).run moves
    replay? [] s.updates = some s.topology.nodes ∧
    ((∀ call ∈ s.calls, call = .returned) → s.arrivals.Perm s.updates ∧
      ((start capacity requests).isOrderly moves = true →
        replay? [] s.arrivals = some s.topology.nodes)) := by
  intro s
  have hf : s.Followed := (followed_start capacity requests).run moves
  refine ⟨hf.replayed, fun hreturned => ?_⟩
  have hunsent : s.unsent = [] := by
    refine List.filterMap_eq_nil_iff.2 fun call hcall => ?_
    rw [hreturned call hcall]
    rfl
  refine ⟨?_, fun ho => ?_⟩
  · have hsent := hf.sent
    rwa [hunsent, List.append_nil] at hsent
  · have hi : s.InOrder :=
      (inOrder_start capacity requests).run (followed_start capacity requests) ho
    refine replay?_of_same List.Pairwise.nil (fun id => ?_) hf.replayed
    have hsame := hi.same id
    rw [hunsent] at hsame
    exact (List.append_nil _).symm.trans hsame

/-- Two nodes are set, the second is sent first, and then the first is removed. -/
theorem changes_replay_overlapping :
    let s := (start 256 [.put ⟨⟨"a"⟩, ["x"], "a"⟩, .put ⟨⟨"b"⟩, ["x"], "b"⟩, .remove ⟨"a"⟩]).run
      [.turn 0, .turn 1, .turn 1, .turn 0, .turn 2, .turn 2, .receive]
    (∀ call ∈ s.calls, call = .returned) ∧ s.arrivals ≠ s.updates ∧
      replay? [] s.arrivals = some s.topology.nodes := by
  intro s
  have hreturned : ∀ call ∈ s.calls, call = .returned := by decide +kernel
  obtain ⟨_, hreplay⟩ := (changes_replay 256 _ _).2 hreturned
  exact ⟨hreturned, by decide +kernel, hreplay (by decide +kernel)⟩

/-- A node is set and then removed, but the removal is the first to be sent. -/
theorem sent_out_of_order :
    let node : TopologyNode := ⟨⟨"a"⟩, ["x"], "a"⟩
    let s := (start 256 [.put node, .remove ⟨"a"⟩]).run
      [.turn 0, .turn 1, .turn 1, .turn 0, .receive, .receive]
    s.calls = [.returned, .returned] ∧ s.topology.nodes = [] ∧
      s.received = [[⟨⟨"a"⟩, .delete, none⟩], [⟨⟨"a"⟩, .write, some node⟩]] ∧
      replay? [] s.arrivals = none := by
  decide +kernel

end Feed

end MountRegistry
