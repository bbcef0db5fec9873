import Mathlib.Data.Set.Card
import MountRegistry.Proofs.Node.Path
import MountRegistry.Proofs.Replaced
import MountRegistry.Proofs.Store.Pool

/-
  Any number of calls on one pool at once. A call that asks for a store looks its key up and, if
  that misses, takes the pool for itself and looks again before it builds; the others may come in
  between. Every call has one section that decides its answer. In the order of these sections the
  calls might as well have come one after the other (`Crowd.Traced`), and of such a sequence it is
  enough to know what one call does: a store that was built stays under its key until its mount path
  is removed, and it comes under no other key and never back (`lookup?_serve`, `lookup?_or_fresh`).
-/

namespace MountRegistry.StorePool

/-- What is asked of a pool. -/
inductive Request where
  | getOrCreate (path : MountPath) (kind : StoreKind) (model : Yang.Model)
  | get (path : MountPath) (kind : StoreKind)
  | removeMount (path : MountPath)

/-- The key of the store that is asked for. -/
def Request.key? : Request → Option StoreKey
  | getOrCreate path kind _ => some (path, kind)
  | get path kind => some (path, kind)
  | removeMount _ => none

/-- What a pool answers. -/
inductive Answer where
  | store (n : Nat)
  /-- There is no store under the key. -/
  | nothing
  /-- So many stores were let go. -/
  | removed (count : Nat)
  deriving DecidableEq

/-- A call that nobody comes in between. -/
def serve (p : StorePool) : Request → StorePool × Answer
  | .getOrCreate path kind model =>
    let (p, n) := p.getOrCreate path kind model
    (p, .store n)
  | .get path kind =>
    match p.lookup? path kind with
    | some n => (p, .store n)
    | none => (p, .nothing)
  | .removeMount path =>
    let (p, count) := p.removeMount path
    (p, .removed count)

/-! ## One call -/

section
variable {p : StorePool} {r : Request} {key : StoreKey} {n : Nat}

theorem serve_of_lookup? (hkey : r.key? = some key) (h : p.lookup? key.1 key.2 = some n) :
    p.serve r = (p, .store n) := by
  cases r with
  | getOrCreate path kind model =>
    cases hkey
    simp only [serve, getOrCreate, h]
  | get path kind =>
    cases hkey
    simp only [serve, h]
  | removeMount path => cases hkey

/-- A key holds after a call what it held before, unless the call removes its mount path, and it
holds what the call gives out for it. -/
theorem lookup?_serve :
    (p.serve r).1.lookup? key.1 key.2 = some n ↔
      (p.lookup? key.1 key.2 = some n ∧ r ≠ .removeMount key.1) ∨
        (r.key? = some key ∧ (p.serve r).2 = .store n) := by
  cases r with
  | getOrCreate path kind model =>
    simp only [serve, getOrCreate_eq, lookup?_insertIfAbsent, Request.key?, Option.some.injEq,
      Answer.store.injEq, ne_eq, reduceCtorEq, not_false_eq_true, and_true]
    by_cases hk : key.1 = path ∧ key.2 = kind
    · obtain ⟨rfl, rfl⟩ := hk
      simp only [and_self, if_true, Option.some.injEq, Prod.mk.eta, true_and]
      refine ⟨.inr, fun h => h.elim (fun hold => ?_) id⟩
      rw [insertIfAbsent_of_lookup? hold]
    · rw [if_neg hk]
      refine ⟨.inl, fun h => h.elim id fun hnew => absurd ?_ hk⟩
      rw [← hnew.1]
      exact ⟨rfl, rfl⟩
  | get path kind =>
    cases h : p.lookup? path kind with
    | some m =>
      simp only [serve, h, Request.key?, Option.some.injEq, Answer.store.injEq, ne_eq, reduceCtorEq,
        not_false_eq_true, and_true]
      refine ⟨.inl, fun h' => h'.elim id ?_⟩
      rintro ⟨rfl, rfl⟩
      exact h
    | none => simp [serve, h]
  | removeMount path =>
    simp only [serve, lookup?_removeMount, Request.key?, reduceCtorEq, false_and, or_false, ne_eq,
      Request.removeMount.injEq]
    by_cases hk : key.1 = path
    · simp [hk]
    · simp [hk, Ne.symm hk]

/-- What is given out for a key is what it held, or else a store of its own that is new. -/
theorem lookup?_or_fresh (hkey : r.key? = some key) (h : (p.serve r).2 = .store n) :
    p.lookup? key.1 key.2 = some n ∨ (p.lookup? key.1 key.2 = none ∧ n = p.created) := by
  cases hold : p.lookup? key.1 key.2 with
  | some m =>
    rw [serve_of_lookup? hkey hold] at h
    cases h
    exact .inl rfl
  | none =>
    cases r with
    | getOrCreate path kind model =>
      cases hkey
      rw [serve, getOrCreate_of_lookup?_eq_none hold] at h
      cases h
      exact .inr ⟨rfl, rfl⟩
    | get path kind =>
      cases hkey
      simp only [serve, hold, reduceCtorEq] at h
    | removeMount path => cases hkey

theorem exists_key_of_serve (h : (p.serve r).2 = .store n) : ∃ key, r.key? = some key := by
  cases r with
  | getOrCreate path kind model => exact ⟨_, rfl⟩
  | get path kind => exact ⟨_, rfl⟩
  | removeMount path => cases h

theorem stores_serve (p : StorePool) (r : Request) : p.stores <+: (p.serve r).1.stores := by
  cases r with
  | getOrCreate path kind model =>
    rw [serve, getOrCreate_eq]
    exact stores_insertIfAbsent p path kind model
  | get path kind =>
    rw [serve]
    split <;> exact List.prefix_rfl
  | removeMount path => exact List.prefix_rfl

/-- What a new store is like. -/
theorem store?_serve_of_fresh (hkey : r.key? = some key) (hold : p.lookup? key.1 key.2 = none)
    (h : (p.serve r).2 = .store n) :
    ∃ model, (p.serve r).1.store? n =
      some (Store.create (key.1.storeName key.2) key.2 model) := by
  cases r with
  | getOrCreate path kind model =>
    cases hkey
    rw [serve, getOrCreate_of_lookup?_eq_none hold] at h ⊢
    cases h
    exact ⟨model, List.getElem?_concat_length⟩
  | get path kind =>
    cases hkey
    simp only [serve, hold, reduceCtorEq] at h
  | removeMount path => cases hkey

end

/-! ## What holds of a pool between the calls -/

/-- The keys stand in order, and every key holds a store of its own name and kind. -/
structure Sound (p : StorePool) : Prop where
  ascending : Keyed.Ascending p.keys
  made : ∀ key : StoreKey, ∀ n, p.lookup? key.1 key.2 = some n →
    ∃ model, p.store? n = some (Store.create (key.1.storeName key.2) key.2 model)

namespace Sound
variable {p : StorePool} {r : Request} {key key' : StoreKey} {n : Nat}

theorem empty : Sound {} where
  ascending := List.Pairwise.nil
  made := fun _ _ h => by cases h

theorem lt_created (h : Sound p) (hn : p.lookup? key.1 key.2 = some n) : n < p.created := by
  obtain ⟨model, hs⟩ := h.made key n hn
  exact (store?_eq_some_iff.1 hs).1

/-- No two keys share a store, as the store has the name and the kind of either. -/
theorem key_inj (h : Sound p) (hn : p.lookup? key.1 key.2 = some n)
    (hn' : p.lookup? key'.1 key'.2 = some n) : key = key' := by
  obtain ⟨model, hs⟩ := h.made key n hn
  obtain ⟨model', hs'⟩ := h.made key' n hn'
  have heq := Option.some.inj (hs.symm.trans hs')
  have hkind : key.2 = key'.2 := congrArg Store.kind heq
  have hname : key.1.storeName key.2 = key'.1.storeName key'.2 := congrArg Store.name heq
  unfold MountPath.storeName at hname
  rw [hkind, String.append_assoc, String.append_assoc, String.append_left_inj] at hname
  exact Prod.ext (MountPath.ext_text hname) hkind

theorem serve (h : Sound p) (r : Request) : Sound (p.serve r).1 where
  ascending := by
    cases r with
    | getOrCreate path kind model =>
      rw [StorePool.serve, getOrCreate_eq]
      cases hold : p.lookup? path kind with
      | some n =>
        rw [insertIfAbsent_of_lookup? hold]
        exact h.ascending
      | none =>
        rw [insertIfAbsent_of_lookup?_eq_none hold]
        exact h.ascending.insert _ _
    | get path kind =>
      rw [StorePool.serve]
      split <;> exact h.ascending
    | removeMount path => exact List.foldlRecOn _ _ h.ascending fun _ hm _ _ => hm.erase _
  made := by
    intro key n hn
    have hstays := fun hold => (h.made key n hold).imp fun _ hs =>
      store?_of_extended (stores_serve p r) hs
    rcases lookup?_serve.1 hn with ⟨hold, _⟩ | ⟨hkey, ha⟩
    · exact hstays hold
    · rcases lookup?_or_fresh hkey ha with hold | ⟨hold, _⟩
      · exact hstays hold
      · exact store?_serve_of_fresh hkey hold ha

/-- What is built after a call: what was built before, and what the call gives out. -/
theorem lt_created_serve (h : Sound p) :
    n < (p.serve r).1.created ↔ n < p.created ∨ (p.serve r).2 = .store n := by
  cases hkey : r.key? with
  | none =>
    cases r with
    | removeMount path => simp [StorePool.serve, StorePool.removeMount, created]
    | _ => cases hkey
  | some key =>
    cases hold : p.lookup? key.1 key.2 with
    | some m =>
      rw [serve_of_lookup? hkey hold, Answer.store.injEq]
      refine ⟨.inl, fun hn => hn.elim id ?_⟩
      rintro rfl
      exact h.lt_created hold
    | none =>
      cases r with
      | getOrCreate path kind model =>
        cases hkey
        rw [StorePool.serve, getOrCreate_of_lookup?_eq_none hold]
        simp only [created, List.length_append, List.length_singleton, Answer.store.injEq,
          Nat.lt_succ_iff_lt_or_eq, eq_comm]
      | get path kind =>
        cases hkey
        simp [StorePool.serve, hold]
      | removeMount path => cases hkey

end Sound

/-! ## One call after the other -/

/-- A call that has its answer. -/
structure Entry where
  caller : Nat
  request : Request
  answer : Answer

/-- The call gave out this store for this key. -/
structure Entry.Gives (e : Entry) (key : StoreKey) (n : Nat) : Prop where
  key : e.request.key? = some key
  answer : e.answer = .store n

/-- The calls lead from one pool to the other, one after the other and with these answers. -/
def Serial (p : StorePool) : List Entry → StorePool → Prop
  | [], q => q = p
  | e :: rest, q => e.answer = (p.serve e.request).2 ∧ Serial (p.serve e.request).1 rest q

/-- The key was given this store, and its mount path was not removed since. -/
def Keeps (history : List Entry) (key : StoreKey) (n : Nat) : Prop :=
  ∃ before e after, history = before ++ e :: after ∧ e.Gives key n ∧
    ∀ x ∈ after, x.request ≠ .removeMount key.1

theorem keeps_cons {e : Entry} {rest : List Entry} {key : StoreKey} {n : Nat} :
    Keeps (e :: rest) key n ↔
      (e.Gives key n ∧ ∀ x ∈ rest, x.request ≠ .removeMount key.1) ∨ Keeps rest key n := by
  constructor
  · rintro ⟨before, x, after, heq, hx, hafter⟩
    rcases List.cons_eq_append_iff.1 heq with ⟨rfl, h⟩ | ⟨before, rfl, rfl⟩
    · cases h
      exact .inl ⟨hx, hafter⟩
    · exact .inr ⟨before, x, after, rfl, hx, hafter⟩
  · rintro (⟨hx, hrest⟩ | ⟨before, x, after, rfl, hx, hafter⟩)
    · exact ⟨[], e, rest, rfl, hx, hrest⟩
    · exact ⟨e :: before, x, after, rfl, hx, hafter⟩

namespace Serial
variable {p q : StorePool} {before between after history : List Entry} {e e' : Entry}
  {key key' : StoreKey} {n n' : Nat}

theorem append_iff :
    Serial p (before ++ after) q ↔ ∃ m, Serial p before m ∧ Serial m after q := by
  induction before generalizing p with
  | nil => simp [Serial]
  | cons e rest ih => simp only [List.cons_append, Serial, ih, and_assoc, exists_and_left]

theorem concat (h : Serial p history q) (i : Nat) (r : Request) :
    Serial p (history ++ [⟨i, r, (q.serve r).2⟩]) (q.serve r).1 :=
  append_iff.2 ⟨q, h, rfl, rfl⟩

theorem stores (h : Serial p history q) : p.stores <+: q.stores := by
  induction history generalizing p with
  | nil => rw [show q = p from h]
  | cons e rest ih => exact (stores_serve p e.request).trans (ih h.2)

theorem sound (hp : Sound p) (h : Serial p history q) : Sound q := by
  induction history generalizing p with
  | nil => rwa [show q = p from h]
  | cons e rest ih => exact ih (hp.serve e.request) h.2

/-- What a key holds at last: what it held at first or was given on the way, and did not lose. -/
theorem lookup?_iff (h : Serial p history q) :
    q.lookup? key.1 key.2 = some n ↔
      (p.lookup? key.1 key.2 = some n ∧ ∀ x ∈ history, x.request ≠ .removeMount key.1) ∨
        Keeps history key n := by
  induction history generalizing p with
  | nil => simp [show q = p from h, Keeps]
  | cons e rest ih =>
    have hgives : e.request.key? = some key ∧ (p.serve e.request).2 = .store n ↔ e.Gives key n :=
      ⟨fun ⟨hkey, ha⟩ => ⟨hkey, h.1.trans ha⟩, fun he => ⟨he.key, h.1.symm.trans he.answer⟩⟩
    rw [ih h.2, lookup?_serve, hgives, keeps_cons, or_and_right, or_assoc, List.forall_mem_cons,
      and_assoc]

/-- Of the stores that were built already, none comes under another key or back under its own. -/
theorem lookup?_of_built (hp : Sound p) (h : Serial p history q) (hn : n < p.created) :
    q.lookup? key.1 key.2 = some n ↔
      p.lookup? key.1 key.2 = some n ∧ ∀ x ∈ history, x.request ≠ .removeMount key.1 := by
  induction history generalizing p with
  | nil => simp [show q = p from h]
  | cons e rest ih =>
    have hstep : (p.serve e.request).1.lookup? key.1 key.2 = some n ↔
        p.lookup? key.1 key.2 = some n ∧ e.request ≠ .removeMount key.1 := by
      rw [lookup?_serve, or_iff_left_iff_imp]
      rintro ⟨hkey, ha⟩
      rcases lookup?_or_fresh hkey ha with hold | ⟨_, rfl⟩
      · refine ⟨hold, fun hr => ?_⟩
        rw [hr] at hkey
        cases hkey
      · exact absurd hn (Nat.lt_irrefl _)
    have hlt : n < (p.serve e.request).1.created := hp.lt_created_serve.2 (.inl hn)
    rw [ih (hp.serve e.request) h.2 hlt, hstep, List.forall_mem_cons, and_assoc]

theorem lt_created_iff (hp : Sound p) (h : Serial p history q) :
    n < q.created ↔ n < p.created ∨ ∃ e ∈ history, e.answer = .store n := by
  induction history generalizing p with
  | nil => simp [show q = p from h]
  | cons e rest ih =>
    rw [ih (hp.serve e.request) h.2, hp.lt_created_serve, ← h.1, or_assoc, List.exists_mem_cons_iff]

/-- Two stores that were given out are the same if they were given out for the same key and its
mount path was not removed in between, and only then. -/
theorem same_iff (hp : Sound p) (h : Serial p (before ++ e :: (between ++ e' :: after)) q)
    (he : e.Gives key n) (he' : e'.Gives key' n') :
    n = n' ↔ key = key' ∧ ∀ x ∈ between, x.request ≠ .removeMount key.1 := by
  obtain ⟨p₁, h₁, hans, h⟩ := append_iff.1 h
  obtain ⟨p₂, h₂, hans', -⟩ := append_iff.1 h
  have hp₁ : Sound p₁ := h₁.sound hp
  have hgiven : (p₁.serve e.request).1.lookup? key.1 key.2 = some n :=
    lookup?_serve.2 (.inr ⟨he.key, hans.symm.trans he.answer⟩)
  have hbuilt : n < (p₁.serve e.request).1.created := (hp₁.serve e.request).lt_created hgiven
  have hkept : p₂.lookup? key'.1 key'.2 = some n ↔
      key = key' ∧ ∀ x ∈ between, x.request ≠ .removeMount key.1 := by
    rw [h₂.lookup?_of_built (hp₁.serve e.request) hbuilt]
    constructor
    · rintro ⟨hn, hbetween⟩
      obtain rfl := (hp₁.serve e.request).key_inj hgiven hn
      exact ⟨rfl, hbetween⟩
    · rintro ⟨rfl, hbetween⟩
      exact ⟨hgiven, hbetween⟩
  rw [← hkept]
  -- the later call gives out what its key holds by then, or a number above all that were built
  rcases lookup?_or_fresh he'.key (hans'.symm.trans he'.answer) with hold | ⟨hnone, hfresh⟩
  · rw [hold, Option.some.injEq, eq_comm]
  · have hlt : n < p₂.created :=
      (h₂.lt_created_iff (hp₁.serve e.request)).2 (.inl hbuilt)
    simp [hnone, hfresh, Nat.ne_of_lt hlt]

/-- A store that was given out has the name and the kind of its key. -/
theorem store?_of_mem (hp : Sound p) (h : Serial p history q) (hmem : e ∈ history)
    (he : e.Gives key n) :
    ∃ model, q.store? n = some (Store.create (key.1.storeName key.2) key.2 model) := by
  obtain ⟨before, after, rfl⟩ := List.append_of_mem hmem
  obtain ⟨p₁, h₁, hans, h₂⟩ := append_iff.1 h
  have hp₁ : Sound p₁ := h₁.sound hp
  obtain ⟨model, hs⟩ := (hp₁.serve e.request).made key n
    (lookup?_serve.2 (.inr ⟨he.key, hans.symm.trans he.answer⟩))
  exact ⟨model, store?_of_extended h₂.stores hs⟩

/-- A store is only ever answered for a key. -/
theorem exists_gives (h : Serial p history q) (hmem : e ∈ history) (ha : e.answer = .store n) :
    ∃ key, e.Gives key n := by
  obtain ⟨before, after, rfl⟩ := List.append_of_mem hmem
  obtain ⟨m, -, hans, -⟩ := append_iff.1 h
  obtain ⟨key, hkey⟩ := exists_key_of_serve (hans.symm.trans ha)
  exact ⟨key, hkey, ha⟩

/-- Who asks for a store and would have it built is given one. -/
theorem gives_of_getOrCreate (h : Serial p history q) (hmem : e ∈ history) {path : MountPath}
    {kind : StoreKind} {model : Yang.Model} (hr : e.request = .getOrCreate path kind model) :
    ∃ n, e.Gives (path, kind) n := by
  obtain ⟨before, after, rfl⟩ := List.append_of_mem hmem
  obtain ⟨m, -, hans, -⟩ := append_iff.1 h
  rw [hr] at hans
  exact ⟨(m.getOrCreate path kind model).2, by rw [hr]; rfl, hans⟩

/-- As many stores were built as were given out. -/
theorem encard_given (h : Serial {} history q) :
    {n | ∃ e ∈ history, ∃ key, e.Gives key n}.encard = q.created := by
  have hset : {n | ∃ e ∈ history, ∃ key, e.Gives key n} = ↑(Finset.range q.created) := by
    ext n
    rw [Set.mem_ofPred_eq, Finset.coe_range, Set.mem_Iio, h.lt_created_iff Sound.empty]
    constructor
    · rintro ⟨e, he, key, hgives⟩
      exact .inr ⟨e, he, hgives.answer⟩
    · rintro (hlt | ⟨e, he, ha⟩)
      · cases hlt
      · exact ⟨e, he, h.exists_gives he ha⟩
  rw [hset, Set.encard_coe_eq_coe_finsetCard, Finset.card_range]

/-- The pool holds as many stores as there are keys that keep one. -/
theorem encard_kept (h : Serial {} history q) :
    {key | ∃ n, Keeps history key n}.encard = q.size := by
  have hset : {key | ∃ n, Keeps history key n} = ↑(q.keys.map (·.1)).toFinset := by
    ext key
    have hkeeps : (∃ n, Keeps history key n) ↔ ∃ n, q.lookup? key.1 key.2 = some n := by
      refine exists_congr fun n => ?_
      rw [h.lookup?_iff, or_iff_right]
      rintro ⟨hn, _⟩
      cases hn
    rw [Set.mem_ofPred_eq, hkeeps, Finset.mem_coe, List.mem_toFinset]
    constructor
    · rintro ⟨n, hn⟩
      exact List.mem_map_of_mem (Keyed.mem_of_find? hn)
    · exact Keyed.exists_find?_of_mem
  have hnodup : (q.keys.map (·.1)).Nodup := (h.sound Sound.empty).ascending.nodup
  rw [hset, Set.encard_coe_eq_coe_finsetCard, List.toFinset_card_of_nodup hnodup, List.length_map,
    size]

end Serial

/-! ## Calls at once -/

/-- A call, as far as it has come. -/
inductive Call where
  | asking (r : Request)
  /-- The key was looked up in vain, and is to be looked up again before the store is built. -/
  | building (path : MountPath) (kind : StoreKind) (model : Yang.Model)
  | ended (r : Request) (a : Answer)

namespace Call

/-- What the call asks for. -/
def request : Call → Request
  | asking r => r
  | building path kind model => .getOrCreate path kind model
  | ended r _ => r

/-- The answer, once the call has ended. -/
def answer? : Call → Option Answer
  | ended _ a => some a
  | _ => none

/-- The sections that are still to come at most. -/
def stepsLeft : Call → Nat
  | asking _ => 2
  | building .. => 1
  | ended .. => 0

theorem stepsLeft_eq_zero {c : Call} : c.stepsLeft = 0 ↔ c.answer? ≠ none := by
  cases c <;> simp [stepsLeft, answer?]

/-- One section, in which the call has the pool to itself. -/
def step (p : StorePool) : Call → StorePool × Call
  | asking (.getOrCreate path kind model) =>
    match p.lookup? path kind with
    | some n => (p, ended (.getOrCreate path kind model) (.store n))
    | none => (p, building path kind model)
  | asking r =>
    let (p, a) := p.serve r
    (p, ended r a)
  | building path kind model =>
    let (p, n) := p.insertIfAbsent path kind model
    (p, ended (.getOrCreate path kind model) (.store n))
  | ended r a => (p, ended r a)

/-- A section changes nothing and leaves the call to another one, or it does all that the call would
do alone. -/
theorem step_cases (p : StorePool) {c : Call} (h : c.answer? = none) :
    (∃ path kind model, c = asking (.getOrCreate path kind model) ∧
        c.step p = (p, building path kind model)) ∨
      c.step p = ((p.serve c.request).1, ended c.request (p.serve c.request).2) := by
  cases c with
  | asking r =>
    cases r with
    | getOrCreate path kind model =>
      cases hold : p.lookup? path kind with
      | some n =>
        have hkey : Request.key? (.getOrCreate path kind model) = some (path, kind) := rfl
        refine .inr ?_
        rw [step, hold, request, serve_of_lookup? hkey hold]
      | none => exact .inl ⟨path, kind, model, rfl, by simp only [step, hold]⟩
    | get path kind => exact .inr rfl
    | removeMount path => exact .inr rfl
  | building path kind model =>
    refine .inr ?_
    simp only [step, request, serve, getOrCreate_eq]
  | ended r a => cases h

end Call

/-- A pool and the calls on it, which have their sections one at a time. -/
structure Crowd where
  pool : StorePool := {}
  calls : List Call
  /-- The calls that have their answers, in the order of the sections that decided them. -/
  history : List Entry := []

namespace Crowd

/-- All calls are about to begin. -/
def start (requests : List Request) : Crowd := { calls := requests.map .asking }

/-- What is told of a call with this number that has just got this far. -/
def told (i : Nat) (c : Call) : List Entry := (c.answer?.map (Entry.mk i c.request)).toList

/-- The call of this number has its next section, if it has one. -/
def step (s : Crowd) (i : Nat) : Crowd :=
  match s.calls[i]? with
  | none => s
  | some c =>
    if c.answer?.isSome then s
    else
      let (pool, c) := c.step s.pool
      { pool, calls := s.calls.set i c, history := s.history ++ told i c }

/-- The calls have their sections in this order. -/
def run (s : Crowd) : List Nat → Crowd
  | [] => s
  | i :: rest => (s.step i).run rest

/-- The pool and the answers are those of the calls in the history, one after the other. -/
structure Traced (s : Crowd) (requests : List Request) : Prop where
  serial : Serial {} s.history s.pool
  requests : s.calls.map Call.request = requests
  answered : ∀ i r a, s.calls[i]? = some (.ended r a) ↔ ⟨i, r, a⟩ ∈ s.history
  callers : (s.history.map Entry.caller).Nodup

variable {s : Crowd} {requests : List Request} {c : Call} {i : Nat}

/-- The step of a call that has ended changes nothing, that of one that missed only how far it has
come, and any other answers the call as if it were alone. -/
theorem step_cases (s : Crowd) (i : Nat) :
    ((∀ c, s.calls[i]? = some c → c.answer? ≠ none) ∧ s.step i = s) ∨
      (∃ path kind model, s.calls[i]? = some (.asking (.getOrCreate path kind model)) ∧
        s.step i = { s with calls := s.calls.set i (.building path kind model) }) ∨
      ∃ c, s.calls[i]? = some c ∧ c.answer? = none ∧
        s.step i = ⟨(s.pool.serve c.request).1,
          s.calls.set i (.ended c.request (s.pool.serve c.request).2),
          s.history ++ [⟨i, c.request, (s.pool.serve c.request).2⟩]⟩ := by
  unfold step
  cases hc : s.calls[i]? with
  | none => exact .inl ⟨fun c h => (by cases h), rfl⟩
  | some c =>
    cases ha : c.answer? with
    | some a => exact .inl ⟨fun c' h => by simp [← Option.some.inj h, ha], by simp [ha]⟩
    | none =>
      refine .inr ?_
      rcases c.step_cases s.pool ha with ⟨path, kind, model, rfl, hstep⟩ | hstep
      · refine .inl ⟨path, kind, model, rfl, ?_⟩
        simp [hstep, told, Call.answer?]
      · refine .inr ⟨c, rfl, ha, ?_⟩
        simp only [ha, Option.isSome_none, Bool.false_eq_true, if_false, hstep]
        rfl

theorem traced_start (requests : List Request) : (start requests).Traced requests where
  serial := rfl
  requests := by simp [start, Function.comp_def, Call.request]
  answered := fun i r a => by simp [start]
  callers := List.nodup_nil

/-- No section of a call changes what it asks. -/
theorem map_request_set (hc : s.calls[i]? = some c) (c' : Call) (h : c'.request = c.request) :
    (s.calls.set i c').map Call.request = s.calls.map Call.request := by
  obtain ⟨before, after, hl, hset⟩ := Replaced.exists_split hc
  rw [hset, hl, List.map_append, List.map_append, List.map_cons, List.map_cons, h]

/-- A call that has no answer yet is not in the history. -/
theorem Traced.caller_ne (h : s.Traced requests) (hc : s.calls[i]? = some c)
    (ha : c.answer? = none) {e : Entry} (he : e ∈ s.history) : e.caller ≠ i := by
  rintro rfl
  have heq := hc.symm.trans ((h.answered e.caller e.request e.answer).2 he)
  rw [Option.some.inj heq] at ha
  cases ha

theorem Traced.missed (h : s.Traced requests) {path : MountPath} {kind : StoreKind}
    {model : Yang.Model} (hc : s.calls[i]? = some (.asking (.getOrCreate path kind model))) :
    Traced { s with calls := s.calls.set i (.building path kind model) } requests where
  serial := h.serial
  requests := (map_request_set hc (.building path kind model) rfl).trans h.requests
  answered := by
    intro j r a
    have hi : i < s.calls.length := (List.getElem?_eq_some_iff.1 hc).1
    by_cases hj : j = i
    · subst hj
      have hnew : ⟨j, r, a⟩ ∉ s.history := fun he => h.caller_ne hc rfl he rfl
      simp [hi, hnew]
    · rw [List.getElem?_set_ne (Ne.symm hj)]
      exact h.answered j r a
  callers := h.callers

theorem Traced.decided (h : s.Traced requests) (hc : s.calls[i]? = some c)
    (ha : c.answer? = none) :
    Traced ⟨(s.pool.serve c.request).1,
      s.calls.set i (.ended c.request (s.pool.serve c.request).2),
      s.history ++ [⟨i, c.request, (s.pool.serve c.request).2⟩]⟩ requests where
  serial := h.serial.concat i c.request
  requests := (map_request_set hc (.ended c.request _) rfl).trans h.requests
  answered := by
    intro j r a
    have hi : i < s.calls.length := (List.getElem?_eq_some_iff.1 hc).1
    rw [List.mem_append, List.mem_singleton]
    by_cases hj : j = i
    · subst hj
      have hnew : ⟨j, r, a⟩ ∉ s.history := fun he => h.caller_ne hc ha he rfl
      simp [hi, hnew, eq_comm]
    · rw [List.getElem?_set_ne (Ne.symm hj), h.answered]
      simp [hj]
  callers := by
    rw [List.map_append, List.map_singleton, ← List.concat_eq_append, List.nodup_concat]
    refine ⟨fun hmem => ?_, h.callers⟩
    obtain ⟨e, he, hcaller⟩ := List.mem_map.1 hmem
    exact h.caller_ne hc ha he hcaller

theorem Traced.step (h : s.Traced requests) (i : Nat) : (s.step i).Traced requests := by
  rcases s.step_cases i with ⟨-, hstep⟩ | ⟨path, kind, model, hc, hstep⟩ | ⟨c, hc, ha, hstep⟩
  · rwa [hstep]
  · rw [hstep]
    exact h.missed hc
  · rw [hstep]
    exact h.decided hc ha

theorem Traced.run (h : s.Traced requests) (schedule : List Nat) :
    (s.run schedule).Traced requests := by
  induction schedule generalizing s with
  | nil => exact h
  | cons i rest ih => exact ih (h.step i)

/-! ## Every call comes to its end -/

/-- A call that comes further leaves the others where they are. -/
theorem stepsLeft_set {c₁ c' : Call} {j : Nat} (hc : s.calls[j]? = some c)
    (hc₁ : s.calls[i]? = some c₁) (hlt : c'.stepsLeft < c₁.stepsLeft) :
    ∃ c'', (s.calls.set i c')[j]? = some c'' ∧ c''.stepsLeft ≤ c.stepsLeft - [i].count j := by
  by_cases hij : i = j
  · subst hij
    obtain rfl := Option.some.inj (hc₁.symm.trans hc)
    have hi : i < s.calls.length := (List.getElem?_eq_some_iff.1 hc).1
    refine ⟨c', List.getElem?_set_self hi, ?_⟩
    rw [List.count_singleton_self]
    omega
  · refine ⟨c, by rw [List.getElem?_set_ne hij, hc], ?_⟩
    simp [hij]

theorem stepsLeft_step (s : Crowd) (i : Nat) {j : Nat} (hc : s.calls[j]? = some c) :
    ∃ c', (s.step i).calls[j]? = some c' ∧ c'.stepsLeft ≤ c.stepsLeft - [i].count j := by
  rcases s.step_cases i with ⟨hended, hstep⟩ | ⟨path, kind, model, hc₁, hstep⟩ |
    ⟨c₁, hc₁, ha, hstep⟩
  · rw [hstep]
    refine ⟨c, hc, ?_⟩
    by_cases hij : i = j
    · subst hij
      have hzero : c.stepsLeft = 0 := Call.stepsLeft_eq_zero.2 (hended c hc)
      omega
    · simp [hij]
  · rw [hstep]
    exact stepsLeft_set hc hc₁ (Nat.lt_succ_self 1)
  · rw [hstep]
    have hpos : 0 < c₁.stepsLeft :=
      Nat.pos_of_ne_zero fun hzero => Call.stepsLeft_eq_zero.1 hzero ha
    exact stepsLeft_set hc hc₁ hpos

theorem stepsLeft_run (schedule : List Nat) {j : Nat} (hc : s.calls[j]? = some c) :
    ∃ c', (s.run schedule).calls[j]? = some c' ∧ c'.stepsLeft ≤ c.stepsLeft - schedule.count j := by
  induction schedule generalizing s c with
  | nil => exact ⟨c, hc, Nat.le_refl _⟩
  | cons i rest ih =>
    obtain ⟨c₁, hc₁, hle₁⟩ := s.stepsLeft_step i hc
    obtain ⟨c₂, hc₂, hle₂⟩ := ih hc₁
    refine ⟨c₂, hc₂, ?_⟩
    have hcount : (i :: rest).count j = [i].count j + rest.count j := by
      rw [← List.count_append, List.singleton_append]
    omega

/-- Two sections are enough for any call. -/
theorem ended_of_two_le {schedule : List Nat} {j : Nat} {r : Request}
    (hr : requests[j]? = some r) (hcount : 2 ≤ schedule.count j) :
    ∃ a, ((start requests).run schedule).calls[j]? = some (.ended r a) := by
  have hcall : (start requests).calls[j]? = some (.asking r) := by
    simp [start, hr]
  obtain ⟨c, hc, hle⟩ := stepsLeft_run schedule hcall
  have hzero : c.stepsLeft = 0 := by
    change c.stepsLeft ≤ 2 - schedule.count j at hle
    omega
  have hrequest : c.request = r := by
    have hmap := congrArg (·[j]?) ((traced_start requests).run schedule).requests
    simpa [hc, hr] using hmap
  cases c with
  | ended r' a =>
    cases hrequest
    exact ⟨a, hc⟩
  | _ => cases hzero

/-- Whatever calls there are on a pool and however their sections come to lie, the answers are those
of the calls one after the other, in the order of the sections that decided them. Of two stores that
were given out, the later is the earlier just if they were asked for under one key and no removal of
its mount path came in between. A store has the kind and the name of its key, as many were built as
were given out, and the pool holds one for every key that was given one and not removed since. Every
call ends, and one of `getOrCreate` with a store. -/
theorem one_store_per_lifetime (requests : List Request) (schedule : List Nat) :
    let s := (start requests).run schedule
    s.Traced requests ∧
    (∀ before e between e' after key key' n n',
      s.history = before ++ e :: (between ++ e' :: after) → e.Gives key n → e'.Gives key' n' →
        (n = n' ↔ key = key' ∧ ∀ x ∈ between, x.request ≠ .removeMount key.1)) ∧
    (∀ e ∈ s.history, ∀ path kind n, e.Gives (path, kind) n →
      ∃ store, s.pool.store? n = some store ∧ store.kind = kind ∧
        store.name = path.text ++
          match kind with
          | .configuration => "-DOM-CFG"
          | .operational => "-DOM-OPER") ∧
    {n | ∃ e ∈ s.history, ∃ key, e.Gives key n}.encard = s.pool.created ∧
    {key | ∃ n, Keeps s.history key n}.encard = s.pool.size ∧
    (∀ i r, requests[i]? = some r → 2 ≤ schedule.count i → ∃ a, ⟨i, r, a⟩ ∈ s.history) ∧
    (∀ e ∈ s.history, ∀ path kind model, e.request = .getOrCreate path kind model →
      ∃ n, e.Gives (path, kind) n) := by
  intro s
  have h : s.Traced requests := (traced_start requests).run schedule
  refine ⟨h, ?same, ?named, h.serial.encard_given, h.serial.encard_kept, ?ends, ?given⟩
  case same =>
    intro before e between e' after key key' n n' heq he he'
    have hserial : Serial {} (before ++ e :: (between ++ e' :: after)) s.pool := heq ▸ h.serial
    exact hserial.same_iff Sound.empty he he'
  case named =>
    intro e hmem path kind n he
    obtain ⟨model, hs⟩ := h.serial.store?_of_mem Sound.empty hmem he
    refine ⟨_, hs, rfl, ?_⟩
    cases kind <;> exact String.append_assoc
  case ends =>
    intro i r hr hcount
    obtain ⟨a, ha⟩ := ended_of_two_le hr hcount
    exact ⟨a, (h.answered i r a).1 ha⟩
  case given =>
    intro e hmem path kind model hr
    exact h.serial.gives_of_getOrCreate hmem hr

/-- Two calls miss the same key, and the second finds what the first has built; a third comes after
the removal and gets a store of its own. -/
example :
    ((start [.getOrCreate ⟨"/r1"⟩ .configuration .empty, .getOrCreate ⟨"/r1"⟩ .configuration .empty,
        .removeMount ⟨"/r1"⟩, .getOrCreate ⟨"/r1"⟩ .configuration .empty]).run
      [0, 1, 0, 1, 2, 3, 3]).history.map (fun e => (e.caller, e.answer)) =
    [(0, .store 0), (1, .store 0), (2, .removed 1), (3, .store 1)] := by
  decide +kernel

end Crowd

end MountRegistry.StorePool
