/-
  Finite maps as lists of entries in ascending order of keys. `find?` reads the first entry with a
  key; after `insert k v` it reads `v` at `k` and what it read before elsewhere; after `erase k` it
  reads nothing at `k`. These laws hold of every list of entries, ascending or not; `Ascending` is
  the normal form, in which a map has one list only.
-/

namespace MountRegistry.Keyed

variable {κ α β : Type}

/-- Keys come in strictly ascending order. -/
def Ascending [Ord κ] (m : List (κ × α)) : Prop := m.Pairwise fun a b => compare a.1 b.1 = .lt

section
variable [DecidableEq κ]

/-- The value of the first entry under a key. -/
def find? (m : List (κ × α)) (k : κ) : Option α :=
  match m with
  | [] => none
  | (k', v) :: rest => if k = k' then some v else find? rest k

/-- Whether there is an entry under a key. -/
def contains (m : List (κ × α)) (k : κ) : Bool := (find? m k).isSome

/-- The value at `k` becomes `v`; a key without an entry gets one in its place. -/
def insert [Ord κ] (m : List (κ × α)) (k : κ) (v : α) : List (κ × α) :=
  match m with
  | [] => [(k, v)]
  | (k', v') :: rest =>
    if k = k' then (k, v) :: rest
    else if compare k k' = .lt then (k, v) :: (k', v') :: rest
    else (k', v') :: insert rest k v

/-- The map without the key. -/
def erase (m : List (κ × α)) (k : κ) : List (κ × α) := m.filter fun e => !decide (e.1 = k)

/-- The map with these entries; of several for one key the last counts. -/
def ofList [Ord κ] (entries : List (κ × α)) : List (κ × α) :=
  entries.foldl (fun m e => insert m e.1 e.2) []

@[simp] theorem find?_nil (k : κ) : find? ([] : List (κ × α)) k = none := rfl

theorem find?_insert [Ord κ] (m : List (κ × α)) (k : κ) (v : α) (q : κ) :
    find? (insert m k v) q = if q = k then some v else find? m q := by
  induction m with
  | nil => simp [insert, find?]
  | cons e rest ih =>
    obtain ⟨k', v'⟩ := e
    by_cases h : k = k'
    · subst h
      by_cases hq : q = k <;> simp [insert, find?, hq]
    · by_cases hlt : compare k k' = .lt
      · by_cases hq : q = k <;> simp [insert, find?, h, hlt, hq]
      · by_cases hq' : q = k'
        · subst hq'
          have : ¬ q = k := fun e => h e.symm
          simp [insert, find?, h, hlt, this]
        · simp [insert, find?, h, hlt, hq', ih]

theorem find?_insert_self [Ord κ] (m : List (κ × α)) (k : κ) (v : α) :
    find? (insert m k v) k = some v := by
  simp [find?_insert]

theorem find?_insert_of_ne [Ord κ] (m : List (κ × α)) {k q : κ} (v : α) (h : q ≠ k) :
    find? (insert m k v) q = find? m q := by
  simp [find?_insert, h]

theorem find?_erase (m : List (κ × α)) (k q : κ) :
    find? (erase m k) q = if q = k then none else find? m q := by
  induction m with
  | nil => simp [erase]
  | cons e rest ih =>
    obtain ⟨k', v'⟩ := e
    unfold erase at ih ⊢
    by_cases h : k' = k
    · subst h
      by_cases hq : q = k' <;> simp_all [find?]
    · by_cases hq : q = k'
      · subst hq
        simp [find?, h]
      · simp [find?, h, hq, ih]

end

theorem mem_of_find? [DecidableEq κ] {m : List (κ × α)} {k : κ} {v : α}
    (h : find? m k = some v) : (k, v) ∈ m := by
  induction m with
  | nil => simp at h
  | cons e rest ih =>
    obtain ⟨k', v'⟩ := e
    by_cases hk : k = k'
    · simp [find?, hk] at h
      simp [hk, h]
    · simp [find?, hk] at h
      exact List.mem_cons_of_mem _ (ih h)

end MountRegistry.Keyed
