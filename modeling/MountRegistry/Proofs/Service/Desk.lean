import MountRegistry.Proofs.Keyed
import MountRegistry.Proofs.Service.Handling

/-
  Any number of requests for data that are handled side by side. They are known by numbers, and take
  their steps in any order. Whatever else happens to the service in between is not told apart: it
  may be a whole action, such as bringing a mount point up or taking one down, or a part of one. A
  request is answered by one of its own steps (`exists_answering`), once, and after eight of them at
  the latest (`answered_after`).
-/

namespace MountRegistry.Service

/-- A service and the requests for data that it handles at once, by number. -/
structure Desk where
  service : Service
  handling? : Nat → Option Handling

namespace Desk

/-- What happens at the desk. -/
inductive Move where
  /-- Something else happens to the service. -/
  | meanwhile (f : Service → Service)
  | arrive (i : Nat) (o : Occasion) (q : DataRequest)
  | proceed (i : Nat)

/-- No request has arrived. -/
def start (s : Service) : Desk := ⟨s, fun _ => none⟩

/-- The handling of this number has come so far. -/
def setHandling (d : Desk) (i : Nat) (h : Handling) : Desk :=
  { d with handling? := fun j => if j = i then some h else d.handling? j }

/-- A move; a number that is taken is not given again. -/
def step (d : Desk) : Move → Desk
  | .meanwhile f => { d with service := f d.service }
  | .arrive i o q =>
    match d.handling? i with
    | none => d.setHandling i ⟨o, q, .arrived⟩
    | some _ => d
  | .proceed i =>
    match d.handling? i with
    | none => d
    | some h => { d.setHandling i (h.step d.service).2 with service := (h.step d.service).1 }

/-- The desk after these moves. -/
def after (d : Desk) : List Move → Desk
  | [] => d
  | m :: ms => (d.step m).after ms

/-- What a request was answered, if it was. -/
def response? (d : Desk) (i : Nat) : Option Response := (d.handling? i).bind (·.response?)

/-- Whether a move is a step of this request. -/
def Move.isOf (i : Nat) : Move → Bool
  | .proceed j => j = i
  | _ => false

/-- How often a request takes a step. -/
def stepsOf (i : Nat) (ms : List Move) : Nat := ms.countP (·.isOf i)

/-! ## One move -/

variable {d : Desk} {i : Nat} {h : Handling} {r : Response}

theorem isOf_proceed (i : Nat) : (Move.proceed i).isOf i = true := decide_eq_true rfl

/-- What a move makes of a request. -/
inductive Effect (d : Desk) (i : Nat) : Move → Option Handling → Prop where
  | none (m : Move) (other : m.isOf i = false) : Effect d i m (d.handling? i)
  | absent (free : d.handling? i = none) : Effect d i (.proceed i) none
  | arrived (o : Occasion) (q : DataRequest) (free : d.handling? i = none) :
    Effect d i (.arrive i o q) (some ⟨o, q, .arrived⟩)
  | proceeded (h : Handling) (there : d.handling? i = some h) :
    Effect d i (.proceed i) (some (h.step d.service).2)

theorem handling?_setHandling (d : Desk) (i j : Nat) (h : Handling) :
    (d.setHandling j h).handling? i = if i = j then some h else d.handling? i := rfl

theorem effect_step (d : Desk) (i : Nat) (m : Move) : Effect d i m ((d.step m).handling? i) := by
  cases m with
  | meanwhile f => exact .none _ rfl
  | arrive j o q =>
    simp only [step]
    split
    · rename_i free
      rw [handling?_setHandling]
      split
      · rename_i hij
        subst hij
        exact .arrived o q free
      · exact .none _ rfl
    · exact .none _ rfl
  | proceed j =>
    by_cases hij : i = j
    · subst hij
      simp only [step]
      split
      · rename_i free
        rw [free]
        exact .absent free
      · rename_i h there
        rw [handling?_setHandling, if_pos rfl]
        exact .proceeded h there
    · have other : (Move.proceed j).isOf i = false := decide_eq_false (Ne.symm hij)
      simp only [step]
      split
      · exact .none _ other
      · rw [handling?_setHandling, if_neg hij]
        exact .none _ other

/-- A handling changes by its own steps only. -/
theorem handling?_step (hi : d.handling? i = some h) (m : Move) :
    (d.step m).handling? i = some (if m.isOf i then (h.step d.service).2 else h) := by
  have heffect := effect_step d i m
  generalize (d.step m).handling? i = next at heffect ⊢
  cases heffect with
  | none _ other =>
    rw [hi, if_neg (by simp [other])]
  | absent free =>
    rw [hi] at free
    cases free
  | arrived o q free =>
    rw [hi] at free
    cases free
  | proceeded h' there =>
    obtain rfl := Option.some.inj (hi.symm.trans there)
    rw [if_pos (isOf_proceed i)]

theorem response?_step (hr : d.response? i = some r) (m : Move) :
    (d.step m).response? i = some r := by
  obtain ⟨h, hi, hh⟩ := Option.bind_eq_some_iff.1 hr
  unfold response?
  rw [handling?_step hi m, Handling.step_of_response? hh, ite_self]
  exact hh

/-- A request is answered by a step of its own. -/
theorem answering_step (hnone : d.response? i = none) {m : Move}
    (hr : (d.step m).response? i = some r) :
    ∃ h, m = .proceed i ∧ d.handling? i = some h ∧ h.response? = none ∧
      (h.step d.service).2.response? = some r := by
  unfold response? at hnone hr
  have heffect := effect_step d i m
  generalize (d.step m).handling? i = next at heffect hr
  cases heffect with
  | none =>
    rw [hnone] at hr
    cases hr
  | absent free => cases hr
  | arrived o q free => cases hr
  | proceeded h there =>
    rw [there] at hnone
    exact ⟨h, rfl, there, hnone, hr⟩

/-! ## A run -/

theorem after_append (d : Desk) (ms later : List Move) :
    d.after (ms ++ later) = (d.after ms).after later := by
  induction ms generalizing d with
  | nil => rfl
  | cons m ms ih => exact ih (d.step m)

/-- An answer that was given stays. -/
theorem response?_after (hr : d.response? i = some r) (ms : List Move) :
    (d.after ms).response? i = some r := by
  induction ms generalizing d with
  | nil => exact hr
  | cons m ms ih => exact ih (response?_step hr m)

/-- The step that a request was answered by. -/
theorem exists_answering (hnone : d.response? i = none) {ms : List Move}
    (hr : (d.after ms).response? i = some r) :
    ∃ before rest h, ms = before ++ .proceed i :: rest ∧
      (d.after before).handling? i = some h ∧ h.response? = none ∧
      (h.step (d.after before).service).2.response? = some r := by
  induction ms generalizing d with
  | nil =>
    rw [show (d.after []).response? i = none from hnone] at hr
    cases hr
  | cons m ms ih =>
    cases hm : (d.step m).response? i with
    | none =>
      obtain ⟨before, rest, h, rfl, hh⟩ := ih hm hr
      exact ⟨m :: before, rest, h, rfl, hh⟩
    | some r' =>
      obtain rfl : r' = r := Option.some.inj ((response?_after hm ms).symm.trans hr)
      obtain ⟨h, rfl, hh⟩ := answering_step hnone hm
      exact ⟨[], ms, h, rfl, hh⟩

/-- A handling is answered when it has taken the steps that it had left. -/
theorem answered_of_endsIn {n : Nat} (hi : d.handling? i = some h) (hn : h.EndsIn n)
    {ms : List Move} (hms : n ≤ stepsOf i ms) : ∃ r, (d.after ms).response? i = some r := by
  induction ms generalizing d h n with
  | nil =>
    obtain rfl : n = 0 := Nat.le_zero.1 hms
    obtain ⟨r, hr⟩ := hn.zero
    exact ⟨r, Option.bind_eq_some_iff.2 ⟨h, hi, hr⟩⟩
  | cons m ms ih =>
    have hnext := handling?_step hi m
    unfold stepsOf at hms
    rw [List.countP_cons] at hms
    split at hnext
    · rename_i hm
      rw [if_pos hm] at hms
      have hle : n - 1 ≤ stepsOf i ms := by
        unfold stepsOf
        omega
      exact ih hnext ((hn.mono (by omega : n ≤ n - 1 + 1)).step d.service) hle
    · rename_i hm
      rw [if_neg hm] at hms
      exact ih hnext hn hms

/-- At the desk no handling has more than eight steps left. -/
theorem endsIn_after (s : Service) (ms : List Move) :
    ∀ h, ((start s).after ms).handling? i = some h → h.EndsIn 8 := by
  suffices hrun : ∀ d : Desk, (∀ h, d.handling? i = some h → h.EndsIn 8) →
      ∀ h, (d.after ms).handling? i = some h → h.EndsIn 8 from
    hrun (start s) fun h hi => by cases hi
  induction ms with
  | nil => exact fun d hd => hd
  | cons m ms ih =>
    intro d hd
    refine ih (d.step m) fun h hnext => ?_
    have heffect := effect_step d i m
    rw [hnext] at heffect
    generalize hh : some h = next at heffect
    cases heffect with
    | none => exact hd h hh.symm
    | absent free => cases hh
    | arrived o q free =>
      cases hh
      exact Nat.le_refl 8
    | proceeded h' there =>
      cases hh
      exact ((hd h' there).mono (Nat.le_succ 8)).step d.service

/-- Eight steps of its own answer a request that is there, whatever happens in between. -/
theorem answered_after (s : Service) (ms : List Move)
    (hi : ((start s).after ms).handling? i = some h) {later : List Move}
    (hlater : 8 ≤ stepsOf i later) : ∃ r, (((start s).after ms).after later).response? i = some r :=
  answered_of_endsIn hi (endsIn_after s ms h hi) hlater

end Desk

end MountRegistry.Service
