import Mathlib.Data.List.Infix
import MountRegistry.Capability

/-
  What a capability means where `&` is stored as `&amp;`. The revision is the value of its own key
  or, without one, that of the escaped key (`revisionOf_fst`); where the one key can be among the
  parameters the other cannot, so both ways of storing a capability say the same, and a device is
  taken to support the same modules (`CapabilityReport.modules_escaped`).
-/

namespace MountRegistry

namespace Capability

variable {key v p : List Char} {params : List (List Char)}

/-! ## The value of a key -/

/-- `v` is what the first parameter that begins with the key has after it. -/
def FirstValue (key : List Char) (params : List (List Char)) (v : List Char) : Prop :=
  ∃ before after, params = before ++ (key ++ v) :: after ∧ ∀ p ∈ before, ¬ key <+: p

theorem isPrefixOf?_eq_none_iff : key.isPrefixOf? p = none ↔ ¬ key <+: p := by
  rw [Option.eq_none_iff_forall_ne_some]
  constructor
  · rintro h ⟨v, hv⟩
    exact h v (List.isPrefixOf?_eq_some_iff_append_eq.2 hv)
  · intro h v hv
    exact h ⟨v, List.isPrefixOf?_eq_some_iff_append_eq.1 hv⟩

theorem not_prefix_append {a b : List Char} (hab : ¬ a <+: b) (hba : ¬ b <+: a) (c : List Char) :
    ¬ a <+: b ++ c :=
  fun h => (List.prefix_or_prefix_of_prefix h (List.prefix_append b c)).elim hab hba

theorem value?_eq_some_iff : value? key params = some v ↔ v ≠ [] ∧ FirstValue key params v := by
  rw [value?, Option.filter_eq_some_iff, List.findSome?_eq_some_iff, and_comm]
  simp only [isPrefixOf?_eq_none_iff, List.isPrefixOf?_eq_some_iff_append_eq]
  refine and_congr (by simp) ?_
  constructor
  · rintro ⟨before, _, after, hparams, rfl, hbefore⟩
    exact ⟨before, after, hparams, hbefore⟩
  · rintro ⟨before, after, hparams, hbefore⟩
    exact ⟨before, _, after, hparams, rfl, hbefore⟩

theorem value?_cons (h : ¬ key <+: p) : value? key (p :: params) = value? key params := by
  rw [value?, List.findSome?_cons, isPrefixOf?_eq_none_iff.2 h]
  rfl

theorem value?_eq_none (h : ∀ p ∈ params, ¬ key <+: p) : value? key params = none := by
  induction params with
  | nil => rfl
  | cons p params ih =>
    obtain ⟨hp, hparams⟩ := List.forall_mem_cons.1 h
    rw [value?_cons hp, ih hparams]

/-- A text before each parameter, and before the key, changes no value. -/
theorem value?_map_append (front key : List Char) (params : List (List Char)) :
    value? (front ++ key) (params.map (front ++ ·)) = value? key params := by
  have hsame : (front ++ key).isPrefixOf? ∘ (front ++ ·) = key.isPrefixOf? := by
    funext p
    refine Option.ext fun v => ?_
    rw [Function.comp_apply, List.isPrefixOf?_eq_some_iff_append_eq,
      List.isPrefixOf?_eq_some_iff_append_eq, List.append_assoc, List.append_cancel_left_eq]
  rw [value?, List.findSome?_map, hsame, value?]

/-! ## The revision -/

/-- What is left of `&amp;` once it is taken for a separator. -/
def escapeRest : List Char := "amp;".toList

theorem escapedRevisionKey_eq : escapedRevisionKey = escapeRest ++ revisionKey := rfl

/-- Whether some parameter has the key anywhere in it decides only what is noted. -/
theorem revisionOf_fst (params : List (List Char)) :
    (revisionOf params).1 =
      (value? revisionKey params).or (value? escapedRevisionKey params) := by
  unfold revisionOf
  cases value? revisionKey params with
  | some revision => rfl
  | none =>
    dsimp only
    split
    · cases value? escapedRevisionKey params <;> rfl
    · rename_i hany
      refine (value?_eq_none fun p hp hprefix => hany ?_).symm
      refine List.any_eq_true.2 ⟨p, hp, Text.occursIn_iff.2 ?_⟩
      rw [escapedRevisionKey_eq] at hprefix
      exact (List.suffix_append escapeRest revisionKey).isInfix.trans hprefix.isInfix

/-! ## Both ways of storing a capability -/

/-- A module as a device advertises it, with further parameters in any order. -/
structure Advert where
  namespaceUri : List Char
  moduleName : List Char
  params : List (List Char)
  namespace_ends : '?' ∉ namespaceUri
  named : moduleName ≠ []
  name_ends : '&' ∉ moduleName
  params_end : ∀ p ∈ params, '&' ∉ p
  params_plain : ∀ p ∈ params, ¬ escapeRest <+: p

namespace Advert

/-- The capability that the device stores, with this text for each `&`. -/
def text (a : Advert) (ampersand : List Char) : String :=
  String.ofList (a.namespaceUri ++ '?' ::
    Text.joinWith ampersand ((moduleKey ++ a.moduleName) :: a.params))

variable (a : Advert)

theorem parse?_joined {params : List (List Char)} (h : ∀ p ∈ params, '&' ∉ p) :
    (parse? (String.ofList (a.namespaceUri ++ '?' ::
        Text.joinWith ['&'] ((moduleKey ++ a.moduleName) :: params)))).map (·.1) =
      some ⟨String.ofList a.namespaceUri,
        ((value? revisionKey params).or (value? escapedRevisionKey params)).map String.ofList,
        String.ofList a.moduleName⟩ := by
  have hmodule : '&' ∉ moduleKey ++ a.moduleName := by
    rw [List.mem_append, not_or]
    exact ⟨by decide, a.name_ends⟩
  have hname : value? moduleKey ((moduleKey ++ a.moduleName) :: params) = some a.moduleName :=
    value?_eq_some_iff.2 ⟨a.named, [], params, rfl, List.forall_mem_nil _⟩
  have hrevision : ¬ revisionKey <+: moduleKey ++ a.moduleName :=
    not_prefix_append (by decide) (by decide) _
  have hescaped : ¬ escapedRevisionKey <+: moduleKey ++ a.moduleName :=
    not_prefix_append (by decide) (by decide) _
  rw [parse?, String.toList_ofList, Text.cut?_append a.namespace_ends]
  simp only [Option.bind_eq_bind, Option.bind_some, Text.fields_joinWith hmodule h, hname,
    Option.map_some, Option.pure_def, revisionOf_fst, value?_cons hrevision, value?_cons hescaped]

/-- The descriptor of the module, with this revision. -/
def capability (revision : Option (List Char)) : Capability :=
  ⟨String.ofList a.namespaceUri, revision.map String.ofList, String.ofList a.moduleName⟩

theorem parse?_plain :
    (parse? (a.text ['&'])).map (·.1) = some (a.capability (value? revisionKey a.params)) := by
  have hnone : value? escapedRevisionKey a.params = none := by
    refine value?_eq_none fun p hp hprefix => a.params_plain p hp ?_
    rw [escapedRevisionKey_eq] at hprefix
    exact (List.prefix_append escapeRest revisionKey).trans hprefix
  rw [text, a.parse?_joined a.params_end, hnone, Option.or_none, capability]

theorem parse?_escaped :
    (parse? (a.text ('&' :: escapeRest))).map (·.1) =
      some (a.capability (value? revisionKey a.params)) := by
  have hends : ∀ p ∈ a.params.map (escapeRest ++ ·), '&' ∉ p := by
    intro p hp
    obtain ⟨q, hq, rfl⟩ := List.mem_map.1 hp
    rw [List.mem_append, not_or]
    exact ⟨by decide, a.params_end q hq⟩
  have hnone : value? revisionKey (a.params.map (escapeRest ++ ·)) = none := by
    refine value?_eq_none fun p hp => ?_
    obtain ⟨q, _, rfl⟩ := List.mem_map.1 hp
    exact not_prefix_append (by decide) (by decide) q
  have hjoin := Text.joinWith_append ['&'] escapeRest (moduleKey ++ a.moduleName) a.params
  rw [List.singleton_append] at hjoin
  rw [text, hjoin, a.parse?_joined hends, hnone, Option.none_or, escapedRevisionKey_eq,
    value?_map_append, capability]

end Advert

/-- Whether a device stores `&` as it is or as `&amp;`, what it advertises is read as the same
module, with the value of the first parameter that gives a revision, unless that is empty. -/
theorem escaping_keeps_meaning (a : Advert) :
    ∃ revision, (∀ v, revision = some v ↔ v ≠ [] ∧ FirstValue revisionKey a.params v) ∧
      ∀ ampersand ∈ ["&".toList, "&amp;".toList],
        (parse? (a.text ampersand)).map (·.1) = some (a.capability revision) := by
  refine ⟨value? revisionKey a.params, fun v => value?_eq_some_iff, ?_⟩
  have hplain : "&".toList = ['&'] := by decide
  have hescaped : "&amp;".toList = '&' :: escapeRest := by decide
  rw [hplain, hescaped, List.forall_mem_cons, List.forall_mem_singleton]
  exact ⟨a.parse?_plain, a.parse?_escaped⟩

theorem escaping_keeps_meaning_repeated :
    ∃ a : Advert, a.moduleName = "revision=a".toList ∧
      a.params = ["x-revision=1".toList, "revision=2".toList, "revision=".toList] ∧
      ∀ ampersand ∈ ["&".toList, "&amp;".toList],
        (parse? (a.text ampersand)).map (·.1) = some (a.capability (some "2".toList)) := by
  let a : Advert := {
    namespaceUri := "urn:t".toList
    moduleName := "revision=a".toList
    params := ["x-revision=1".toList, "revision=2".toList, "revision=".toList]
    namespace_ends := by decide
    named := by decide
    name_ends := by decide
    params_end := by decide
    params_plain := by decide }
  obtain ⟨revision, hrevision, hread⟩ := escaping_keeps_meaning a
  have hfirst : FirstValue revisionKey a.params "2".toList :=
    ⟨["x-revision=1".toList], ["revision=".toList], by decide, by decide⟩
  rw [(hrevision _).2 ⟨by decide, hfirst⟩] at hread
  exact ⟨a, rfl, rfl, hread⟩

end Capability

namespace CapabilityReport

open Capability

/-- Of a capability only the module that it names joins the modules. -/
theorem modules_add (r : CapabilityReport) (text : String) :
    (r.add text).modules =
      match (parse? text).map (·.1) with
      | none => r.modules
      | some c => if c ∈ r.modules then r.modules else r.modules ++ [c] := by
  unfold add
  cases parse? text <;> rfl

theorem modules_foldl (as : List Advert) {r r' : CapabilityReport} (h : r.modules = r'.modules) :
    ((as.map (·.text ('&' :: escapeRest))).foldl add r).modules =
      ((as.map (·.text ['&'])).foldl add r').modules := by
  induction as generalizing r r' with
  | nil => exact h
  | cons a as ih =>
    refine ih ?_
    rw [modules_add, modules_add, a.parse?_escaped, a.parse?_plain, h]

/-- A device that stores every `&` as `&amp;` is taken to support the same modules. -/
theorem modules_escaped (as : List Advert) :
    (ofList (as.map (·.text ('&' :: escapeRest)))).modules =
      (ofList (as.map (·.text ['&']))).modules :=
  modules_foldl as rfl

end CapabilityReport

end MountRegistry
