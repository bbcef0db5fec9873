import MountRegistry.Source.Identifier

/-
  Capabilities as devices advertise them: `namespace?module=name&revision=date`. Reading one never
  fails: without a `?` or a module it is no module capability, and a revision that cannot be used
  counts as none. Devices that store `&` as `&amp;` send the revision under the key `amp;revision`;
  it is recovered from there, and the irregularity is noted.
-/

namespace MountRegistry

/-- A module that a device supports. -/
structure Capability where
  namespaceUri : String
  revision : Option String
  moduleName : String
  deriving DecidableEq, Repr

namespace Capability

/-- The text of a capability: namespace and revision in parentheses, then the module. -/
def toString (c : Capability) : String :=
  match c.revision with
  | some revision => "(" ++ c.namespaceUri ++ "?revision=" ++ revision ++ ")" ++ c.moduleName
  | none => "(" ++ c.namespaceUri ++ ")" ++ c.moduleName

/-- The source that the capability asks for, by module name and revision. -/
def sourceId (c : Capability) : SourceId := ⟨c.moduleName, c.revision⟩

/-- What was wrong with the revision of a capability. -/
inductive Irregularity where
  | revisionRecovered
  | revisionUnusable
  deriving DecidableEq, Repr

/-- The text that is logged for it. -/
def Irregularity.message : Irregularity → String
  | .revisionRecovered => "revision recovered from amp;-escaped parameter"
  | .revisionUnusable => "unusable revision parameter"

/-- How the parameter begins that names the module. -/
def moduleKey : List Char := "module=".toList

/-- How the parameter begins that names the revision. -/
def revisionKey : List Char := "revision=".toList

/-- What is left of the revision's key where `&` is stored as `&amp;`. -/
def escapedRevisionKey : List Char := "amp;revision=".toList

/-- The value of the first parameter with this key, unless it is empty. -/
def value? (key : List Char) (params : List (List Char)) : Option (List Char) :=
  (params.findSome? key.isPrefixOf?).filter (!·.isEmpty)

/-- The revision that the parameters give, and what was wrong with it. -/
def revisionOf (params : List (List Char)) : Option (List Char) × Option Irregularity :=
  match value? revisionKey params with
  | some revision => (some revision, none)
  | none =>
    if params.any (Text.occursIn revisionKey) then
      match value? escapedRevisionKey params with
      | some revision => (some revision, some .revisionRecovered)
      | none => (none, some .revisionUnusable)
    else (none, none)

/-- The module that a capability names, if it names one. -/
def parse? (text : String) : Option (Capability × Option Irregularity) := do
  let (namespaceUri, query) ← Text.cut? '?' text.toList
  let params := Text.fields '&' query
  let moduleName ← value? moduleKey params
  let (revision, irregularity) := revisionOf params
  return (⟨String.ofList namespaceUri, revision.map String.ofList, String.ofList moduleName⟩,
    irregularity)

end Capability

/-- What a list of advertised capabilities comes to. -/
structure CapabilityReport where
  /-- The modules, each once, in the order of their first mention. -/
  modules : List Capability := []
  nonModule : List String := []
  irregularities : List (String × Capability.Irregularity) := []
  deriving Repr

namespace CapabilityReport

/-- Sorts one more capability. A module that was announced before is not listed again. -/
def add (r : CapabilityReport) (text : String) : CapabilityReport :=
  match Capability.parse? text with
  | none => { r with nonModule := r.nonModule ++ [text] }
  | some (capability, irregularity) =>
    { r with
      modules := if capability ∈ r.modules then r.modules else r.modules ++ [capability]
      irregularities := r.irregularities ++ (irregularity.map (text, ·)).toList }

/-- The report of a list of capabilities, in their order. -/
def ofList (capabilities : List String) : CapabilityReport := capabilities.foldl add {}

end CapabilityReport

end MountRegistry
