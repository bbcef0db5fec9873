import MountRegistry.Capability
import MountRegistry.Keyed
import MountRegistry.Yang.Module

/-
  The schema of a mount point: its compiled modules by identifier, the identifiers that its
  capabilities asked for, and those capabilities. Data nodes are spelled bare, or qualified by the
  name or the short name of their module; `canonical?` gives the bare spelling.
-/

namespace MountRegistry.Yang

/-- What a mount point validates data against. -/
structure Model where
  modules : List (SourceId × Module)
  requested : List SourceId
  capabilities : List Capability
  deriving DecidableEq, Repr

namespace Model

/-- The schema without modules, which has no data nodes. -/
def empty : Model := ⟨[], [], []⟩

/-- A model of these modules; of two with one identifier the later counts. -/
def ofModules (modules : List Module) : Model :=
  ⟨Keyed.ofList (modules.map fun m => (m.sourceId, m)), [], []⟩

/-- The modules, in the order of their identifiers. -/
def moduleList (m : Model) : List Module := m.modules.map (·.2)

/-- The number of modules. -/
def size (m : Model) : Nat := m.modules.length

/-- The newest module of a name. -/
def named? (m : Model) (name : String) : Option Module :=
  (m.moduleList.filter (·.name == name)).foldl
    (fun best x => match best with
      | none => some x
      | some b => if b.sourceId.revisionLE x.sourceId then some x else some b)
    none

/-- The bare name of the data node that a segment spells, if the model has it. -/
def canonical? (m : Model) (segment : String) : Option String :=
  match Text.cut? ':' segment.toList with
  | none => if m.moduleList.any (·.dataNodes.contains segment) then some segment else none
  | some (qualifier, node) =>
    let qualifier := String.ofList qualifier
    let node := String.ofList node
    if m.moduleList.any fun x =>
        (x.name == qualifier || x.shortName == qualifier) && x.dataNodes.contains node
    then some node else none

/-- Whether a segment spells a data node at the top of some module. -/
def hasDataNode (m : Model) (segment : String) : Bool := (m.canonical? segment).isSome

end Model

end MountRegistry.Yang
