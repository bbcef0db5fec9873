import MountRegistry.Keyed
import MountRegistry.Source.Identifier

/-
  The sources that a process knows, shared by all its mount points. A source once registered stays:
  registering another text under its identifier changes nothing.
-/

namespace MountRegistry

/-- A schema source, under the identifier that it was registered with. -/
structure Source where
  id : SourceId
  text : String
  deriving DecidableEq, Repr

/-- The sources that all mount points share. -/
structure SourceLibrary where
  texts : List (SourceId × String)
  deriving DecidableEq, Repr

namespace SourceLibrary

/-- The library without sources. -/
def empty : SourceLibrary := ⟨[]⟩

/-- The number of sources. -/
def size (l : SourceLibrary) : Nat := l.texts.length

/-- Whether there is a source under exactly this identifier. -/
def contains (l : SourceLibrary) (id : SourceId) : Bool := Keyed.contains l.texts id

/-- Keeps the text unless the identifier has one, and answers the text kept. -/
def register (l : SourceLibrary) (s : Source) : SourceLibrary × Source :=
  match Keyed.find? l.texts s.id with
  | some text => (l, ⟨s.id, text⟩)
  | none => (⟨Keyed.insert l.texts s.id s.text⟩, s)

/-- The newest source that satisfies a request. -/
def lookup? (l : SourceLibrary) (wanted : SourceId) : Option Source := do
  let id ← SourceId.newest? (l.texts.map (·.1)) wanted
  let text ← Keyed.find? l.texts id
  return ⟨id, text⟩

end SourceLibrary

end MountRegistry
