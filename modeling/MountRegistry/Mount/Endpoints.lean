import MountRegistry.Broker.Listener
import MountRegistry.Source.Resolution

/-
  The published mount points: for each mount path the broker that serves it. A path is published
  once at a time, and whoever withdraws it need not be who published it.
-/

namespace MountRegistry

/-- Why a mount point could not be brought up. -/
inductive MountFailure where
  | noCapabilities (node : NodeId)
  | schema (node : NodeId) (cause : ResolutionFailure)
  | alreadyRegistered (path : MountPath)
  deriving DecidableEq, Repr

/-- The text of the failure, as it is told and logged. -/
def MountFailure.message : MountFailure → String
  | noCapabilities node => "cached mount point " ++ node.text ++ " has no capabilities"
  | schema node cause => "schema resolution failed for " ++ node.text ++ ": " ++ cause.message
  | alreadyRegistered path => "a mount point is already registered at " ++ path.text

/-- The published mount points, each under its mount path. -/
structure Endpoints where
  points : List (MountPath × Broker) := []
  deriving Repr

namespace Endpoints

/-- The number of published mount points. -/
def size (e : Endpoints) : Nat := e.points.length

/-- The broker that is published at a path. -/
def find? (e : Endpoints) (path : MountPath) : Option Broker := Keyed.find? e.points path

/-- Publishes a broker under its mount path. -/
def register (e : Endpoints) (b : Broker) : Except MountFailure Endpoints :=
  if Keyed.contains e.points b.mountPath then .error (.alreadyRegistered b.mountPath)
  else .ok ⟨Keyed.insert e.points b.mountPath b⟩

/-- Withdraws the mount point at a path, whoever published it. -/
def unregister (e : Endpoints) (path : MountPath) : Except ReleaseFailure Endpoints :=
  if Keyed.contains e.points path then .ok ⟨Keyed.erase e.points path⟩
  else .error (.notRegistered path.text)

end Endpoints

end MountRegistry
