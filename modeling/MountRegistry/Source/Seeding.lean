import MountRegistry.Source.Resolution

/-
  Filling a cache directory before its device is configured. The directory must be new; from a
  directory every file is copied, and any other source is copied as one file.
-/

namespace MountRegistry

/-- Why a cache directory is not filled. -/
inductive SeedingFailure where
  | invalidDirectory (name : String)
  /-- The directory cannot be looked for. -/
  | unreachable (fault : FileFault)
  | cannotCreate (path : String) (fault : FileFault)
  | cannotList (path : String) (fault : FileFault)
  | notAFile (path : String)
  | cannotCopy (path : String) (fault : FileFault)
  deriving DecidableEq, Repr

/-- The text of the failure, as the answer shows it. -/
def SeedingFailure.message : SeedingFailure → String
  | .invalidDirectory name => (ResolutionFailure.invalidDirectory name).message
  | .unreachable fault => fault.message
  | .cannotCreate path fault => "cannot create " ++ path ++ ": " ++ fault.message
  | .cannotList path fault => "cannot list " ++ path ++ ": " ++ fault.message
  | .notAFile path => path ++ " does not name a file"
  | .cannotCopy path fault => "cannot copy " ++ path ++ ": " ++ fault.message

/-- What a call comes to. -/
inductive SeedingOutcome where
  | created
  | alreadyExists
  | failed (cause : SeedingFailure)
  deriving DecidableEq, Repr

namespace Seeding

/-- The last name in a path, unless it leads upwards or there is none. -/
def fileName? (path : String) : Option String :=
  let names := ((Text.fields '/' path.toList).map String.ofList).filter fun n => n != "" && n != "."
  names.getLast?.filter (· != "..")

/-- Copies an entry that is a file; one that cannot be copied is passed over. -/
def copyInto (source target : String) (files : Files) (entry : String × FileNode) : Files :=
  match entry.2 with
  | .directory _ => files
  | .file _ =>
    match files.read (Files.join source entry.1) >>= files.write (Files.join target entry.1) with
    | .ok files => files
    | .error _ => files

/-- Copies a source into a directory that has just been made. -/
def fill (files : Files) (target source : String) : Files × SeedingOutcome :=
  if files.isDirectory source then
    match files.list source with
    | .error fault => (files, .failed (.cannotList source fault))
    | .ok entries => (entries.foldl (copyInto source target) files, .created)
  else match fileName? source with
    | none => (files, .failed (.notAFile source))
    | some name =>
      match files.read source >>= files.write (Files.join target name) with
      | .error fault => (files, .failed (.cannotCopy source fault))
      | .ok files => (files, .created)

/-- Makes the cache directory of a name and copies a source into it. -/
def loadModels (files : Files) (cacheRoot name source : String) : Files × SeedingOutcome :=
  match Resolution.directoryFor cacheRoot name with
  | .error _ => (files, .failed (.invalidDirectory name))
  | .ok target =>
    match files.stat target with
    | .ok _ => (files, .alreadyExists)
    | .error .notFound =>
      match files.createDirectories target with
      | (files, some fault) => (files, .failed (.cannotCreate target fault))
      | (files, none) => fill files target source
    | .error fault => (files, .failed (.unreachable fault))

end Seeding

end MountRegistry
