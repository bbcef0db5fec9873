import MountRegistry.Files.Tree
import MountRegistry.Source.Library
import MountRegistry.Yang.Model

/-
  Resolving capabilities into a model. A source is taken from the library, else from the files of
  the mount point's cache directory; a source taken from the library is also written there, so
  that the directory holds all that the mount point uses. Compiling a module compiles its imports,
  and a module that would be compiled inside itself is a cycle.

  Compilation ends because every level goes into a module of another name: `compile` is given the
  names that are not being compiled yet, and a name that is neither among them nor being compiled
  has no source.
-/

namespace MountRegistry

/-- Why the schema of a mount point cannot be put together. -/
inductive ResolutionFailure where
  | missingSource (wanted : SourceId)
  | unparsable (source : SourceId) (cause : Yang.Lined Yang.SourceFailure)
  | nameMismatch (expected : SourceId) (found : String)
  | revisionMismatch (moduleName expected : String) (found : Option String)
  /-- The modules under compilation, outermost first, and the one met again. -/
  | importCycle (names : List String)
  | invalidDirectory (name : String)
  | fileFault (path : String) (fault : FileFault)
  deriving DecidableEq, Repr

/-- The text of the failure, as it is told and logged. -/
def ResolutionFailure.message : ResolutionFailure → String
  | .missingSource wanted =>
    "schema source " ++ wanted.toString ++ " not found in the in-process or on-disk cache"
  | .unparsable source cause =>
    "failed to parse schema source " ++ source.toString ++ " at line " ++
      ToString.toString cause.line ++ ": " ++ cause.value.message
  | .nameMismatch expected found =>
    "schema source " ++ expected.toString ++ " declares module " ++ found
  | .revisionMismatch moduleName expected found =>
    "module " ++ moduleName ++ " requested at revision " ++ expected ++ ", source has " ++
      found.getD "none"
  | .importCycle names => "import cycle detected: " ++ String.intercalate " -> " names
  | .invalidDirectory name => "invalid schema cache directory name: " ++ Text.quote name
  | .fileFault path fault => "schema cache i/o error on " ++ path ++ ": " ++ fault.message

/-- What a resolution works on. -/
structure Build where
  library : SourceLibrary
  files : Files
  /-- The sources that the cache directory holds. -/
  onDisk : List SourceId
  compiled : List (SourceId × Yang.Module)

/-- Where a source was found. -/
inductive Origin where
  | library
  | disk
  deriving DecidableEq, Repr

/-- A part of a resolution. If it fails, what it did before stays done. -/
abbrev Building := ExceptT ResolutionFailure (StateM Build)

namespace Resolution

/-- Whether a name is that of a single directory. -/
def isDirectoryName (name : String) : Bool :=
  !name.isEmpty && name != "." && name != ".." &&
    !name.toList.any fun c => c == '/' || c == '\\' || c == '\x00'

/-- The cache directory of a name, under the root of the cache. -/
def directoryFor (cacheRoot name : String) : Except ResolutionFailure String :=
  if isDirectoryName name then .ok (Files.join cacheRoot name) else .error (.invalidDirectory name)

/-- The sources that the names of a directory's entries announce. -/
def scan (entries : List (String × FileNode)) : List SourceId :=
  entries.filterMap fun e => SourceId.ofFileName? e.1

/-- The source on disk for a request: the newest that satisfies it, else one without a revision in
its name. -/
def onDisk? (onDisk : List SourceId) (wanted : SourceId) : Option SourceId :=
  match SourceId.newest? onDisk wanted with
  | some id => some id
  | none => onDisk.find? (· == ⟨wanted.name, none⟩)

/-- Finds the text of a source, in the library or else on disk. -/
def fetch (directory : String) (wanted : SourceId) (b : Build) :
    Except ResolutionFailure (Source × Origin) :=
  match b.library.lookup? wanted with
  | some source => .ok (source, .library)
  | none =>
    match onDisk? b.onDisk wanted with
    | none => .error (.missingSource wanted)
    | some id =>
      let path := Files.join directory id.fileName
      match b.files.readText path with
      | .ok text => .ok (⟨id, text⟩, .disk)
      | .error fault => .error (.fileFault path fault)

/-- The module of a source, if it is the one wanted. -/
def check (wanted : SourceId) (source : Source) : Except ResolutionFailure Yang.Module := do
  let m ← (Yang.Module.parse source.text).mapError (.unparsable source.id)
  if m.name ≠ wanted.name then .error (.nameMismatch wanted m.name)
  else match wanted.revision with
    | some expected =>
      if m.revision = some expected then .ok m
      else .error (.revisionMismatch m.name expected m.revision)
    | none => .ok m

/-- Writes a source into the cache directory; a file that cannot be written is done without. -/
def persist (directory : String) (id : SourceId) (text : String) (b : Build) : Build :=
  match b.files.write (Files.join directory id.fileName) text.toUTF8 with
  | .ok files => { b with files, onDisk := b.onDisk ++ [id] }
  | .error _ => b

/-- A module joins the library, and the directory if it came from the library and is not there. -/
def keep (directory : String) (id : SourceId) (text : String) (origin : Origin) (b : Build) :
    Build :=
  let b := { b with library := (b.library.register ⟨id, text⟩).1 }
  if origin = .library ∧ id ∉ b.onDisk then persist directory id text b else b

/-- Fetches, checks and keeps the source for a request. -/
def acquire (directory : String) (wanted : SourceId) : Building Yang.Module := do
  let (source, origin) ← ExceptT.mk (pure (fetch directory wanted (← get)))
  let m ← ExceptT.mk (pure (check wanted source))
  modify (keep directory m.sourceId source.text origin)
  return m

/-- The first compiled module, in the order of identifiers, that satisfies a request. -/
def compiled? (b : Build) (wanted : SourceId) : Option SourceId :=
  (b.compiled.map (·.1)).find? (·.satisfies wanted)

mutual

/-- Compiles the module for a request and its imports. `chain` holds the names under compilation,
outermost first, `free` the other names that have a source. -/
def compile (directory : String) (free : List String) (chain : List String) (wanted : SourceId) :
    Building SourceId := do
  match compiled? (← get) wanted with
  | some id => return id
  | none =>
    if wanted.name ∈ chain then throw (.importCycle (chain ++ [wanted.name]))
    else if _h : wanted.name ∈ free then
      let m ← acquire directory wanted
      compileImports directory (free.erase wanted.name) (chain ++ [m.name]) m.imports
      modify fun b => { b with compiled := Keyed.insert b.compiled m.sourceId m }
      return m.sourceId
    else throw (.missingSource wanted)
termination_by (free.length, 0)
decreasing_by
  have := List.length_erase_of_mem _h
  have := List.length_pos_of_mem _h
  apply Prod.Lex.left
  omega

/-- Compiles the modules that a module imports, in the order in which it names them. -/
def compileImports (directory : String) (free : List String) (chain : List String)
    (imports : List Yang.Import) : Building Unit := do
  match imports with
  | [] => return
  | i :: rest =>
    let _ ← compile directory free chain i.sourceId
    compileImports directory free chain rest
termination_by (free.length, imports.length + 1)

end

/-- The names of the modules that have a source, each once. -/
def availableNames (b : Build) : List String :=
  (b.library.texts.map (·.1.name) ++ b.onDisk.map (·.name)).eraseDups

/-- Compiles the modules of some capabilities, and answers their identifiers, each once. -/
def compileAll (directory : String) (free : List String) :
    List SourceId → List Capability → Building (List SourceId)
  | requested, [] => return requested
  | requested, c :: rest => do
    let id ← compile directory free [] c.sourceId
    compileAll directory free (if id ∈ requested then requested else requested ++ [id]) rest

/-- What a resolution leaves behind and what came of it. -/
structure Outcome where
  library : SourceLibrary
  files : Files
  result : Except ResolutionFailure Yang.Model

/-- Resolves capabilities against the library and a directory that is there. -/
def resolveIn (directory : String) (capabilities : List Capability) (b : Build) : Outcome :=
  let (result, b) := (compileAll directory (availableNames b) [] capabilities).run.run b
  ⟨b.library, b.files, result.map fun requested => ⟨b.compiled, requested, capabilities⟩⟩

/-- Resolves capabilities into a model, in the cache directory of this name. -/
def resolve (cacheRoot name : String) (library : SourceLibrary) (files : Files)
    (capabilities : List Capability) : Outcome :=
  match directoryFor cacheRoot name with
  | .error e => ⟨library, files, .error e⟩
  | .ok directory =>
    match files.createDirectories directory with
    | (files, some fault) => ⟨library, files, .error (.fileFault directory fault)⟩
    | (files, none) =>
      match files.list directory with
      | .error fault => ⟨library, files, .error (.fileFault directory fault)⟩
      | .ok entries => resolveIn directory capabilities ⟨library, files, scan entries, []⟩

end Resolution

end MountRegistry
