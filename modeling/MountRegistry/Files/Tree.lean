import MountRegistry.Keyed
import MountRegistry.Text.Cut

/-
  A tree of files. `FileNode` is a file or a directory and works on places, lists of names from the
  top; `Files` is a tree that hangs under a base and works on path texts, walking them name by name
  as `.` and `..` ask. What is changed is the place alone: `find?` elsewhere reads what it read.
-/

namespace MountRegistry

/-- What stands at a place of the file system. -/
inductive FileNode where
  | file (bytes : ByteArray)
  | directory (entries : List (String × FileNode))

instance : Inhabited FileNode := ⟨.directory []⟩

/-- Why the file system refuses something. -/
inductive FileFault where
  | notFound
  | alreadyExists
  | notADirectory
  | isADirectory
  | nameTooLong
  | notText
  | nulInName
  deriving DecidableEq, Repr

/-- The text of the fault, as the operating system or the text decoder words it. -/
def FileFault.message : FileFault → String
  | .notFound => "No such file or directory (os error 2)"
  | .alreadyExists => "File exists (os error 17)"
  | .notADirectory => "Not a directory (os error 20)"
  | .isADirectory => "Is a directory (os error 21)"
  | .nameTooLong => "File name too long (os error 36)"
  | .notText => "stream did not contain valid UTF-8"
  | .nulInName => "file name contained an unexpected NUL byte"

/-- A name has at most 255 bytes. -/
def isTooLong (name : String) : Bool := 255 < name.utf8ByteSize

/-- What is wrong with a path text by itself: a zero byte, or more than 4095 bytes. -/
def pathFault? (path : String) : Option FileFault :=
  if path.toList.contains '\x00' then some .nulInName
  else if 4095 < path.utf8ByteSize then some .nameTooLong
  else none

namespace FileNode

/-- Whether it can have entries. -/
def isDirectory : FileNode → Bool
  | .directory _ => true
  | .file _ => false

/-- What stands at a place. -/
def find? : List String → FileNode → Option FileNode
  | [], node => some node
  | name :: rest, .directory entries => (Keyed.find? entries name).bind (find? rest)
  | _ :: _, .file _ => none

/-- The tree with `node` at a place below a directory; no other place changes. -/
def set (node : FileNode) : List String → FileNode → FileNode
  | [], _ => node
  | name :: rest, .directory entries =>
    .directory (Keyed.insert entries name
      (set node rest ((Keyed.find? entries name).getD (.directory []))))
  | _ :: _, .file bytes => .file bytes

/-- Takes what is at a place out of the tree. The top directory is emptied instead. -/
def remove : List String → FileNode → FileNode
  | [], _ => .directory []
  | [name], .directory entries => .directory (Keyed.erase entries name)
  | name :: rest, .directory entries =>
    match Keyed.find? entries name with
    | some child => .directory (Keyed.insert entries name (remove rest child))
    | none => .directory entries
  | _ :: _, .file bytes => .file bytes

mutual

/-- The paths of all entries, directories with a slash at the end. -/
def paths (above : String) : FileNode → List String
  | .file _ => []
  | .directory entries => entryPaths above entries

/-- The paths of all that is below the entries, those of directories with a slash at the end. -/
def entryPaths (above : String) : List (String × FileNode) → List String
  | [] => []
  | (name, .file _) :: rest => (above ++ name) :: entryPaths above rest
  | (name, .directory entries) :: rest =>
    let path := above ++ name ++ "/"
    path :: (entryPaths path entries ++ entryPaths above rest)

end

/-- Where names lead from a place, each step starting at a directory. -/
def walk (root : FileNode) (place : List String) : List String → Except FileFault (List String)
  | [] => .ok place
  | name :: rest =>
    match root.find? place with
    | none => .error .notFound
    | some (.file _) => .error .notADirectory
    | some (.directory _) =>
      if name = "." then walk root place rest
      else if name = ".." then
        if place.isEmpty then .error .notFound else walk root place.dropLast rest
      else if isTooLong name then .error .nameTooLong
      else walk root (place ++ [name]) rest

/-- Walks as `walk` does, and makes the directories that are missing on the way, up to the first
that cannot be made. -/
def createDirectories (root : FileNode) (place : List String) :
    List String → FileNode × Except FileFault (List String)
  | [] =>
    (root, match root.find? place with
      | some (.directory _) => .ok place
      | some (.file _) => .error .alreadyExists
      | none => .error .notFound)
  | name :: rest =>
    match root.find? place with
    | none => (root, .error .notFound)
    | some (.file _) => (root, .error .notADirectory)
    | some (.directory _) =>
      if name = "." then createDirectories root place rest
      else if name = ".." then
        if place.isEmpty then (root, .error .notFound)
        else createDirectories root place.dropLast rest
      else if isTooLong name then (root, .error .nameTooLong)
      else
        let next := place ++ [name]
        let root := if (root.find? next).isSome then root else set (.directory []) next root
        createDirectories root next rest

end FileNode

/-- A file system: a tree below one top directory, whose own path is given. -/
structure Files where
  /-- The path text of the top directory. -/
  base : String
  root : FileNode

namespace Files

/-- No file below the top directory. -/
def empty (base : String) : Files := ⟨base, .directory []⟩

/-- The path of an entry of a directory; a text that begins with a slash is a path of its own. -/
def join (directory name : String) : String :=
  if "/".toList.isPrefixOf name.toList then name
  else if "/".toList.isSuffixOf directory.toList then directory ++ name
  else directory ++ "/" ++ name

/-- The names in a path text; a slash at the end asks for a directory, as a dot does. -/
def namesOf (text : List Char) : List String :=
  let names := ((Text.fields '/' text).filter (!·.isEmpty)).map String.ofList
  if ['/'].isSuffixOf text then names ++ ["."] else names

/-- The names that lead from the top to a path, if it is below the top. -/
def names? (f : Files) (path : String) : Option (List String) :=
  match f.base.toList.isPrefixOf? path.toList with
  | some [] => some []
  | some ('/' :: rest) => some (namesOf ('/' :: rest))
  | _ => none

/-- The place that a path leads to, whether or not anything stands there. A path that is not below
the top leads nowhere. -/
def place (f : Files) (path : String) : Except FileFault (List String) :=
  match pathFault? path, f.names? path with
  | some fault, _ => .error fault
  | none, some names => f.root.walk [] names
  | none, none => do
    let _ ← FileNode.walk (.directory []) [] (namesOf path.toList)
    .error .notFound

/-- What a path leads to. -/
def stat (f : Files) (path : String) : Except FileFault FileNode := do
  match f.root.find? (← f.place path) with
  | some node => .ok node
  | none => .error .notFound

/-- Whether a path leads to a directory. One that leads nowhere does not. -/
def isDirectory (f : Files) (path : String) : Bool :=
  match f.stat path with
  | .ok node => node.isDirectory
  | .error _ => false

/-- The bytes of a file. -/
def read (f : Files) (path : String) : Except FileFault ByteArray := do
  match ← f.stat path with
  | .file bytes => .ok bytes
  | .directory _ => .error .isADirectory

/-- The text of a file, if its bytes are one. -/
def readText (f : Files) (path : String) : Except FileFault String := do
  match String.fromUTF8? (← f.read path) with
  | some text => .ok text
  | none => .error .notText

/-- The entries of a directory. -/
def list (f : Files) (path : String) : Except FileFault (List (String × FileNode)) := do
  match ← f.stat path with
  | .directory entries => .ok entries
  | .file _ => .error .notADirectory

/-- Writes a file, new or in place of another; its directory must be there. -/
def write (f : Files) (path : String) (bytes : ByteArray) : Except FileFault Files := do
  let place ← f.place path
  match f.root.find? place with
  | some (.directory _) => .error .isADirectory
  | _ => .ok { f with root := FileNode.set (.file bytes) place f.root }

/-- Makes a directory and those above it; what could be made stays if one cannot. -/
def createDirectories (f : Files) (path : String) : Files × Option FileFault :=
  match pathFault? path, f.names? path with
  | some fault, _ => (f, some fault)
  | none, some names =>
    match f.root.createDirectories [] names with
    | (root, .ok _) => ({ f with root }, none)
    | (root, .error fault) => ({ f with root }, some fault)
  | none, none => (f, some .notFound)

/-- Writes a file after making the directories above it. A path that asks for a directory names no
file. -/
def writeNew (f : Files) (path : String) (bytes : ByteArray) : Files :=
  match f.names? path with
  | none => f
  | some names =>
    let (root, _) := f.root.createDirectories [] (names.filter (· != ".")).dropLast
    match { f with root }.write path bytes with
    | .ok f => f
    | .error _ => { f with root }

/-- Removes what stands at a path, and answers whether anything stood there. -/
def remove (f : Files) (path : String) : Files × Bool :=
  match f.place path with
  | .error _ => (f, false)
  | .ok place =>
    match f.root.find? place with
    | some _ => ({ f with root := FileNode.remove place f.root }, true)
    | none => (f, false)

/-- Puts a path into a list at its place in the order. -/
def insertPath (paths : List String) (path : String) : List String :=
  match paths with
  | [] => [path]
  | p :: rest => if compare path p = .lt then path :: paths else p :: insertPath rest path

/-- The paths of all entries from the top, in ascending order. -/
def paths (f : Files) : List String := (f.root.paths "").foldl insertPath []

end Files

end MountRegistry
