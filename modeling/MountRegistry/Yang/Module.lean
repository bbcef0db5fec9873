import MountRegistry.Source.Identifier
import MountRegistry.Yang.Statement

/-
  What a schema source says of its module: name, namespace, short name, newest revision, imports and
  the names of the data nodes at its top. `Module.parse` reads it from the text; what can be wrong
  is a `SourceFailure`, with the line on which it shows.
-/

namespace MountRegistry.Yang

/-- An import, with the local name and the revision if the source gives them. -/
structure Import where
  moduleName : String
  shortName : Option String
  revision : Option String
  deriving DecidableEq, Repr

/-- The source that the import asks for. -/
def Import.sourceId (i : Import) : SourceId := ⟨i.moduleName, i.revision⟩

/-- What is kept of a schema module. -/
structure Module where
  name : String
  namespaceUri : String
  shortName : String
  revision : Option String
  imports : List Import
  dataNodes : List String
  deriving DecidableEq, Repr

/-- The identifier under which the module declares itself. -/
def Module.sourceId (m : Module) : SourceId := ⟨m.name, m.revision⟩

/-- Why a text is not read as a module. -/
inductive SourceFailure where
  | lexical (cause : Lexer.Failure)
  | grammatical (cause : Statement.Failure)
  | submodule
  | notAModule (keyword : String)
  | unnamed
  | noNamespace
  | noShortName
  | unnamedImport
  deriving DecidableEq, Repr

/-- The text of a failure that shows in the characters. -/
def Lexer.Failure.message : Lexer.Failure → String
  | .unterminatedString => "unterminated quoted string"
  | .unterminatedComment => "unterminated block comment"

/-- The text of a failure that shows in the tokens. -/
def Statement.Failure.message : Statement.Failure → String
  | .nestedTooDeep => "statements nested deeper than " ++ ToString.toString maxNesting ++ " levels"
  | .expectedKeyword found => "expected a keyword, found " ++ found.describe
  | .expectedBody keyword found =>
    "expected `;` or `\x7b` after `" ++ keyword ++ "`, found " ++ found.describe
  | .endOfInput keyword => "unexpected end of input after `" ++ keyword ++ "`"
  | .unterminatedBlock keyword => "unterminated block for `" ++ keyword ++ "`"
  | .emptySource => "empty schema source"
  | .trailingContent => "unexpected content after the module statement"

/-- The text of the failure, without its line. -/
def SourceFailure.message : SourceFailure → String
  | .lexical cause => cause.message
  | .grammatical cause => cause.message
  | .submodule => "submodules cannot be mounted directly"
  | .notAModule keyword => "expected `module`, found `" ++ keyword ++ "`"
  | .unnamed => "module without a name"
  | .noNamespace => "module without namespace"
  | .noShortName => "module without prefix"
  | .unnamedImport => "import without module name"

/-- The keywords whose arguments are data nodes. -/
def dataKeywords : List String :=
  ["container", "list", "leaf", "leaf-list", "choice", "anydata", "anyxml"]

/-- The greatest of some texts. -/
def greatest? (texts : List String) : Option String :=
  texts.foldl (fun best t => match best with
    | none => some t
    | some b => if (compare b t).isLE then some t else some b) none

/-- A text goes to its place in an ascending list that holds each text once. -/
def insertName (names : List String) (name : String) : List String :=
  match names with
  | [] => [name]
  | n :: rest =>
    if name = n then names
    else if compare name n = .lt then name :: names
    else n :: insertName rest name

namespace Module

/-- The import that a statement declares. -/
def importOf (s : Statement) : Except (Lined SourceFailure) Import :=
  match s.argument with
  | none => .error ⟨.unnamedImport, s.line⟩
  | some moduleName => .ok ⟨moduleName, s.childArgument "prefix", s.childArgument "revision-date"⟩

/-- The names of the data nodes directly in a statement. -/
def dataNodesOf (s : Statement) : List String :=
  ((s.children.filter (dataKeywords.contains ·.keyword)).filterMap (·.argument)).foldl insertName []

/-- The greatest of the revisions, in whatever order they stand. -/
def revisionOf (s : Statement) : Option String :=
  greatest? ((s.childrenNamed "revision").filterMap (·.argument))

/-- The module that a whole statement declares. -/
def ofStatement (s : Statement) : Except (Lined SourceFailure) Module := do
  let missing (cause : SourceFailure) (text : Option String) :=
    match text with
    | some t => Except.ok t
    | none => .error (Lined.mk cause s.line)
  if s.keyword = "submodule" then .error ⟨.submodule, s.line⟩
  else if s.keyword ≠ "module" then .error ⟨.notAModule s.keyword, s.line⟩
  else
    let name ← missing .unnamed s.argument
    let namespaceUri ← missing .noNamespace (s.childArgument "namespace")
    let shortName ← missing .noShortName (s.childArgument "prefix")
    let imports ← (s.childrenNamed "import").mapM importOf
    return {
      name, namespaceUri, shortName, imports
      revision := revisionOf s
      dataNodes := dataNodesOf s }

/-- The module that a source text declares. -/
def parse (text : String) : Except (Lined SourceFailure) Module := do
  let tokens ← (tokenize text.toList).mapError fun e => ⟨.lexical e.value, e.line⟩
  let whole ← (Statement.ofTokens tokens).mapError fun e => ⟨.grammatical e.value, e.line⟩
  ofStatement whole

end Module

end MountRegistry.Yang
