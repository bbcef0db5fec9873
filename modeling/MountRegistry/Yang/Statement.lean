import MountRegistry.Yang.Token

/-
  Statements of a schema source: a keyword, an argument if there is one, and either a semicolon or a
  block of further statements. The reader takes one token at a time and keeps the blocks that are
  still open on a stack, innermost first, so the depth of a statement is the size of the stack.

  A quoted argument may be given in parts joined by `+`. A statement stands at most 64 deep.
-/

namespace MountRegistry.Yang

/-- A statement, with the line of its keyword. -/
inductive Statement where
  | mk (keyword : String) (argument : Option String) (children : List Statement) (line : Nat)
  deriving Repr, Inhabited

namespace Statement

/-- The word that says what the statement is. -/
def keyword : Statement → String
  | mk keyword _ _ _ => keyword

/-- What stands between the keyword and the body, its parts joined. -/
def argument : Statement → Option String
  | mk _ argument _ _ => argument

/-- The statements in its block, in their order. -/
def children : Statement → List Statement
  | mk _ _ children _ => children

/-- The line of its keyword. -/
def line : Statement → Nat
  | mk _ _ _ line => line

/-- The substatements with a keyword. -/
def childrenNamed (s : Statement) (keyword : String) : List Statement :=
  s.children.filter (·.keyword == keyword)

/-- The argument of the first substatement with this keyword. -/
def childArgument (s : Statement) (keyword : String) : Option String :=
  (s.childrenNamed keyword).head?.bind (·.argument)

/-- The number of statements that may enclose one another. -/
def maxNesting : Nat := 64

/-- What can be wrong with the tokens of a statement. -/
inductive Failure where
  | nestedTooDeep
  | expectedKeyword (found : Token)
  | expectedBody (keyword : String) (found : Token)
  | endOfInput (keyword : String)
  | unterminatedBlock (keyword : String)
  | emptySource
  | trailingContent
  deriving DecidableEq, Repr

/-- What stands before a statement's body. -/
structure Header where
  keyword : String
  argument : Option String
  line : Nat
  deriving DecidableEq, Repr

/-- The statement, once its body is known. -/
def Header.toStatement (h : Header) (children : List Statement) : Statement :=
  Statement.mk h.keyword h.argument children h.line

/-- A block that is still open, with the statements read in it, last first. -/
structure Block where
  header : Header
  children : List Statement
  deriving Repr

/-- What the next token is read as. -/
inductive Expecting where
  /-- A keyword, or the end of the innermost block. -/
  | statement
  /-- An argument or a body. -/
  | argument (header : Header)
  /-- After a quoted part: a `+` or a body. -/
  | more (header : Header)
  /-- After a `+` on this line: a quoted part. -/
  | part (header : Header) (plusLine : Nat)
  /-- A body. -/
  | body (header : Header)
  /-- Nothing: the outermost statement is complete. -/
  | nothing (whole : Statement)
  deriving Repr

/-- How far the reading has come: the open blocks, innermost first, and what comes next. -/
structure Reader where
  blocks : List Block
  expecting : Expecting
  deriving Repr

namespace Reader

/-- Nothing is read yet. -/
def start : Reader := ⟨[], .statement⟩

/-- A complete statement joins the innermost open block. -/
def complete (blocks : List Block) (s : Statement) : Reader :=
  match blocks with
  | [] => ⟨[], .nothing s⟩
  | b :: rest => ⟨{ b with children := s :: b.children } :: rest, .statement⟩

/-- A token that should be a keyword. It is refused at full depth, whatever it is. -/
def beginStatement (blocks : List Block) (t : Lined Token) : Except (Lined Failure) Reader :=
  if maxNesting ≤ blocks.length then .error ⟨.nestedTooDeep, t.line⟩
  else match t.value with
    | .word keyword => .ok ⟨blocks, .argument ⟨keyword, none, t.line⟩⟩
    | found => .error ⟨.expectedKeyword found, t.line⟩

/-- A token that should be a semicolon or open a block. -/
def readBody (blocks : List Block) (h : Header) (t : Lined Token) :
    Except (Lined Failure) Reader :=
  match t.value with
  | .semicolon => .ok (complete blocks (h.toStatement []))
  | .openBrace => .ok ⟨⟨h, []⟩ :: blocks, .statement⟩
  | found => .error ⟨.expectedBody h.keyword found, t.line⟩

/-- What the next token means. -/
def step (r : Reader) (t : Lined Token) : Except (Lined Failure) Reader :=
  match r.expecting with
  | .statement =>
    match t.value, r.blocks with
    | .closeBrace, b :: rest => .ok (complete rest (b.header.toStatement b.children.reverse))
    | _, blocks => beginStatement blocks t
  | .argument h =>
    match t.value with
    | .word text => .ok ⟨r.blocks, .body { h with argument := some text }⟩
    | .quoted text => .ok ⟨r.blocks, .more { h with argument := some text }⟩
    | _ => readBody r.blocks h t
  | .more h =>
    if t.value = .word "+" then .ok ⟨r.blocks, .part h t.line⟩ else readBody r.blocks h t
  | .part h plusLine =>
    match t.value with
    | .quoted text => .ok ⟨r.blocks, .more { h with argument := h.argument.map (· ++ text) }⟩
    | _ => .error ⟨.expectedBody h.keyword (.word "+"), plusLine⟩
  | .body h => readBody r.blocks h t
  | .nothing _ => .error ⟨.trailingContent, t.line⟩

/-- The whole statement once the tokens have ended, or what they left open. -/
def finish (r : Reader) : Except (Lined Failure) Statement :=
  match r.expecting with
  | .nothing whole => .ok whole
  | .statement =>
    match r.blocks with
    | [] => .error ⟨.emptySource, 1⟩
    | b :: _ => .error ⟨.unterminatedBlock b.header.keyword, b.header.line⟩
  | .argument h | .more h | .body h => .error ⟨.endOfInput h.keyword, h.line⟩
  | .part h plusLine => .error ⟨.expectedBody h.keyword (.word "+"), plusLine⟩

/-- Reads tokens one by one, until one is refused. -/
def run (r : Reader) (ts : List (Lined Token)) : Except (Lined Failure) Reader := ts.foldlM step r

end Reader

/-- The one statement that the tokens make up. -/
def ofTokens (ts : List (Lined Token)) : Except (Lined Failure) Statement :=
  Reader.run Reader.start ts >>= Reader.finish

end Statement

end MountRegistry.Yang
