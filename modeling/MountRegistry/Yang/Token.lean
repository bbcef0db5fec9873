import MountRegistry.Text.Blank
import MountRegistry.Text.Quoted

/-
  Tokens of a schema source: words, quoted strings, braces and semicolons, each with the line on
  which it starts. The lexer reads one character at a time; `Lexer.step` says what a character
  means in each mode, so a text is read by a fold and every text is answered.

  Blanks, comments to the end of the line and block comments separate tokens and leave nothing. A
  word ends at a blank, a brace, a semicolon or a quote. In double quotes a backslash takes the next
  character with it; in single quotes it is an ordinary character.
-/

namespace MountRegistry.Yang

/-- A token. Quotes and escapes are gone from a quoted one. -/
inductive Token where
  | word (text : String)
  | quoted (text : String)
  | openBrace
  | closeBrace
  | semicolon
  deriving DecidableEq, Repr

/-- How a diagnostic shows a token. -/
def Token.describe : Token → String
  | .word text => "Word(" ++ Text.quote text ++ ")"
  | .quoted text => "Quoted(" ++ Text.quote text ++ ")"
  | .openBrace => "Open"
  | .closeBrace => "Close"
  | .semicolon => "Semicolon"

/-- A value and the line it starts on, counted from 1. -/
structure Lined (α : Type) where
  value : α
  line : Nat
  deriving DecidableEq, Repr

namespace Lexer

/-- The two kinds of quotes. -/
inductive QuoteStyle where
  | single
  | double
  deriving DecidableEq, Repr

/-- What the characters read so far have opened. Texts are kept last character first. -/
inductive Mode where
  | between
  | word (text : List Char)
  | slash
  | lineComment
  | blockComment (start : Nat) (afterStar : Bool)
  | quoted (style : QuoteStyle) (start : Nat) (text : List Char)
  | escaped (start : Nat) (text : List Char)
  deriving DecidableEq, Repr

/-- How far the lexer has come. -/
structure State where
  mode : Mode
  line : Nat
  /-- The finished tokens, last first. -/
  tokens : List (Lined Token)
  deriving DecidableEq, Repr

/-- Between two tokens, on the first line. -/
def start : State := ⟨.between, 1, []⟩

/-- What a text can leave open. -/
inductive Failure where
  | unterminatedString
  | unterminatedComment
  deriving DecidableEq, Repr

/-- The characters that end a word. -/
def endsWord (c : Char) : Bool :=
  Text.isBlank c || c == '\x7b' || c == '\x7d' || c == ';' || c == '"' || c == '\''

/-- A token is finished. -/
def State.push (s : State) (t : Token) (line : Nat) : State :=
  { s with mode := .between, tokens := ⟨t, line⟩ :: s.tokens }

/-- A character that stands between two tokens. -/
def State.between (s : State) (c : Char) : State :=
  if Text.isBlank c then { s with mode := .between }
  else if c = '\x7b' then s.push .openBrace s.line
  else if c = '\x7d' then s.push .closeBrace s.line
  else if c = ';' then s.push .semicolon s.line
  else if c = '"' then { s with mode := .quoted .double s.line [] }
  else if c = '\'' then { s with mode := .quoted .single s.line [] }
  else if c = '/' then { s with mode := .slash }
  else { s with mode := .word [c] }

/-- A character that follows the characters of a word. -/
def State.inWord (s : State) (text : List Char) (c : Char) : State :=
  if endsWord c then (s.push (.word (String.ofList text.reverse)) s.line).between c
  else { s with mode := .word (c :: text) }

/-- The character that a backslash takes with it. -/
def unescape (c : Char) : Char :=
  if c = 'n' then '\n' else if c = 't' then '\t' else c

/-- The character that opens and closes quotes of this kind. -/
def QuoteStyle.mark : QuoteStyle → Char
  | .single => '\''
  | .double => '"'

/-- A character between quotes. -/
def State.inQuotes (s : State) (style : QuoteStyle) (start : Nat) (text : List Char) (c : Char) :
    State :=
  if c = style.mark then s.push (.quoted (String.ofList text.reverse)) start
  else if style = .double ∧ c = '\\' then { s with mode := .escaped start text }
  else { s with mode := .quoted style start (c :: text) }

/-- The state after a character, lines aside. -/
def State.read (s : State) (c : Char) : State :=
  match s.mode with
  | .between => s.between c
  | .word text => s.inWord text c
  | .slash =>
    if c = '/' then { s with mode := .lineComment }
    else if c = '*' then { s with mode := .blockComment s.line false }
    else s.inWord ['/'] c
  | .lineComment => if c = '\n' then { s with mode := .between } else s
  | .blockComment start afterStar =>
    if afterStar ∧ c = '/' then { s with mode := .between }
    else { s with mode := .blockComment start (c == '*') }
  | .quoted style start text => s.inQuotes style start text c
  | .escaped start text => { s with mode := .quoted .double start (unescape c :: text) }

/-- The line after a character: a line feed begins a new one unless a backslash took it. -/
def State.nextLine (s : State) (c : Char) : Nat :=
  match s.mode with
  | .escaped _ _ => s.line
  | _ => if c = '\n' then s.line + 1 else s.line

/-- What a character means, and the line after it. -/
def step (s : State) (c : Char) : State :=
  { s.read c with line := s.nextLine c }

/-- The tokens once the text has ended, or what it left open and where that began. -/
def State.finish (s : State) : Except (Lined Failure) (List (Lined Token)) :=
  match s.mode with
  | .between | .lineComment => .ok s.tokens.reverse
  | .word text => .ok (s.push (.word (String.ofList text.reverse)) s.line).tokens.reverse
  | .slash => .ok (s.push (.word "/") s.line).tokens.reverse
  | .blockComment start _ => .error ⟨.unterminatedComment, start⟩
  | .quoted _ start _ | .escaped start _ => .error ⟨.unterminatedString, start⟩

/-- Reads characters one by one. -/
def run (s : State) (text : List Char) : State := text.foldl step s

theorem run_append (s : State) (a b : List Char) : run s (a ++ b) = run (run s a) b := by
  simp [run, List.foldl_append]

end Lexer

/-- The tokens of a text, in order. -/
def tokenize (text : List Char) : Except (Lined Lexer.Failure) (List (Lined Token)) :=
  (Lexer.run Lexer.start text).finish

end MountRegistry.Yang
