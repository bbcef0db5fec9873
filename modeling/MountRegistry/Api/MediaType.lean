/-
  The media types of request bodies: a type and a subtype, and parameters with plain or quoted
  values. A body is taken as JSON if its subtype is `json`, or if what follows the last plus sign
  of the subtype is.
-/

namespace MountRegistry

/-- The type and the subtype, in lower case. -/
structure MediaType where
  main : String
  sub : String
  /-- What follows the last plus sign of the subtype. -/
  ending : Option String
  deriving DecidableEq, Repr

namespace MediaType

/-- The characters of names and of plain values. -/
def isToken (c : Char) : Bool := c.isAlphanum || "!#$%&'*+-.^_\x60|~".toList.contains c

/-- The characters of quoted values. -/
def isQuotable (c : Char) : Bool := ' ' ≤ c && c ≤ '~'

/-- The token at the front of a text. -/
def token (s : List Char) : List Char × List Char := s.span isToken

/-- What stands after the closing quote: blanks, and then the end or the next parameter. -/
def afterQuoted? (s : List Char) : Option (List Char) :=
  match s.dropWhile (· == ' ') with
  | [] => some []
  | ';' :: rest => some rest
  | _ => none

/-- What follows a parameter's value, if the value is well formed. -/
def afterValue? : List Char → Option (List Char)
  | '"' :: s =>
    match s.span fun c => isQuotable c && c != '"' with
    | ([], '"' :: s) =>
      -- a quote right after the opening one is part of the value
      match s.span fun c => isQuotable c && c != '"' with
      | (_, '"' :: rest) => afterQuoted? rest
      | _ => none
    | (_, '"' :: rest) => afterQuoted? rest
    | _ => none
  | s =>
    match token s with
    | (_, []) => some []
    | (_ :: _, ';' :: rest) => some rest
    | _ => none

/-- What follows a parameter, if it is well formed. -/
def afterParameter? (s : List Char) : Option (List Char) :=
  match token s with
  | (_ :: _, '=' :: rest) => afterValue? rest
  | _ => none

/-- Whether a text holds parameters only; each takes at least one character. -/
def areParameters : Nat → List Char → Bool
  | 0, s => s.isEmpty
  | n + 1, s =>
    match s.dropWhile (· == ' ') with
    | [] => true
    | s =>
      match afterParameter? s with
      | some rest => areParameters n rest
      | none => false

/-- The subtype and what follows its last plus sign; one at its start does not count. -/
def ofNames (main sub : List Char) : MediaType :=
  let text := (String.ofList sub).toLower
  let (afterPlus, rest) := sub.tail.reverse.span (· != '+')
  if rest.isEmpty then ⟨(String.ofList main).toLower, text, none⟩
  else
    let length := sub.length - afterPlus.length - 1
    ⟨(String.ofList main).toLower, (String.ofList (sub.take length)).toLower,
      some (String.ofList afterPlus.reverse).toLower⟩

/-- Reads a media type. Parameters may follow it, and are passed over if they are well formed. -/
def ofString? (text : String) : Option MediaType :=
  match token text.toList with
  | (main@(_ :: _), '/' :: s) =>
    match token s with
    | (sub@(_ :: _), []) => some (ofNames main sub)
    | (sub@(_ :: _), ';' :: s) =>
      if areParameters s.length s then some (ofNames main sub) else none
    | _ => none
  | _ => none

/-- An application type that is JSON itself or whose name ends in `+json`. -/
def isJson (m : MediaType) : Bool :=
  m.main == "application" && (m.sub == "json" || m.ending == some "json")

end MediaType

end MountRegistry
