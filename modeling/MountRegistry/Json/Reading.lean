import MountRegistry.Json.Double

/-
  Reading JSON text. `Reading.ofText` keeps what the text holds as far as it is JSON, in the order
  in which it stands: members of an object with repeated keys, numbers beyond the range of numbers,
  and texts with half of a surrogate pair are still there, and `broken` stands where the text stops
  being JSON. What is made of a reading is up to its reader, who meets its parts in that order.
-/

namespace MountRegistry

/-- What stands in a JSON text, in the order in which it stands. -/
inductive Reading where
  | null
  | bool (b : Bool)
  /-- A number, unless it is beyond the range of numbers. -/
  | number (n : Option Number)
  /-- A text, unless half of a surrogate pair stands in it. -/
  | text (s : Option String)
  /-- The items, and whether the closing bracket was reached. -/
  | array (items : List Reading) (closed : Bool)
  /-- The members, and whether the closing brace was reached. -/
  | object (members : List (Option String × Reading)) (closed : Bool)
  | broken
  deriving Repr, Inhabited

namespace Reading

/-- The blanks of JSON, of which there are four. -/
def isGap (c : Char) : Bool := c == ' ' || c == '\n' || c == '\t' || c == '\r'

/-- The text without the blanks before it. -/
def skipGaps (s : List Char) : List Char := s.dropWhile isGap

/-- The code unit that four hexadecimal digits give. -/
def codeUnit? : List Char → Option (Nat × List Char)
  | a :: b :: c :: d :: rest => do
    let a ← Text.hexDigit? a
    let b ← Text.hexDigit? b
    let c ← Text.hexDigit? c
    let d ← Text.hexDigit? d
    return (((a * 16 + b) * 16 + c) * 16 + d, rest)
  | _ => none

/-- What a one-letter escape stands for. -/
def shortEscape? (c : Char) : Option Char :=
  if c = '"' ∨ c = '\\' ∨ c = '/' then some c
  else if c = 'b' then some '\x08'
  else if c = 'f' then some '\x0c'
  else if c = 'n' then some '\n'
  else if c = 'r' then some '\r'
  else if c = 't' then some '\t'
  else none

/-- Code units: characters as they are, and the units of `\u` escapes. -/
inductive Unit16 where
  | char (c : Char)
  | unit (n : Nat)
  deriving DecidableEq, Repr

/-- The units of a text up to its closing quote, last first, and what follows it. -/
def textUnits (acc : List Unit16) : List Char → Option (List Unit16 × List Char)
  | [] => none
  | '"' :: rest => some (acc, rest)
  | '\\' :: 'u' :: a :: b :: c :: d :: rest =>
    match codeUnit? [a, b, c, d] with
    | some (n, _) => textUnits (.unit n :: acc) rest
    | none => none
  | '\\' :: c :: rest =>
    match shortEscape? c with
    | some e => textUnits (.char e :: acc) rest
    | none => none
  | c :: rest => if c.toNat < 0x20 then none else textUnits (.char c :: acc) rest

/-- The characters that units make up, if no surrogate lacks its partner. -/
def ofUnits (acc : List Char) : List Unit16 → Option (List Char)
  | [] => some acc.reverse
  | .char c :: rest => ofUnits (c :: acc) rest
  | .unit hi :: .unit lo :: rest =>
    if 0xd800 ≤ hi ∧ hi < 0xdc00 then
      if 0xdc00 ≤ lo ∧ lo < 0xe000 then
        ofUnits (Char.ofNat (0x10000 + (hi - 0xd800) * 0x400 + (lo - 0xdc00)) :: acc) rest
      else none
    else if 0xdc00 ≤ hi ∧ hi < 0xe000 then none
    else ofUnits (Char.ofNat hi :: acc) (.unit lo :: rest)
  | .unit n :: rest =>
    if 0xd800 ≤ n ∧ n < 0xe000 then none else ofUnits (Char.ofNat n :: acc) rest

/-- A text after its opening quote, and what follows it; `none` when it is not JSON. -/
def quoted? (s : List Char) : Option (Option String × List Char) :=
  (textUnits [] s).map fun (units, rest) =>
    ((ofUnits [] units.reverse).map String.ofList, rest)

/-- The whole part of a number: a zero, or digits that do not begin with one. -/
def wholePart? (s : List Char) : Option (List Char × List Char) :=
  match s with
  | '0' :: rest =>
    match rest with
    | c :: _ => if Text.isDigit c then none else some (['0'], rest)
    | [] => some (['0'], [])
  | _ =>
    match s.span Text.isDigit with
    | ([], _) => none
    | (ds, rest) => some (ds, rest)

/-- The digits after the point, if there is a point. -/
def fraction? (s : List Char) : Option (List Char × List Char) :=
  match s with
  | '.' :: rest =>
    match rest.span Text.isDigit with
    | ([], _) => none
    | (ds, rest) => some (ds, rest)
  | _ => some ([], s)

/-- The exponent, if there is one. -/
def exponent? (s : List Char) : Option (Option Int × List Char) :=
  match s with
  | c :: rest =>
    if c = 'e' ∨ c = 'E' then
      let (negative, rest) :=
        match rest with
        | '+' :: r => (false, r)
        | '-' :: r => (true, r)
        | r => (false, r)
      match rest.span Text.isDigit with
      | ([], _) => none
      | (ds, rest) =>
        let n : Int := Text.valueOf ds
        some (some (if negative then -n else n), rest)
    else some (none, s)
  | [] => some (none, s)

/-- Whether digits write an integer: one of 64 bits, with a sign below zero and without one above
or at zero. -/
def isInteger (negative : Bool) (n : Nat) : Bool :=
  if negative then 0 < n && n ≤ Nat.pow 2 63 else n < Nat.pow 2 64

/-- The number that its parts make up, if it is in range. -/
def numberOf (negative : Bool) (whole fraction : List Char) (exponent : Option Int) :
    Option Number :=
  let n := Text.valueOf whole
  if fraction.isEmpty && exponent.isNone && isInteger negative n then
    some (.integer (if negative then -n else n))
  else (Double.ofDecimal? whole fraction (exponent.getD 0)).map (Double.toNumber negative)

/-- A number, and what follows it. -/
def number? (s : List Char) : Option (Reading × List Char) := do
  let (negative, s) := match s with
    | '-' :: r => (true, r)
    | r => (false, r)
  let (whole, s) ← wholePart? s
  let (fraction, s) ← fraction? s
  let (exponent, s) ← exponent? s
  return (.number (numberOf negative whole fraction exponent), s)

/-- A literal word, and what follows it. -/
def word? (word : String) (value : Reading) (s : List Char) : Reading × Option (List Char) :=
  match word.toList.isPrefixOf? s with
  | some rest => (value, some rest)
  | none => (.broken, none)

mutual

/-- A value, and what follows it unless the text broke off. Each level of brackets and each item
takes one step, so as many steps as characters suffice. -/
def value (steps : Nat) (s : List Char) : Reading × Option (List Char) :=
  match steps, skipGaps s with
  | steps + 1, '\x7b' :: rest =>
    match skipGaps rest with
    | '\x7d' :: rest => (.object [] true, some rest)
    | rest =>
      let (ms, after) := members steps rest
      (.object ms after.isSome, after)
  | steps + 1, '[' :: rest =>
    match skipGaps rest with
    | ']' :: rest => (.array [] true, some rest)
    | rest =>
      let (is, after) := items steps rest
      (.array is after.isSome, after)
  | _ + 1, '"' :: rest =>
    match quoted? rest with
    | some (s, rest) => (.text s, some rest)
    | none => (.broken, none)
  | _ + 1, 'n' :: rest => word? "null" .null ('n' :: rest)
  | _ + 1, 't' :: rest => word? "true" (.bool true) ('t' :: rest)
  | _ + 1, 'f' :: rest => word? "false" (.bool false) ('f' :: rest)
  | _ + 1, rest =>
    match number? rest with
    | some (n, rest) => (n, some rest)
    | none => (.broken, none)
  | 0, _ => (.broken, none)

/-- The items up to the closing bracket. -/
def items (steps : Nat) (s : List Char) : List Reading × Option (List Char) :=
  match steps with
  | 0 => ([.broken], none)
  | steps + 1 =>
    match value steps s with
    | (v, none) => ([v], none)
    | (v, some rest) =>
      match skipGaps rest with
      | ']' :: rest => ([v], some rest)
      | ',' :: rest =>
        let (vs, after) := items steps rest
        (v :: vs, after)
      | _ => ([v], none)

/-- The members up to the closing brace. -/
def members (steps : Nat) (s : List Char) :
    List (Option String × Reading) × Option (List Char) :=
  match steps, skipGaps s with
  | steps + 1, '"' :: rest =>
    match quoted? rest with
    | none => ([], none)
    | some (key, rest) =>
      match skipGaps rest with
      | ':' :: rest =>
        match value steps rest with
        | (v, none) => ([(key, v)], none)
        | (v, some rest) =>
          match skipGaps rest with
          | '\x7d' :: rest => ([(key, v)], some rest)
          | ',' :: rest =>
            let (ms, after) := members steps rest
            ((key, v) :: ms, after)
          | _ => ([(key, v)], none)
      | _ => ([(key, .broken)], none)
  | _, _ => ([], none)

end

/-- What a whole text holds, and whether nothing but blanks follows it. -/
def ofText (s : String) : Reading × Bool :=
  let text := s.toList
  match value (2 * text.length + 2) text with
  | (r, none) => (r, false)
  | (r, some rest) => (r, (skipGaps rest).isEmpty)

end Reading

end MountRegistry
