import MountRegistry.Text.Digit

/-
  Socket addresses: an IPv4 address, or an IPv6 address in brackets with an optional scope, and
  `portNumber` after a colon. Every reader takes what it can from the front of the text and gives
  the rest; `ofString?` wants the whole text taken. An IPv6 address is printed with its longest
  run of zero groups, the first of several, left out.
-/

namespace MountRegistry

/-- A form of numbers: the base, a bound, how many digits, and whether needless zeros may lead. -/
structure NumberForm where
  base : Nat
  /-- The number is below this bound. -/
  bound : Nat
  maxDigits : Option Nat
  leadingZeros : Bool
  deriving Repr

namespace NumberForm

/-- One of the four numbers of an IPv4 address. -/
def octet : NumberForm := ⟨10, Nat.pow 2 8, some 3, false⟩

/-- One of the eight numbers of an IPv6 address. -/
def group : NumberForm := ⟨16, Nat.pow 2 16, some 4, true⟩

/-- The number after the last colon. -/
def portNumber : NumberForm := ⟨10, Nat.pow 2 16, none, true⟩

/-- The number after a percent sign. -/
def scope : NumberForm := ⟨10, Nat.pow 2 32, none, true⟩

/-- The value of a digit in a base up to sixteen. -/
def digit? (base : Nat) (c : Char) : Option Nat := (Text.hexDigit? c).filter (· < base)

/-- The digits at the front of a text. -/
def digits (base : Nat) : List Char → List Nat × List Char
  | [] => ([], [])
  | c :: rest =>
    match digit? base c with
    | some d => let (ds, rest) := digits base rest; (d :: ds, rest)
    | none => ([], c :: rest)

/-- The number that digits write. -/
def value (base : Nat) (ds : List Nat) : Nat := ds.foldl (fun n d => n * base + d) 0

/-- Whether the form admits these digits. -/
def admits (f : NumberForm) (ds : List Nat) : Bool :=
  !ds.isEmpty && (f.maxDigits.all fun n => decide (ds.length ≤ n)) &&
    (f.leadingZeros || ds.length == 1 || ds.head? != some 0) && decide (value f.base ds < f.bound)

/-- Takes a number of this form, with all the digits that stand there. -/
def take (f : NumberForm) (text : List Char) : Option (Nat × List Char) :=
  let (ds, rest) := digits f.base text
  if f.admits ds then some (value f.base ds, rest) else none

end NumberForm

/-- Takes one character. -/
def takeChar (c : Char) : List Char → Option (List Char)
  | c' :: rest => if c = c' then some rest else none
  | [] => none

/-- What comes between the numbers of an address: nothing before the first. -/
def takeBetween (c : Char) (index : Nat) (text : List Char) : Option (List Char) :=
  if index = 0 then some text else takeChar c text

/-- An IPv4 address, by its four numbers. -/
structure Ipv4 where
  a : Nat
  b : Nat
  c : Nat
  d : Nat
  deriving DecidableEq, Repr

namespace Ipv4

/-- Takes four numbers with dots between them. -/
def take (text : List Char) : Option (Ipv4 × List Char) := do
  let (a, text) ← NumberForm.octet.take text
  let (b, text) ← NumberForm.octet.take (← takeChar '.' text)
  let (c, text) ← NumberForm.octet.take (← takeChar '.' text)
  let (d, text) ← NumberForm.octet.take (← takeChar '.' text)
  return (⟨a, b, c, d⟩, text)

/-- The address as two groups of sixteen bits. -/
def groups (i : Ipv4) : List Nat := [i.a * Nat.pow 2 8 + i.b, i.c * Nat.pow 2 8 + i.d]

/-- The IPv4 address in the last two groups of an IPv6 address. -/
def ofGroups (high low : Nat) : Ipv4 :=
  ⟨high / Nat.pow 2 8, high % Nat.pow 2 8, low / Nat.pow 2 8, low % Nat.pow 2 8⟩

/-- The four numbers with dots between them. -/
protected def toString (i : Ipv4) : String :=
  ".".intercalate ([i.a, i.b, i.c, i.d].map toString)

end Ipv4

/-- An IPv6 address. -/
structure Ipv6 where
  /-- The eight groups. -/
  groups : List Nat
  deriving DecidableEq, Repr

namespace Ipv6

/--
  Takes at most `room` groups between colons, and says whether the last two are an IPv4 address. The
  first group taken has number `index`, and has a colon before it unless that is zero.
-/
def takeGroups (index : Nat) : Nat → List Char → List Nat × Bool × List Char
  | 0, text => ([], false, text)
  | room + 1, text =>
    let ipv4 := if room = 0 then none else (takeBetween ':' index text).bind Ipv4.take
    match ipv4 with
    | some (i, rest) => (i.groups, true, rest)
    | none =>
      match (takeBetween ':' index text).bind NumberForm.group.take with
      | some (g, rest) =>
        let (gs, mixed, rest) := takeGroups (index + 1) room rest
        (g :: gs, mixed, rest)
      | none => ([], false, text)

/-- Takes eight groups, or fewer on two sides of a double colon that stands for the others. -/
def take (text : List Char) : Option (Ipv6 × List Char) := do
  let (front, mixed, text) := takeGroups 0 8 text
  if front.length = 8 then return (⟨front⟩, text)
  if mixed then none
  let text ← takeChar ':' (← takeChar ':' text)
  let (back, _, text) := takeGroups 0 (7 - front.length) text
  return (⟨front ++ List.replicate (8 - front.length - back.length) 0 ++ back⟩, text)

/-- The number of zero groups at the front. -/
def zeros (gs : List Nat) : Nat := (gs.takeWhile (· == 0)).length

/-- Where the longest run of zero groups begins, the first of several, and its length. -/
def longestZeros (gs : List Nat) : Nat × Nat :=
  (List.range gs.length).foldl
    (fun best i => let n := zeros (gs.drop i); if best.2 < n then (i, n) else best) (0, 0)

/-- Groups as they are printed, with colons between them. -/
def joined (gs : List Nat) : String :=
  ":".intercalate (gs.map fun g => String.ofList (Text.hexadecimal g))

/-- The groups, the longest run of zeros left out if it has more than one. An address that stands
for an IPv4 address shows that. -/
protected def toString (i : Ipv6) : String :=
  match i.groups with
  | [0, 0, 0, 0, 0, 0xffff, high, low] => "::ffff:" ++ (Ipv4.ofGroups high low).toString
  | gs =>
    let (start, length) := longestZeros gs
    if 1 < length then joined (gs.take start) ++ "::" ++ joined (gs.drop (start + length))
    else joined gs

end Ipv6

/-- An address to listen on. -/
inductive SocketAddress where
  | v4 (ip : Ipv4) (portNumber : Nat)
  | v6 (ip : Ipv6) (scope : Nat) (portNumber : Nat)
  deriving DecidableEq, Repr

namespace SocketAddress

/-- Takes a colon and the number after it. -/
def takePortNumber (text : List Char) : Option (Nat × List Char) := do
  NumberForm.portNumber.take (← takeChar ':' text)

/-- Takes an IPv4 address with its number. -/
def takeV4 (text : List Char) : Option (SocketAddress × List Char) := do
  let (ip, text) ← Ipv4.take text
  let (portNumber, text) ← takePortNumber text
  return (.v4 ip portNumber, text)

/-- The scope after a percent sign, or zero where none can be taken. -/
def takeScope (text : List Char) : Nat × List Char :=
  ((takeChar '%' text).bind NumberForm.scope.take).getD (0, text)

/-- Takes an IPv6 address in brackets with its number. -/
def takeV6 (text : List Char) : Option (SocketAddress × List Char) := do
  let (ip, text) ← Ipv6.take (← takeChar '[' text)
  let (scope, text) := takeScope text
  let (portNumber, text) ← takePortNumber (← takeChar ']' text)
  return (.v6 ip scope portNumber, text)

/-- The address that the whole text writes. -/
def ofString? (text : String) : Option SocketAddress :=
  match (takeV4 text.toList).orElse fun _ => takeV6 text.toList with
  | some (address, []) => some address
  | _ => none

/-- The address as it is printed. A scope of zero does not show. -/
protected def toString : SocketAddress → String
  | v4 ip portNumber => ip.toString ++ ":" ++ ToString.toString portNumber
  | v6 ip scope portNumber =>
    let scope := if scope = 0 then "" else "%" ++ ToString.toString scope
    "[" ++ ip.toString ++ scope ++ "]:" ++ ToString.toString portNumber

end SocketAddress

end MountRegistry
