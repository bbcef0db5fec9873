import MountRegistry.Keyed

/-
  JSON values. The members of an object are entries in ascending order of keys; `Json.Canonical`
  says so of a value and all its parts, and `Json.object` over `Keyed` operations keeps it.
-/

namespace MountRegistry

/-- A number is an integer, or has decimal places, though these may all be zeros. -/
inductive Number where
  | integer (n : Int)
  /-- The number `digits / 10^places`, or the one below zero, which is another one even for zero. -/
  | decimal (negative : Bool) (digits places : Nat)
  deriving DecidableEq, Repr, Inhabited

/-- A value. Only `Canonical` ones have the members of each object in the order of their keys. -/
inductive Json where
  | null
  | bool (b : Bool)
  | number (n : Number)
  | text (s : String)
  | array (items : List Json)
  | object (members : List (String × Json))
  deriving Repr, Inhabited

namespace Json

/-- A whole number as a value. -/
def ofNat (n : Nat) : Json := .number (.integer n)

/-- The object without members, which every store starts with. -/
def emptyObject : Json := .object []

/-- Whether the value can have members. -/
def isObject : Json → Bool
  | .object _ => true
  | _ => false

/-- The object with these members; of several for one key the last counts. -/
def ofMembers (members : List (String × Json)) : Json := .object (Keyed.ofList members)

/-- Texts as an array. -/
def ofTexts (texts : List String) : Json := .array (texts.map .text)

/-- A text, or null where there is none. -/
def ofOptionalText : Option String → Json
  | some s => .text s
  | none => .null

/-- The member of an object under a key. -/
def member? (key : String) : Json → Option Json
  | .object members => Keyed.find? members key
  | _ => none

/-- The texts of an array that holds nothing else. -/
def texts? : Json → Option (List String)
  | .array items => items.mapM fun
    | .text s => some s
    | _ => none
  | _ => none

mutual

/-- Every object in the value has its keys in ascending order. -/
def Canonical : Json → Prop
  | .array items => CanonicalItems items
  | .object members => Keyed.Ascending members ∧ CanonicalMembers members
  | _ => True

/-- All values of an array are canonical. -/
def CanonicalItems : List Json → Prop
  | [] => True
  | j :: rest => Canonical j ∧ CanonicalItems rest

/-- All values of an object are canonical. -/
def CanonicalMembers : List (String × Json) → Prop
  | [] => True
  | (_, j) :: rest => Canonical j ∧ CanonicalMembers rest

end

end Json

end MountRegistry
