import MountRegistry.Json.Reading

/-
  Values of a given shape out of a reading. The reading is gone through in the order of the text,
  and the first fault decides: `malformed` where the text is not JSON, `mismatched` where it is
  JSON of another shape. A record is an object with its fields in any order, other members being
  ignored, or an array with its fields in their order.
-/

namespace MountRegistry

/-- What can be wrong with a text that a value is read from. -/
inductive Fault where
  | malformed
  | mismatched
  deriving DecidableEq, Repr

namespace Reading

/-- The fault of a reading whose shape is not the one asked for. -/
def mismatch : Reading → Fault
  | .broken | .text none | .number none => .malformed
  | _ => .mismatched

/-- The number of brackets that may enclose one another. -/
def maxNesting : Nat := 127

mutual

/-- Any value with at most `levels` brackets inside one another. -/
def toJson (levels : Nat) : Reading → Except Fault Json
  | .null => .ok .null
  | .bool b => .ok (.bool b)
  | .number (some n) => .ok (.number n)
  | .number none => .error .malformed
  | .text (some s) => .ok (.text s)
  | .text none => .error .malformed
  | .array items closed =>
    match levels with
    | 0 => .error .malformed
    | levels + 1 => do
      let items ← toJsonItems levels items
      if closed then .ok (.array items) else .error .malformed
  | .object members closed =>
    match levels with
    | 0 => .error .malformed
    | levels + 1 => do
      let members ← toJsonMembers levels members
      if closed then .ok (.ofMembers members) else .error .malformed
  | .broken => .error .malformed

/-- The items of an array, up to the first that cannot be read. -/
def toJsonItems (levels : Nat) : List Reading → Except Fault (List Json)
  | [] => .ok []
  | r :: rest => do
    let j ← toJson levels r
    let js ← toJsonItems levels rest
    return j :: js

/-- The members of an object, up to the first that cannot be read. Repeated keys are still there. -/
def toJsonMembers (levels : Nat) :
    List (Option String × Reading) → Except Fault (List (String × Json))
  | [] => .ok []
  | (none, _) :: _ => .error .malformed
  | (some key, r) :: rest => do
    let j ← toJson levels r
    let ms ← toJsonMembers levels rest
    return (key, j) :: ms

end

end Reading

/-- What a field may hold. -/
inductive Shape where
  | text
  | texts
  | optionalText
  /-- One of some words, also as the only member of an object, with the value null. -/
  | word (words : List String)
  | any
  deriving DecidableEq, Repr

namespace Shape

/-- A text and nothing else. -/
def readText (r : Reading) : Except Fault String :=
  match r with
  | .text (some s) => .ok s
  | r => .error r.mismatch

/-- A value of a shape, out of a reading. -/
def read (shape : Shape) (r : Reading) : Except Fault Json :=
  match shape, r with
  | .text, r => .text <$> readText r
  | .optionalText, .null => .ok .null
  | .optionalText, r => .text <$> readText r
  | .texts, .array items closed => do
    let texts ← items.mapM readText
    if closed then .ok (.ofTexts texts) else .error .malformed
  | .texts, r => .error r.mismatch
  | .word words, .object [(some w, .null)] true =>
    if words.contains w then .ok (.text w) else .error .mismatched
  | .word words, r => do
    let w ← readText r
    if words.contains w then .ok (.text w) else .error .mismatched
  | .any, r => r.toJson (Reading.maxNesting - 1)

end Shape

/-- A field of a record; one with a default may be left out. -/
structure Field where
  name : String
  shape : Shape
  hasDefault : Bool := false
  deriving DecidableEq, Repr

namespace Field

/-- The fields of an object, a second value for one being a mismatch. -/
def readMembers (fields : List Field) (found : List (String × Json)) :
    List (Option String × Reading) → Except Fault (List (String × Json))
  | [] => .ok found
  | (none, _) :: _ => .error .malformed
  | (some key, r) :: rest =>
    match fields.find? (·.name == key) with
    | none => readMembers fields found rest
    | some field =>
      if Keyed.contains found key then .error .mismatched
      else do
        let value ← field.shape.read r
        readMembers fields (Keyed.insert found key value) rest

/-- The fields of an array, in their order. -/
def readItems (found : List (String × Json)) (closed : Bool) :
    List Field → List Reading → Except Fault (List (String × Json))
  | [], [] => if closed then .ok found else .error .malformed
  | [], _ :: _ => .error .malformed
  | field :: fields, [] =>
    if !closed then .error .malformed
    else if field.hasDefault then readItems found closed fields []
    else .error .mismatched
  | field :: fields, r :: rest => do
    let value ← field.shape.read r
    readItems (Keyed.insert found field.name value) closed fields rest

/-- The fields that a reading gives, all without a default among them. -/
def readRecord (fields : List Field) : Reading → Except Fault (List (String × Json))
  | .object members closed => do
    let found ← readMembers fields [] members
    if !closed then .error .malformed
    else if fields.all fun f => f.hasDefault || Keyed.contains found f.name then .ok found
    else .error .mismatched
  | .array items closed => readItems [] closed fields items
  | r => .error r.mismatch

end Field

/-- A whole text read by `read`, nothing but blanks following. -/
def Reading.whole {α : Type} (read : Reading → Except Fault α) (text : String) :
    Except Fault α := do
  let (r, ended) := Reading.ofText text
  let a ← read r
  if ended then .ok a else .error .malformed

/-- The value that a text holds. -/
def Json.parse (text : String) : Except Fault Json :=
  Reading.whole (·.toJson Reading.maxNesting) text

end MountRegistry
