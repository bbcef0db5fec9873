import MountRegistry.Json.Value
import MountRegistry.Text.Digit

/-
  Doubles above or at zero, each as the number of least doubles, `units`, that make it up. Every
  double is a whole number of units, and a whole number is a double when its binary digits after
  the 53rd are zeros. `scaled?` is how a decimal is read: the leading digits that fit in 64 bits
  become a double, which is multiplied by or divided by a power of ten that is a double too, so
  that a number may be rounded more than once.
-/

namespace MountRegistry.Double

/-- The units in one. -/
def unitsPerOne : Nat := Nat.pow 2 1074

/-- The least number of units that is too large for a double. -/
def limit : Nat := Nat.pow 2 1024 * unitsPerOne

/-- The double nearest to `num / den` units, of two the one with an even last binary digit. -/
def nearest (num den : Nat) : Nat :=
  let step := Nat.pow 2 ((num / den).log2 - 52)
  let below := num / (den * step)
  let twiceOver := 2 * (num % (den * step))
  if den * step < twiceOver ∨ (twiceOver = den * step ∧ below % 2 = 1) then (below + 1) * step
  else below * step

/-- The double nearest to a whole number. -/
def ofNat (n : Nat) : Nat := nearest (n * unitsPerOne) 1

/-- A power of ten. -/
def power (exponent : Nat) : Nat := ofNat (Nat.pow 10 exponent)

/-- A double scaled by a power of ten, if that is finite. No double has an exponent above 308, so
smaller exponents take several divisions. -/
def scaled? (units : Nat) (exponent : Int) : Option Nat :=
  if units = 0 then some 0
  else if 308 < exponent then none
  else if 0 ≤ exponent then
    let product := nearest (units * power exponent.toNat) unitsPerOne
    if product < limit then some product else none
  else if -308 ≤ exponent then some (nearest (units * unitsPerOne) (power exponent.natAbs))
  else scaled? (nearest (units * unitsPerOne) (power 308)) (exponent + 308)
termination_by exponent.natAbs
decreasing_by omega

/-- A number with as many further digits as let it stay within 64 bits, and the digits that are
left. -/
def extended (n : Nat) : List Char → Nat × List Char
  | [] => (n, [])
  | d :: rest =>
    let m := n * 10 + Text.valueOf [d]
    if m < Nat.pow 2 64 then extended m rest else (n, d :: rest)

/-- The double that a decimal writes, if it is finite. -/
def ofDecimal? (whole fraction : List Char) (exponent : Int) : Option Nat :=
  let (n, wholeLeft) := extended 0 whole
  let (n, fractionLeft) := extended n fraction
  scaled? (ofNat n) (exponent + wholeLeft.length + fractionLeft.length - fraction.length)

/-- The exact decimal of a double, with at least one decimal place. -/
def toNumber (negative : Bool) (units : Nat) : Number :=
  let shared := Nat.gcd units (Nat.pow 2 1073)
  let places := 1074 - shared.log2
  .decimal negative (units / shared * Nat.pow 5 places) places

end MountRegistry.Double
