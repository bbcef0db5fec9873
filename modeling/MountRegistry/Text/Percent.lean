import MountRegistry.Text.Digit

/-
  Percent coding: a percent sign and two hexadecimal digits stand for a byte. A percent sign without
  two digits after it stands for itself.
-/

namespace MountRegistry.Text

/-- The byte of two hexadecimal digits. -/
def byteOfDigits? (high low : UInt8) : Option UInt8 := do
  let high ← hexDigit? (.ofUInt8 high)
  let low ← hexDigit? (.ofUInt8 low)
  return (high * 16 + low).toUInt8

/-- Every percent sign with two hexadecimal digits after it becomes the byte that they write; any
other stays. -/
def percentDecode : List UInt8 → List UInt8
  | b :: high :: low :: rest =>
    if b = 0x25 then
      match byteOfDigits? high low with
      | some c => c :: percentDecode rest
      | none => b :: percentDecode (high :: low :: rest)
    else b :: percentDecode (high :: low :: rest)
  | s => s

/-- The text that a percent-coded text stands for, if it is one. -/
def percentDecoded? (s : String) : Option String :=
  String.fromUTF8? ⟨(percentDecode s.toUTF8.toList).toArray⟩

end MountRegistry.Text
