import Bn254.Fp.Encoding

/-!
# Elements as text

The number of an element is shown to base 16: all 64 digits of its 32 bytes, in either case, or
bracketed with a name. The shortest encoding shows two digits for each of its bytes.
-/

namespace Bn254

/-- The case of the digits above nine. -/
inductive LetterCase
  /-- From `a` to `f`. -/
  | lower
  /-- From `A` to `F`. -/
  | upper

namespace LetterCase

/-- The digit of a number below 16. -/
def digit : LetterCase → Nat → Char
  | lower, n => Nat.digitChar n
  | upper, n => (Nat.digitChar n).toUpper

/-- Two digits for each byte. -/
def digits (letters : LetterCase) (bs : Bytes) : List Char :=
  bs.flatMap fun b => [letters.digit (b.toNat / 16), letters.digit (b.toNat % 16)]

/-- Two digits for each byte, as a text. -/
def hex (letters : LetterCase) (bs : Bytes) : String := .ofList (letters.digits bs)

end LetterCase

/-- How a shortest encoding is shown for inspection. -/
def MinimalBytes.debug (m : MinimalBytes) : String :=
  "FqBytes(" ++ LetterCase.lower.hex m.toList ++ ")"

namespace Fp

/-- The 64 digits of the element, letters in lower case. -/
def lowerHex (a : Fp) : String := LetterCase.lower.hex a.toBytes32.toList

/-- The 64 digits of the element, letters in upper case. -/
def upperHex (a : Fp) : String := LetterCase.upper.hex a.toBytes32.toList

/-- How the element is shown: the digits in upper case. -/
def display (a : Fp) : String := a.upperHex

/-- How the element is shown for inspection. -/
def debug (a : Fp) : String := "Fq(0x" ++ a.lowerHex ++ ")"

instance : ToString Fp := ⟨display⟩

end Fp

end Bn254
