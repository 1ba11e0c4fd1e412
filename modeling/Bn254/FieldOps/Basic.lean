import Bn254.Fp.Encoding
import Bn254.Fp.Integer
import Bn254.Fp.Power

/-!
# The operations of a field

What a type of field elements offers, as plain functions: the base field has them, and so has any
field built on it.
-/

namespace Bn254

/-- The operations on the elements of a field. -/
structure FieldOps (α : Type) where
  /-- The neutral element of addition. -/
  zero : α
  /-- The neutral element of multiplication. -/
  one : α
  /-- Is the element zero? -/
  isZero : α → Bool
  /-- Is the element kept in a form that its type allows? -/
  isValid : α → Bool
  /-- The sum. -/
  add : α → α → α
  /-- The difference. -/
  sub : α → α → α
  /-- The element taken a small number of times. -/
  mulSmall : α → Int64 → α
  /-- The product. -/
  mul : α → α → α
  /-- The quotient, or the error that there is none. -/
  divide : α → α → Except FieldError α
  /-- The element that adds up to zero with the given one. -/
  neg : α → α
  /-- The power with an exponent of one word. -/
  power : α → UInt64 → α
  /-- The power with an exponent of several words, least significant first. -/
  powerWide : α → List Word → α
  /-- The shortest encoding. -/
  toBytes : α → Bytes

/-- The operations of the base field. -/
def Fp.ops : FieldOps Fp where
  zero := Fp.zero
  one := Fp.one
  isZero := Fp.isZero
  isValid := Fp.isValid
  add := Fp.add
  sub := Fp.sub
  mulSmall := Fp.mulSmall
  mul := Fp.mul
  divide := Fp.divide
  neg := Fp.neg
  power := Fp.power
  powerWide := Fp.powTrimmed
  toBytes a := a.toBytes.toList

end Bn254
