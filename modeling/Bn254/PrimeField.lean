import Bn254.Fp.Integer
import Bn254.Fp.Power

/-!
# The constants of the prime field

What code that works over any prime field is told about this one: the size of the modulus, a
generator of the multiplicative group, and how that group splits. With `t` the odd part of `p - 1`,
the group is the product of the roots of unity of a power of two and of the group with `t` elements
that `delta` generates.
-/

namespace Bn254

/-- The constants that describe a prime field. -/
structure PrimeField where
  /-- The number of bits of the modulus. -/
  numBits : Nat
  /-- The number of bits that any element has room for. -/
  capacity : Nat
  /-- How often two divides `p - 1`. -/
  s : Nat
  /-- The neutral element of multiplication. -/
  one : Fp
  /-- One half. -/
  twoInv : Fp
  /-- A generator of the multiplicative group. -/
  generator : Fp
  /-- A root of unity of order `2 ^ s`. -/
  rootOfUnity : Fp
  /-- The inverse of that root. -/
  rootOfUnityInv : Fp
  /-- A generator of the elements whose order divides `t`. -/
  delta : Fp

namespace PrimeField

/-- The constants of this field. -/
def bn254 : PrimeField where
  numBits := Modulus.bits
  capacity := Modulus.bits - 1
  s := 1
  one := Fp.one
  twoInv := Fp.ofU256 Modulus.half
  generator := Fp.ofUInt64 3
  rootOfUnity := Fp.rootOfUnity
  rootOfUnityInv := Fp.rootOfUnity
  delta := Fp.ofUInt64 9

/-- `p - 1` without its lower `n` bits. -/
def groupOrderShift (n : Nat) : U256 := .ofNat ((Modulus.p.toNat - 1) >>> n)

/-- The checks on the constants. -/
inductive Check
  /-- The modulus has the number of bits that is given, and one less is the capacity. -/
  | numBits
  /-- The power `t` of `delta` is one. -/
  | delta
  /-- The generator is no square. -/
  | multiplicativeGenerator
  /-- The power `2 ^ s` of the root of unity is one, and the power `t` of the generator is that
  root. -/
  | rootOfUnity
  /-- The root of unity times its inverse is one. -/
  | rootOfUnityInv
  /-- Two halves are one. -/
  | twoInv
deriving DecidableEq

/-- Does the check pass? -/
def passes (c : PrimeField) : Check → Bool
  | .numBits => c.numBits == Modulus.p.bitLength && c.capacity + 1 == c.numBits
  | .delta => c.delta.powTrimmed (groupOrderShift c.s).words == c.one
  | .multiplicativeGenerator => c.generator.powTrimmed (groupOrderShift 1).words == -c.one
  | .rootOfUnity =>
    c.rootOfUnity.powTrimmed [(1 : UInt64) <<< .ofNat c.s] == c.one &&
    c.generator.powTrimmed (groupOrderShift c.s).words == c.rootOfUnity
  | .rootOfUnityInv => c.rootOfUnity * c.rootOfUnityInv == c.one
  | .twoInv => Fp.ofUInt32 2 * c.twoInv == c.one

/-- All checks, in the order that they are reported in. -/
def Check.all : List Check :=
  [numBits, delta, multiplicativeGenerator, rootOfUnity, rootOfUnityInv, twoInv]

/-- The name that a check is reported by. -/
def Check.name : Check → String
  | numBits => "num_bits"
  | delta => "delta"
  | multiplicativeGenerator => "multiplicative_generator"
  | rootOfUnity => "root_of_unity"
  | rootOfUnityInv => "root_of_unity_inv"
  | twoInv => "two_inv"

/-- The outcome of every check. -/
def report (c : PrimeField) : List (Check × Bool) := Check.all.map fun k => (k, c.passes k)

end PrimeField

end Bn254
