import Bn254.U256.Basic

/-!
# The modulus

The prime `p` of the field and the numbers that its arithmetic is tuned with, as words.
-/

namespace Bn254.Modulus

/-- The prime
`p = 21888242871839275222246405745257275088696311157297823662689037894645226208583`. -/
def p : U256 := ⟨0x3c208c16d87cfd47, 0x97816a916871ca8d, 0xb85045b68181585d, 0x30644e72e131a029⟩

/-- The digits of `p` to base 16. -/
def hex : String := "30644e72e131a029b85045b68181585d97816a916871ca8d3c208c16d87cfd47"

/-- The number of bits of `p`. -/
def bits : Nat := 254

/-- The radix of the representation: one more than the largest integer of four words. -/
def radix : Nat := 2 ^ 256

/-- The square of the radix modulo `p`. -/
def radixSq : U256 :=
  ⟨0xf32cfc5b538afa89, 0xb5e71911d44501fb, 0x47ab1eff0a417ff6, 0x06d89f71cab8351f⟩

/-- The cube of the radix modulo `p`. -/
def radixCube : U256 :=
  ⟨0xb1cd6dafda1530df, 0x62f210e6a7283db6, 0xef7f0b0c0ada0afb, 0x20fd6e902d592544⟩

/-- `-1 / p` modulo the radix: a number times this, times `p`, cancels the number modulo the
radix. -/
def negInverse : U256 :=
  ⟨0x87d20782e4866389, 0x9ede7d651eca6ac9, 0xd8afcbd01833da80, 0xf57a22b791888c6b⟩

/-- The largest integer of four words. To keep the bits of this mask is to reduce modulo the
radix. -/
def radixMask : U256 := .fill Word.ones

/-- `p - 2`, the exponent that inverts. -/
def inverseExponent : U256 :=
  ⟨0x3c208c16d87cfd45, 0x97816a916871ca8d, 0xb85045b68181585d, 0x30644e72e131a029⟩

/-- `(p + 1) / 4`, the exponent that takes the square root of a square. -/
def sqrtExponent : U256 :=
  ⟨0x4f082305b61f3f52, 0x65e05aa45a1c72a3, 0x6e14116da0605617, 0x0c19139cb84c680a⟩

/-- `1 / 2` modulo `p`. -/
def half : U256 :=
  ⟨0x9e10460b6c3e7ea4, 0xcbc0b548b438e546, 0xdc2822db40c0ac2e, 0x183227397098d014⟩

/-! ## What the constants are -/

theorem p_toNat :
    p.toNat = 21888242871839275222246405745257275088696311157297823662689037894645226208583 := by
  decide

theorem radixSq_toNat : radixSq.toNat = radix ^ 2 % p.toNat := by decide

theorem radixCube_toNat : radixCube.toNat = radix ^ 3 % p.toNat := by decide

theorem negInverse_mul_p : (negInverse.toNat * p.toNat + 1) % radix = 0 := by decide

theorem radixMask_toNat : radixMask.toNat = radix - 1 := by decide

theorem inverseExponent_toNat : inverseExponent.toNat = p.toNat - 2 := by decide

theorem sqrtExponent_toNat : 4 * sqrtExponent.toNat = p.toNat + 1 := by decide

theorem half_toNat : 2 * half.toNat = p.toNat + 1 := by decide

theorem bitLength_p : p.bitLength = bits := by decide

end Bn254.Modulus
