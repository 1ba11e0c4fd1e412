import Bn254.Proofs.Closure

/-!
# Machine integers as residues

A signed integer is entered by its absolute value, which one word holds for the least integer too,
and turned around if it is negative; one of 128 bits is entered as two words at once, or its upper
word is doubled up in the field. Whatever the route, an integer stands for its own residue, and a
multiple by a small integer is the product with that residue.

`Fp.Entered v a` puts the routes together: a machine integer of the value `v` entered the field as
`a`. All of these values are closer together than `p`, so they stay apart in the field.
-/

namespace Bn254.Fp

variable {a b : Fp} {x : Residue}

theorem natAbs_toInt_lt (k : Int64) : k.toInt.natAbs < 2 ^ 64 := by
  have hlo := k.le_toInt
  have hhi := k.toInt_lt
  omega

theorem cast_toInt (k : Int64) :
    (k.toInt : Residue) =
      if k < 0 then -(k.toInt.natAbs : Residue) else (k.toInt.natAbs : Residue) := by
  have hsign : k < 0 ↔ k.toInt < 0 := Int64.lt_iff_toInt_lt
  split_ifs with hk
  · have hneg : k.toInt < 0 := hsign.1 hk
    rw [← Int.cast_natCast, Int.ofNat_natAbs_of_nonpos hneg.le, Int.cast_neg, neg_neg]
  · have hpos : 0 ≤ k.toInt := Int.not_lt.1 (mt hsign.2 hk)
    rw [← Int.cast_natCast, Int.natAbs_of_nonneg hpos]

theorem represents_ofInt64 (k : Int64) : (ofInt64 k).Represents (k.toInt : Residue) := by
  have hsize := represents_ofUInt64 (.ofNat k.toInt.natAbs)
  rw [UInt64.toNat_ofNat', Nat.mod_eq_of_lt (natAbs_toInt_lt k)] at hsize
  rw [cast_toInt]
  rw [ofInt64_eq_ite]
  split_ifs
  · exact hsize.neg
  · exact hsize

theorem Represents.mulSmall (ha : a.Represents x) (k : Int64) :
    (a.mulSmall k).Represents (x * k.toInt) :=
  ha.mul (represents_ofInt64 k)

/-! ## The other widths -/

theorem represents_ofUInt32 (n : UInt32) : (ofUInt32 n).Represents n.toNat := by
  have h := represents_ofUInt64 n.toUInt64
  rw [UInt32.toNat_toUInt64] at h
  exact h

theorem represents_ofBitVec128 (n : BitVec 128) : (ofBitVec128 n).Represents n.toNat := by
  have h := represents_ofU256 ⟨.ofNat n.toNat, .ofNat (n.toNat / 2 ^ 64), 0, 0⟩
  have hn := n.isLt
  have hvalue : U256.toNat ⟨.ofNat n.toNat, .ofNat (n.toNat / 2 ^ 64), 0, 0⟩ = n.toNat := by
    simp only [U256.toNat, UInt64.toNat_ofNat', UInt64.toNat_zero]
    omega
  rw [hvalue] at h
  exact h

theorem Represents.repeat_double (ha : a.Represents x) (n : ℕ) :
    (Nat.repeat Fp.double n a).Represents (2 ^ n * x) := by
  induction n with
  | zero =>
    rw [pow_zero, one_mul]
    exact ha
  | succ n ih =>
    rw [pow_succ', mul_assoc]
    exact ih.double

theorem represents_ofBitVec128ByDoubling (n : BitVec 128) :
    (ofBitVec128ByDoubling n).Represents n.toNat := by
  have hupper := represents_ofUInt64 (.ofNat (n.toNat / 2 ^ 64))
  have hlower := represents_ofUInt64 (.ofNat n.toNat)
  have hn := n.isLt
  have hvalue : 2 ^ 64 * (n.toNat / 2 ^ 64 % 2 ^ 64) + n.toNat % 2 ^ 64 = n.toNat := by omega
  have h := (hupper.repeat_double 64).add hlower
  rw [UInt64.toNat_ofNat', UInt64.toNat_ofNat'] at h
  have hcast := congrArg (Nat.cast : ℕ → Residue) hvalue
  rw [Nat.cast_add, Nat.cast_mul, Nat.cast_pow, Nat.cast_ofNat] at hcast
  rw [hcast] at h
  exact h

/-! ## All routes -/

/-- A machine integer of the value `v` enters the field as `a`. -/
inductive Entered : ℤ → Fp → Prop
  /-- 32 bits. -/
  | uint32 (n : UInt32) : Entered n.toNat (ofUInt32 n)
  /-- 64 bits. -/
  | uint64 (n : UInt64) : Entered n.toNat (ofUInt64 n)
  /-- 64 bits with a sign. -/
  | int64 (n : Int64) : Entered n.toInt (ofInt64 n)
  /-- 128 bits, as two words at once. -/
  | bitVec128 (n : BitVec 128) : Entered n.toNat (ofBitVec128 n)
  /-- 128 bits, the upper word doubled up in the field. -/
  | bitVec128ByDoubling (n : BitVec 128) : Entered n.toNat (ofBitVec128ByDoubling n)

theorem Entered.represents {v : ℤ} (h : Entered v a) : a.Represents v := by
  cases h with
  | uint32 n => exact_mod_cast represents_ofUInt32 n
  | uint64 n => exact_mod_cast represents_ofUInt64 n
  | int64 n => exact represents_ofInt64 n
  | bitVec128 n => exact_mod_cast represents_ofBitVec128 n
  | bitVec128ByDoubling n => exact_mod_cast represents_ofBitVec128ByDoubling n

theorem Entered.bounds {v : ℤ} (h : Entered v a) : -2 ^ 63 ≤ v ∧ v < 2 ^ 128 := by
  cases h with
  | uint32 n =>
    have hn := n.toNat_lt
    omega
  | uint64 n =>
    have hn := n.toNat_lt
    omega
  | int64 n =>
    have hlo := n.le_toInt
    have hhi := n.toInt_lt
    omega
  | bitVec128 n =>
    have hn := n.isLt
    omega
  | bitVec128ByDoubling n =>
    have hn := n.isLt
    omega

/-- Values that differ by a multiple of `p` would have to be further apart. -/
theorem Entered.eq_iff {v w : ℤ} (hv : Entered v a) (hw : Entered w b) : a = b ↔ v = w := by
  have hvb := hv.bounds
  have hwb := hw.bounds
  rw [hv.represents.eq_iff hw.represents, ZMod.intCast_eq_intCast_iff_dvd_sub]
  constructor
  · rintro ⟨c, hc⟩
    rw [Modulus.p_toNat] at hc
    omega
  · rintro rfl
    rw [sub_self]
    exact dvd_zero _

end Bn254.Fp
