import Bn254.Proofs.Lawful

/-!
# Multiples by machine integers

To multiply by the element of a small integer is to add the element up that many times, however large
the integer is: both stand for the same multiple of a residue. So multiples by a sum of integers are
sums of multiples, as long as the sum of the integers is in range and does not wrap around.
-/

namespace Bn254.Fp

variable {a : Fp} {x : Residue}

/-- The sum of two integers is exact if it is in the range of one. -/
theorem toInt_add_of_mem_range {j k : Int64} (hlo : -2 ^ 63 ≤ j.toInt + k.toInt)
    (hhi : j.toInt + k.toInt < 2 ^ 63) : (j + k).toInt = j.toInt + k.toInt := by
  rw [Int64.toInt_add]
  apply Int.bmod_eq_of_le
  · omega
  · omega

theorem Represents.mulSmall_eq_natMul (ha : a.Represents x) (k : Int64) :
    a.mulSmall k =
      if k < 0 then -ops.natMul k.toInt.natAbs a else ops.natMul k.toInt.natAbs a := by
  have hmul := ha.mulSmall k
  have hsum := implements_ops.natMul ha k.toInt.natAbs
  rw [cast_toInt, mul_comm] at hmul
  split_ifs at hmul ⊢
  · rw [neg_mul] at hmul
    exact hmul.unique hsum.neg
  · exact hmul.unique hsum

theorem Represents.mulSmall_add (ha : a.Represents x) {j k : Int64}
    (h : (j + k).toInt = j.toInt + k.toInt) :
    a.mulSmall (j + k) = a.mulSmall j + a.mulSmall k := by
  have hsum := ha.mulSmall (j + k)
  rw [h, Int.cast_add, mul_add] at hsum
  exact hsum.unique ((ha.mulSmall j).add (ha.mulSmall k))

/-- A machine integer enters the field as its residue on every route, the least of the signed ones and
the largest of 128 bits included, and integers of different values stay different. A multiple by a
signed integer is the sum of so many copies, negated if the integer is negative, and the multiple by a
sum that does not overflow is the sum of the multiples. -/
theorem machine_integers_are_residues :
    (∀ (v : ℤ) (a : Fp), Entered v a → a.Reduced ∧ (a.toNat : ℤ) = v % Modulus.p.toNat) ∧
    (∀ (v w : ℤ) (a b : Fp), Entered v a → Entered w b → (a = b ↔ v = w)) ∧
    (∀ n : BitVec 128, ofBitVec128 n = ofBitVec128ByDoubling n) ∧
    (∀ (a : Fp) (k : Int64), a.Reduced →
      a.mulSmall k =
        if k < 0 then -ops.natMul k.toInt.natAbs a else ops.natMul k.toInt.natAbs a) ∧
    (∀ (a : Fp) (j k : Int64), a.Reduced →
      -2 ^ 63 ≤ j.toInt + k.toInt → j.toInt + k.toInt < 2 ^ 63 →
      a.mulSmall (j + k) = a.mulSmall j + a.mulSmall k) := by
  refine ⟨?_, ?_, ?_, ?_, ?_⟩
  · intro v a h
    exact ⟨h.represents.1, h.represents.toNat_eq_emod⟩
  · intro v w a b hv hw
    exact hv.eq_iff hw
  · intro n
    exact (represents_ofBitVec128 n).unique (represents_ofBitVec128ByDoubling n)
  · intro a k ha
    exact ha.represents.mulSmall_eq_natMul k
  · intro a j k ha hlo hhi
    exact ha.represents.mulSmall_add (toInt_add_of_mem_range hlo hhi)

/-- The least signed integer and the largest of 128 bits. -/
theorem machine_integers_are_residues_at_the_ends :
    let least := Int64.minValue
    let largest := Int64.maxValue
    let wide := BitVec.allOnes 128
    Entered (-2 ^ 63) (ofInt64 least) ∧
      ((ofInt64 least).toNat : ℤ) = -2 ^ 63 % Modulus.p.toNat ∧
      Entered (2 ^ 128 - 1) (ofBitVec128ByDoubling wide) ∧
      ((ofBitVec128ByDoubling wide).toNat : ℤ) = (2 ^ 128 - 1) % Modulus.p.toNat ∧
      ofBitVec128 wide = ofBitVec128ByDoubling wide ∧ ofInt64 least ≠ ofBitVec128 wide ∧
      one.Reduced ∧ one.mulSmall least = -ops.natMul (2 ^ 63) one ∧
      one.mulSmall (least + largest) = one.mulSmall least + one.mulSmall largest := by
  intro least largest wide
  have hleast : Entered (-2 ^ 63) (ofInt64 least) := .int64 least
  have hwide : Entered (2 ^ 128 - 1) (ofBitVec128 wide) := .bitVec128 wide
  have hdoubled : Entered (2 ^ 128 - 1) (ofBitVec128ByDoubling wide) := .bitVec128ByDoubling wide
  obtain ⟨hresidue, hsame, hdoubling, hcopies, hsum⟩ := machine_integers_are_residues
  refine ⟨hleast, (hresidue _ _ hleast).2, hdoubled, (hresidue _ _ hdoubled).2, hdoubling wide, ?_,
    reduced_one, ?_, ?_⟩
  · rw [Ne, hsame _ _ _ _ hleast hwide]
    decide
  · have hsize : least.toInt.natAbs = 2 ^ 63 := by decide
    have h := hcopies one least reduced_one
    rw [if_pos (by decide), hsize] at h
    exact h
  · apply hsum one least largest reduced_one
    · decide
    · decide

end Bn254.Fp
