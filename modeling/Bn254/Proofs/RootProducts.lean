import Bn254.Proofs.GroupOrder

/-!
# Roots of products and of inverses

Squares make up one half of the residues that are not zero, and the sign `x ^ ((p - 1) / 2)` that
tells the halves apart is multiplicative: a product is a square if both factors are, or neither is. The
root that `Fp.sqrt?` finds is a power of its argument, so it is multiplicative as well: the root of a
product is the product of the roots and not the negative of it.
-/

namespace Bn254

variable {x y : Residue}

theorem isSquare_mul_iff (hx : x ≠ 0) (hy : y ≠ 0) :
    IsSquare (x * y) ↔ (IsSquare x ↔ IsSquare y) := by
  have hone := residue_pow_half_eq_one_iff (mul_ne_zero hx hy)
  have hneg := residue_pow_half_eq_neg_one_iff (mul_ne_zero hx hy)
  rw [mul_pow] at hone hneg
  by_cases hsx : IsSquare x
  · rw [(residue_pow_half_eq_one_iff hx).2 hsx, one_mul, residue_pow_half_eq_one_iff hy] at hone
    exact hone.symm.trans (iff_true_left hsx).symm
  · rw [(residue_pow_half_eq_neg_one_iff hx).2 hsx, neg_one_mul, neg_inj,
      residue_pow_half_eq_one_iff hy] at hneg
    exact (not_iff_comm.1 hneg.symm).symm.trans (iff_false_left hsx).symm

theorem principalRoot_mul (x y : Residue) :
    principalRoot (x * y) = principalRoot x * principalRoot y := mul_pow x y _

theorem principalRoot_inv (x : Residue) : principalRoot x⁻¹ = (principalRoot x)⁻¹ := inv_pow x _

theorem principalRoot_ne_zero (hx : x ≠ 0) : principalRoot x ≠ 0 := pow_ne_zero _ hx

namespace Fp

variable {a b r s : Fp}

theorem Represents.isSome_sqrt?_mul_iff (ha : a.Represents x) (hb : b.Represents y) (hx : x ≠ 0)
    (hy : y ≠ 0) :
    (a * b).sqrt?.isSome = true ↔ (a.sqrt?.isSome = true ↔ b.sqrt?.isSome = true) := by
  rw [(ha.mul hb).isSome_sqrt?_iff, ha.isSome_sqrt?_iff, hb.isSome_sqrt?_iff]
  exact isSquare_mul_iff hx hy

theorem Represents.sqrt?_mul (ha : a.Represents x) (hb : b.Represents y) (hr : a.sqrt? = some r)
    (hs : b.sqrt? = some s) : (a * b).sqrt? = some (r * s) := by
  obtain ⟨hx, rr⟩ := ha.sqrt?_eq_some_iff.1 hr
  obtain ⟨hy, rs⟩ := hb.sqrt?_eq_some_iff.1 hs
  refine (ha.mul hb).sqrt?_eq_some_iff.2 ⟨hx.mul hy, ?_⟩
  rw [principalRoot_mul]
  exact rr.mul rs

theorem Represents.sqrt?_inverseOrZero (ha : a.Represents x) (hr : a.sqrt? = some r) :
    a.inverseOrZero.sqrt? = some r.inverseOrZero := by
  obtain ⟨hx, rr⟩ := ha.sqrt?_eq_some_iff.1 hr
  refine ha.inverseOrZero.sqrt?_eq_some_iff.2 ⟨hx.inv, ?_⟩
  rw [principalRoot_inv]
  exact rr.inverseOrZero

theorem Represents.inv?_sqrt?_eq_some (ha : a.Represents x) (hx : x ≠ 0) (hr : a.sqrt? = some r) :
    r.inv? = some r.inverseOrZero := by
  obtain ⟨-, rr⟩ := ha.sqrt?_eq_some_iff.1 hr
  exact inv?_eq_some (rr.ne_zero_iff.2 (principalRoot_ne_zero hx))

/-- A product of elements that are not zero has a root if both factors have one, or neither does. The
root of a product is the product of the roots, and that of an inverse the inverse of the root, to the
same words. -/
theorem sqrt?_is_multiplicative (a b : Fp) (ha : a.Reduced) (hb : b.Reduced) (ha0 : a ≠ zero)
    (hb0 : b ≠ zero) :
    ((a * b).sqrt?.isSome = true ↔
      a.sqrt?.isSome = true ∧ b.sqrt?.isSome = true ∨ a.sqrt? = none ∧ b.sqrt? = none) ∧
    (∀ r s, a.sqrt? = some r → b.sqrt? = some s → (a * b).sqrt? = some (r * s)) ∧
    (∀ r, a.sqrt? = some r →
      ∃ i j, a.inv? = some i ∧ r.inv? = some j ∧ i.sqrt? = some j) := by
  have ra := ha.represents
  have rb := hb.represents
  have hx : (a.toNat : Residue) ≠ 0 := ra.ne_zero_iff.1 ha0
  have hy : (b.toNat : Residue) ≠ 0 := rb.ne_zero_iff.1 hb0
  refine ⟨?_, ?_, ?_⟩
  · rw [ra.isSome_sqrt?_mul_iff rb hx hy, ← Option.not_isSome_iff_eq_none,
      ← Option.not_isSome_iff_eq_none]
    exact iff_iff_and_or_not_and_not
  · intro r s hr hs
    exact ra.sqrt?_mul rb hr hs
  · intro r hr
    exact ⟨_, _, inv?_eq_some ha0, ra.inv?_sqrt?_eq_some hx hr, ra.sqrt?_inverseOrZero hr⟩

/-- Four and nine have roots, of which the product is the root of `36`; `3` and `-1` have none, and
their product has one. -/
theorem sqrt?_is_multiplicative_of_small :
    let a : Fp := ofUInt64 4
    let b : Fp := ofUInt64 9
    let c : Fp := ofUInt64 3
    a.Reduced ∧ b.Reduced ∧ c.Reduced ∧ a ≠ zero ∧ b ≠ zero ∧ c ≠ zero ∧ -one ≠ zero ∧
      (∃ r s, a.sqrt? = some r ∧ b.sqrt? = some s ∧ (a * b).sqrt? = some (r * s) ∧
        ∃ i j, a.inv? = some i ∧ r.inv? = some j ∧ i.sqrt? = some j) ∧
      c.sqrt? = none ∧ (-one).sqrt? = none ∧ (c * -one).sqrt?.isSome = true := by
  intro a b c
  have ra : a.Represents 4 := represents_ofUInt64 4
  have rb : b.Represents 9 := represents_ofUInt64 9
  have rc : c.Represents 3 := represents_ofUInt64 3
  have rn : (-one).Represents (-1) := represents_one.neg
  have ha0 : a ≠ zero := by decide +kernel
  have hb0 : b ≠ zero := by decide +kernel
  have hc0 : c ≠ zero := by decide +kernel
  have hn0 : -one ≠ zero := by decide +kernel
  obtain ⟨r, hr, -⟩ := ra.sqrt?_of_isSquare ⟨2, by norm_num⟩
  obtain ⟨s, hs, -⟩ := rb.sqrt?_of_isSquare ⟨3, by norm_num⟩
  have hc : c.sqrt? = none := rc.sqrt?_of_not_isSquare not_isSquare_three
  have hn : (-one).sqrt? = none := by
    refine rn.sqrt?_of_not_isSquare ?_
    rw [isSquare_neg_iff one_ne_zero, not_not]
    exact IsSquare.one
  obtain ⟨-, hmul, hinv⟩ := sqrt?_is_multiplicative a b ra.1 rb.1 ha0 hb0
  obtain ⟨hsome, -, -⟩ := sqrt?_is_multiplicative c (-one) rc.1 rn.1 hc0 hn0
  exact ⟨ra.1, rb.1, rc.1, ha0, hb0, hc0, hn0, ⟨r, s, hr, hs, hmul r s hr hs, hinv r hr⟩, hc, hn,
    hsome.2 (.inr ⟨hc, hn⟩)⟩

end Fp

end Bn254
