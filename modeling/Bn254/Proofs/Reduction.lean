import Bn254.Proofs.Representation

/-!
# What a reduction computes

On its whole domain, the integers below `2^256 * p`, a reduction is exact. The multiple of `p` that it
adds clears the lower 256 bits, the sum fits in 512 bits, and its upper half is below `2 * p`. So one
conditional subtraction leaves the only integer below `p` that, times the radix, is the argument
modulo `p`.
-/

namespace Bn254.Montgomery

variable {x : U512}

/-- The sum of a reduction has no carry as it is below the square of the radix. -/
theorem multiplier_mul_add_lt (h : InDomain x) :
    (multiplier x).toNat * Modulus.p.toNat + x.toNat < Modulus.radix * Modulus.radix := by
  rw [← (cancel_toNat h).2]
  exact (cancel x).1.toNat_lt

theorem reduce_eq_ite (h : InDomain x) :
    (reduce x).toNat =
      if Modulus.p.toNat ≤ (cancel x).1.hi.toNat then
        (cancel x).1.hi.toNat - Modulus.p.toNat
      else
        (cancel x).1.hi.toNat := by
  have hlt := cancel_hi_lt h
  rw [reduce_toNat h]
  split_ifs with hge
  · have hsub : (cancel x).1.hi.toNat - Modulus.p.toNat < Modulus.p.toNat := by omega
    rw [Nat.mod_eq_sub_mod hge, Nat.mod_eq_of_lt hsub]
  · exact Nat.mod_eq_of_lt (Nat.lt_of_not_le hge)

theorem reduce_residue_eq_mul_inv (h : InDomain x) :
    ((reduce x).toNat : Residue) = x.toNat * (Modulus.radix : Residue)⁻¹ :=
  (eq_mul_inv_iff_mul_eq₀ Modulus.radix_ne_zero).2 (reduce_residue h)

/-- The radix can be cancelled modulo `p`, so the reduction is the only solution below `p`. -/
theorem mul_radix_mod_eq_iff (h : InDomain x) {r : ℕ} (hr : r < Modulus.p.toNat) :
    r * Modulus.radix % Modulus.p.toNat = x.toNat % Modulus.p.toNat ↔ r = (reduce x).toNat := by
  have hred := reduce_residue h
  constructor
  · intro heq
    have hx : (r : Residue) * Modulus.radix = x.toNat := by
      rw [← Nat.cast_mul]
      exact (ZMod.natCast_eq_natCast_iff' _ _ _).2 heq
    have hcast : (r : Residue) = (reduce x).toNat :=
      mul_right_cancel₀ Modulus.radix_ne_zero (hx.trans hred.symm)
    exact (Fp.natCast_inj_of_lt hr (reduce_lt h)).1 hcast
  · rintro rfl
    exact reduce_mul_radix h

/-- A reduction divides by the radix modulo `p`, exactly and for every integer of its domain. Of the sum
that it forms no bit is lost: there is no carry, the lower half is zero, and the upper half is less than
one subtraction of `p` too large. -/
theorem reduce_is_exact (x : U512) (h : x.toNat < Modulus.radix * Modulus.p.toNat) :
    ((reduce x).toNat < Modulus.p.toNat ∧
      ((reduce x).toNat : Residue) = x.toNat * (Modulus.radix : Residue)⁻¹ ∧
      ∀ r < Modulus.p.toNat,
        r * Modulus.radix % Modulus.p.toNat = x.toNat % Modulus.p.toNat ↔ r = (reduce x).toNat) ∧
    ((multiplier x).toNat = x.toNat * Modulus.negInverse.toNat % Modulus.radix ∧
      (multiplier x).toNat * Modulus.p.toNat + x.toNat < Modulus.radix * Modulus.radix ∧
      (cancel x).2 = 0 ∧
      (cancel x).1.toNat = (multiplier x).toNat * Modulus.p.toNat + x.toNat ∧
      (cancel x).1.lo = .zero ∧
      (cancel x).1.hi.toNat < 2 * Modulus.p.toNat) ∧
    (reduce x).toNat =
      if Modulus.p.toNat ≤ (cancel x).1.hi.toNat then
        (cancel x).1.hi.toNat - Modulus.p.toNat
      else
        (cancel x).1.hi.toNat := by
  obtain ⟨hcarry, hsum⟩ := cancel_toNat h
  obtain ⟨hlo, -⟩ := cancel_hi h
  refine ⟨⟨reduce_lt h, reduce_residue_eq_mul_inv h, ?_⟩, ?_, reduce_eq_ite h⟩
  · intro r hr
    exact mul_radix_mod_eq_iff h hr
  · exact ⟨multiplier_toNat x, multiplier_mul_add_lt h, hcarry, hsum, hlo, cancel_hi_lt h⟩

/-- The largest integer of the domain, where the subtraction is needed. -/
theorem reduce_is_exact_at_the_top :
    let x : U512 := .ofNat (Modulus.radix * Modulus.p.toNat - 1)
    x.toNat < Modulus.radix * Modulus.p.toNat ∧
      Modulus.p.toNat ≤ (cancel x).1.hi.toNat ∧ (cancel x).1.hi.toNat < 2 * Modulus.p.toNat ∧
      (reduce x).toNat = (cancel x).1.hi.toNat - Modulus.p.toNat := by
  intro x
  have hx : x.toNat < Modulus.radix * Modulus.p.toNat := by decide +kernel
  have hge : Modulus.p.toNat ≤ (cancel x).1.hi.toNat := by decide +kernel
  obtain ⟨-, ⟨-, -, -, -, -, hlt⟩, hsub⟩ := reduce_is_exact x hx
  rw [if_pos hge] at hsub
  exact ⟨hx, hge, hlt, hsub⟩

end Bn254.Montgomery
