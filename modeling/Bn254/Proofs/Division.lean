import Bn254.Fp.Power
import Bn254.Proofs.Power
import Mathlib.FieldTheory.Finite.Basic

/-!
# Inverses and quotients

The power `p - 2` is the inverse in the field of residues. The inverse of an element takes this
power of the stored form, so the radix ends up in the denominator; the cube of the radix and one
reduction leave it once in the numerator, where a stored form has it.
-/

namespace Bn254

theorem residue_pow_sub_two (x : Residue) : x ^ (Modulus.p.toNat - 2) = x⁻¹ := by
  have htwo : 2 < Modulus.p.toNat := by decide
  by_cases hx : x = 0
  · rw [hx, inv_zero, zero_pow (by omega)]
  · have hfermat : x ^ (Modulus.p.toNat - 1) = 1 := ZMod.pow_card_sub_one_eq_one hx
    have hexp : Modulus.p.toNat - 1 = Modulus.p.toNat - 2 + 1 := by omega
    rw [hexp, pow_succ] at hfermat
    exact eq_inv_of_mul_eq_one_left hfermat

namespace Fp

variable {a b : Fp} {x y : Residue}

theorem sameWords_iff (a b : Fp) : a.sameWords b = true ↔ a = b := by
  rw [sameWords, U256.sameWords_iff, Fp.ext_iff]

theorem isZero_iff (a : Fp) : a.isZero = true ↔ a = zero := sameWords_iff a zero

theorem Represents.eq_zero_iff (ha : a.Represents x) : a = zero ↔ x = 0 :=
  ha.eq_iff represents_zero

theorem Represents.ne_zero_iff (ha : a.Represents x) : a ≠ zero ↔ x ≠ 0 := not_congr ha.eq_zero_iff

/-! ## The inverse -/

theorem Represents.powInverseExponent (ha : a.Represents x) :
    (a.powWords Modulus.inverseExponent.words).Represents (x ^ (Modulus.p.toNat - 2)) := by
  have h := ha.powWords Modulus.inverseExponent.words
  rw [wordsValue_words, Modulus.inverseExponent_toNat] at h
  exact h

theorem inverseOf_toNat (n : U256) :
    (inverseOf n).toNat = n.toNat ^ (Modulus.p.toNat - 2) % Modulus.p.toNat := by
  have h := (represents_ofU256 n).powInverseExponent
  rw [← Nat.cast_pow] at h
  exact h.toNat_eq

theorem inverseOf_residue (n : U256) : ((inverseOf n).toNat : Residue) = (n.toNat : Residue)⁻¹ := by
  have h := (represents_ofU256 n).powInverseExponent
  rw [residue_pow_sub_two] at h
  exact h.2

theorem mul_inverseOf_mod {n : U256} (h : ¬Modulus.p.toNat ∣ n.toNat) :
    n.toNat * (inverseOf n).toNat % Modulus.p.toNat = 1 := by
  rw [← ZMod.natCast_eq_zero_iff] at h
  have hone : ((1 : ℕ) : Residue) = (n.toNat * (inverseOf n).toNat : ℕ) := by
    rw [Nat.cast_mul, inverseOf_residue, mul_inv_cancel₀ h, Nat.cast_one]
  exact (eq_mod_of_natCast_eq Modulus.p_prime.one_lt hone).symm

/-- The inverse of zero is zero in the field of residues as well. -/
theorem Represents.inverseOrZero (ha : a.Represents x) : a.inverseOrZero.Represents x⁻¹ := by
  have hdom := Montgomery.inDomain_mul (inverseOf a.words) Modulus.radixCube_lt
  have hred := Montgomery.reduce_residue hdom
  have hr := Modulus.radix_ne_zero
  refine represents_iff_words.2 ⟨Montgomery.reduce_lt hdom, ?_⟩
  refine mul_right_cancel₀ hr (hred.trans ?_)
  rw [U256.mul_toNat, Nat.cast_mul, inverseOf_residue, ha.words, Modulus.radixCube_residue]
  calc (x * Modulus.radix)⁻¹ * (Modulus.radix : Residue) ^ 3
      = x⁻¹ * ((Modulus.radix : Residue)⁻¹ * Modulus.radix) * Modulus.radix * Modulus.radix := by
        rw [mul_inv]
        ring
    _ = x⁻¹ * Modulus.radix * Modulus.radix := by rw [inv_mul_cancel₀ hr, mul_one]

/-- The way by the stored form ends where the power of the element does. -/
theorem Reduced.inverseOrZero_eq_powWords (ha : a.Reduced) :
    a.inverseOrZero = a.powWords Modulus.inverseExponent.words := by
  have hpow := ha.represents.powInverseExponent
  rw [residue_pow_sub_two] at hpow
  exact ha.represents.inverseOrZero.unique hpow

theorem inv?_eq_none_iff : a.inv? = none ↔ a = zero := by
  rw [← isZero_iff, inv?_eq_ite]
  cases a.isZero with
  | false => simp
  | true => simp

theorem inv?_eq_some (h : a ≠ zero) : a.inv? = some a.inverseOrZero := by
  rw [inv?_eq_ite, if_neg (mt (isZero_iff a).1 h)]

theorem eq_inverseOrZero_of_inv? {i : Fp} (h : a.inv? = some i) : i = a.inverseOrZero := by
  have ha : a ≠ zero := by
    intro hz
    rw [inv?_eq_none_iff.2 hz] at h
    cases h
  rw [inv?_eq_some ha] at h
  cases h
  rfl

/-- The inverse of an integer is its power `p - 2` modulo `p`. That of an element is computed from the
inverse of its stored form, and comes out with the same words as the power `p - 2` in the field: the
cube of the radix makes up for the radix in the stored form, for zero as well. -/
theorem inverse_is_fermat_power :
    (∀ x : U256,
      (inverseOf x).toNat = x.toNat ^ (Modulus.p.toNat - 2) % Modulus.p.toNat ∧
      (¬Modulus.p.toNat ∣ x.toNat → x.toNat * (inverseOf x).toNat % Modulus.p.toNat = 1)) ∧
    (∀ a : Fp, a.Reduced →
      Montgomery.reduce ((inverseOf a.words).mul Modulus.radixCube) =
        (a.powWords Modulus.inverseExponent.words).words ∧
      ∀ i, a.inv? = some i → i = a.powWords Modulus.inverseExponent.words) := by
  refine ⟨?_, ?_⟩
  · intro x
    exact ⟨inverseOf_toNat x, mul_inverseOf_mod⟩
  · intro a ha
    have hpow := ha.inverseOrZero_eq_powWords
    refine ⟨congrArg Fp.words hpow, ?_⟩
    intro i hi
    rw [eq_inverseOrZero_of_inv? hi, hpow]

/-- The largest integer is not below `p` and has an inverse; zero is the element without one, and is
its own power. -/
theorem inverse_is_fermat_power_at_the_ends :
    let x : U256 := .fill Word.ones
    ¬Modulus.p.toNat ∣ x.toNat ∧ Modulus.p.toNat < x.toNat ∧
      x.toNat * (inverseOf x).toNat % Modulus.p.toNat = 1 ∧
      zero.Reduced ∧ zero.inv? = none ∧
      Montgomery.reduce ((inverseOf zero.words).mul Modulus.radixCube) =
        (zero.powWords Modulus.inverseExponent.words).words ∧
      (⟨.ofWord 1⟩ : Fp).Reduced ∧
      ∃ i, (⟨.ofWord 1⟩ : Fp).inv? = some i ∧
        i = (⟨.ofWord 1⟩ : Fp).powWords Modulus.inverseExponent.words := by
  intro x
  have hx : ¬Modulus.p.toNat ∣ x.toNat := by decide
  have hb : (⟨.ofWord 1⟩ : Fp).Reduced := by decide
  have hne : (⟨.ofWord 1⟩ : Fp) ≠ zero := by decide
  obtain ⟨hint, helem⟩ := inverse_is_fermat_power
  exact ⟨hx, by decide, (hint x).2 hx, represents_zero.1, inv?_eq_none_iff.2 rfl,
    (helem zero represents_zero.1).1, hb, _, inv?_eq_some hne,
    (helem _ hb).2 _ (inv?_eq_some hne)⟩

/-! ## The quotient -/

theorem divide_zero (a : Fp) : a.divide zero = .error .divisionByZero := by
  rw [divide_eq_elim, inv?_eq_none_iff.2 rfl, Option.elim_none]

theorem divide_eq_ok (a : Fp) (h : b ≠ zero) : a.divide b = .ok (a * b.inverseOrZero) := by
  rw [divide_eq_elim, inv?_eq_some h, Option.elim_some]

theorem divide_eq_error_iff : a.divide b = .error .divisionByZero ↔ b = zero := by
  constructor
  · intro h
    by_contra hb
    rw [divide_eq_ok a hb] at h
    cases h
  · rintro rfl
    exact divide_zero a

theorem Represents.divide (ha : a.Represents x) (hb : b.Represents y) (h : b ≠ zero) :
    ∃ q, a.divide b = .ok q ∧ q.Represents (x / y) := by
  refine ⟨_, divide_eq_ok a h, ?_⟩
  rw [div_eq_mul_inv]
  exact ha.mul hb.inverseOrZero

/-- The divisor zero is refused, and every other divisor has an exact quotient, which is the only
element that multiplied by it gives the dividend. -/
theorem division_is_exact (a b : Fp) (ha : a.Reduced) (hb : b.Reduced) :
    (b.inv? = none ↔ b = zero) ∧
    (b ≠ zero → ∃ i, b.inv? = some i ∧ i.Reduced ∧ b * i = one) ∧
    (a.divide b = .error .divisionByZero ↔ b = zero) ∧
    (b ≠ zero → ∃ q, a.divide b = .ok q ∧ q.Reduced ∧ q * b = a ∧
      ∀ r : Fp, r.Reduced → r * b = a → r = q) ∧
    (b ≠ zero → b.divide b = .ok one ∧ zero.divide b = .ok zero) ∧
    (a * b = zero → a = zero ∨ b = zero) := by
  have ra := ha.represents
  have rb := hb.represents
  refine ⟨inv?_eq_none_iff, ?_, divide_eq_error_iff, ?_, ?_, ?_⟩
  · intro h
    have hy : (b.toNat : Residue) ≠ 0 := mt rb.eq_zero_iff.2 h
    have hi := rb.inverseOrZero
    refine ⟨_, inv?_eq_some h, hi.1, ?_⟩
    exact ((rb.mul hi).eq_iff represents_one).2 (mul_inv_cancel₀ hy)
  · intro h
    have hy : (b.toNat : Residue) ≠ 0 := mt rb.eq_zero_iff.2 h
    obtain ⟨q, hq, rq⟩ := ra.divide rb h
    refine ⟨q, hq, rq.1, ((rq.mul rb).eq_iff ra).2 (div_mul_cancel₀ _ hy), ?_⟩
    intro r hr hrb
    have hx := ((hr.represents.mul rb).eq_iff ra).1 hrb
    exact (hr.represents.eq_iff rq).2 ((eq_div_iff hy).2 hx)
  · intro h
    have hy : (b.toNat : Residue) ≠ 0 := mt rb.eq_zero_iff.2 h
    obtain ⟨q, hq, rq⟩ := rb.divide rb h
    obtain ⟨z, hz, rz⟩ := represents_zero.divide rb h
    rw [hq, hz, (rq.eq_iff represents_one).2 (div_self hy),
      (rz.eq_iff represents_zero).2 (zero_div _)]
    exact ⟨rfl, rfl⟩
  · intro h
    have hxy := (ra.mul rb).eq_zero_iff.1 h
    rw [ra.eq_zero_iff, rb.eq_zero_iff]
    exact mul_eq_zero.1 hxy

/-- The stored form one, a divisor that is neither one nor small. -/
theorem division_is_exact_by_stored_one :
    let a : Fp :=
      ⟨0x3c208c16d87cfd46, 0x97816a916871ca8d, 0xb85045b68181585d, 0x30644e72e131a029⟩
    let b : Fp := ⟨.ofWord 1⟩
    a.Reduced ∧ b.Reduced ∧ b ≠ zero ∧ b ≠ one ∧
      (∃ i, b.inv? = some i ∧ b * i = one) ∧ ∃ q, a.divide b = .ok q ∧ q * b = a := by
  intro a b
  have ha : a.Reduced := by decide
  have hb : b.Reduced := by decide
  have hne : b ≠ zero := by decide
  obtain ⟨-, hinv, -, hdiv, -, -⟩ := division_is_exact a b ha hb
  obtain ⟨i, hi, -, hone⟩ := hinv hne
  obtain ⟨q, hq, -, hqa, -⟩ := hdiv hne
  exact ⟨ha, hb, hne, by decide +kernel, ⟨i, hi, hone⟩, q, hq, hqa⟩

end Fp

end Bn254
