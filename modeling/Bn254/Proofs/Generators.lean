import Bn254.PrimeField
import Bn254.Proofs.GroupOrder
import Mathlib.RingTheory.RootsOfUnity.PrimitiveRoots

/-!
# The generators of the multiplicative group

No power of `3` below `p - 1` is one, as none of the powers `(p - 1) / q` is, for the primes `q` of
`p - 1`. So the powers of the generator run through all elements that are not zero. Those of `delta`,
the square of the generator, run through the squares among them; as `-1` is no square, every element
that is not zero is a square with one sign and not with the other.
-/

namespace Bn254

variable {x y : Residue}

/-! ## Powers of three and of nine -/

theorem isPrimitiveRoot_three : IsPrimitiveRoot (3 : Residue) (Modulus.p.toNat - 1) := by
  rw [IsPrimitiveRoot.iff_orderOf]
  refine orderOf_eq_of_pow_and_pow_div_prime (by decide) Modulus.three_pow_pred ?_
  intro q hq hdvd
  have hmem : q ∈ Modulus.orderPrimes :=
    Modulus.mem_of_prime_dvd Modulus.prime_of_mem_orderPrimes Modulus.dvd_orderPrimes_prod_sq hq
      hdvd
  exact Modulus.three_pow_div_ne_one q hmem

theorem exists_three_pow (hx : x ≠ 0) : ∃ n < Modulus.p.toNat - 1, 3 ^ n = x := by
  have : NeZero (Modulus.p.toNat - 1) := ⟨by decide⟩
  exact isPrimitiveRoot_three.eq_pow_of_pow_eq_one (ZMod.pow_card_sub_one_eq_one hx)

theorem exists_nine_pow_iff : (∃ n, (9 : Residue) ^ n = x) ↔ x ≠ 0 ∧ IsSquare x := by
  have hnine : (9 : Residue) = 3 ^ 2 := by norm_num
  rw [hnine]
  constructor
  · rintro ⟨n, rfl⟩
    exact ⟨pow_ne_zero _ (pow_ne_zero _ three_residue_ne_zero), (IsSquare.sq 3).pow n⟩
  · rintro ⟨hx, y, rfl⟩
    obtain ⟨n, -, rfl⟩ := exists_three_pow (left_ne_zero_of_mul hx)
    exact ⟨n, by rw [← sq, pow_right_comm]⟩

/-- A sign makes `x` a square only if it is the right one, as `-1` is no square. -/
theorem sign_mul_square_iff (hx : x ≠ 0) (i : Fin 2) :
    IsSquare y ∧ (-1) ^ (i : ℕ) * y = x ↔ (i = 0 ↔ IsSquare x) ∧ y = (-1) ^ (i : ℕ) * x := by
  have hneg := isSquare_neg_iff hx
  fin_cases i
  · simp only [Fin.zero_eta, pow_zero, one_mul, true_iff]
    constructor
    · rintro ⟨hy, rfl⟩
      exact ⟨hy, rfl⟩
    · rintro ⟨hsq, rfl⟩
      exact ⟨hsq, rfl⟩
  · simp only [Fin.mk_one, pow_one, neg_one_mul, one_ne_zero, false_iff, neg_eq_iff_eq_neg]
    constructor
    · rintro ⟨hy, rfl⟩
      exact ⟨hneg.1 hy, rfl⟩
    · rintro ⟨hsq, rfl⟩
      exact ⟨hneg.2 hsq, rfl⟩

namespace PrimeField

/-- The powers of `delta`, for exponents of any length. -/
def deltaPowers (c : PrimeField) : Set Fp := {d | ∃ ws : List Word, c.delta.powWords ws = d}

/-! ## What the constants represent -/

theorem represents_generator : bn254.generator.Represents 3 := Fp.represents_ofUInt64 3

theorem represents_delta : bn254.delta.Represents 9 := Fp.represents_ofUInt64 9

theorem represents_rootOfUnity_power (i : Fin 2) :
    (bn254.rootOfUnity.power (.ofNat i)).Represents ((-1) ^ (i : ℕ)) := by
  have h := Fp.represents_one.neg.pow (.word (.ofNat i))
  have hi : (i : ℕ) < 2 ^ 64 := i.isLt.trans (by decide)
  rw [Fp.Exponent.value, UInt64.toNat_ofNat', Nat.mod_eq_of_lt hi] at h
  exact h

theorem represents_twoInv : bn254.twoInv.Represents 2⁻¹ := by
  have hhalf : (2 : Residue) * Modulus.half.toNat = 1 := by
    rw [← Nat.cast_ofNat, ← Nat.cast_mul, Modulus.half_toNat, Nat.cast_add, ZMod.natCast_self,
      zero_add, Nat.cast_one]
  have h := Fp.represents_ofU256 Modulus.half
  rw [eq_inv_of_mul_eq_one_right hhalf] at h
  exact h

end PrimeField

namespace Fp

open PrimeField

variable {a d : Fp}

/-! ## What the constants generate -/

theorem generator_pow_eq_one_iff (e : Exponent) :
    bn254.generator.pow e = one ↔ Modulus.p.toNat - 1 ∣ e.value := by
  rw [(represents_generator.pow e).eq_iff represents_one]
  exact isPrimitiveRoot_three.pow_eq_one_iff_dvd _

theorem Represents.existsUnique_generator_pow (ha : a.Represents x) (hx : x ≠ 0) :
    ∃! n, n < Modulus.p.toNat - 1 ∧ bn254.generator.powWords (U256.ofNat n).words = a := by
  -- exponents below `p - 1` fit in four words
  have hpow : ∀ n < Modulus.p.toNat - 1,
      bn254.generator.powWords (U256.ofNat n).words = a ↔ 3 ^ n = x := by
    intro n hn
    have hsize : n < 2 ^ 256 := hn.trans (by decide)
    have h := represents_generator.powWords (U256.ofNat n).words
    rw [wordsValue_words, U256.toNat_ofNat, Nat.mod_eq_of_lt hsize] at h
    exact h.eq_iff ha
  obtain ⟨n, hn, hnx⟩ := exists_three_pow hx
  refine ⟨n, ⟨hn, (hpow n hn).2 hnx⟩, ?_⟩
  rintro m ⟨hm, hma⟩
  have hmx : 3 ^ m = x := (hpow m hm).1 hma
  exact isPrimitiveRoot_three.pow_inj hm hn (hmx.trans hnx.symm)

theorem mem_deltaPowers_iff_isSquare :
    d ∈ bn254.deltaPowers ↔ ∃ y, d.Represents y ∧ y ≠ 0 ∧ IsSquare y := by
  constructor
  · rintro ⟨ws, rfl⟩
    exact ⟨_, represents_delta.powWords ws, exists_nine_pow_iff.1 ⟨_, rfl⟩⟩
  · rintro ⟨y, hd, hy⟩
    obtain ⟨n, hn⟩ := exists_nine_pow_iff.2 hy
    obtain ⟨ws, rfl⟩ := exists_wordsValue_eq n
    exact ⟨ws, ((represents_delta.powWords ws).eq_iff hd).2 hn⟩

theorem mem_deltaPowers_iff :
    d ∈ bn254.deltaPowers ↔ d.Reduced ∧ d ≠ zero ∧ d.sqrt?.isSome = true := by
  rw [mem_deltaPowers_iff_isSquare]
  constructor
  · rintro ⟨y, hd, hy, hsq⟩
    exact ⟨hd.1, hd.ne_zero_iff.2 hy, hd.isSome_sqrt?_iff.2 hsq⟩
  · rintro ⟨hd, hne, hsome⟩
    have rd := hd.represents
    exact ⟨_, rd, rd.ne_zero_iff.1 hne, rd.isSome_sqrt?_iff.1 hsome⟩

theorem Represents.rootOfUnity_mul_iff (ha : a.Represents x) (hx : x ≠ 0) (i : Fin 2) :
    d ∈ bn254.deltaPowers ∧ bn254.rootOfUnity.power (.ofNat i) * d = a ↔
      (i = 0 ↔ IsSquare x) ∧ d.Represents ((-1) ^ (i : ℕ) * x) := by
  rw [mem_deltaPowers_iff_isSquare]
  constructor
  · rintro ⟨⟨y, hd, -, hsq⟩, hmul⟩
    have he := (((represents_rootOfUnity_power i).mul hd).eq_iff ha).1 hmul
    obtain ⟨hi, rfl⟩ := (sign_mul_square_iff hx i).1 ⟨hsq, he⟩
    exact ⟨hi, hd⟩
  · rintro ⟨hi, hd⟩
    obtain ⟨hsq, he⟩ := (sign_mul_square_iff hx i).2 ⟨hi, rfl⟩
    have hne : (-1) ^ (i : ℕ) * x ≠ 0 := mul_ne_zero (pow_ne_zero _ (neg_ne_zero.2 one_ne_zero)) hx
    exact ⟨⟨_, hd, hne, hsq⟩, (((represents_rootOfUnity_power i).mul hd).eq_iff ha).2 he⟩

theorem Represents.existsUnique_rootOfUnity_mul (ha : a.Represents x) (hx : x ≠ 0) :
    ∃! s : Fin 2 × Fp, s.2 ∈ bn254.deltaPowers ∧
      bn254.rootOfUnity.power (.ofNat s.1) * s.2 = a := by
  obtain ⟨i, hi⟩ : ∃ i : Fin 2, i = 0 ↔ IsSquare x := by
    by_cases h : IsSquare x
    · exact ⟨0, iff_of_true rfl h⟩
    · exact ⟨1, iff_of_false one_ne_zero h⟩
  obtain ⟨d, hd⟩ := exists_represents ((-1) ^ (i : ℕ) * x)
  refine ⟨(i, d), (ha.rootOfUnity_mul_iff hx i).2 ⟨hi, hd⟩, ?_⟩
  rintro ⟨j, e⟩ h
  obtain ⟨hj, he⟩ := (ha.rootOfUnity_mul_iff hx j).1 h
  have hij : j = 0 ↔ i = 0 := hj.trans hi.symm
  obtain rfl : j = i := by omega
  exact Prod.ext rfl (he.unique hd)

/-- A product with a half has words below `p` whatever the words of the factor are, so only words
below `p` come back from it. -/
theorem double_mul_twoInv_eq_iff (a : Fp) : (a * bn254.twoInv).double = a ↔ a.Reduced := by
  constructor
  · intro h
    have hmul : (a * bn254.twoInv).Reduced :=
      Montgomery.reduce_lt (Montgomery.inDomain_mul a.words represents_twoInv.1)
    rw [← h]
    exact hmul.double
  · intro ha
    have htwo : (2 : Residue) ≠ 0 := natCast_ne_zero two_pos (by decide)
    have h := (ha.represents.mul represents_twoInv).double
    rw [mul_left_comm, mul_inv_cancel₀ htwo, mul_one] at h
    exact h.unique ha.represents

/-- The powers of the generator with exponents below `p - 1` are the elements that are not zero, each
once. The powers of `delta` are those of them that have a root, and each is `1` or `-1` times such a
power, in one way. Twice the half of an element is the element. -/
theorem constants_generate :
    ((∀ a : Fp, a.Reduced → a ≠ zero →
        ∃! n, n < Modulus.p.toNat - 1 ∧ bn254.generator.powWords (U256.ofNat n).words = a) ∧
      ∀ e : Exponent, bn254.generator.pow e = one ↔ Modulus.p.toNat - 1 ∣ e.value) ∧
    (∀ d : Fp, d ∈ bn254.deltaPowers ↔ d.Reduced ∧ d ≠ zero ∧ d.sqrt?.isSome = true) ∧
    (∀ a : Fp, a.Reduced → a ≠ zero →
      ∃! s : Fin 2 × Fp, s.2 ∈ bn254.deltaPowers ∧
        bn254.rootOfUnity.power (.ofNat s.1) * s.2 = a) ∧
    (∀ a : Fp, (a * bn254.twoInv).double = a ↔ a.Reduced) := by
  refine ⟨⟨?_, generator_pow_eq_one_iff⟩, ?_, ?_, double_mul_twoInv_eq_iff⟩
  · intro a ha hne
    have ra := ha.represents
    exact ra.existsUnique_generator_pow (ra.ne_zero_iff.1 hne)
  · intro d
    exact mem_deltaPowers_iff
  · intro a ha hne
    have ra := ha.represents
    exact ra.existsUnique_rootOfUnity_mul (ra.ne_zero_iff.1 hne)

/-- `3` has no root, so it is no power of `delta`, and `-3` is one. -/
theorem constants_generate_three :
    let a : Fp := ofUInt64 3
    a.Reduced ∧ a ≠ zero ∧
      (∃! n, n < Modulus.p.toNat - 1 ∧ bn254.generator.powWords (U256.ofNat n).words = a) ∧
      a ∉ bn254.deltaPowers ∧
      (∃! s : Fin 2 × Fp, s.2 ∈ bn254.deltaPowers ∧
        bn254.rootOfUnity.power (.ofNat s.1) * s.2 = a) ∧
      (a * bn254.twoInv).double = a := by
  intro a
  have ra : a.Represents 3 := represents_ofUInt64 3
  have hne : a ≠ zero := ra.ne_zero_iff.2 three_residue_ne_zero
  obtain ⟨⟨hgen, -⟩, hdelta, hsplit, htwo⟩ := constants_generate
  have hnot : a ∉ bn254.deltaPowers := by
    rintro h
    obtain ⟨-, -, hsome⟩ := (hdelta a).1 h
    exact not_isSquare_three (ra.isSome_sqrt?_iff.1 hsome)
  exact ⟨ra.1, hne, hgen a ra.1 hne, hnot, hsplit a ra.1 hne, (htwo a).2 ra.1⟩

end Fp

end Bn254
