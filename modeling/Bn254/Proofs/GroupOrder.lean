import Bn254.Proofs.Numerals
import Bn254.Proofs.SquareRoot

/-!
# Exponents modulo `p - 1`

The residues that are not zero are a group of order `p - 1`. So an exponent counts modulo `p - 1`
only, whichever route walks it and however long it is, and the power `p` of an element is the element
itself, that of zero too. Half of that order tells squares: the power `(p - 1) / 2` is `1` for what
`Fp.sqrt?` has a root of, and `-1` for the rest.
-/

namespace Bn254

/-! ## Every number has exponents -/

theorem exists_wordsValue_eq (n : ℕ) : ∃ ws : List Word, wordsValue ws = n := by
  induction n using Nat.strongRecOn with
  | ind n ih =>
    by_cases hn : n = 0
    · exact ⟨[], hn.symm⟩
    · obtain ⟨ws, hws⟩ := ih (n / 2 ^ 64) (by omega)
      refine ⟨.ofNat n :: ws, ?_⟩
      rw [wordsValue_cons, hws, UInt64.toNat_ofNat']
      exact Nat.mod_add_div n (2 ^ 64)

theorem exists_bytesValue_eq (n : ℕ) : ∃ bs : Bytes, bs.value = n := by
  have hlt : n < Bytes.count n := by
    rw [Bytes.count_eq_two_pow]
    exact n.lt_two_pow_self.trans_le (Nat.pow_le_pow_right two_pos (by omega))
  exact ⟨.ofNat n n, by rw [Bytes.value_ofNat, Nat.mod_eq_of_lt hlt]⟩

/-! ## Powers of residues -/

variable {x y : Residue}

theorem residue_pow_congr (hx : x ≠ 0) {m n : ℕ} (h : m ≡ n [MOD Modulus.p.toNat - 1]) :
    x ^ m = x ^ n := by
  have hone : x ^ (Modulus.p.toNat - 1) = 1 := ZMod.pow_card_sub_one_eq_one hx
  rw [pow_eq_pow_mod m hone, pow_eq_pow_mod n hone, h]

theorem Modulus.half_pred : p.toNat / 2 = (p.toNat - 1) / 2 := by decide

/-- Euler's criterion. -/
theorem residue_pow_half_eq_one_iff (hx : x ≠ 0) :
    x ^ ((Modulus.p.toNat - 1) / 2) = 1 ↔ IsSquare x := by
  rw [← Modulus.half_pred]
  exact (ZMod.euler_criterion _ hx).symm

theorem residue_pow_half_eq_neg_one_iff (hx : x ≠ 0) :
    x ^ ((Modulus.p.toNat - 1) / 2) = -1 ↔ ¬IsSquare x := by
  have : Fact (2 < Modulus.p.toNat) := ⟨by decide⟩
  have hne : (-1 : Residue) ≠ 1 := ZMod.neg_one_ne_one
  have hcases := ZMod.pow_div_two_eq_neg_one_or_one Modulus.p.toNat hx
  rw [Modulus.half_pred] at hcases
  rw [← residue_pow_half_eq_one_iff hx]
  constructor
  · intro h
    rw [h]
    exact hne
  · exact hcases.resolve_left

theorem three_residue_ne_zero : (3 : Residue) ≠ 0 := Fp.natCast_ne_zero three_pos (by decide)

theorem not_isSquare_three : ¬IsSquare (3 : Residue) := by
  rw [← residue_pow_half_eq_one_iff three_residue_ne_zero]
  exact Modulus.three_pow_div_ne_one 2 (by decide)

namespace Fp

variable {a : Fp}

/-! ## Powers of elements -/

theorem Represents.pow_congr_of_modEq (ha : a.Represents x) (hne : a ≠ zero) {e f : Exponent}
    (h : e.value ≡ f.value [MOD Modulus.p.toNat - 1]) : a.pow e = a.pow f := by
  have hx : x ≠ 0 := ha.ne_zero_iff.1 hne
  exact ((ha.pow e).eq_iff (ha.pow f)).2 (residue_pow_congr hx h)

theorem Represents.pow_modulus (ha : a.Represents x) {e : Exponent}
    (he : e.value = Modulus.p.toNat) : a.pow e = a := by
  have hpow := ha.pow e
  rw [he, ZMod.pow_card] at hpow
  exact hpow.unique ha

theorem Represents.pow_half (ha : a.Represents x) (hne : a ≠ zero) {e : Exponent}
    (he : e.value = (Modulus.p.toNat - 1) / 2) :
    a.pow e = if a.sqrt?.isSome then one else -one := by
  have hx : x ≠ 0 := ha.ne_zero_iff.1 hne
  have hpow := ha.pow e
  rw [he] at hpow
  by_cases hsq : IsSquare x
  · rw [(residue_pow_half_eq_one_iff hx).2 hsq] at hpow
    rw [if_pos (ha.isSome_sqrt?_iff.2 hsq)]
    exact hpow.unique represents_one
  · rw [(residue_pow_half_eq_neg_one_iff hx).2 hsq] at hpow
    rw [if_neg (mt ha.isSome_sqrt?_iff.1 hsq)]
    exact hpow.unique represents_one.neg

/-- Exponents of any size, written for any of the routes, count modulo `p - 1` for a base that is not
zero. The power `p` changes no element, and the power `(p - 1) / 2` is `1` or `-1`, by whether the
element has a root. -/
theorem exponents_count_modulo_group_order :
    (∀ n : ℕ, (∃ ws, (Exponent.words ws).value = n) ∧ (∃ ws, (Exponent.trimmed ws).value = n) ∧
      ∃ bs, (Exponent.bytes bs).value = n) ∧
    (∀ a : Fp, a.Reduced → a ≠ zero → ∀ e f : Exponent,
      e.value ≡ f.value [MOD Modulus.p.toNat - 1] → a.pow e = a.pow f) ∧
    (∀ a : Fp, a.Reduced → ∀ e : Exponent, e.value = Modulus.p.toNat → a.pow e = a) ∧
    (∀ a : Fp, a.Reduced → a ≠ zero → ∀ e : Exponent, e.value = (Modulus.p.toNat - 1) / 2 →
      (a.sqrt?.isSome = true → a.pow e = one) ∧ (a.sqrt? = none → a.pow e = -one)) := by
  refine ⟨?_, ?_, ?_, ?_⟩
  · intro n
    exact ⟨exists_wordsValue_eq n, exists_wordsValue_eq n, exists_bytesValue_eq n⟩
  · intro a ha hne e f h
    exact ha.represents.pow_congr_of_modEq hne h
  · intro a ha e he
    exact ha.represents.pow_modulus he
  · intro a ha hne e he
    have hpow := ha.represents.pow_half hne he
    refine ⟨?_, ?_⟩
    · intro hsome
      rw [hpow, if_pos hsome]
    · intro hnone
      rw [hpow, hnone]
      rfl

/-- The base `3` has no root. The exponent `2^64 * (p - 1) + 1` has five words, and goes the way of
`1`. -/
theorem exponents_count_modulo_group_order_of_three :
    let a : Fp := ofUInt64 3
    let long : Exponent := .bytes (.ofNat 40 (2 ^ 64 * (Modulus.p.toNat - 1) + 1))
    let half : Exponent := .words (U256.ofNat ((Modulus.p.toNat - 1) / 2)).words
    a.Reduced ∧ a ≠ zero ∧ long.value = 2 ^ 64 * (Modulus.p.toNat - 1) + 1 ∧
      a.pow long = a.pow (.word 1) ∧ zero.pow (.words Modulus.p.words) = zero ∧
      a.sqrt? = none ∧ a.pow half = -one := by
  intro a long half
  have ra : a.Represents 3 := represents_ofUInt64 3
  have hne : a ≠ zero := ra.ne_zero_iff.2 three_residue_ne_zero
  have hlong : long.value = 2 ^ 64 * (Modulus.p.toNat - 1) + 1 := by decide +kernel
  have hhalf : half.value = (Modulus.p.toNat - 1) / 2 := by decide +kernel
  have hmod : long.value ≡ (Exponent.word 1).value [MOD Modulus.p.toNat - 1] := by
    decide +kernel
  have hnone : a.sqrt? = none := ra.sqrt?_of_not_isSquare not_isSquare_three
  obtain ⟨-, hcongr, hmodulus, heuler⟩ := exponents_count_modulo_group_order
  exact ⟨ra.1, hne, hlong, hcongr a ra.1 hne _ _ hmod,
    hmodulus zero reduced_zero (.words _) (wordsValue_words _), hnone,
    (heuler a ra.1 hne half hhalf).2 hnone⟩

end Fp

end Bn254
