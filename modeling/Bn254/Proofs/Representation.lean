import Bn254.Fp.Basic
import Bn254.Proofs.Prime
import Mathlib.Algebra.Field.ZMod

/-!
# Elements and the residues that they represent

The theory of the elements rests on one relation: `a.Represents x` says that the words of `a` are
below `p` and that its number lies in the class `x` modulo `p`. Every residue is represented by
exactly one element, so an equation between elements is one between residues.

The reduction divides by the radix in the field of residues, hence the stored form of what
represents `x` is `x` times the radix (`Fp.represents_iff_words`).
-/

namespace Bn254

/-- The field of the integers modulo `p`. -/
abbrev Residue : Type := ZMod Modulus.p.toNat

namespace Modulus

theorem p_pos : 0 < p.toNat := p_prime.pos

theorem radix_ne_zero : (radix : Residue) ≠ 0 := by
  rw [Ne, ZMod.natCast_eq_zero_iff]
  decide

theorem radixSq_residue : (radixSq.toNat : Residue) = radix ^ 2 := by
  rw [radixSq_toNat, ZMod.natCast_mod, Nat.cast_pow]

theorem radixCube_residue : (radixCube.toNat : Residue) = radix ^ 3 := by
  rw [radixCube_toNat, ZMod.natCast_mod, Nat.cast_pow]

theorem radixSq_lt : radixSq.toNat < p.toNat := by decide

theorem radixCube_lt : radixCube.toNat < p.toNat := by decide

end Modulus

namespace Montgomery

/-- What a reduction is defined for. -/
def InDomain (x : U512) : Prop := x.toNat < Modulus.radix * Modulus.p.toNat

theorem inDomain_widen (n : U256) : InDomain n.widen := by
  have hn : n.toNat < Modulus.radix := n.toNat_lt
  rw [InDomain, U256.widen_toNat]
  exact hn.trans_le (Nat.le_mul_of_pos_right _ Modulus.p_pos)

/-- One factor below `p` is enough, as the other is below the radix. -/
theorem inDomain_mul (a : U256) {b : U256} (hb : b.toNat < Modulus.p.toNat) :
    InDomain (a.mul b) := by
  have ha : a.toNat < Modulus.radix := a.toNat_lt
  rw [InDomain, U256.mul_toNat]
  exact Nat.mul_lt_mul_of_lt_of_le ha hb.le Modulus.p_pos

theorem reduce_residue {x : U512} (h : InDomain x) :
    ((reduce x).toNat : Residue) * Modulus.radix = x.toNat := by
  rw [← Nat.cast_mul]
  exact (ZMod.natCast_eq_natCast_iff' _ _ _).2 (reduce_mul_radix h)

theorem encode_lt (a : U256) : (encode a).toNat < Modulus.p.toNat :=
  reduce_lt (inDomain_mul a Modulus.radixSq_lt)

theorem encode_residue (a : U256) :
    ((encode a).toNat : Residue) = a.toNat * Modulus.radix := by
  have h := reduce_residue (inDomain_mul a Modulus.radixSq_lt)
  rw [U256.mul_toNat, Nat.cast_mul, Modulus.radixSq_residue, sq, ← mul_assoc] at h
  exact mul_right_cancel₀ Modulus.radix_ne_zero h

theorem decode_lt (n : U256) : (decode n).toNat < Modulus.p.toNat :=
  reduce_lt (inDomain_widen n)

theorem decode_residue (n : U256) :
    ((decode n).toNat : Residue) * Modulus.radix = n.toNat := by
  have h := reduce_residue (inDomain_widen n)
  rw [U256.widen_toNat] at h
  exact h

end Montgomery

namespace Fp

/-- The words of `a` are below `p`, and its number is in the class `x`. -/
def Represents (a : Fp) (x : Residue) : Prop := a.Reduced ∧ (a.toNat : Residue) = x

variable {a b : Fp} {x y : Residue}

theorem toNat_lt (a : Fp) : a.toNat < Modulus.p.toNat := Montgomery.decode_lt a.words

theorem toNat_mul_radix (a : Fp) : (a.toNat : Residue) * Modulus.radix = a.words.toNat :=
  Montgomery.decode_residue a.words

theorem represents_iff_words :
    a.Represents x ↔ a.Reduced ∧ (a.words.toNat : Residue) = x * Modulus.radix := by
  rw [Represents, ← toNat_mul_radix, mul_left_inj' Modulus.radix_ne_zero]

theorem Reduced.represents (ha : a.Reduced) : a.Represents a.toNat := ⟨ha, rfl⟩

theorem Represents.words (ha : a.Represents x) :
    (a.words.toNat : Residue) = x * Modulus.radix :=
  (represents_iff_words.1 ha).2

/-- Two numbers below `p` in one class are equal. -/
theorem natCast_inj_of_lt {m n : ℕ} (hm : m < Modulus.p.toNat) (hn : n < Modulus.p.toNat) :
    (m : Residue) = n ↔ m = n := by
  rw [ZMod.natCast_eq_natCast_iff', Nat.mod_eq_of_lt hm, Nat.mod_eq_of_lt hn]

/-- A number below `p` is known by its class. -/
theorem eq_mod_of_natCast_eq {m n : ℕ} (hm : m < Modulus.p.toNat) (h : (m : Residue) = n) :
    m = n % Modulus.p.toNat := by
  rw [ZMod.natCast_eq_natCast_iff', Nat.mod_eq_of_lt hm] at h
  exact h

theorem natCast_ne_zero {n : ℕ} (hpos : 0 < n) (hlt : n < Modulus.p.toNat) : (n : Residue) ≠ 0 := by
  rw [Ne, ZMod.natCast_eq_zero_iff]
  exact Nat.not_dvd_of_pos_of_lt hpos hlt

theorem Represents.eq_iff (ha : a.Represents x) (hb : b.Represents y) : a = b ↔ x = y := by
  constructor
  · rintro rfl
    rw [← ha.2, hb.2]
  · intro h
    have hwords : (a.words.toNat : Residue) = b.words.toNat := by rw [ha.words, hb.words, h]
    exact Fp.ext (U256.toNat_inj.1 ((natCast_inj_of_lt ha.1 hb.1).1 hwords))

/-- What represents the same residue has the same words. -/
theorem Represents.unique (ha : a.Represents x) (hb : b.Represents x) : a = b :=
  (ha.eq_iff hb).2 rfl

theorem Represents.toNat_eq {n : ℕ} (ha : a.Represents n) : a.toNat = n % Modulus.p.toNat :=
  eq_mod_of_natCast_eq a.toNat_lt ha.2

theorem Represents.toNat_eq_emod {n : ℤ} (ha : a.Represents n) :
    (a.toNat : ℤ) = n % Modulus.p.toNat := by
  have h : ((a.toNat : ℤ) : Residue) = n := by
    rw [Int.cast_natCast]
    exact ha.2
  rw [ZMod.intCast_eq_intCast_iff', Int.emod_eq_of_lt (Int.natCast_nonneg _)] at h
  · exact h
  · exact Int.ofNat_lt.2 a.toNat_lt

/-! ## Constants and encoded integers -/

theorem represents_ofU256 (n : U256) : (ofU256 n).Represents n.toNat :=
  represents_iff_words.2 ⟨Montgomery.encode_lt n, Montgomery.encode_residue n⟩

theorem represents_ofUInt64 (n : UInt64) : (ofUInt64 n).Represents n.toNat := by
  have h := represents_ofU256 (.ofWord n)
  rw [U256.toNat_ofWord] at h
  exact h

theorem represents_zero : zero.Represents 0 :=
  represents_iff_words.2 ⟨Modulus.p_pos, by rw [zero, U256.toNat_zero, Nat.cast_zero, zero_mul]⟩

theorem represents_one : one.Represents 1 := by
  have h := represents_ofUInt64 1
  rw [UInt64.toNat_one, Nat.cast_one] at h
  exact h

theorem exists_represents (x : Residue) : ∃ a : Fp, a.Represents x := by
  have hx : x.val < 2 ^ 256 := (ZMod.val_lt x).trans Modulus.p.toNat_lt
  have h := represents_ofU256 (.ofNat x.val)
  rw [U256.toNat_ofNat, Nat.mod_eq_of_lt hx, ZMod.natCast_zmod_val] at h
  exact ⟨_, h⟩

end Fp

end Bn254
