import Bn254.Proofs.Representation
import Mathlib.Data.Set.Function
import Mathlib.Tactic.Ring

/-!
# Arithmetic on elements is arithmetic modulo `p`

Each operation on elements is followed by an operation on the residues that they represent: on
words below `p`, a sum needs at most one subtraction of `p`, a difference at most one addition of
it, and a product one reduction. The laws of a commutative ring come down to elements from the
residues.
-/

namespace Bn254.Fp

variable {a b c : Fp} {x y z : Residue}

/-! ## The words of a result -/

theorem add_words (ha : a.Reduced) (hb : b.Reduced) :
    (a + b).words.toNat = (a.words.toNat + b.words.toNat) % Modulus.p.toNat := by
  have hsum := U256.add_toNat a.words b.words
  change ((a.words.add b.words).1.subtractOnce (a.words.add b.words).2 Modulus.p).toNat = _
  rw [Reduced] at ha hb
  have hlt : (a.words.add b.words).1.toNat + 2 ^ 256 * (a.words.add b.words).2.toNat <
      2 * Modulus.p.toNat := by omega
  rw [U256.subtractOnce_eq_mod hlt, hsum]

/-- The borrow is the mask of the modulus, so `p` is added back exactly when `a` is smaller. -/
theorem sub_words (ha : a.Reduced) (hb : b.Reduced) :
    (a - b).words.toNat =
      (a.words.toNat + (Modulus.p.toNat - b.words.toNat)) % Modulus.p.toNat := by
  have hdiff := U256.sub_toNat a.words b.words
  change ((a.words.sub b.words).1.add
    (Modulus.p.and (.fill (a.words.sub b.words).2))).1.toNat = _
  rw [U256.sub_snd] at hdiff ⊢
  rw [Reduced, Modulus.p_toNat] at ha hb
  by_cases hlt : a.words.toNat < b.words.toNat
  · rw [if_pos hlt, U256.and_fill_ones]
    rw [if_pos hlt, Word.toNat_borrowBit_ones] at hdiff
    have hsum := U256.add_toNat (a.words.sub b.words).1 Modulus.p
    have hres := ((a.words.sub b.words).1.add Modulus.p).1.toNat_lt
    rw [Modulus.p_toNat] at hsum ⊢
    omega
  · rw [if_neg hlt, U256.and_fill_zero]
    rw [if_neg hlt, Word.toNat_borrowBit_zero] at hdiff
    have hsum := U256.add_toNat (a.words.sub b.words).1 .zero
    have hres := ((a.words.sub b.words).1.add .zero).1.toNat_lt
    rw [U256.toNat_zero] at hsum
    rw [Modulus.p_toNat]
    omega

/-! ## What a result represents -/

theorem Represents.add (ha : a.Represents x) (hb : b.Represents y) :
    (a + b).Represents (x + y) := by
  have hw := add_words ha.1 hb.1
  refine represents_iff_words.2 ⟨?_, ?_⟩
  · rw [Reduced, hw]
    exact Nat.mod_lt _ Modulus.p_pos
  · rw [hw, ZMod.natCast_mod, Nat.cast_add, ha.words, hb.words, add_mul]

theorem Represents.sub (ha : a.Represents x) (hb : b.Represents y) :
    (a - b).Represents (x - y) := by
  have hw := sub_words ha.1 hb.1
  have hle : b.words.toNat ≤ Modulus.p.toNat := hb.1.le
  refine represents_iff_words.2 ⟨?_, ?_⟩
  · rw [Reduced, hw]
    exact Nat.mod_lt _ Modulus.p_pos
  · rw [hw, ZMod.natCast_mod, Nat.cast_add, Nat.cast_sub hle, ZMod.natCast_self, zero_sub,
      ha.words, hb.words, ← sub_eq_add_neg, sub_mul]

theorem Represents.neg (ha : a.Represents x) : (-a).Represents (-x) := by
  have h := represents_zero.sub ha
  rw [zero_sub] at h
  exact h

theorem Represents.mul (ha : a.Represents x) (hb : b.Represents y) :
    (a * b).Represents (x * y) := by
  have hdom : Montgomery.InDomain (a.words.mul b.words) := Montgomery.inDomain_mul _ hb.1
  have hred := Montgomery.reduce_residue hdom
  refine represents_iff_words.2 ⟨Montgomery.reduce_lt hdom, ?_⟩
  rw [U256.mul_toNat, Nat.cast_mul, ha.words, hb.words] at hred
  have hx : x * Modulus.radix * (y * Modulus.radix) = x * y * Modulus.radix * Modulus.radix := by
    ring
  rw [hx] at hred
  exact mul_right_cancel₀ Modulus.radix_ne_zero hred

theorem Represents.double (ha : a.Represents x) : a.double.Represents (2 * x) := by
  have h := ha.add ha
  rw [← two_mul] at h
  exact h

theorem Represents.square (ha : a.Represents x) : a.square.Represents (x ^ 2) := by
  have h := ha.mul ha
  rw [← sq] at h
  exact h

theorem Represents.cube (ha : a.Represents x) : a.cube.Represents (x ^ 3) := by
  have h := ha.square.mul ha
  rw [← pow_succ] at h
  exact h

/-! ## The laws of a commutative ring

Both sides of a law represent the same polynomial in the residues of the operands. -/

theorem Reduced.add_comm (ha : a.Reduced) (hb : b.Reduced) : a + b = b + a := by
  have hl := ha.represents.add hb.represents
  have hr := hb.represents.add ha.represents
  exact (hl.eq_iff hr).2 (by ring)

theorem Reduced.add_assoc (ha : a.Reduced) (hb : b.Reduced) (hc : c.Reduced) :
    a + b + c = a + (b + c) := by
  have hl := (ha.represents.add hb.represents).add hc.represents
  have hr := ha.represents.add (hb.represents.add hc.represents)
  exact (hl.eq_iff hr).2 (by ring)

theorem Reduced.mul_comm (ha : a.Reduced) (hb : b.Reduced) : a * b = b * a := by
  have hl := ha.represents.mul hb.represents
  have hr := hb.represents.mul ha.represents
  exact (hl.eq_iff hr).2 (by ring)

theorem Reduced.mul_assoc (ha : a.Reduced) (hb : b.Reduced) (hc : c.Reduced) :
    a * b * c = a * (b * c) := by
  have hl := (ha.represents.mul hb.represents).mul hc.represents
  have hr := ha.represents.mul (hb.represents.mul hc.represents)
  exact (hl.eq_iff hr).2 (by ring)

theorem Reduced.mul_add (ha : a.Reduced) (hb : b.Reduced) (hc : c.Reduced) :
    a * (b + c) = a * b + a * c := by
  have hl := ha.represents.mul (hb.represents.add hc.represents)
  have hr := (ha.represents.mul hb.represents).add (ha.represents.mul hc.represents)
  exact (hl.eq_iff hr).2 (by ring)

theorem Reduced.add_zero (ha : a.Reduced) : a + zero = a := by
  have hl := ha.represents.add represents_zero
  exact (hl.eq_iff ha.represents).2 (by ring)

theorem Reduced.mul_one (ha : a.Reduced) : a * one = a := by
  have hl := ha.represents.mul represents_one
  exact (hl.eq_iff ha.represents).2 (by ring)

theorem Reduced.add_neg_cancel (ha : a.Reduced) : a + -a = zero := by
  have hl := ha.represents.add ha.represents.neg
  exact (hl.eq_iff represents_zero).2 (by ring)

theorem Reduced.add_sub_cancel (ha : a.Reduced) (hb : b.Reduced) : a + b - b = a := by
  have hl := (ha.represents.add hb.represents).sub hb.represents
  exact (hl.eq_iff ha.represents).2 (by ring)

/-! ## The numbers of the results -/

theorem bijOn_toNat : Set.BijOn toNat {a | a.Reduced} {n | n < Modulus.p.toNat} := by
  refine ⟨?_, ?_, ?_⟩
  · intro a _
    exact a.toNat_lt
  · intro a ha b hb hab
    have h : (a.toNat : Residue) = b.toNat := congrArg _ hab
    exact (ha.represents.eq_iff hb.represents).2 h
  · intro n hn
    obtain ⟨a, ha⟩ := exists_represents n
    refine ⟨a, ha.1, ?_⟩
    rw [ha.toNat_eq]
    exact Nat.mod_eq_of_lt hn

/-- The elements with words below `p` are the integers modulo `p`: their numbers are the integers
below `p`, each once, the operations act on the numbers modulo `p`, and so they obey the laws of a
commutative ring as equations between words. -/
theorem arithmetic_is_modular :
    Set.BijOn toNat {a | a.Reduced} {n | n < Modulus.p.toNat} ∧
    zero.Reduced ∧ zero.toNat = 0 ∧ one.Reduced ∧ one.toNat = 1 ∧
    (∀ a b : Fp, a.Reduced → b.Reduced →
      ((a + b).Reduced ∧ (a + b).toNat = (a.toNat + b.toNat) % Modulus.p.toNat) ∧
      ((a - b).Reduced ∧ ((a - b).toNat : ℤ) = ((a.toNat : ℤ) - b.toNat) % Modulus.p.toNat) ∧
      ((-a).Reduced ∧ ((-a).toNat : ℤ) = (-(a.toNat : ℤ)) % Modulus.p.toNat) ∧
      (a.double.Reduced ∧ a.double.toNat = 2 * a.toNat % Modulus.p.toNat) ∧
      ((a * b).Reduced ∧ (a * b).toNat = a.toNat * b.toNat % Modulus.p.toNat) ∧
      (a.square.Reduced ∧ a.square.toNat = a.toNat ^ 2 % Modulus.p.toNat)) ∧
    (∀ a b c : Fp, a.Reduced → b.Reduced → c.Reduced →
      a + b = b + a ∧ a * b = b * a ∧
      a + b + c = a + (b + c) ∧ a * b * c = a * (b * c) ∧
      a * (b + c) = a * b + a * c ∧ (a + b) * c = a * c + b * c ∧
      a + zero = a ∧ zero + a = a ∧ a * one = a ∧ one * a = a ∧
      a + -a = zero ∧ -a + a = zero ∧ a + b - b = a) := by
  have hzero : zero.Represents (0 : ℕ) := by exact_mod_cast represents_zero
  have hone : one.Represents (1 : ℕ) := by exact_mod_cast represents_one
  refine ⟨bijOn_toNat, hzero.1, hzero.toNat_eq, hone.1, ?_, ?_, ?_⟩
  · rw [hone.toNat_eq]
    exact Nat.mod_eq_of_lt Modulus.p_prime.one_lt
  · intro a b ha hb
    have ra := ha.represents
    have rb := hb.represents
    have hadd : (a + b).Represents (a.toNat + b.toNat : ℕ) := by
      rw [Nat.cast_add]
      exact ra.add rb
    have hsub : (a - b).Represents ((a.toNat : ℤ) - b.toNat : ℤ) := by
      rw [Int.cast_sub, Int.cast_natCast, Int.cast_natCast]
      exact ra.sub rb
    have hneg : (-a).Represents (-(a.toNat : ℤ) : ℤ) := by
      rw [Int.cast_neg, Int.cast_natCast]
      exact ra.neg
    have hdouble : a.double.Represents (2 * a.toNat : ℕ) := by
      rw [Nat.cast_mul, Nat.cast_ofNat]
      exact ra.double
    have hmul : (a * b).Represents (a.toNat * b.toNat : ℕ) := by
      rw [Nat.cast_mul]
      exact ra.mul rb
    have hsquare : a.square.Represents (a.toNat ^ 2 : ℕ) := by
      rw [Nat.cast_pow]
      exact ra.square
    exact ⟨⟨hadd.1, hadd.toNat_eq⟩, ⟨hsub.1, hsub.toNat_eq_emod⟩, ⟨hneg.1, hneg.toNat_eq_emod⟩,
      ⟨hdouble.1, hdouble.toNat_eq⟩, ⟨hmul.1, hmul.toNat_eq⟩, ⟨hsquare.1, hsquare.toNat_eq⟩⟩
  · intro a b c ha hb hc
    have hz := represents_zero.1
    have ho := represents_one.1
    have hn := ha.represents.neg.1
    have hadd := (ha.represents.add hb.represents).1
    refine ⟨ha.add_comm hb, ha.mul_comm hb, ha.add_assoc hb hc, ha.mul_assoc hb hc,
      ha.mul_add hb hc, ?_, ha.add_zero, ?_, ha.mul_one, ?_, ha.add_neg_cancel, ?_,
      ha.add_sub_cancel hb⟩
    · rw [hadd.mul_comm hc, hc.mul_add ha hb, hc.mul_comm ha, hc.mul_comm hb]
    · rw [hz.add_comm ha, ha.add_zero]
    · rw [ho.mul_comm ha, ha.mul_one]
    · rw [hn.add_comm ha, ha.add_neg_cancel]

/-- The stored form `p - 1` is the largest one, and a sum with it wraps around. -/
theorem arithmetic_is_modular_at_the_top :
    let a : Fp :=
      ⟨0x3c208c16d87cfd46, 0x97816a916871ca8d, 0xb85045b68181585d, 0x30644e72e131a029⟩
    let b : Fp := ⟨.ofWord 2⟩
    a.Reduced ∧ b.Reduced ∧ (a + b).words = .ofWord 1 ∧
      (a + b).toNat = (a.toNat + b.toNat) % Modulus.p.toNat ∧
      (a + b) * a = a * a + b * a := by
  intro a b
  have ha : a.Reduced := by decide
  have hb : b.Reduced := by decide
  obtain ⟨-, -, -, -, -, hops, hlaws⟩ := arithmetic_is_modular
  exact ⟨ha, hb, by decide +kernel, (hops a b ha hb).1.2, (hlaws a b a ha hb ha).2.2.2.2.2.1⟩

end Bn254.Fp
