import Bn254.Proofs.Order
import Bn254.Proofs.StoredForm

/-!
# Words that are not below `p`

Four words taken as an element as they are may be `p` or more. Their number is below `p` all the same,
since the reduction of any 256-bit integer is. So the number cannot tell the words from their remainder
modulo `p`, which is the one element with words below `p` that has this number: the order, which goes
by the numbers, takes the two for equal, and only what looks at the words tells them apart.
-/

namespace Bn254.Fp

variable {a b : Fp}

/-- The element whose words are the remainder of the words of `a` modulo `p`. -/
def leastForm (a : Fp) : Fp := ⟨.ofNat (a.words.toNat % Modulus.p.toNat)⟩

theorem leastForm_words (a : Fp) :
    a.leastForm.words.toNat = a.words.toNat % Modulus.p.toNat := by
  have hlt : a.words.toNat % Modulus.p.toNat < 2 ^ 256 :=
    (Nat.mod_lt _ Modulus.p_pos).trans Modulus.p.toNat_lt
  rw [leastForm, U256.toNat_ofNat, Nat.mod_eq_of_lt hlt]

theorem reduced_leastForm (a : Fp) : a.leastForm.Reduced := by
  rw [Reduced, leastForm_words]
  exact Nat.mod_lt _ Modulus.p_pos

theorem toNat_eq_mul_radixInverse (a : Fp) :
    a.toNat = a.words.toNat * Modulus.radixInverse % Modulus.p.toNat :=
  Montgomery.decode_toNat a.words

/-- The number knows the words modulo `p` and nothing else, whatever the words are. -/
theorem toNat_eq_iff_modEq :
    a.toNat = b.toNat ↔ a.words.toNat ≡ b.words.toNat [MOD Modulus.p.toNat] := by
  rw [← natCast_inj_of_lt a.toNat_lt b.toNat_lt, ← mul_left_inj' Modulus.radix_ne_zero,
    toNat_mul_radix, toNat_mul_radix]
  exact ZMod.natCast_eq_natCast_iff _ _ _

theorem toNat_leastForm (a : Fp) : a.leastForm.toNat = a.toNat := by
  rw [toNat_eq_iff_modEq, leastForm_words]
  exact Nat.mod_modEq _ _

theorem Reduced.eq_leastForm (hb : b.Reduced) (h : b.canonical = a.canonical) : b = a.leastForm := by
  rw [← hb.toNat_inj (reduced_leastForm a), toNat_leastForm]
  exact congrArg U256.toNat h

theorem ne_leastForm (h : Modulus.p.toNat ≤ a.words.toNat) : a ≠ a.leastForm := by
  intro he
  have hred := reduced_leastForm a
  rw [← he] at hred
  exact h.not_gt hred

theorem compare_zero_eq_iff : a.compare zero = .eq ↔ Modulus.p.toNat ∣ a.words.toNat := by
  rw [compare_eq_eq_iff, toNat_eq_iff_modEq]
  exact Nat.modEq_zero_iff_dvd

theorem isZero_eq_false_iff : a.isZero = false ↔ a.words.toNat ≠ 0 := by
  rw [Bool.eq_false_iff, Ne, isZero_iff, Fp.ext_iff, ← U256.toNat_inj]
  rfl

/-- The number of any four words is below `p`, so they are valid exactly if they are below `p`
themselves. Words that are not have the number of their remainder modulo `p`, of which this is the only
valid form; the order does not tell the two apart, while no test for equality takes them for equal. A
multiple of `p` is so no zero to the test, and equal to zero in the order. -/
theorem validity_is_of_words :
    Modulus.radix * Modulus.radixInverse % Modulus.p.toNat = 1 ∧
    (∀ a : Fp,
      a.canonical.toNat < Modulus.p.toNat ∧
      a.canonical.toNat = a.words.toNat * Modulus.radixInverse % Modulus.p.toNat ∧
      (a.isValid = true ↔ a.words.toNat < Modulus.p.toNat)) ∧
    (∀ a : Fp, Modulus.p.toNat ≤ a.words.toNat →
      a.leastForm.words.toNat = a.words.toNat % Modulus.p.toNat ∧
      (∀ b : Fp, b.isValid = true ∧ b.canonical = a.canonical ↔ b = a.leastForm) ∧
      (a.compare a.leastForm = .eq ∧ a.leastForm.compare a = .eq) ∧
      ((a == a.leastForm) = false ∧ (a.leastForm == a) = false) ∧
      (a.sameWords a.leastForm = false ∧ a.leastForm.sameWords a = false)) ∧
    (∀ a : Fp, Modulus.p.toNat ∣ a.words.toNat → a.words.toNat ≠ 0 →
      a.isZero = false ∧ a.compare zero = .eq ∧ zero.compare a = .eq) := by
  refine ⟨Modulus.radix_mul_radixInverse, ?_, ?_, ?_⟩
  · intro a
    exact ⟨a.toNat_lt, toNat_eq_mul_radixInverse a, isValid_iff a⟩
  · intro a h
    have hne := ne_leastForm h
    refine ⟨leastForm_words a, ?_, ⟨?_, ?_⟩, ⟨?_, ?_⟩, ?_, ?_⟩
    · intro b
      constructor
      · rintro ⟨hvalid, hnum⟩
        exact ((isValid_iff b).1 hvalid).eq_leastForm hnum
      · rintro rfl
        exact ⟨(isValid_iff _).2 (reduced_leastForm a), U256.toNat_inj.1 (toNat_leastForm a)⟩
    · exact compare_eq_eq_iff.2 (toNat_leastForm a).symm
    · exact compare_eq_eq_iff.2 (toNat_leastForm a)
    · exact beq_eq_false_iff_ne.2 hne
    · exact beq_eq_false_iff_ne.2 hne.symm
    · exact Bool.eq_false_iff.2 (mt (sameWords_iff _ _).1 hne)
    · exact Bool.eq_false_iff.2 (mt (sameWords_iff _ _).1 hne.symm)
  · intro a hdvd hne
    have hzero := compare_zero_eq_iff.2 hdvd
    exact ⟨isZero_eq_false_iff.2 hne, hzero, compare_eq_eq_iff.2 (compare_eq_eq_iff.1 hzero).symm⟩

/-- The words of ones are five times `p` and a rest; five times `p` is the largest multiple of `p` in
four words. -/
theorem validity_is_of_words_at_the_top :
    let a : Fp := ⟨.fill Word.ones⟩
    let z : Fp := ⟨.ofNat (5 * Modulus.p.toNat)⟩
    Modulus.p.toNat ≤ a.words.toNat ∧ a.isValid = false ∧ a.leastForm.isValid = true ∧
      a.compare a.leastForm = .eq ∧ (a == a.leastForm) = false ∧
      Modulus.p.toNat ∣ z.words.toNat ∧ z.words.toNat ≠ 0 ∧ z.isZero = false ∧
      z.compare zero = .eq := by
  intro a z
  have ha : Modulus.p.toNat ≤ a.words.toNat := by decide
  have hz : z.words.toNat = 5 * Modulus.p.toNat := by decide +kernel
  have hdvd : Modulus.p.toNat ∣ z.words.toNat := by
    rw [hz]
    exact Nat.dvd_mul_left _ _
  have hne : z.words.toNat ≠ 0 := by decide +kernel
  obtain ⟨-, hvalid, hforged, hmultiple⟩ := validity_is_of_words
  obtain ⟨-, hleast, ⟨hcompare, -⟩, ⟨hbeq, -⟩, -⟩ := hforged a ha
  obtain ⟨hzero, hcompareZero, -⟩ := hmultiple z hdvd hne
  have hnot : a.isValid = false := Bool.eq_false_iff.2 (mt (hvalid a).2.2.1 ha.not_gt)
  exact ⟨ha, hnot, ((hleast _).2 rfl).1, hcompare, hbeq, hdvd, hne, hzero, hcompareZero⟩

end Bn254.Fp
