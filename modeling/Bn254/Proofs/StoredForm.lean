import Bn254.Proofs.Encoding

/-!
# Stored forms and numbers

To encode multiplies by the radix modulo `p`, to decode multiplies by its inverse. Both do so for every
256-bit integer, of which there are several in each class modulo `p`, and answer below `p`. There each
undoes the other, so four words below `p` are the stored form of one element, and they come back from
the 32 bytes of that element.
-/

namespace Bn254

/-- The inverse of the radix modulo `p`. -/
def Modulus.radixInverse : ℕ := ((radix : Residue)⁻¹).val

namespace Modulus

theorem radixInverse_residue : (radixInverse : Residue) = (radix : Residue)⁻¹ :=
  ZMod.natCast_zmod_val _

theorem radix_mul_radixInverse : radix * radixInverse % p.toNat = 1 := by
  have h : ((1 : ℕ) : Residue) = (radix * radixInverse : ℕ) := by
    rw [Nat.cast_mul, radixInverse_residue, mul_inv_cancel₀ radix_ne_zero, Nat.cast_one]
  exact (Fp.eq_mod_of_natCast_eq p_prime.one_lt h).symm

end Modulus

namespace Montgomery

theorem encode_toNat (a : U256) :
    (encode a).toNat = a.toNat * Modulus.radix % Modulus.p.toNat := by
  refine Fp.eq_mod_of_natCast_eq (encode_lt a) ?_
  rw [encode_residue, Nat.cast_mul]

theorem decode_toNat (n : U256) :
    (decode n).toNat = n.toNat * Modulus.radixInverse % Modulus.p.toNat := by
  refine Fp.eq_mod_of_natCast_eq (decode_lt n) ?_
  rw [Nat.cast_mul, Modulus.radixInverse_residue]
  exact (eq_mul_inv_iff_mul_eq₀ Modulus.radix_ne_zero).2 (decode_residue n)

theorem decode_encode_toNat (a : U256) : (decode (encode a)).toNat = a.toNat % Modulus.p.toNat := by
  refine Fp.eq_mod_of_natCast_eq (decode_lt _) ?_
  have h := decode_residue (encode a)
  rw [encode_residue] at h
  exact mul_right_cancel₀ Modulus.radix_ne_zero h

theorem encode_decode {n : U256} (h : n.toNat < Modulus.p.toNat) : encode (decode n) = n := by
  have hres : ((encode (decode n)).toNat : Residue) = n.toNat := by
    rw [encode_residue, decode_residue]
  exact U256.toNat_inj.1 ((Fp.natCast_inj_of_lt (encode_lt _) h).1 hres)

end Montgomery

namespace Fp

variable {a : Fp} {w : U256}

theorem isSome_ofStored?_iff : (ofStored? w).isSome = true ↔ w.toNat < Modulus.p.toNat := by
  rw [Option.isSome_iff_exists]
  constructor
  · rintro ⟨a, ha⟩
    obtain ⟨hred, rfl⟩ := ofStored?_eq_some_iff.1 ha
    exact hred
  · intro h
    exact ⟨⟨w⟩, ofStored?_eq_some_iff.2 ⟨h, rfl⟩⟩

/-- To go into stored form is to multiply by `2^256` modulo `p`, to come back is to divide by it, for
every 256-bit integer. The two are inverse to each other below `p`, and on what is not below `p` the
way there and back is the residue. Four words are taken over as a stored form exactly if they are below
`p`; they are then kept as they are, also on the way through the 32 bytes of the element. -/
theorem stored_form_conversions_are_inverse :
    Modulus.radix * Modulus.radixInverse % Modulus.p.toNat = 1 ∧
    (∀ a : U256,
      ((Montgomery.encode a).toNat < Modulus.p.toNat ∧
        (Montgomery.encode a).toNat = a.toNat * Modulus.radix % Modulus.p.toNat) ∧
      ((Montgomery.decode a).toNat < Modulus.p.toNat ∧
        (Montgomery.decode a).toNat = a.toNat * Modulus.radixInverse % Modulus.p.toNat) ∧
      (Montgomery.decode (Montgomery.encode a)).toNat = a.toNat % Modulus.p.toNat) ∧
    (∀ n : U256, n.toNat < Modulus.p.toNat → Montgomery.encode (Montgomery.decode n) = n) ∧
    (∀ w : U256,
      ((ofStored? w).isSome = true ↔ w.toNat < Modulus.p.toNat) ∧
      ∀ x, ofStored? w = some x →
        x.words = w ∧ ∃ y, ofBytes32? x.toBytes32 = some y ∧ y.words = w) := by
  refine ⟨Modulus.radix_mul_radixInverse, ?_, ?_, ?_⟩
  · intro a
    exact ⟨⟨Montgomery.encode_lt a, Montgomery.encode_toNat a⟩,
      ⟨Montgomery.decode_lt a, Montgomery.decode_toNat a⟩, Montgomery.decode_encode_toNat a⟩
  · intro n hn
    exact Montgomery.encode_decode hn
  · intro w
    refine ⟨isSome_ofStored?_iff, ?_⟩
    intro x hx
    obtain ⟨hred, hw⟩ := ofStored?_eq_some_iff.1 hx
    exact ⟨hw, x, ofBytes32?_eq_some_iff.2 ⟨hred, rfl⟩, hw⟩

/-- The largest stored form, and the largest integer, which is five times `p` and a rest. -/
theorem stored_form_conversions_are_inverse_at_the_top :
    let n : U256 := .ofNat (Modulus.p.toNat - 1)
    let a : U256 := .fill Word.ones
    n.toNat < Modulus.p.toNat ∧ Montgomery.encode (Montgomery.decode n) = n ∧
      5 * Modulus.p.toNat ≤ a.toNat ∧
      (Montgomery.decode (Montgomery.encode a)).toNat = a.toNat % Modulus.p.toNat ∧
      ofStored? a = none ∧
      ∃ x, ofStored? n = some x ∧ ∃ y, ofBytes32? x.toBytes32 = some y ∧ y.words = n := by
  intro n a
  have hn : n.toNat < Modulus.p.toNat := by decide
  have ha : 5 * Modulus.p.toNat ≤ a.toNat := by decide
  obtain ⟨-, hconv, hback, hstored⟩ := stored_form_conversions_are_inverse
  obtain ⟨x, hx⟩ := Option.isSome_iff_exists.1 ((hstored n).1.2 hn)
  have hnone : ofStored? a = none := by
    rw [← Option.not_isSome_iff_eq_none, (hstored a).1]
    decide
  exact ⟨hn, hback n hn, ha, (hconv a).2.2, hnone, x, hx, ((hstored n).2 x hx).2⟩

end Fp

end Bn254
