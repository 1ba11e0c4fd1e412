import Bn254.Proofs.FieldOps

/-!
# Numbers of any length

A string of bytes is decoded block by block, with a reduction after every block, and yet only the
residue of the whole number counts: strings whose numbers differ by a multiple of `p` decode to the
same element. So to append bytes to a string shifts its element and adds theirs, and zeros in front do
nothing, wherever the strings are cut into blocks.
-/

namespace Bn254

theorem Bytes.count_eq_two_pow (k : ℕ) : Bytes.count k = 2 ^ (8 * k) := by
  induction k with
  | zero => rfl
  | succ k ih =>
    rw [count, ih, show 8 * (k + 1) = 8 * k + 8 from rfl, Nat.pow_add]

namespace Fp

variable {xs ys : Bytes}

theorem ofBytesReduced_eq_iff :
    ofBytesReduced xs = ofBytesReduced ys ↔
      xs.value % Modulus.p.toNat = ys.value % Modulus.p.toNat := by
  rw [← ZMod.natCast_eq_natCast_iff']
  exact (represents_ofBytesReduced xs).eq_iff (represents_ofBytesReduced ys)

theorem represents_natPow_two (n : ℕ) : (ops.natPow (ofUInt64 2) n).Represents (2 ^ n) := by
  have htwo : (ofUInt64 2).Represents 2 := by exact_mod_cast represents_ofUInt64 2
  exact implements_ops.natPow htwo n

/-- The bytes that are appended shift those before them by eight bits each. -/
theorem ofBytesReduced_append (xs ys : Bytes) :
    ofBytesReduced (xs ++ ys) =
      ofBytesReduced xs * ops.natPow (ofUInt64 2) (8 * ys.length) + ofBytesReduced ys := by
  have hx := represents_ofBytesReduced xs
  have hy := represents_ofBytesReduced ys
  have hshift := (hx.mul (represents_natPow_two (8 * ys.length))).add hy
  refine ((represents_ofBytesReduced (xs ++ ys)).eq_iff hshift).2 ?_
  rw [Bytes.value_append, Bytes.count_eq_two_pow]
  push_cast
  rfl

theorem ofBytesReduced_replicate_zero_append (n : ℕ) (ys : Bytes) :
    ofBytesReduced (List.replicate n 0 ++ ys) = ofBytesReduced ys := by
  rw [ofBytesReduced_eq_iff, Bytes.value_replicate_zero_append]

/-- A string of bytes of any length decodes to the residue of the number that it writes. Hence the
element of two strings joined is that of the first, times the power of two that the second has room
for, plus that of the second, and zeros in front of a string change nothing. -/
theorem ofBytesReduced_is_residue :
    (∀ b : Bytes, (ofBytesReduced b).Reduced ∧
      (ofBytesReduced b).toNat = b.value % Modulus.p.toNat) ∧
    (∀ x y : Bytes, ofBytesReduced (x ++ y) =
      ofBytesReduced x * ops.natPow (ofUInt64 2) (8 * y.length) + ofBytesReduced y) ∧
    ∀ (n : ℕ) (b : Bytes), ofBytesReduced (List.replicate n 0 ++ b) = ofBytesReduced b := by
  refine ⟨?_, ofBytesReduced_append, ofBytesReduced_replicate_zero_append⟩
  intro b
  have hb := represents_ofBytesReduced b
  exact ⟨hb.1, hb.toNat_eq⟩

end Fp

end Bn254
