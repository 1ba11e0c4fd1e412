import Bn254.Proofs.SquareRoot
import Bn254.Proofs.Encoding

/-!
# Parity as a sign

The numbers of an element that is not zero and of its negative add up to `p`, which is odd: one of them
is odd and the other is even. So parity tells the two roots of a square apart, and an element is known
by its square and one bit. It is the parity of the number, which the stored form does not show, and of
the last byte of the encoding.
-/

namespace Bn254

theorem Modulus.odd_p : Odd p.toNat := by decide

theorem U256.odd_w0_iff (n : U256) : Odd n.w0.toNat ↔ Odd n.toNat := by
  rw [Nat.odd_iff, Nat.odd_iff, toNat]
  omega

theorem Bytes.odd_value_iff {bs : Bytes} {b : UInt8} (h : bs.getLast? = some b) :
    Odd bs.value ↔ Odd b.toNat := by
  obtain ⟨front, rfl⟩ := List.getLast?_eq_some_iff.1 h
  have hlast : value [b] = b.toNat := by
    rw [value_cons, List.length_nil, count, Nat.mul_one]
    rfl
  have hcount : count [b].length = 256 := rfl
  rw [value_append, hlast, hcount, Nat.odd_iff, Nat.odd_iff]
  omega

namespace Fp

variable {a y z : Fp}

/-! ## The bit -/

theorem isOdd_iff (a : Fp) : a.isOdd = true ↔ Odd a.toNat := by
  unfold isOdd toNat
  rw [beq_iff_eq, ← UInt64.toNat_inj, UInt64.toNat_and, UInt64.toNat_one, Nat.and_one_is_mod,
    ← Nat.odd_iff]
  exact U256.odd_w0_iff a.canonical

theorem isOdd_iff_of_getLast? {c : UInt8} (h : a.toBytes32.toList.getLast? = some c) :
    a.isOdd = true ↔ Odd c.toNat := by
  rw [isOdd_iff, ← value_toBytes32, ← Bytes.odd_value_iff h]
  rfl

/-- An encoding has a last byte. -/
theorem exists_getLast?_toBytes32 (a : Fp) : ∃ c, a.toBytes32.toList.getLast? = some c := by
  rcases h : a.toBytes32.toList.getLast? with _ | c
  · have hlength := a.toBytes32.length_eq
    rw [List.getLast?_eq_none_iff.1 h] at hlength
    cases hlength
  · exact ⟨c, rfl⟩

/-! ## Negatives -/

theorem Reduced.toNat_neg (ha : a.Reduced) (hne : a ≠ zero) :
    (-a).toNat = Modulus.p.toNat - a.toNat := by
  have hlt := a.toNat_lt
  have hpos : a.toNat ≠ 0 := by
    intro h
    apply ha.represents.ne_zero_iff.1 hne
    rw [h, Nat.cast_zero]
  have hneg : (-a).Represents (Modulus.p.toNat - a.toNat : ℕ) := by
    rw [Nat.cast_sub hlt.le, ZMod.natCast_self, zero_sub]
    exact ha.represents.neg
  rw [hneg.toNat_eq]
  apply Nat.mod_eq_of_lt
  omega

theorem Reduced.isOdd_neg (ha : a.Reduced) (hne : a ≠ zero) : (-a).isOdd = !a.isOdd := by
  rw [Bool.eq_iff_iff, Bool.not_eq_true', ← Bool.not_eq_true, isOdd_iff, isOdd_iff,
    ha.toNat_neg hne, Nat.odd_sub a.toNat_lt.le, Nat.not_odd_iff_even]
  exact iff_true_left Modulus.odd_p

/-- Parity is the sign: of an element and its negative it picks one out. Zero is both. -/
theorem Reduced.eq_of_isOdd_eq (hy : y.Reduced) (h : z = y ∨ z = -y) (hparity : z.isOdd = y.isOdd) :
    z = y := by
  rcases h with rfl | rfl
  · rfl
  · by_cases hne : y = zero
    · have hneg : -zero = zero := (represents_zero.neg.eq_iff represents_zero).2 neg_zero
      rw [hne, hneg]
    · rw [hy.isOdd_neg hne] at hparity
      exact absurd hparity (Bool.not_ne_self _)

/-! ## The root with a given parity -/

theorem Reduced.eq_or_eq_neg (hz : z.Reduced) (hy : y.Reduced) (h : z.square = y.square) :
    z = y ∨ z = -y := by
  have rz := hz.represents
  have ry := hy.represents
  rcases sq_eq_sq_iff_eq_or_eq_neg.1 ((rz.square.eq_iff ry.square).1 h) with heq | heq
  · exact .inl ((rz.eq_iff ry).2 heq)
  · exact .inr ((rz.eq_iff ry.neg).2 heq)

/-- Of the root of a square and the negative of the root, the one with the parity of the element that
was squared is that element. -/
theorem Reduced.exists_sqrt?_square_eq (hy : y.Reduced) (hne : y ≠ zero) :
    ∃ r, y.square.sqrt? = some r ∧ Xor (r.isOdd = y.isOdd) ((-r).isOdd = y.isOdd) ∧
      ∀ s ∈ [r, -r], s.isOdd = y.isOdd → s = y := by
  have hodd : (-y).isOdd ≠ y.isOdd := by
    rw [hy.isOdd_neg hne]
    exact Bool.not_ne_self _
  have hback : - -y = y := (hy.represents.neg.neg.eq_iff hy.represents).2 (neg_neg _)
  rcases hy.represents.sqrt?_square with hr | hr
  · refine ⟨y, hr, .inl ⟨rfl, hodd⟩, ?_⟩
    intro s hs
    rw [List.mem_pair] at hs
    exact hy.eq_of_isOdd_eq hs
  · refine ⟨-y, hr, .inr ⟨by rw [hback], hodd⟩, ?_⟩
    intro s hs
    rw [hback, List.mem_pair] at hs
    exact hy.eq_of_isOdd_eq hs.symm

/-- Of an element that is not zero and its negative exactly one is odd. So its square has a root, of
which, up to the sign, the parity of the element makes the element again, and no other element has the
same square and the same parity. An element is odd if its number is, which the last byte of its
encoding shows. -/
theorem parity_is_the_sign :
    (∀ a : Fp, a.Reduced → a ≠ zero → Xor (a.isOdd = true) ((-a).isOdd = true)) ∧
    (∀ y : Fp, y.Reduced → y ≠ zero →
      ∃ r, y.square.sqrt? = some r ∧ Xor (r.isOdd = y.isOdd) ((-r).isOdd = y.isOdd) ∧
        ∀ s ∈ [r, -r], s.isOdd = y.isOdd → s = y) ∧
    (∀ y z : Fp, y.Reduced → z.Reduced → y.square = z.square → y.isOdd = z.isOdd → y = z) ∧
    (∀ a : Fp, a.Reduced →
      (a.isOdd = true ↔ Odd a.toNat) ∧
      ∃ c, a.toBytes32.toList.getLast? = some c ∧ (a.isOdd = true ↔ Odd c.toNat)) := by
  refine ⟨?_, ?_, ?_, ?_⟩
  · intro a ha hne
    rw [xor_iff_not_iff, ha.isOdd_neg hne, Bool.not_eq_true']
    cases a.isOdd with
    | false => decide
    | true => decide
  · intro y hy hne
    exact hy.exists_sqrt?_square_eq hne
  · intro y z hy hz hsq hparity
    exact hz.eq_of_isOdd_eq (hy.eq_or_eq_neg hz hsq) hparity
  · intro a _
    obtain ⟨c, hc⟩ := exists_getLast?_toBytes32 a
    exact ⟨isOdd_iff a, c, hc, isOdd_iff_of_getLast? hc⟩

/-- `-4` is odd, as `p - 4` is, while its stored form is even. -/
theorem parity_is_the_sign_of_neg_four :
    let y : Fp := -ofUInt64 4
    y.Reduced ∧ y ≠ zero ∧ y.isOdd = true ∧ y.words.w0 &&& 1 = 0 ∧
      Xor (y.isOdd = true) ((-y).isOdd = true) ∧
      (∃ r, y.square.sqrt? = some r ∧ ∀ s ∈ [r, -r], s.isOdd = y.isOdd → s = y) ∧
      (y.isOdd = true ↔ Odd y.toNat) := by
  intro y
  have hred : y.Reduced := (reduced_ofUInt64 4).neg
  have hne : y ≠ zero := by decide +kernel
  obtain ⟨hsign, hroot, -, hnumber⟩ := parity_is_the_sign
  obtain ⟨r, hr, -, hpick⟩ := hroot y hred hne
  exact ⟨hred, hne, by decide +kernel, by decide +kernel, hsign y hred hne, ⟨r, hr, hpick⟩,
    (hnumber y hred).1⟩

end Fp

end Bn254
