import Bn254.Word
import Mathlib.Data.Int.Notation
import Mathlib.Data.Nat.Notation

/-!
# Steps as arithmetic of double words

A step on words is one expression over numbers of 128 bits, cut in two at the end. For all words that
come in, carries and borrows included, the expression has the exact value: sums and products stay below
`2^128`, and a difference that falls below zero is kept as its two's complement.
-/

namespace Bn254.Word

variable (a b c carry borrow : Word)

/-- The word in 128 bits. -/
def wide (w : Word) : BitVec 128 := w.toBitVec.setWidth 128

/-- The low word and the high word of 128 bits. -/
def halves (d : BitVec 128) : Word × Word :=
  (.ofBitVec (d.setWidth 64), .ofBitVec ((d >>> 64).setWidth 64))

theorem toNat_wide (w : Word) : (wide w).toNat = w.toNat := by
  have hw := w.toNat_lt
  unfold wide
  rw [BitVec.toNat_setWidth, UInt64.toNat_toBitVec, Nat.mod_eq_of_lt (by omega)]

theorem halves_toNat (d : BitVec 128) :
    (halves d).1.toNat + 2 ^ 64 * (halves d).2.toNat = d.toNat := by
  have hd := d.isLt
  simp only [halves, UInt64.toNat_ofBitVec, BitVec.toNat_setWidth, BitVec.toNat_ushiftRight,
    Nat.shiftRight_eq_div_pow]
  omega

/-- Two words are the halves of the number that they add up to. -/
theorem eq_halves {s : Word × Word} {d : BitVec 128}
    (h : s.1.toNat + 2 ^ 64 * s.2.toNat = d.toNat) : s = halves d := by
  have hlow := s.1.toNat_lt
  have hlow' := (halves d).1.toNat_lt
  rw [← halves_toNat d] at h
  exact Prod.ext (UInt64.toNat_inj.1 (by omega)) (UInt64.toNat_inj.1 (by omega))

/-! ## Sums and products -/

theorem toNat_wide_add : (wide a + wide b + wide carry).toNat = a.toNat + b.toNat + carry.toNat := by
  have ha := a.toNat_lt
  have hb := b.toNat_lt
  have hc := carry.toNat_lt
  simp only [BitVec.toNat_add, toNat_wide]
  omega

theorem addCarry_eq_halves : addCarry a b carry = halves (wide a + wide b + wide carry) :=
  eq_halves (by rw [addCarry_toNat, toNat_wide_add])

theorem toNat_wide_mulAdd :
    (wide a + wide b * wide c + wide carry).toNat = a.toNat + b.toNat * c.toNat + carry.toNat := by
  have hlt := mulAdd_lt a b c carry
  simp only [BitVec.toNat_add, BitVec.toNat_mul, toNat_wide]
  omega

theorem mulAdd_eq_halves : mulAdd a b c carry = halves (wide a + wide b * wide c + wide carry) :=
  eq_halves (by rw [mulAdd_toNat, toNat_wide_mulAdd])

/-- The largest words leave no room above them. -/
example : mulAdd ones ones ones ones = (ones, ones) := by
  rw [mulAdd_eq_halves]
  decide

/-! ## Differences -/

theorem toNat_wide_sub :
    (wide a - (wide b + wide (borrowBit borrow))).toNat =
      (2 ^ 128 + a.toNat - (b.toNat + borrow.toNat / 2 ^ 63)) % 2 ^ 128 := by
  have hb := b.toNat_lt
  have hw := borrowBit_le_one borrow
  rw [← toNat_borrowBit]
  simp only [BitVec.toNat_sub, BitVec.toNat_add, toNat_wide]
  omega

theorem toInt_wide_sub :
    (wide a - (wide b + wide (borrowBit borrow))).toInt =
      (a.toNat : ℤ) - (b.toNat + borrow.toNat / 2 ^ 63 : ℕ) := by
  have ha := a.toNat_lt
  have hb := b.toNat_lt
  have hw := borrow.toNat_lt
  rw [BitVec.toInt_eq_toNat_cond, toNat_wide_sub]
  split <;> omega

/-- The borrow out is the high word of the difference: all of its bits are the sign. -/
theorem subBorrow_eq_halves :
    subBorrow a b borrow = halves (wide a - (wide b + wide (borrowBit borrow))) := by
  have ha := a.toNat_lt
  have hb := b.toNat_lt
  have hw := borrow.toNat_lt
  have hlow := (subBorrow a b borrow).1.toNat_lt
  have hsub := subBorrow_toNat a b borrow
  rw [subBorrow_snd, toNat_borrowBit] at hsub
  apply eq_halves
  rw [toNat_wide_sub, subBorrow_snd, toNat_borrowBit]
  by_cases hlt : a.toNat < b.toNat + borrow.toNat / 2 ^ 63
  · rw [if_pos hlt, toNat_borrowBit_ones] at hsub
    rw [if_pos hlt]
    show _ + 2 ^ 64 * (2 ^ 64 - 1) = _
    omega
  · rw [if_neg hlt, toNat_borrowBit_zero] at hsub
    rw [if_neg hlt]
    show _ + 2 ^ 64 * 0 = _
    omega

end Bn254.Word
