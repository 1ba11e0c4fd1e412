import Bn254.Proofs.DoubleWords
import Bn254.U512

/-!
# Chains of carries and borrows

Sums and differences of integers run along their words. A carry or a borrow is handed on from step to
step, and the last one tells whether the exact result left the range: the carry is the bit above the sum,
and the borrow is ones if the difference is below zero. `U256.subtractOnce` takes one more step with a
word above the integer, which may be any word.
-/

namespace Bn254

/-- A sum below twice the range `r` leaves it by one bit at most. -/
theorem Word.carry_eq_ite {k : Word} {s n r : ℕ} (hsum : s + r * k.toNat = n) (hs : s < r)
    (hn : n < 2 * r) : k = if r ≤ n then 1 else 0 := by
  apply UInt64.toNat_inj.1
  by_cases hge : r ≤ n
  · have hlt : r * k.toNat < r * 2 := by omega
    have htwo : k.toNat < 2 := Nat.lt_of_mul_lt_mul_left hlt
    have hne : k.toNat ≠ 0 := by
      intro hzero
      rw [hzero, Nat.mul_zero] at hsum
      omega
    rw [if_pos hge]
    show k.toNat = 1
    omega
  · have hlt : r * k.toNat < r * 1 := by omega
    rw [if_neg hge]
    exact Nat.lt_one_iff.1 (Nat.lt_of_mul_lt_mul_left hlt)

namespace U256

/-- The carry of a sum is the bit above its words. -/
theorem add_snd (a b : U256) :
    (a.add b).2 = if 2 ^ 256 ≤ a.toNat + b.toNat then 1 else 0 := by
  have ha := a.toNat_lt
  have hb := b.toNat_lt
  exact Word.carry_eq_ite (add_toNat a b) (a.add b).1.toNat_lt (by omega)

theorem sub_eq_emod (a b : U256) :
    ((a.sub b).1.toNat : ℤ) = ((a.toNat : ℤ) - b.toNat) % 2 ^ 256 := by
  have ha := a.toNat_lt
  have hb := b.toNat_lt
  have hd := (a.sub b).1.toNat_lt
  have hbit := Word.borrowBit_le_one (a.sub b).2
  have hsub := sub_toNat a b
  omega

theorem toNat_sub_snd (a b : U256) :
    (a.sub b).2.toNat = if b.toNat ≤ a.toNat then 0 else 2 ^ 64 - 1 := by
  rw [sub_snd]
  by_cases hlt : a.toNat < b.toNat
  · rw [if_pos hlt, if_neg (Nat.not_le.2 hlt)]
    rfl
  · rw [if_neg hlt, if_pos (Nat.le_of_not_lt hlt)]
    rfl

end U256

theorem U512.add_snd (a b : U512) :
    (a.add b).2 = if 2 ^ 256 * 2 ^ 256 ≤ a.toNat + b.toNat then 1 else 0 := by
  have ha := a.toNat_lt
  have hb := b.toNat_lt
  exact Word.carry_eq_ite (add_toNat a b) (a.add b).1.toNat_lt (by omega)

/-- Every step is exact in 128 bits, whatever words come in, and of a borrow only the top bit counts. So
a sum of four or of eight words and its carry, which is zero or one, are the exact sum; a difference is
exact modulo `2^256`, and its borrow is ones or zero as it is below zero or not. Comparisons go by the
numbers. One conditional subtraction with any word above the integer takes `m` off exactly if it is not
larger, and thus reduces what is below `2 * m`. -/
theorem carry_chains_are_exact :
    (∀ a b carry : Word,
      Word.addCarry a b carry = Word.halves (Word.wide a + Word.wide b + Word.wide carry) ∧
      (Word.wide a + Word.wide b + Word.wide carry).toNat = a.toNat + b.toNat + carry.toNat) ∧
    (∀ a b borrow : Word,
      Word.subBorrow a b borrow =
        Word.halves (Word.wide a - (Word.wide b + Word.wide (Word.borrowBit borrow))) ∧
      (Word.wide a - (Word.wide b + Word.wide (Word.borrowBit borrow))).toInt =
        (a.toNat : ℤ) - (b.toNat + borrow.toNat / 2 ^ 63 : ℕ)) ∧
    (∀ a b : U256,
      (a.add b).1.toNat + 2 ^ 256 * (a.add b).2.toNat = a.toNat + b.toNat ∧
      (a.add b).2 = if 2 ^ 256 ≤ a.toNat + b.toNat then 1 else 0) ∧
    (∀ a b : U512,
      (a.add b).1.toNat + 2 ^ 256 * 2 ^ 256 * (a.add b).2.toNat = a.toNat + b.toNat ∧
      (a.add b).2 = if 2 ^ 256 * 2 ^ 256 ≤ a.toNat + b.toNat then 1 else 0) ∧
    (∀ a b : U256,
      ((a.sub b).1.toNat : ℤ) = ((a.toNat : ℤ) - b.toNat) % 2 ^ 256 ∧
      (a.sub b).2.toNat = if b.toNat ≤ a.toNat then 0 else 2 ^ 64 - 1) ∧
    (∀ a b : U256,
      (a.lt b = true ↔ a.toNat < b.toNat) ∧ a.compare b = compare a.toNat b.toNat) ∧
    ∀ (a m : U256) (top : Word),
      (m.toNat ≤ a.toNat + 2 ^ 256 * top.toNat →
        (a.subtractOnce top m).toNat = (a.toNat + 2 ^ 256 * top.toNat - m.toNat) % 2 ^ 256) ∧
      (a.toNat + 2 ^ 256 * top.toNat < m.toNat → a.subtractOnce top m = a) ∧
      (a.toNat + 2 ^ 256 * top.toNat < 2 * m.toNat →
        (a.subtractOnce top m).toNat = (a.toNat + 2 ^ 256 * top.toNat) % m.toNat) := by
  refine ⟨?_, ?_, ?_, ?_, ?_, ?_, ?_⟩
  · intro a b carry
    exact ⟨Word.addCarry_eq_halves a b carry, Word.toNat_wide_add a b carry⟩
  · intro a b borrow
    exact ⟨Word.subBorrow_eq_halves a b borrow, Word.toInt_wide_sub a b borrow⟩
  · intro a b
    exact ⟨U256.add_toNat a b, U256.add_snd a b⟩
  · intro a b
    exact ⟨U512.add_toNat a b, U512.add_snd a b⟩
  · intro a b
    exact ⟨U256.sub_eq_emod a b, U256.toNat_sub_snd a b⟩
  · intro a b
    exact ⟨U256.lt_iff a b, U256.compare_eq a b⟩
  · intro a m top
    exact ⟨U256.subtractOnce_of_le, U256.subtractOnce_of_lt, U256.subtractOnce_eq_mod⟩

/-- The largest `m`, with a word of one above the integer and with a word of ones. -/
theorem carry_chains_are_exact_above_the_words :
    let a : U256 := .ofNat (2 ^ 256 - 3)
    let m : U256 := .fill Word.ones
    a.toNat + 2 ^ 256 * (1 : Word).toNat < 2 * m.toNat ∧
      (a.subtractOnce 1 m).toNat = 2 ^ 256 - 2 ∧
      m.toNat ≤ a.toNat + 2 ^ 256 * Word.ones.toNat ∧
      (a.subtractOnce Word.ones m).toNat = 2 ^ 256 - 2 := by
  intro a m
  have hone : a.toNat + 2 ^ 256 * (1 : Word).toNat < 2 * m.toNat := by decide
  have hones : m.toNat ≤ a.toNat + 2 ^ 256 * Word.ones.toNat := by decide
  obtain ⟨-, -, -, -, -, -, hsub⟩ := carry_chains_are_exact
  refine ⟨hone, ?_, hones, ?_⟩
  · rw [(hsub a m 1).2.2 hone]
    decide
  · rw [(hsub a m Word.ones).1 hones]
    decide

end Bn254
