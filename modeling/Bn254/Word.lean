/-!
# Machine words

Words of 64 bits and the three steps that longer numbers are computed with: addition with a carry,
subtraction with a borrow, and multiplication into a running row. Each step results in two words:
the low one, and the one that the next step takes over.

No step loses a bit: the sum and the product-and-sum of words fit in two words, and a borrow is
told by a mask of ones. The equations `addCarry_toNat`, `subBorrow_toNat` and `mulAdd_toNat` say so.
The steps stay folded in proofs, which use these equations alone.
-/

-- Powers of natural numbers are the core library's, also beside a theory with powers of its own.
attribute [default_instance 100000] instPowNat

namespace Bn254

/-- A word of 64 bits. -/
abbrev Word := UInt64

namespace Word

/-- The word of ones, which as a mask keeps everything. -/
def ones : Word := 0xffffffffffffffff

/-- The mask of a bit: ones for `true`, zero for `false`. -/
def mask (b : Bool) : Word := 0 - b.toUInt64

/-- One of two words, chosen without a branch: the first where the mask is ones, the second where
it is zero. -/
def blend (mask a b : Word) : Word := (a &&& mask) ||| (b &&& ~~~mask)

/-- The lower half of the bits. -/
def lowHalf (w : Word) : Word := w &&& 0xffffffff

/-- The upper half of the bits. -/
def highHalf (w : Word) : Word := w >>> 32

/-- The sum of two words and a carry, and the carry out of it. -/
@[irreducible] def addCarry (a b carry : Word) : Word × Word :=
  let s := a + b
  let t := s + carry
  (t, (decide (s < a)).toUInt64 + (decide (t < s)).toUInt64)

/-- What a borrow takes away in the next step: its top bit. -/
def borrowBit (borrow : Word) : Word := borrow >>> 63

/-- The difference of two words less the bit of a borrow, and the borrow out of it. -/
@[irreducible] def subBorrow (a b borrow : Word) : Word × Word :=
  let d := a - b
  let bit := borrowBit borrow
  (d - bit, mask (decide (a < b) || decide (d < bit)))

/-- The upper word of a product. The products of the halves overlap by half a word each. -/
@[irreducible] def mulHigh (a b : Word) : Word :=
  let outer := a.lowHalf * b.highHalf
  let inner := a.highHalf * b.lowHalf
  let middle := (a.lowHalf * b.lowHalf).highHalf + outer.lowHalf + inner.lowHalf
  a.highHalf * b.highHalf + outer.highHalf + inner.highHalf + middle.highHalf

/-- `a + b * c + carry`, as a low and a high word. -/
@[irreducible] def mulAdd (a b c carry : Word) : Word × Word :=
  let (s, k) := addCarry a (b * c) carry
  (s, k + mulHigh b c)

@[simp] theorem and_ones (a : Word) : a &&& ones = a := by
  rw [show ones = -1 by decide, UInt64.and_neg_one]

@[simp] theorem blend_ones (a b : Word) : blend ones a b = a := by
  rw [blend, and_ones, show ~~~ones = 0 by decide]
  simp

@[simp] theorem blend_zero (a b : Word) : blend 0 a b = b := by
  simp [blend]

theorem compare_toNat (a b : Word) : compare a b = compare a.toNat b.toNat := by
  simp only [compare, compareOfLessAndEq, UInt64.lt_iff_toNat_lt, UInt64.toNat_inj]

/-! ## The steps in numbers -/

theorem toNat_lowHalf (w : Word) : w.lowHalf.toNat = w.toNat % 2 ^ 32 := by
  simp only [lowHalf, UInt64.toNat_and]
  exact Nat.and_two_pow_sub_one_eq_mod _ 32

theorem toNat_highHalf (w : Word) : w.highHalf.toNat = w.toNat / 2 ^ 32 := by
  simp [highHalf, Nat.shiftRight_eq_div_pow]

theorem toNat_toUInt64_decide (P : Prop) [Decidable P] :
    (decide P).toUInt64.toNat = if P then 1 else 0 := by
  by_cases h : P
  · rw [decide_eq_true h, if_pos h]
    rfl
  · rw [decide_eq_false h, if_neg h]
    rfl

/-- Three words add up to less than two words hold, and nothing of the sum is lost. -/
theorem addCarry_toNat (a b carry : Word) :
    (addCarry a b carry).1.toNat + 2 ^ 64 * (addCarry a b carry).2.toNat =
      a.toNat + b.toNat + carry.toNat := by
  have ha := a.toNat_lt
  have hb := b.toNat_lt
  have hc := carry.toNat_lt
  unfold addCarry
  simp only [UInt64.toNat_add, UInt64.lt_iff_toNat_lt, toNat_toUInt64_decide]
  split <;> split <;> omega

theorem mask_eq (b : Bool) : mask b = if b then ones else 0 := by
  cases b <;> rfl

theorem toNat_borrowBit (borrow : Word) : (borrowBit borrow).toNat = borrow.toNat / 2 ^ 63 := by
  simp [borrowBit, Nat.shiftRight_eq_div_pow]

theorem borrowBit_le_one (borrow : Word) : (borrowBit borrow).toNat ≤ 1 := by
  have h := borrow.toNat_lt
  rw [toNat_borrowBit]
  omega

theorem toNat_borrowBit_ones : (borrowBit ones).toNat = 1 := rfl

theorem toNat_borrowBit_zero : (borrowBit 0).toNat = 0 := rfl

/-- A borrow out is a mask: ones if the subtraction went below zero, and zero otherwise. -/
theorem subBorrow_snd (a b borrow : Word) :
    (subBorrow a b borrow).2 =
      if a.toNat < b.toNat + (borrowBit borrow).toNat then ones else 0 := by
  have ha := a.toNat_lt
  have hb := b.toNat_lt
  have hw := borrowBit_le_one borrow
  unfold subBorrow
  simp only [mask_eq, UInt64.lt_iff_toNat_lt, UInt64.toNat_sub, Bool.or_eq_true,
    decide_eq_true_eq]
  refine ite_congr (propext ⟨fun h => ?_, fun h => ?_⟩) (fun _ => rfl) (fun _ => rfl) <;> omega

theorem subBorrow_toNat (a b borrow : Word) :
    (subBorrow a b borrow).1.toNat + b.toNat + (borrowBit borrow).toNat =
      a.toNat + 2 ^ 64 * (borrowBit (subBorrow a b borrow).2).toNat := by
  have ha := a.toNat_lt
  have hb := b.toNat_lt
  have hw := borrowBit_le_one borrow
  rw [subBorrow_snd]
  unfold subBorrow
  simp only [UInt64.toNat_sub]
  split
  · rw [toNat_borrowBit_ones]
    omega
  · rw [toNat_borrowBit_zero]
    omega

/-- The largest product leaves room for two more words: `(2^64 - 1)^2 + 2 * (2^64 - 1)` is
`2^128 - 1`. -/
theorem mulAdd_lt (a b c carry : Word) :
    a.toNat + b.toNat * c.toNat + carry.toNat < 2 ^ 128 := by
  have ha := a.toNat_lt
  have hc := carry.toNat_lt
  have hbc : b.toNat * c.toNat ≤ (2 ^ 64 - 1) * (2 ^ 64 - 1) :=
    Nat.mul_le_mul (by have := b.toNat_lt; omega) (by have := c.toNat_lt; omega)
  omega

theorem mul_halves_le {x y : Nat} (hx : x < 2 ^ 32) (hy : y < 2 ^ 32) :
    x * y ≤ (2 ^ 32 - 1) * (2 ^ 32 - 1) :=
  Nat.mul_le_mul (by omega) (by omega)

/-- The overlapping products of the halves carry up what the lower word has too much. -/
theorem toNat_mulHigh (a b : Word) : (mulHigh a b).toNat = a.toNat * b.toNat / 2 ^ 64 := by
  have ha := a.toNat_lt
  have hb := b.toNat_lt
  have hal : a.toNat % 2 ^ 32 < 2 ^ 32 := Nat.mod_lt _ (by decide)
  have hbl : b.toNat % 2 ^ 32 < 2 ^ 32 := Nat.mod_lt _ (by decide)
  have hah : a.toNat / 2 ^ 32 < 2 ^ 32 := by omega
  have hbh : b.toNat / 2 ^ 32 < 2 ^ 32 := by omega
  have hll := mul_halves_le hal hbl
  have hlh := mul_halves_le hal hbh
  have hhl := mul_halves_le hah hbl
  have hhh := mul_halves_le hah hbh
  have hab : a.toNat * b.toNat =
      a.toNat % 2 ^ 32 * (b.toNat % 2 ^ 32) + 2 ^ 32 * (a.toNat % 2 ^ 32 * (b.toNat / 2 ^ 32)) +
        2 ^ 32 * (a.toNat / 2 ^ 32 * (b.toNat % 2 ^ 32)) +
        2 ^ 64 * (a.toNat / 2 ^ 32 * (b.toNat / 2 ^ 32)) := by
    conv => lhs; rw [← Nat.mod_add_div a.toNat (2 ^ 32), ← Nat.mod_add_div b.toNat (2 ^ 32)]
    simp only [Nat.add_mul, Nat.mul_add]
    rw [show (2 : Nat) ^ 64 = 2 ^ 32 * 2 ^ 32 from rfl]
    ac_rfl
  rw [hab]
  unfold mulHigh
  simp only [UInt64.toNat_add, UInt64.toNat_mul, toNat_lowHalf, toNat_highHalf]
  generalize a.toNat % 2 ^ 32 * (b.toNat % 2 ^ 32) = ll at *
  generalize a.toNat % 2 ^ 32 * (b.toNat / 2 ^ 32) = lh at *
  generalize a.toNat / 2 ^ 32 * (b.toNat % 2 ^ 32) = hl at *
  generalize a.toNat / 2 ^ 32 * (b.toNat / 2 ^ 32) = hh at *
  omega

theorem mulAdd_toNat (a b c carry : Word) :
    (mulAdd a b c carry).1.toNat + 2 ^ 64 * (mulAdd a b c carry).2.toNat =
      a.toNat + b.toNat * c.toNat + carry.toNat := by
  have h := addCarry_toNat a (b * c) carry
  have hlt := mulAdd_lt a b c carry
  rw [UInt64.toNat_mul] at h
  unfold mulAdd
  simp only [UInt64.toNat_add, toNat_mulHigh]
  omega

end Word

end Bn254
