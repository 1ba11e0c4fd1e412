import Bn254.U256.Basic

/-!
# Integers of 512 bits

The width of a product of two 256-bit integers. A product is added up row by row, as on paper: each
word of the first factor times the whole of the second, one word further up than the row before.
-/

namespace Bn254

/-- An integer of 512 bits. -/
@[ext]
structure U512 where
  /-- Bits 0 to 255. -/
  lo : U256
  /-- Bits 256 to 511. -/
  hi : U256
deriving DecidableEq, Inhabited

namespace U512

/-- The integer that the halves stand for. -/
def toNat (a : U512) : Nat := a.lo.toNat + 2 ^ 256 * a.hi.toNat

/-- The halves of `n` modulo `2^512`. -/
def ofNat (n : Nat) : U512 := ⟨.ofNat n, .ofNat (n / 2 ^ 256)⟩

/-- The sum modulo `2^512`, and its carry. -/
def add (a b : U512) : U512 × Word :=
  let (lo, c) := a.lo.addCarry b.lo 0
  let (hi, c) := a.hi.addCarry b.hi c
  (⟨lo, hi⟩, c)

theorem toNat_lt (a : U512) : a.toNat < 2 ^ 256 * 2 ^ 256 := by
  have hlo := a.lo.toNat_lt
  have hhi := a.hi.toNat_lt
  simp only [toNat]
  omega

theorem toNat_ofNat (n : Nat) : (ofNat n).toNat = n % (2 ^ 256 * 2 ^ 256) := by
  simp only [toNat, ofNat, U256.toNat_ofNat]
  omega

theorem lo_toNat (a : U512) : a.lo.toNat = a.toNat % 2 ^ 256 := by
  have hlo := a.lo.toNat_lt
  simp only [toNat]
  omega

theorem hi_toNat (a : U512) : a.hi.toNat = a.toNat / 2 ^ 256 := by
  have hlo := a.lo.toNat_lt
  simp only [toNat]
  omega

theorem ofNat_toNat (a : U512) : ofNat a.toNat = a := by
  have hlt := a.hi.toNat_lt
  apply U512.ext
  · apply U256.toNat_inj.1
    rw [ofNat, U256.toNat_ofNat, lo_toNat]
  · apply U256.toNat_inj.1
    rw [ofNat, U256.toNat_ofNat, ← hi_toNat, Nat.mod_eq_of_lt hlt]

theorem add_toNat (a b : U512) :
    (a.add b).1.toNat + 2 ^ 256 * 2 ^ 256 * (a.add b).2.toNat = a.toNat + b.toNat := by
  rcases hlo : a.lo.addCarry b.lo 0 with ⟨lo, c⟩
  rcases hhi : a.hi.addCarry b.hi c with ⟨hi, c'⟩
  have elo := U256.addCarry_toNat a.lo b.lo 0
  have ehi := U256.addCarry_toNat a.hi b.hi c
  simp only [hlo, UInt64.toNat_zero] at elo
  simp only [hhi] at ehi
  simp only [add, hlo, hhi, toNat]
  omega

end U512

namespace U256

/-- The integer in 512 bits. -/
def widen (a : U256) : U512 := ⟨a, zero⟩

/-- A row of a product: `acc + x * b`, as its lower four words and the word above them. -/
def mulRow (acc : U256) (x : Word) (b : U256) : U256 × Word :=
  let (r0, c0) := Word.mulAdd acc.w0 x b.w0 0
  let (r1, c1) := Word.mulAdd acc.w1 x b.w1 c0
  let (r2, c2) := Word.mulAdd acc.w2 x b.w2 c1
  let (r3, c3) := Word.mulAdd acc.w3 x b.w3 c2
  (⟨r0, r1, r2, r3⟩, c3)

/-- The product, whole. Every row leaves one word of the result behind and hands its upper four on
to the next. -/
def mul (a b : U256) : U512 :=
  let (r0, t0) := mulRow zero a.w0 b
  let (r1, t1) := mulRow ⟨r0.w1, r0.w2, r0.w3, t0⟩ a.w1 b
  let (r2, t2) := mulRow ⟨r1.w1, r1.w2, r1.w3, t1⟩ a.w2 b
  let (r3, t3) := mulRow ⟨r2.w1, r2.w2, r2.w3, t2⟩ a.w3 b
  ⟨⟨r0.w0, r1.w0, r2.w0, r3.w0⟩, ⟨r3.w1, r3.w2, r3.w3, t3⟩⟩

theorem widen_toNat (a : U256) : a.widen.toNat = a.toNat := by
  simp [widen, U512.toNat, toNat_zero]

theorem chain_mulRow (acc : U256) (x : Word) (b : U256) :
    chain (fun y : Word × Word => Word.mulAdd y.1 x y.2) (acc.words.zip b.words) 0 =
      ((mulRow acc x b).1.words, (mulRow acc x b).2) :=
  rfl

theorem mulRow_toNat (acc : U256) (x : Word) (b : U256) :
    (mulRow acc x b).1.toNat + 2 ^ 256 * (mulRow acc x b).2.toNat =
      acc.toNat + x.toNat * b.toNat := by
  have hchain := placeValue_chain (fun y : Word × Word => Word.mulAdd_toNat y.1 x y.2)
    (acc.words.zip b.words) 0
  rw [chain_mulRow, placeValue_map_add, placeValue_map_mul] at hchain
  change placeValue ((mulRow acc x b).1.words.map UInt64.toNat) _ =
    placeValue (acc.words.map UInt64.toNat) 0 +
      x.toNat * placeValue (b.words.map UInt64.toNat) 0 + 0 at hchain
  simpa only [placeValue_words, Nat.mul_zero, Nat.add_zero] using hchain

/-! ## The rows of a product -/

/-- The upper four of the five words of a row, which the next row goes on from. -/
def upperWords (row : U256 × Word) : U256 := ⟨row.1.w1, row.1.w2, row.1.w3, row.2⟩

/-- The rows of the words `xs` of a factor, on top of what `acc` holds: the words that the rows leave
behind, one each, and the four above them. -/
def mulRows (b acc : U256) : List Word → List Word × U256
  | [] => ([], acc)
  | x :: xs =>
    let row := mulRow acc x b
    let (low, high) := mulRows b (upperWords row) xs
    (row.1.w0 :: low, high)

theorem mulRows_cons (b acc : U256) (x : Word) (xs : List Word) :
    mulRows b acc (x :: xs) =
      ((mulRow acc x b).1.w0 :: (mulRows b (upperWords (mulRow acc x b)) xs).1,
        (mulRows b (upperWords (mulRow acc x b)) xs).2) :=
  rfl

/-- The four rows of a product, one after the other. -/
theorem mul_eq_mulRows (a b : U256) :
    (a.mul b).lo.words = (mulRows b zero a.words).1 ∧ (a.mul b).hi = (mulRows b zero a.words).2 :=
  ⟨rfl, rfl⟩

/-- The five words of a row hold its sum. -/
theorem upperWords_mulRow (acc : U256) (x : Word) (b : U256) :
    (mulRow acc x b).1.w0.toNat + 2 ^ 64 * (upperWords (mulRow acc x b)).toNat =
      acc.toNat + x.toNat * b.toNat := by
  rw [← mulRow_toNat]
  simp only [upperWords, toNat]
  omega

/-- However many rows there are, the words left behind and the words handed on hold all that went into
them. -/
theorem placeValue_mulRows (b acc : U256) (xs : List Word) :
    placeValue ((mulRows b acc xs).1.map UInt64.toNat) (mulRows b acc xs).2.toNat =
      acc.toNat + placeValue (xs.map UInt64.toNat) 0 * b.toNat := by
  induction xs generalizing acc with
  | nil =>
    show acc.toNat = acc.toNat + 0 * b.toNat
    rw [Nat.zero_mul, Nat.add_zero]
  | cons x xs ih =>
    have hrow := upperWords_mulRow acc x b
    have hrows := ih (upperWords (mulRow acc x b))
    rw [mulRows_cons, List.map_cons, List.map_cons, placeValue_cons, placeValue_cons, hrows,
      Nat.add_mul, Nat.mul_assoc]
    omega

/-- No carry of the rows is lost: the product is exact. -/
theorem mul_toNat (a b : U256) : (a.mul b).toNat = a.toNat * b.toNat := by
  have hrows := placeValue_mulRows b zero a.words
  obtain ⟨hlo, hhi⟩ := mul_eq_mulRows a b
  rw [← hlo, ← hhi, placeValue_words, placeValue_words, toNat_zero, Nat.mul_zero, Nat.add_zero,
    Nat.zero_add] at hrows
  exact hrows

end U256

end Bn254
