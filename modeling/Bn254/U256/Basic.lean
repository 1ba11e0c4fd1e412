import Bn254.Chain

/-!
# Integers of 256 bits

An integer below `2^256` as four words. Sums and differences run along the words and hand out the
carry or the borrow of the top one; nothing branches on a word except the comparison
`U256.compare`, which stops at the first words that differ.
-/

namespace Bn254

/-- An integer of 256 bits. -/
@[ext]
structure U256 where
  /-- Bits 0 to 63. -/
  w0 : Word
  /-- Bits 64 to 127. -/
  w1 : Word
  /-- Bits 128 to 191. -/
  w2 : Word
  /-- Bits 192 to 255. -/
  w3 : Word
deriving DecidableEq, Inhabited

namespace U256

/-- The integer that the words stand for. -/
def toNat (a : U256) : Nat :=
  a.w0.toNat + 2 ^ 64 * (a.w1.toNat + 2 ^ 64 * (a.w2.toNat + 2 ^ 64 * a.w3.toNat))

/-- The words of `n` modulo `2^256`. -/
def ofNat (n : Nat) : U256 :=
  ⟨.ofNat n, .ofNat (n / 2 ^ 64), .ofNat (n / 2 ^ 128), .ofNat (n / 2 ^ 192)⟩

/-- The words, least significant first. -/
def words (a : U256) : List Word := [a.w0, a.w1, a.w2, a.w3]

/-- The integer of a single word. -/
def ofWord (w : Word) : U256 := ⟨w, 0, 0, 0⟩

/-- Zero. -/
def zero : U256 := ofWord 0

/-- The integer whose four words are all `w`. -/
def fill (w : Word) : U256 := ⟨w, w, w, w⟩

/-! ## Arithmetic -/

/-- The sum of two integers and a carry, modulo `2^256`, and the carry out of it. -/
def addCarry (a b : U256) (carry : Word) : U256 × Word :=
  let (s0, c0) := Word.addCarry a.w0 b.w0 carry
  let (s1, c1) := Word.addCarry a.w1 b.w1 c0
  let (s2, c2) := Word.addCarry a.w2 b.w2 c1
  let (s3, c3) := Word.addCarry a.w3 b.w3 c2
  (⟨s0, s1, s2, s3⟩, c3)

/-- The sum modulo `2^256`, and its carry. -/
def add (a b : U256) : U256 × Word := addCarry a b 0

/-- The difference modulo `2^256`, and its borrow: ones if `a` is below `b`, zero otherwise. -/
def sub (a b : U256) : U256 × Word :=
  let (d0, b0) := Word.subBorrow a.w0 b.w0 0
  let (d1, b1) := Word.subBorrow a.w1 b.w1 b0
  let (d2, b2) := Word.subBorrow a.w2 b.w2 b1
  let (d3, b3) := Word.subBorrow a.w3 b.w3 b2
  (⟨d0, d1, d2, d3⟩, b3)

/-- The bits that both integers have. -/
def and (a b : U256) : U256 :=
  ⟨a.w0 &&& b.w0, a.w1 &&& b.w1, a.w2 &&& b.w2, a.w3 &&& b.w3⟩

/-- One of two integers by a mask: `a` where it is ones, `b` where it is zero. -/
def blend (mask : Word) (a b : U256) : U256 :=
  ⟨Word.blend mask a.w0 b.w0, Word.blend mask a.w1 b.w1,
    Word.blend mask a.w2 b.w2, Word.blend mask a.w3 b.w3⟩

/-- `a` less `m`, if `m` can be taken from it once, and `a` otherwise. The word `top` counts as the
bits of `a` from 256 on, such as the carry of a sum. -/
def subtractOnce (a : U256) (top : Word) (m : U256) : U256 :=
  let (d, borrow) := a.sub m
  let (_, borrow) := Word.subBorrow top 0 borrow
  blend borrow a d

/-! ## Comparison -/

/-- Is `a` below `b`? Told by the borrow of the difference. -/
def lt (a b : U256) : Bool := (a.sub b).2 != 0

/-- The numerical order, decided by the most significant words that differ. -/
def compare (a b : U256) : Ordering :=
  (Ord.compare a.w3 b.w3).then <|
  (Ord.compare a.w2 b.w2).then <|
  (Ord.compare a.w1 b.w1).then <|
  Ord.compare a.w0 b.w0

instance : Ord U256 := ⟨compare⟩

/-- Have the integers the same words? All of the words are looked at. -/
def sameWords (a b : U256) : Bool :=
  ((a.w0 ^^^ b.w0) ||| (a.w1 ^^^ b.w1) ||| (a.w2 ^^^ b.w2) ||| (a.w3 ^^^ b.w3)) == 0

/-- The number of bits up to the highest one that is set. -/
def bitLength (a : U256) : Nat := if a.toNat = 0 then 0 else a.toNat.log2 + 1

/-! ## The view as a number -/

theorem toNat_lt (a : U256) : a.toNat < 2 ^ 256 := by
  have h0 := a.w0.toNat_lt
  have h1 := a.w1.toNat_lt
  have h2 := a.w2.toNat_lt
  have h3 := a.w3.toNat_lt
  simp only [toNat]
  omega

theorem toNat_ofNat (n : Nat) : (ofNat n).toNat = n % 2 ^ 256 := by
  simp only [toNat, ofNat, UInt64.toNat_ofNat']
  omega

/-- The words of a number are told by it. -/
theorem toNat_inj {a b : U256} : a.toNat = b.toNat ↔ a = b := by
  refine ⟨fun h => ?_, fun h => h ▸ rfl⟩
  have a0 := a.w0.toNat_lt
  have a1 := a.w1.toNat_lt
  have a2 := a.w2.toNat_lt
  have b0 := b.w0.toNat_lt
  have b1 := b.w1.toNat_lt
  have b2 := b.w2.toNat_lt
  simp only [toNat] at h
  exact U256.ext (UInt64.toNat_inj.1 (by omega)) (UInt64.toNat_inj.1 (by omega))
    (UInt64.toNat_inj.1 (by omega)) (UInt64.toNat_inj.1 (by omega))

theorem toNat_ofWord (w : Word) : (ofWord w).toNat = w.toNat := by
  simp [toNat, ofWord]

theorem toNat_zero : zero.toNat = 0 := rfl

theorem placeValue_words (a : U256) (top : Nat) :
    placeValue (a.words.map UInt64.toNat) top = a.toNat + 2 ^ 256 * top := by
  simp only [words, List.map_cons, List.map_nil, placeValue, List.foldr_cons, List.foldr_nil, toNat]
  omega

theorem chain_addCarry (a b : U256) (carry : Word) :
    chain (fun x : Word × Word => Word.addCarry x.1 x.2) (a.words.zip b.words) carry =
      ((a.addCarry b carry).1.words, (a.addCarry b carry).2) :=
  rfl

theorem addCarry_toNat (a b : U256) (carry : Word) :
    (a.addCarry b carry).1.toNat + 2 ^ 256 * (a.addCarry b carry).2.toNat =
      a.toNat + b.toNat + carry.toNat := by
  have hchain := placeValue_chain (fun x : Word × Word => Word.addCarry_toNat x.1 x.2)
    (a.words.zip b.words) carry
  have hsum : placeValue ((a.words.zip b.words).map fun x => x.1.toNat + x.2.toNat) 0 =
      placeValue (a.words.map UInt64.toNat) 0 + placeValue (b.words.map UInt64.toNat) 0 :=
    placeValue_map_add _ _ _
  rw [chain_addCarry, hsum] at hchain
  simpa only [placeValue_words, Nat.mul_zero, Nat.add_zero] using hchain

theorem add_toNat (a b : U256) :
    (a.add b).1.toNat + 2 ^ 256 * (a.add b).2.toNat = a.toNat + b.toNat :=
  addCarry_toNat a b 0

theorem chain_sub (a b : U256) :
    chain (fun x : Word × Word => Word.subBorrow x.1 x.2) (a.words.zip b.words) 0 =
      ((a.sub b).1.words, (a.sub b).2) :=
  rfl

/-- A difference that needs a borrow is `2^256` too large. -/
theorem sub_toNat (a b : U256) :
    (a.sub b).1.toNat + b.toNat = a.toNat + 2 ^ 256 * (Word.borrowBit (a.sub b).2).toNat := by
  have hchain := placeValue_chain_borrow (fun x : Word × Word => Word.subBorrow_toNat x.1 x.2)
    (a.words.zip b.words) 0
  rw [chain_sub, Word.toNat_borrowBit_zero] at hchain
  change placeValue ((a.sub b).1.words.map UInt64.toNat) 0 +
    placeValue (b.words.map UInt64.toNat) 0 + 0 = placeValue (a.words.map UInt64.toNat) _ at hchain
  simpa only [placeValue_words, Nat.mul_zero, Nat.add_zero] using hchain

/-- The borrow of a difference is a mask that tells which integer is smaller. -/
theorem sub_snd (a b : U256) :
    (a.sub b).2 = if a.toNat < b.toNat then Word.ones else 0 := by
  have h := sub_toNat a b
  have hd := (a.sub b).1.toNat_lt
  have hmask : (a.sub b).2 = Word.ones ∨ (a.sub b).2 = 0 := by
    change (Word.subBorrow a.w3 b.w3 _).2 = _ ∨ (Word.subBorrow a.w3 b.w3 _).2 = _
    rw [Word.subBorrow_snd]
    split
    · exact .inl rfl
    · exact .inr rfl
  rcases hmask with hm | hm
  · have hlt : a.toNat < b.toNat := by rw [hm, Word.toNat_borrowBit_ones] at h; omega
    rw [hm, if_pos hlt]
  · have hge : ¬a.toNat < b.toNat := by rw [hm, Word.toNat_borrowBit_zero] at h; omega
    rw [hm, if_neg hge]

@[simp] theorem and_fill_ones (a : U256) : a.and (fill Word.ones) = a := by
  simp [and, fill, Word.and_ones]

@[simp] theorem and_fill_zero (a : U256) : a.and (fill 0) = zero := by
  simp [and, fill, zero, ofWord]

@[simp] theorem blend_ones (a b : U256) : blend Word.ones a b = a := by
  simp [blend]

@[simp] theorem blend_zero (a b : U256) : blend 0 a b = b := by
  simp [blend]

/-- The extra word counts in full: `m` is taken off if it is at most `a + 2^256 * top`. -/
theorem subtractOnce_toNat (a : U256) (top : Word) (m : U256) :
    (a.subtractOnce top m).toNat =
      if m.toNat ≤ a.toNat + 2 ^ 256 * top.toNat then
        (a.toNat + 2 ^ 256 * top.toNat - m.toNat) % 2 ^ 256
      else
        a.toNat := by
  have ha := a.toNat_lt
  have hm := m.toNat_lt
  have hd := (a.sub m).1.toNat_lt
  have h := sub_toNat a m
  simp only [subtractOnce, Word.subBorrow_snd, UInt64.toNat_zero, Nat.zero_add]
  by_cases hlt : a.toNat < m.toNat
  · rw [sub_snd, if_pos hlt, Word.toNat_borrowBit_ones] at h ⊢
    by_cases htop : top.toNat < 1
    · rw [if_pos htop, blend_ones, if_neg (by omega)]
    · rw [if_neg htop, blend_zero, if_pos (by omega)]
      omega
  · rw [sub_snd, if_neg hlt, Word.toNat_borrowBit_zero] at h ⊢
    rw [if_neg (Nat.not_lt_zero _), blend_zero, if_pos (by omega)]
    omega

theorem subtractOnce_of_le {a m : U256} {top : Word}
    (h : m.toNat ≤ a.toNat + 2 ^ 256 * top.toNat) :
    (a.subtractOnce top m).toNat = (a.toNat + 2 ^ 256 * top.toNat - m.toNat) % 2 ^ 256 := by
  rw [subtractOnce_toNat, if_pos h]

theorem subtractOnce_of_lt {a m : U256} {top : Word}
    (h : a.toNat + 2 ^ 256 * top.toNat < m.toNat) : a.subtractOnce top m = a := by
  apply toNat_inj.1
  rw [subtractOnce_toNat, if_neg (Nat.not_le.2 h)]

/-- What is below twice `m` is reduced modulo `m` by one subtraction. -/
theorem subtractOnce_eq_mod {a m : U256} {top : Word}
    (h : a.toNat + 2 ^ 256 * top.toNat < 2 * m.toNat) :
    (a.subtractOnce top m).toNat = (a.toNat + 2 ^ 256 * top.toNat) % m.toNat := by
  have hm := m.toNat_lt
  by_cases hge : m.toNat ≤ a.toNat + 2 ^ 256 * top.toNat
  · have hlt : a.toNat + 2 ^ 256 * top.toNat - m.toNat < m.toNat := by omega
    rw [subtractOnce_of_le hge, Nat.mod_eq_sub_mod hge, Nat.mod_eq_of_lt hlt,
      Nat.mod_eq_of_lt (Nat.lt_trans hlt hm)]
  · have hlt := Nat.lt_of_not_le hge
    have htop : top.toNat = 0 := by omega
    rw [subtractOnce_of_lt hlt, Nat.mod_eq_of_lt hlt, htop, Nat.mul_zero, Nat.add_zero]

theorem lt_iff (a b : U256) : a.lt b = true ↔ a.toNat < b.toNat := by
  simp only [lt, sub_snd, bne_iff_ne]
  by_cases h : a.toNat < b.toNat
  · simp only [h, iff_true]
    decide
  · simp [h]

theorem sameWords_iff (a b : U256) : a.sameWords b = true ↔ a = b := by
  simp only [sameWords, beq_iff_eq, UInt64.or_eq_zero_iff, UInt64.xor_eq_zero_iff, U256.ext_iff,
    and_assoc]

/-- The first words that differ, from the top, tell the order of the numbers. -/
theorem compare_eq (a b : U256) : a.compare b = Ord.compare a.toNat b.toNat := by
  have a0 := a.w0.toNat_lt
  have a1 := a.w1.toNat_lt
  have a2 := a.w2.toNat_lt
  have b0 := b.w0.toNat_lt
  have b1 := b.w1.toNat_lt
  have b2 := b.w2.toNat_lt
  have hlt : a.toNat < b.toNat → Ord.compare a.toNat b.toNat = .lt := Nat.compare_eq_lt.2
  have hgt : b.toNat < a.toNat → Ord.compare a.toNat b.toNat = .gt := Nat.compare_eq_gt.2
  have heq : a.toNat = b.toNat → Ord.compare a.toNat b.toNat = .eq := Nat.compare_eq_eq.2
  simp only [compare, Word.compare_toNat]
  rcases Nat.lt_trichotomy a.w3.toNat b.w3.toNat with h3 | h3 | h3
  · rw [Nat.compare_eq_lt.2 h3, hlt (by simp only [toNat]; omega)]
    rfl
  · rw [Nat.compare_eq_eq.2 h3, Ordering.eq_then]
    rcases Nat.lt_trichotomy a.w2.toNat b.w2.toNat with h2 | h2 | h2
    · rw [Nat.compare_eq_lt.2 h2, hlt (by simp only [toNat]; omega)]
      rfl
    · rw [Nat.compare_eq_eq.2 h2, Ordering.eq_then]
      rcases Nat.lt_trichotomy a.w1.toNat b.w1.toNat with h1 | h1 | h1
      · rw [Nat.compare_eq_lt.2 h1, hlt (by simp only [toNat]; omega)]
        rfl
      · rw [Nat.compare_eq_eq.2 h1, Ordering.eq_then]
        rcases Nat.lt_trichotomy a.w0.toNat b.w0.toNat with h0 | h0 | h0
        · rw [Nat.compare_eq_lt.2 h0, hlt (by simp only [toNat]; omega)]
        · rw [Nat.compare_eq_eq.2 h0, heq (by simp only [toNat]; omega)]
        · rw [Nat.compare_eq_gt.2 h0, hgt (by simp only [toNat]; omega)]
      · rw [Nat.compare_eq_gt.2 h1, hgt (by simp only [toNat]; omega)]
        rfl
    · rw [Nat.compare_eq_gt.2 h2, hgt (by simp only [toNat]; omega)]
      rfl
  · rw [Nat.compare_eq_gt.2 h3, hgt (by simp only [toNat]; omega)]
    rfl

end U256

end Bn254
