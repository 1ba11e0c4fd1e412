import Bn254.Fp.Power
import Bn254.Proofs.Arithmetic

/-!
# Powers

All routes walk the bits of the exponent from the top and keep one invariant: after the bits that
write `n` the result is the power `n`. They differ in how the bits are cut out of words or bytes and
in the zeros that they skip, neither of which changes the number that the bits write.
-/

namespace Bn254

/-! ## The number that bits write -/

/-- The number whose binary digits are those of `n` and then the bits. -/
def appendBits (n : ℕ) (bits : List Bool) : ℕ :=
  bits.foldl (fun n bit => 2 * n + bit.toNat) n

/-- The number that words write, least significant first. -/
def wordsValue (ws : List Word) : ℕ := ws.foldr (fun w n => w.toNat + 2 ^ 64 * n) 0

/-- The number that an exponent stands for. -/
def Fp.Exponent.value : Fp.Exponent → ℕ
  | .word e => e.toNat
  | .words e => wordsValue e
  | .trimmed e => wordsValue e
  | .uniform e => wordsValue e
  | .bytes e => e.value

theorem wordsValue_cons (w : Word) (ws : List Word) :
    wordsValue (w :: ws) = w.toNat + 2 ^ 64 * wordsValue ws := rfl

theorem wordsValue_words (n : U256) : wordsValue n.words = n.toNat := by
  simp [wordsValue, U256.words, U256.toNat]

/-- The induction is on the number of low digits that are still to be walked. -/
theorem appendBits_testBit (m k n : ℕ) :
    appendBits n ((List.range k).reverse.map m.testBit) = 2 ^ k * n + m % 2 ^ k := by
  induction k generalizing n with
  | zero => simp [appendBits, Nat.mod_one]
  | succ k ih =>
    have hstep := ih (2 * n + m / 2 ^ k % 2)
    rw [List.range_succ, List.reverse_append, List.reverse_singleton, List.singleton_append,
      List.map_cons, appendBits, List.foldl_cons, Nat.toNat_testBit]
    refine hstep.trans ?_
    rw [Nat.mod_pow_succ]
    ring

theorem word_bits_eq (w : Word) : w.bits = (List.range 64).reverse.map w.toNat.testBit := by
  refine List.map_congr_left ?_
  intro i hi
  have hlt : i < 64 := List.mem_range.1 (List.mem_reverse.1 hi)
  rw [Nat.testBit_eq_decide_div_mod_eq, beq_eq_decide, decide_eq_decide, ← UInt64.toNat_inj,
    UInt64.toNat_and, UInt64.toNat_shiftRight, UInt64.toNat_ofNat', UInt64.toNat_one,
    Nat.mod_eq_of_lt (by omega : i < 2 ^ 64), Nat.mod_eq_of_lt hlt, Nat.shiftRight_eq_div_pow,
    Nat.and_one_is_mod]

theorem byte_bits_eq (b : UInt8) :
    ([7, 6, 5, 4, 3, 2, 1, 0].map fun i : UInt8 => (b >>> i) &&& 1 == 1) =
      (List.range 8).reverse.map b.toNat.testBit := by
  have hplaces : [7, 6, 5, 4, 3, 2, 1, 0] = (List.range 8).reverse.map UInt8.ofNat := by decide
  rw [hplaces, List.map_map]
  refine List.map_congr_left ?_
  intro i hi
  have hlt : i < 8 := List.mem_range.1 (List.mem_reverse.1 hi)
  rw [Function.comp_apply, Nat.testBit_eq_decide_div_mod_eq, beq_eq_decide, decide_eq_decide,
    ← UInt8.toNat_inj, UInt8.toNat_and, UInt8.toNat_shiftRight, UInt8.toNat_ofNat',
    UInt8.toNat_one, Nat.mod_eq_of_lt (by omega : i < 2 ^ 8), Nat.mod_eq_of_lt hlt,
    Nat.shiftRight_eq_div_pow, Nat.and_one_is_mod]

/-- The words are walked from the last one, which is the most significant. -/
theorem appendBits_words (ws : List Word) :
    appendBits 0 (ws.reverse.flatMap Word.bits) = wordsValue ws := by
  rw [appendBits, List.foldl_flatMap, List.foldl_reverse]
  refine List.foldr_ext _ _ _ ?_
  intro w _ n
  change appendBits n w.bits = _
  rw [word_bits_eq, appendBits_testBit, Nat.mod_eq_of_lt w.toNat_lt, Nat.add_comm]

theorem appendBits_bytes (bs : Bytes) : appendBits 0 bs.bits = bs.value := by
  rw [appendBits, Bytes.bits, List.foldl_flatMap]
  refine List.foldl_ext _ _ _ ?_
  intro n b _
  change appendBits n _ = _
  rw [byte_bits_eq, appendBits_testBit, Nat.mod_eq_of_lt b.toNat_lt]
  norm_num

theorem wordsValue_append (us ws : List Word) :
    wordsValue (us ++ ws) = wordsValue us + 2 ^ (64 * us.length) * wordsValue ws := by
  induction us with
  | nil => simp [wordsValue]
  | cons u us ih =>
    rw [List.cons_append, wordsValue_cons, ih, wordsValue_cons, List.length_cons, Nat.mul_succ,
      Nat.pow_add]
    ring

theorem wordsValue_replicate_zero (n : ℕ) : wordsValue (List.replicate n 0) = 0 := by
  induction n with
  | zero => rfl
  | succ n ih =>
    rw [List.replicate_succ, wordsValue_cons, ih]
    rfl

/-- The words that are skipped are zeros above the highest word that is not. -/
theorem wordsValue_reverse_dropWhile (ws : List Word) :
    wordsValue (ws.dropWhile (· == 0)).reverse = wordsValue ws.reverse := by
  induction ws with
  | nil => rfl
  | cons w ws ih =>
    by_cases hw : w = 0
    · rw [hw, List.dropWhile_cons_of_pos rfl, ih, List.reverse_cons, wordsValue_append]
      simp [wordsValue]
    · rw [List.dropWhile_cons_of_neg (by simpa using hw)]

/-! ## The routes -/

namespace Fp

variable {a : Fp} {x : Residue}

/-- The invariant of all routes: after the bits that write `n` the result represents the power
`n`. The step of a route squares, and multiplies by the base if the bit is set. -/
theorem Represents.foldl_step {step : Fp → Bool → Fp}
    (hstep : ∀ {r : Fp} {y : Residue} (bit : Bool), r.Represents y →
      (step r bit).Represents (if bit then y ^ 2 * x else y ^ 2))
    {r : Fp} {n : ℕ} (hr : r.Represents (x ^ n)) (bits : List Bool) :
    (bits.foldl step r).Represents (x ^ appendBits n bits) := by
  induction bits generalizing r n with
  | nil => exact hr
  | cons bit bits ih =>
    refine ih (n := 2 * n + bit.toNat) ?_
    have h := hstep bit hr
    cases bit with
    | false =>
      rw [Bool.toNat_false, Nat.add_zero, Nat.mul_comm, pow_mul]
      exact h
    | true =>
      rw [Bool.toNat_true, pow_succ, Nat.mul_comm, pow_mul]
      exact h

theorem select_eq (choice : Bool) (a b : Fp) : select choice a b = if choice then b else a := by
  cases choice with
  | false => simp [select, Word.mask_eq]
  | true => simp [select, Word.mask_eq]

/-- Where all routes start. -/
theorem represents_pow_zero (x : Residue) : one.Represents (x ^ 0) := by
  rw [pow_zero]
  exact represents_one

theorem Represents.powBits (ha : a.Represents x) (bits : List Bool) :
    (a.powBits bits).Represents (x ^ appendBits 0 bits) := by
  rw [powBits_eq_foldl]
  refine Represents.foldl_step ?_ (represents_pow_zero x) bits
  intro r y bit hr
  cases bit with
  | false => exact hr.square
  | true => exact hr.square.mul ha

theorem Represents.powWords (ha : a.Represents x) (ws : List Word) :
    (a.powWords ws).Represents (x ^ wordsValue ws) := by
  have h := ha.powBits (ws.reverse.flatMap Word.bits)
  rw [appendBits_words] at h
  exact h

theorem Represents.powTrimmed (ha : a.Represents x) (ws : List Word) :
    (a.powTrimmed ws).Represents (x ^ wordsValue ws) := by
  have h := ha.powWords (ws.reverse.dropWhile (· == 0)).reverse
  rw [wordsValue_reverse_dropWhile, List.reverse_reverse, Fp.powWords, powWordsM,
    List.reverse_reverse] at h
  exact h

theorem Represents.powUniform (ha : a.Represents x) (ws : List Word) :
    (a.powUniform ws).Represents (x ^ wordsValue ws) := by
  rw [← appendBits_words, powUniform_eq_foldl]
  refine Represents.foldl_step ?_ (represents_pow_zero x) _
  intro r y bit hr
  -- the product is formed in either case, and the choice keeps it or not
  rw [select_eq]
  cases bit with
  | false => exact hr.square
  | true => exact hr.square.mul ha

theorem Represents.powBytes (ha : a.Represents x) (bs : Bytes) :
    (a.powBytes bs).Represents (x ^ bs.value) := by
  have h := ha.powBits bs.trim.bits
  rw [appendBits_bytes, Bytes.value_trim] at h
  exact h

theorem Represents.pow (ha : a.Represents x) (e : Exponent) :
    (a.pow e).Represents (x ^ e.value) := by
  cases e with
  | word e =>
    have h := ha.powWords [e]
    rw [wordsValue_cons] at h
    exact h
  | words e => exact ha.powWords e
  | trimmed e => exact ha.powTrimmed e
  | uniform e => exact ha.powUniform e
  | bytes e => exact ha.powBytes e

/-- Exponents that stand for one number give one element, whatever their route. -/
theorem Reduced.pow_congr (ha : a.Reduced) {e f : Exponent} (h : e.value = f.value) :
    a.pow e = a.pow f := by
  have hf := ha.represents.pow f
  rw [← h] at hf
  exact (ha.represents.pow e).unique hf

/-- Every route computes the power of the number modulo `p`, for an exponent of any length: neither
the route nor the zeros in front of the exponent show in the result, and the power with exponent
zero is one, that of zero included. -/
theorem pow_is_modular_power (a : Fp) (ha : a.Reduced) :
    (∀ e : Exponent, (a.pow e).Reduced ∧
      (a.pow e).toNat = a.toNat ^ e.value % Modulus.p.toNat) ∧
    (∀ e f : Exponent, e.value = f.value → a.pow e = a.pow f) ∧
    (∀ e : Exponent, e.value = 0 → a.pow e = one) ∧
    (∀ (ws : List Word) (n : ℕ),
      a.powWords (ws ++ List.replicate n 0) = a.powWords ws ∧
      a.powTrimmed (ws ++ List.replicate n 0) = a.powTrimmed ws ∧
      a.powUniform (ws ++ List.replicate n 0) = a.powUniform ws) ∧
    (∀ (bs : Bytes) (n : ℕ), a.powBytes (List.replicate n 0 ++ bs) = a.powBytes bs) := by
  refine ⟨?_, ?_, ?_, ?_, ?_⟩
  · intro e
    have h : (a.pow e).Represents (a.toNat ^ e.value : ℕ) := by
      rw [Nat.cast_pow]
      exact ha.represents.pow e
    exact ⟨h.1, h.toNat_eq⟩
  · intro e f h
    exact ha.pow_congr h
  · intro e h
    have hpow := ha.represents.pow e
    rw [h, pow_zero] at hpow
    exact hpow.unique represents_one
  · intro ws n
    have hvalue : wordsValue (ws ++ List.replicate n 0) = wordsValue ws := by
      rw [wordsValue_append, wordsValue_replicate_zero, Nat.mul_zero, Nat.add_zero]
    exact ⟨ha.pow_congr (e := .words _) (f := .words _) hvalue,
      ha.pow_congr (e := .trimmed _) (f := .trimmed _) hvalue,
      ha.pow_congr (e := .uniform _) (f := .uniform _) hvalue⟩
  · intro bs n
    exact ha.pow_congr (e := .bytes _) (f := .bytes _) (Bytes.value_replicate_zero_append n bs)

/-- The exponent `2^128 + 5`, with a zero word in the middle and zeros in front. -/
theorem pow_is_modular_power_of_gap :
    one.double.Reduced ∧
      (Exponent.trimmed [5, 0, 1, 0]).value = (Exponent.bytes (0 :: 1 :: Bytes.ofNat 16 5)).value ∧
      one.double.pow (.trimmed [5, 0, 1, 0]) =
        one.double.pow (.bytes (0 :: 1 :: Bytes.ofNat 16 5)) := by
  have hred : one.double.Reduced := represents_one.double.1
  have hvalue : (Exponent.trimmed [5, 0, 1, 0]).value =
      (Exponent.bytes (0 :: 1 :: Bytes.ofNat 16 5)).value := by decide
  exact ⟨hred, hvalue, (pow_is_modular_power one.double hred).2.1 _ _ hvalue⟩

end Fp

end Bn254
