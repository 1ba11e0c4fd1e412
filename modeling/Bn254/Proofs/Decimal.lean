import Bn254.Fp.Integer
import Bn254.Proofs.GroupOrder

/-!
# Decimal numerals and bytes

The accepted numerals are the decimal writings of the natural numbers, one for each number. Digits are
taken up with a factor of ten, bytes in blocks with a factor of `2^256`, and both decoders reduce after
every step. Each of them keeps the residue of the number that it has read so far, so they meet on every
number, however many digits or bytes it is written with.
-/

namespace Bn254.Fp

variable {a : Fp} {c : Char} {cs : List Char}

/-! ## Digits -/

theorem isDigit_iff_le : c.isDigit = true ↔ '0' ≤ c ∧ c ≤ '9' := by
  simp only [Char.isDigit, Bool.and_eq_true, decide_eq_true_eq, Char.le_def, ge_iff_le]

theorem toNat_le_of_isDigit (h : c.isDigit = true) : 48 ≤ c.toNat ∧ c.toNat ≤ 57 := by
  rw [isDigit_iff_le, Char.le_def, Char.le_def, UInt32.le_iff_toNat_le, UInt32.le_iff_toNat_le] at h
  exact h

theorem sub_zero_lt_ten (h : c.isDigit = true) : c.toNat - '0'.toNat < 10 := by
  obtain ⟨-, hle⟩ := toNat_le_of_isDigit h
  show c.toNat - 48 < 10
  omega

theorem digitChar_sub_zero (h : c.isDigit = true) : (c.toNat - '0'.toNat).digitChar = c := by
  obtain ⟨hle, -⟩ := toNat_le_of_isDigit h
  apply Char.toNat_inj.1
  rw [Nat.toNat_digitChar_of_lt_ten (sub_zero_lt_ten h)]
  show 48 + (c.toNat - 48) = c.toNat
  omega

theorem sub_zero_pos (h : c.isDigit = true) (hne : c ≠ '0') : 0 < c.toNat - '0'.toNat := by
  obtain ⟨hle, -⟩ := toNat_le_of_isDigit h
  have hval : c.toNat ≠ 48 := by
    intro heq
    exact hne (Char.toNat_inj.1 heq)
  show 0 < c.toNat - 48
  omega

theorem digitValue_toNat (c : Char) : (digitValue c).toNat = c.toNat - '0'.toNat := by
  have hc : c.toNat < 2 ^ 32 := c.val.toNat_lt
  rw [digitValue, UInt64.toNat_ofNat', Nat.mod_eq_of_lt (by omega)]

/-! ## Numerals are writings of numbers -/

theorem toDigits_append_digit {n : ℕ} (hn : 0 < n) (h : c.isDigit = true) :
    Nat.toDigits 10 n ++ [c] = Nat.toDigits 10 (10 * n + (c.toNat - '0'.toNat)) := by
  have hlt := sub_zero_lt_ten h
  rw [← Nat.toDigits_append_toDigits (by decide) hn hlt, Nat.toDigits_of_lt_base hlt,
    digitChar_sub_zero h]

/-- Digits after those of a number that is not zero write the number that they make of it. -/
theorem toDigits_append {n : ℕ} (hn : 0 < n) (h : ∀ c ∈ cs, c.isDigit = true) :
    Nat.toDigits 10 n ++ cs = Nat.toDigits 10 (Nat.ofDigitChars 10 cs n) := by
  induction cs generalizing n with
  | nil => rw [List.append_nil, Nat.ofDigitChars_nil]
  | cons c cs ih =>
    rw [List.forall_mem_cons] at h
    rw [Nat.ofDigitChars_cons, ← ih (by omega) h.2, ← toDigits_append_digit hn h.1,
      List.append_assoc, List.singleton_append]

theorem head?_toDigits_ne_zero {n : ℕ} (hn : 0 < n) : (Nat.toDigits 10 n).head? ≠ some '0' := by
  induction n using Nat.strongRecOn with
  | ind n ih =>
    by_cases hlt : n < 10
    · rw [Nat.toDigits_of_lt_base hlt]
      interval_cases n <;> decide
    · have hne : Nat.toDigits 10 (n / 10) ≠ [] := Nat.toDigits_ne_nil
      rw [Nat.toDigits_of_base_le (by decide) (by omega), List.head?_append_of_ne_nil _ hne]
      exact ih (n / 10) (by omega) (by omega)

theorem isNumeral_iff :
    isNumeral cs = true ↔
      cs = ['0'] ∨ cs ≠ [] ∧ (∀ c ∈ cs, c.isDigit = true) ∧ cs.head? ≠ some '0' := by
  fun_cases isNumeral cs with
  | case1 => simp
  | case2 => simp
  | case3 tail htail => simpa using htail
  | case4 cs hnil hzero hlead =>
    have hhead : cs.head? ≠ some '0' := by
      intro h
      obtain ⟨tail, htail⟩ := List.head?_eq_some_iff.1 h
      exact hlead tail htail
    rw [List.all_eq_true]
    constructor
    · intro hdigits
      exact .inr ⟨hnil, hdigits, hhead⟩
    · rintro (rfl | ⟨-, hdigits, -⟩)
      · exact absurd rfl hzero
      · exact hdigits

/-- The numerals are the writings of the numbers. -/
theorem isNumeral_iff_exists : isNumeral cs = true ↔ ∃ n : ℕ, cs = Nat.toDigits 10 n := by
  rw [isNumeral_iff]
  constructor
  · rintro (rfl | ⟨hne, hdigits, hhead⟩)
    · exact ⟨0, rfl⟩
    · cases cs with
      | nil => exact absurd rfl hne
      | cons c cs =>
        rw [List.forall_mem_cons] at hdigits
        -- the first digit is a number above zero, and the others follow it
        have hpos : 0 < c.toNat - '0'.toNat := by
          refine sub_zero_pos hdigits.1 ?_
          rintro rfl
          exact hhead rfl
        refine ⟨Nat.ofDigitChars 10 cs (c.toNat - '0'.toNat), ?_⟩
        rw [← toDigits_append hpos hdigits.2, Nat.toDigits_of_lt_base (sub_zero_lt_ten hdigits.1),
          digitChar_sub_zero hdigits.1, List.singleton_append]
  · rintro ⟨n, rfl⟩
    rcases Nat.eq_zero_or_pos n with rfl | hpos
    · exact .inl rfl
    · refine .inr ⟨Nat.toDigits_ne_nil, ?_, head?_toDigits_ne_zero hpos⟩
      intro c hc
      exact Nat.isDigit_of_mem_toDigits (by decide) (by decide) hc

/-! ## The residue of the digits -/

/-- Each digit counts ten times what was read before it. -/
theorem Represents.appendDigits {n : ℕ} (ha : a.Represents n) (cs : List Char) :
    (appendDigits a cs).Represents (Nat.ofDigitChars 10 cs n : ℕ) := by
  induction cs generalizing a n with
  | nil => exact ha
  | cons c cs ih =>
    have hstep := (ha.mul (represents_ofUInt64 10)).add (represents_ofUInt64 (digitValue c))
    rw [digitValue_toNat, ← Nat.cast_mul, ← Nat.cast_add, Nat.mul_comm n] at hstep
    rw [Nat.ofDigitChars_cons]
    exact ih hstep

/-- The writing of a number decodes to what represents the number. -/
theorem exists_ofDecimal?_toString (n : ℕ) :
    ∃ x, ofDecimal? (toString n) = some x ∧ x.Represents n := by
  have htext : (toString n).toList = Nat.toDigits 10 n := by
    rw [Nat.toString_eq_ofList_toDigits, String.toList_ofList]
  have hzero : zero.Represents (0 : ℕ) := by
    rw [Nat.cast_zero]
    exact represents_zero
  have hrep := hzero.appendDigits (Nat.toDigits 10 n)
  rw [Nat.ofDigitChars_ten_toDigits] at hrep
  refine ⟨_, ?_, hrep⟩
  rw [ofDecimal?_eq_ite]
  rw [htext, if_pos (isNumeral_iff_exists.2 ⟨n, rfl⟩)]

theorem isSome_ofDecimal?_iff {s : String} :
    (ofDecimal? s).isSome = true ↔ isNumeral s.toList = true := by
  rw [ofDecimal?_eq_ite]
  split
  · rename_i h
    exact iff_of_true rfl h
  · rename_i h
    exact iff_of_false Bool.false_ne_true h

theorem isSome_ofDecimal?_iff_exists {s : String} :
    (ofDecimal? s).isSome = true ↔ ∃ n : ℕ, s = toString n := by
  rw [isSome_ofDecimal?_iff, isNumeral_iff_exists]
  refine exists_congr fun n => ?_
  rw [Nat.toString_eq_ofList_toDigits, ← String.toList_inj, String.toList_ofList]

/-- A text decodes as a decimal numeral exactly if it is `0`, or digits of which the first is not zero.
It is then the writing of a number, and its element is that of every string of bytes, of any length,
that writes the same number. -/
theorem decimal_and_binary_agree (s : String) :
    ((ofDecimal? s).isSome = true ↔
      s = "0" ∨ s ≠ "" ∧ (∀ c ∈ s.toList, '0' ≤ c ∧ c ≤ '9') ∧ s.toList.head? ≠ some '0') ∧
    ((ofDecimal? s).isSome = true ↔ ∃ n : ℕ, s = toString n) ∧
    ∀ n : ℕ, s = toString n → ∀ bs : Bytes, bs.value = n →
      ofDecimal? s = some (ofBytesReduced bs) := by
  refine ⟨?_, isSome_ofDecimal?_iff_exists, ?_⟩
  · simp only [isSome_ofDecimal?_iff, isNumeral_iff, isDigit_iff_le, ← String.toList_inj, Ne]
    rfl
  · rintro n rfl bs hbs
    obtain ⟨x, hx, hrep⟩ := exists_ofDecimal?_toString n
    have hbytes := represents_ofBytesReduced bs
    rw [hbs] at hbytes
    rw [hx, hrep.unique hbytes]

/-- A number that takes two blocks, with zero bytes in front of it; a zero digit in front is refused. -/
theorem decimal_and_binary_agree_on_two_blocks :
    let s : String := .ofList ('1' :: List.replicate 80 '0')
    let bs : Bytes := .ofNat 40 (10 ^ 80)
    s = toString (10 ^ 80) ∧ bs.value = 10 ^ 80 ∧ Modulus.radix < bs.value ∧
      ofDecimal? s = some (ofBytesReduced bs) ∧ ofDecimal? "01" = none := by
  intro s bs
  have hs : s = toString (10 ^ 80) := by
    rw [Nat.toString_eq_ofList_toDigits]
    exact congrArg String.ofList (by decide +kernel)
  have hbs : bs.value = 10 ^ 80 := by decide +kernel
  have hlong : Modulus.radix < bs.value := by
    rw [hbs]
    decide
  have hlead : ¬(ofDecimal? "01").isSome = true := by
    rw [(decimal_and_binary_agree "01").1]
    rintro (heq | ⟨-, -, hhead⟩)
    · exact absurd (congrArg String.length heq) (by decide)
    · exact hhead rfl
  obtain ⟨-, -, hsome⟩ := decimal_and_binary_agree s
  exact ⟨hs, hbs, hlong, hsome _ hs bs hbs, Option.not_isSome_iff_eq_none.1 hlead⟩

end Bn254.Fp
