import Bn254.Fp.Text
import Bn254.Proofs.Order

/-!
# Texts determine elements

Digits to base 16 are read back in two ways: all of them together as one number, and in pairs as bytes.
Bytes are shown with two digits each, also where the first of the two is zero, so both readings give
back what was shown, in either case of the letters. Hence every text of an element tells which element
it is. The shortest encoding drops bytes that are zero from the front, which is to drop pairs of zeros
from the digits.
-/

namespace Bn254

/-! ## Reading digits -/

namespace Hex

/-- The value of a digit to base 16, its letter in either case. -/
def digit? (c : Char) : Option ℕ :=
  if '0' ≤ c ∧ c ≤ '9' then some (c.toNat - '0'.toNat)
  else if 'a' ≤ c ∧ c ≤ 'f' then some (c.toNat - 'a'.toNat + 10)
  else if 'A' ≤ c ∧ c ≤ 'F' then some (c.toNat - 'A'.toNat + 10)
  else none

/-- The number `n` with one more digit after it. -/
def appendDigit? (n : ℕ) (c : Char) : Option ℕ := (digit? c).map fun d => 16 * n + d

/-- The number that the digits write, most significant first. -/
def number? (cs : List Char) : Option ℕ := cs.foldlM appendDigit? 0

/-- The bytes that the digits write, two for each. -/
def bytes? : List Char → Option Bytes
  | [] => some []
  | [_] => none
  | c :: d :: cs => do
    let high ← digit? c
    let low ← digit? d
    let bs ← bytes? cs
    return .ofNat (16 * high + low) :: bs

/-- The digits without the pairs of zeros in front. -/
def dropZeroPairs : List Char → List Char
  | c :: d :: cs => if c = '0' ∧ d = '0' then dropZeroPairs cs else c :: d :: cs
  | cs => cs

theorem high_lt (b : UInt8) : b.toNat / 16 < 16 := by
  have hb := b.toNat_lt
  omega

theorem low_lt (b : UInt8) : b.toNat % 16 < 16 := Nat.mod_lt _ (by decide)

end Hex

namespace LetterCase

variable {letters : LetterCase}

/-- All digits, from zero on. -/
def alphabet : LetterCase → List Char
  | lower => "0123456789abcdef".toList
  | upper => "0123456789ABCDEF".toList

theorem digit_mem_alphabet (letters : LetterCase) : ∀ n < 16, letters.digit n ∈ letters.alphabet := by
  cases letters with
  | lower => decide
  | upper => decide

theorem digit?_digit (letters : LetterCase) : ∀ n < 16, Hex.digit? (letters.digit n) = some n := by
  cases letters with
  | lower => decide
  | upper => decide

theorem appendDigit?_digit (letters : LetterCase) (n : ℕ) {d : ℕ} (hd : d < 16) :
    Hex.appendDigit? n (letters.digit d) = some (16 * n + d) := by
  rw [Hex.appendDigit?, letters.digit?_digit d hd, Option.map_some]

/-! ## The digits of bytes -/

theorem digits_cons (letters : LetterCase) (b : UInt8) (bs : Bytes) :
    letters.digits (b :: bs) =
      letters.digit (b.toNat / 16) :: letters.digit (b.toNat % 16) :: letters.digits bs :=
  rfl

theorem length_digits (letters : LetterCase) (bs : Bytes) :
    (letters.digits bs).length = 2 * bs.length := by
  induction bs with
  | nil => rfl
  | cons b bs ih =>
    rw [digits_cons, List.length_cons, List.length_cons, ih, List.length_cons]
    omega

theorem toList_hex (letters : LetterCase) (bs : Bytes) :
    (letters.hex bs).toList = letters.digits bs :=
  String.toList_ofList

theorem mem_alphabet_of_mem_hex {bs : Bytes} : ∀ c ∈ (letters.hex bs).toList, c ∈ letters.alphabet := by
  intro c h
  rw [toList_hex] at h
  obtain ⟨b, -, hc⟩ := List.mem_flatMap.1 h
  rw [List.mem_pair] at hc
  rcases hc with rfl | rfl
  · exact letters.digit_mem_alphabet _ (Hex.high_lt b)
  · exact letters.digit_mem_alphabet _ (Hex.low_lt b)

theorem upper_digits (bs : Bytes) : upper.digits bs = (lower.digits bs).map Char.toUpper := by
  unfold digits
  rw [List.map_flatMap]
  rfl

/-- Two digits more are one byte more. The number of the digits before them is in `n`. -/
theorem foldlM_digits (letters : LetterCase) (bs : Bytes) (n : ℕ) :
    (letters.digits bs).foldlM Hex.appendDigit? n =
      some (bs.foldl (fun n b => 256 * n + b.toNat) n) := by
  induction bs generalizing n with
  | nil => rfl
  | cons b bs ih =>
    have hbyte : 16 * (16 * n + b.toNat / 16) + b.toNat % 16 = 256 * n + b.toNat := by omega
    simp only [digits_cons, List.foldlM_cons, letters.appendDigit?_digit _ (Hex.high_lt b),
      letters.appendDigit?_digit _ (Hex.low_lt b), Option.bind_eq_bind, Option.bind_some, hbyte, ih,
      List.foldl_cons]

theorem number?_digits (letters : LetterCase) (bs : Bytes) :
    Hex.number? (letters.digits bs) = some bs.value :=
  letters.foldlM_digits bs 0

theorem bytes?_digits (letters : LetterCase) (bs : Bytes) :
    Hex.bytes? (letters.digits bs) = some bs := by
  induction bs with
  | nil => rfl
  | cons b bs ih =>
    have hbyte : 16 * (b.toNat / 16) + b.toNat % 16 = b.toNat := by omega
    rw [digits_cons, Hex.bytes?, letters.digit?_digit _ (Hex.high_lt b),
      letters.digit?_digit _ (Hex.low_lt b), ih]
    show some (.ofNat (16 * (b.toNat / 16) + b.toNat % 16) :: bs) = _
    rw [hbyte, UInt8.ofNat_toNat]

theorem hex_inj {as bs : Bytes} : letters.hex as = letters.hex bs ↔ as = bs := by
  refine ⟨?_, congrArg _⟩
  intro h
  have hread := congrArg Hex.bytes? (String.ofList_injective h)
  rw [bytes?_digits, bytes?_digits] at hread
  exact Option.some.inj hread

/-- A byte is shown as a pair of zeros only if it is zero. -/
theorem digits_trim (bs : Bytes) :
    lower.digits bs.trim = Hex.dropZeroPairs (lower.digits bs) := by
  induction bs with
  | nil => rfl
  | cons b bs ih =>
    have hzero : ∀ n < 16, lower.digit n = '0' → n = 0 := by decide
    rw [digits_cons, Hex.dropZeroPairs]
    by_cases hb : b = 0
    · rw [hb, if_pos ⟨rfl, rfl⟩, ← ih]
      rfl
    · rw [if_neg, Bytes.trim, List.dropWhile_cons_of_neg (by simpa using hb), digits_cons]
      rintro ⟨hhigh, hlow⟩
      have hhigh := hzero _ (Hex.high_lt b) hhigh
      have hlow := hzero _ (Hex.low_lt b) hlow
      apply hb
      apply UInt8.toNat_inj.1
      rw [UInt8.toNat_zero]
      omega

example : Hex.dropZeroPairs (lower.digits [0, 0, 10, 0]) = "0a00".toList := by decide

end LetterCase

namespace Fp

variable {a b : Fp}

/-! ## The texts of an element -/

theorem number?_hex_toBytes32 (letters : LetterCase) (a : Fp) :
    Hex.number? (letters.hex a.toBytes32.toList).toList = some a.toNat := by
  rw [LetterCase.toList_hex, LetterCase.number?_digits]
  exact congrArg some (value_toBytes32 a)

theorem length_lowerHex (a : Fp) : a.lowerHex.length = 64 := by
  unfold lowerHex
  rw [← String.length_toList, LetterCase.toList_hex, LetterCase.length_digits,
    a.toBytes32.length_eq]

theorem upperHex_eq_toUpper (a : Fp) : a.upperHex = a.lowerHex.toUpper := by
  apply String.ext
  unfold upperHex lowerHex String.toUpper
  rw [String.toList_map, LetterCase.toList_hex, LetterCase.toList_hex, LetterCase.upper_digits]

theorem debug_toBytes (a : Fp) :
    a.toBytes.debug =
      "FqBytes(" ++ String.ofList (Hex.dropZeroPairs a.lowerHex.toList) ++ ")" := by
  unfold lowerHex
  rw [LetterCase.toList_hex, ← LetterCase.digits_trim]
  rfl

theorem exists_bytes?_lowerHex (ha : a.Reduced) :
    ∃ b : Bytes32, Hex.bytes? a.lowerHex.toList = some b.toList ∧ ofBytes32? b = some a := by
  refine ⟨a.toBytes32, ?_, ofBytes32?_eq_some_iff.2 ⟨ha, rfl⟩⟩
  unfold lowerHex
  rw [LetterCase.toList_hex, LetterCase.bytes?_digits]

/-! ## Equal texts -/

theorem Reduced.hex_toBytes32_inj (ha : a.Reduced) (hb : b.Reduced) (letters : LetterCase) :
    letters.hex a.toBytes32.toList = letters.hex b.toBytes32.toList ↔ a = b := by
  rw [LetterCase.hex_inj, ← Bytes32.ext_iff, toBytes32_eq_iff, value_toBytes32, ha.toNat_inj hb]

theorem Reduced.debug_inj (ha : a.Reduced) (hb : b.Reduced) : a.debug = b.debug ↔ a = b := by
  unfold debug
  rw [String.append_left_inj, String.append_right_inj]
  exact ha.hex_toBytes32_inj hb .lower

theorem Reduced.debug_toBytes_inj (ha : a.Reduced) (hb : b.Reduced) :
    a.toBytes.debug = b.toBytes.debug ↔ a = b := by
  unfold MinimalBytes.debug
  rw [String.append_left_inj, String.append_right_inj, LetterCase.hex_inj,
    ha.toBytes_toList_inj hb]

/-- An element is shown by the 64 digits of its number, in lower case or with the letters in upper case,
and they read back as its number and as the 32 bytes that decode to it. Inspection puts the lower-case
digits in brackets; the digits of the shortest encoding are the same ones without the pairs of zeros in
front. So elements with an equal text of any kind are equal. -/
theorem texts_determine_element :
    (∀ a : Fp, a.Reduced →
      (a.lowerHex.length = 64 ∧ (∀ c ∈ a.lowerHex.toList, c ∈ "0123456789abcdef".toList) ∧
        Hex.number? a.lowerHex.toList = some a.toNat ∧
        ∃ b : Bytes32, Hex.bytes? a.lowerHex.toList = some b.toList ∧ ofBytes32? b = some a) ∧
      (a.upperHex = a.lowerHex.toUpper ∧ a.display = a.upperHex ∧
        (∀ c ∈ a.upperHex.toList, c ∈ "0123456789ABCDEF".toList) ∧
        Hex.number? a.upperHex.toList = some a.toNat) ∧
      a.debug = "Fq(0x" ++ a.lowerHex ++ ")" ∧
      a.toBytes.debug =
        "FqBytes(" ++ String.ofList (Hex.dropZeroPairs a.lowerHex.toList) ++ ")") ∧
    ∀ a b : Fp, a.Reduced → b.Reduced →
      ∀ text ∈ [lowerHex, upperHex, display, debug, fun x => x.toBytes.debug],
        text a = text b ↔ (a == b) = true := by
  refine ⟨?_, ?_⟩
  · intro a ha
    have hlower : ∀ c ∈ a.lowerHex.toList, c ∈ LetterCase.lower.alphabet :=
      LetterCase.mem_alphabet_of_mem_hex
    have hupper : ∀ c ∈ a.upperHex.toList, c ∈ LetterCase.upper.alphabet :=
      LetterCase.mem_alphabet_of_mem_hex
    exact ⟨⟨length_lowerHex a, hlower, number?_hex_toBytes32 .lower a, exists_bytes?_lowerHex ha⟩,
      ⟨upperHex_eq_toUpper a, rfl, hupper, number?_hex_toBytes32 .upper a⟩, rfl, debug_toBytes a⟩
  · intro a b ha hb
    simp only [List.forall_mem_cons, List.not_mem_nil, false_imp_iff, implies_true, and_true,
      beq_iff_eq]
    exact ⟨ha.hex_toBytes32_inj hb .lower, ha.hex_toBytes32_inj hb .upper,
      ha.hex_toBytes32_inj hb .upper, ha.debug_inj hb, ha.debug_toBytes_inj hb⟩

/-- The zero in front of a digit stays, and so do zeros inside. -/
theorem texts_determine_element_of_inner_zeros :
    let a : Fp := ofUInt64 0x0a00
    let b : Fp := ofUInt64 0xa0
    a.Reduced ∧ b.Reduced ∧ Hex.number? a.lowerHex.toList = some 0x0a00 ∧
      (∃ c : Bytes32, Hex.bytes? a.lowerHex.toList = some c.toList ∧ ofBytes32? c = some a) ∧
      a.toBytes.debug = "FqBytes(0a00)" ∧ a.toBytes.debug ≠ b.toBytes.debug := by
  intro a b
  have ra : a.Represents (0x0a00 : ℕ) := represents_ofUInt64 0x0a00
  have hb : b.Reduced := reduced_ofUInt64 0xa0
  have hdigits : Hex.dropZeroPairs a.lowerHex.toList = "0a00".toList := by decide +kernel
  have hne : ¬(a == b) = true := by decide +kernel
  have hmem : (fun x => x.toBytes.debug) ∈
      [lowerHex, upperHex, display, debug, fun x => x.toBytes.debug] := by
    simp only [List.mem_cons, or_true, true_or]
  obtain ⟨htexts, hequal⟩ := texts_determine_element
  obtain ⟨⟨-, -, hnumber, hbytes⟩, -, -, hdebug⟩ := htexts a ra.1
  rw [ra.toNat_eq] at hnumber
  rw [hdigits] at hdebug
  exact ⟨ra.1, hb, hnumber, hbytes, hdebug, mt (hequal a b ra.1 hb _ hmem).1 hne⟩

end Fp

end Bn254
