import Bn254.Proofs.Numerals
import Bn254.Proofs.Order
import Mathlib.Order.Bounds.Basic

/-!
# The shortest encoding

A string that does not start with zero is as short as its number allows: the digit in front fills its
place. So of all strings that write a number exactly one is of this kind, and it is the one that an
element is encoded to. Elements, numbers below `p` and these strings correspond one to one.
-/

namespace Bn254

/-! ## Strings without a zero in front -/

namespace Bytes

variable {bs cs : Bytes}

/-- The first byte, if there is one, is not zero. -/
def Trimmed (bs : Bytes) : Prop := ∀ b ∈ bs.head?, b ≠ 0

theorem count_eq_pow (k : ℕ) : count k = 256 ^ k := by
  rw [count_eq_two_pow, Nat.pow_mul]

theorem trimmed_trim (bs : Bytes) : (trim bs).Trimmed := head?_trim_ne_zero bs

theorem Trimmed.count_le_value {b : UInt8} (h : Trimmed (b :: bs)) :
    count bs.length ≤ value (b :: bs) := by
  have hb : b ≠ 0 := h b rfl
  have hpos : 0 < b.toNat := by
    rw [Nat.pos_iff_ne_zero]
    exact fun h0 => hb (UInt8.toNat_inj.1 h0)
  have hmul : count bs.length ≤ b.toNat * count bs.length := Nat.le_mul_of_pos_left _ hpos
  rw [value_cons]
  omega

theorem Trimmed.value_lt_count_iff (h : bs.Trimmed) {n : ℕ} :
    value bs < count n ↔ bs.length ≤ n := by
  constructor
  · intro hlt
    cases bs with
    | nil => simp
    | cons b bs =>
      by_contra hn
      have hle : n ≤ bs.length := by
        rw [List.length_cons] at hn
        omega
      have hcount := count_le hle
      have hvalue := h.count_le_value
      omega
  · intro hle
    exact (value_lt bs).trans_le (count_le hle)

/-- No shorter string has room for the number. -/
theorem Trimmed.isLeast_length (h : bs.Trimmed) : IsLeast {n | value bs < 256 ^ n} bs.length := by
  constructor
  · show value bs < 256 ^ bs.length
    rw [← count_eq_pow]
    exact h.value_lt_count_iff.2 le_rfl
  · intro n hn
    have hlt : value bs < 256 ^ n := hn
    rw [← count_eq_pow] at hlt
    exact h.value_lt_count_iff.1 hlt

theorem Trimmed.eq_of_value_eq (hb : bs.Trimmed) (hc : cs.Trimmed) (h : value bs = value cs) :
    bs = cs := by
  have hleast := hb.isLeast_length
  rw [h] at hleast
  exact Bytes.eq_of_value_eq (hleast.unique hc.isLeast_length) h

theorem length_trim_le (bs : Bytes) : (trim bs).length ≤ bs.length :=
  (List.dropWhile_suffix _).length_le

theorem replicate_zero_append_trim (bs : Bytes) :
    List.replicate (bs.length - (trim bs).length) 0 ++ trim bs = bs := by
  have hle := length_trim_le bs
  refine Bytes.eq_of_value_eq ?_ ?_
  · simp only [List.length_append, List.length_replicate]
    omega
  · rw [value_replicate_zero_append, value_trim]

/-- What is left off are the bytes up to the first that is not zero, all of them if there is none. -/
theorem trim_eq_drop (bs : Bytes) : trim bs = bs.drop (bs.findIdx (· != 0)) :=
  List.dropWhile_eq_drop_findIdx_not

end Bytes

/-! ## The encoding of an element -/

namespace Fp

variable {a b : Fp} {s : Bytes}

theorem trimmed_toBytes (a : Fp) : a.toBytes.toList.Trimmed := Bytes.trimmed_trim _

theorem length_toBytes_le (a : Fp) : a.toBytes.length ≤ 32 := by
  have h := Bytes.length_trim_le a.toBytes32.toList
  rw [a.toBytes32.length_eq] at h
  exact h

theorem isLeast_length_toBytes (a : Fp) :
    IsLeast {n | a.toNat < 256 ^ n} a.toBytes.length := by
  have h := a.trimmed_toBytes.isLeast_length
  rw [value_toBytes] at h
  exact h

theorem replicate_zero_append_toBytes (a : Fp) :
    List.replicate (32 - a.toBytes.length) 0 ++ a.toBytes.toList = a.toBytes32.toList := by
  have h := Bytes.replicate_zero_append_trim a.toBytes32.toList
  rw [a.toBytes32.length_eq] at h
  exact h

theorem Reduced.toBytes_eq_nil_iff (ha : a.Reduced) : a.toBytes.toList = [] ↔ a = zero := by
  rw [ha.represents.toBytes_eq_nil_iff, ha.represents.eq_zero_iff]

theorem Reduced.ofBytesReduced_toBytes (ha : a.Reduced) : ofBytesReduced a.toBytes.toList = a := by
  have h := represents_ofBytesReduced a.toBytes.toList
  rw [value_toBytes] at h
  exact h.unique ha.represents

theorem existsUnique_toBytes_eq (hs : s.Trimmed) (hlt : s.value < Modulus.p.toNat) :
    ∃! a : Fp, a.Reduced ∧ a.toBytes.toList = s := by
  obtain ⟨a, ha, hnum⟩ := bijOn_toNat.surjOn hlt
  have hvalue : a.toBytes.toList.value = s.value := by rw [value_toBytes, hnum]
  have hlist : a.toBytes.toList = s := a.trimmed_toBytes.eq_of_value_eq hs hvalue
  refine ⟨a, ⟨ha, hlist⟩, ?_⟩
  rintro c ⟨hc, hcs⟩
  exact (hc.toBytes_toList_inj ha).1 (hcs.trans hlist.symm)

/-- An element is encoded to the only string that writes its number and does not start with zero. Its
length is the least that has room for the number, zeros in front make it the 32 bytes of the element,
and it decodes to the element. Every such string of a number below `p` belongs to exactly one element,
and encodings are equal only for equal elements. -/
theorem shortest_encoding_is_canonical :
    (∀ a : Fp, a.Reduced →
      IsLeast {n : ℕ | a.toNat < 256 ^ n} a.toBytes.length ∧
      (a.toBytes.toList = [] ↔ a = zero) ∧ a.toBytes.length ≤ 32 ∧
      (∀ b ∈ a.toBytes.toList.head?, b ≠ 0) ∧
      a.toBytes.toList.value = a.toNat ∧
      a.toBytes.toList = a.toBytes32.toList.drop (a.toBytes32.toList.findIdx (· != 0)) ∧
      a.toBytes.padded = a.toBytes32 ∧
      List.replicate (32 - a.toBytes.length) 0 ++ a.toBytes.toList = a.toBytes32.toList ∧
      ofBytesReduced a.toBytes.toList = a) ∧
    (∀ s : Bytes, (∀ b ∈ s.head?, b ≠ 0) → s.value < Modulus.p.toNat →
      ∃! a : Fp, a.Reduced ∧ a.toBytes.toList = s) ∧
    (∀ a b : Fp, a.Reduced → b.Reduced →
      (a.toBytes = b.toBytes ↔ a = b) ∧ (a.toBytes.toList = b.toBytes.toList ↔ a = b)) := by
  refine ⟨?_, ?_, ?_⟩
  · intro a ha
    exact ⟨a.isLeast_length_toBytes, ha.toBytes_eq_nil_iff, a.length_toBytes_le,
      a.trimmed_toBytes, a.value_toBytes, Bytes.trim_eq_drop _, rfl,
      a.replicate_zero_append_toBytes, ha.ofBytesReduced_toBytes⟩
  · intro s hs hlt
    exact existsUnique_toBytes_eq hs hlt
  · intro a b ha hb
    exact ⟨ha.toBytes_inj hb, ha.toBytes_toList_inj hb⟩

/-- A zero byte inside the string stays, and it counts for the length. -/
theorem shortest_encoding_is_canonical_of_inner_zeros :
    let s : Bytes := [1, 0, 0]
    (∀ b ∈ s.head?, b ≠ 0) ∧ s.value < Modulus.p.toNat ∧
      ∃ a : Fp, a.Reduced ∧ a.toBytes.toList = s ∧ a.toNat = 65536 ∧
        IsLeast {n : ℕ | a.toNat < 256 ^ n} 3 ∧ ofBytesReduced s = a ∧ a.toBytes ≠ zero.toBytes := by
  intro s
  have hs : ∀ b ∈ s.head?, b ≠ 0 := by
    intro b hb
    obtain rfl : 1 = b := Option.some.inj hb
    decide
  have hlt : s.value < Modulus.p.toNat := by decide
  obtain ⟨hall, hstrings, hequal⟩ := shortest_encoding_is_canonical
  obtain ⟨a, ⟨ha, has⟩, -⟩ := hstrings s hs hlt
  obtain ⟨hleast, hnil, -, -, hvalue, -, -, -, hback⟩ := hall a ha
  rw [MinimalBytes.length, has] at hleast
  rw [has] at hvalue hback
  have hne : a ≠ zero := by
    rw [Ne, ← hnil, has]
    decide
  exact ⟨hs, hlt, a, ha, has, hvalue.symm, hleast, hback,
    mt (hequal a zero ha reduced_zero).1.1 hne⟩

end Fp

end Bn254
