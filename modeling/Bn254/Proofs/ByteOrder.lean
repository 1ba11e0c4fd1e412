import Bn254.Proofs.ShortestEncoding
import Bn254.U256.Bytes
import Mathlib.Data.Nat.Digits.Defs

/-!
# The order of words and bytes

The words of an integer run up from the least significant one, and so do its digits to the base 256. Its
bytes run down, within a word and from word to word. Read from their end, the bytes of an integer are
its digits, and bytes are read as the integer that has them as digits, so either way undoes the other.
-/

namespace Bn254

namespace Bytes

theorem value_eq_ofDigits (bs : Bytes) :
    bs.value = Nat.ofDigits 256 (bs.reverse.map UInt8.toNat) := by
  induction bs with
  | nil => rfl
  | cons b bs ih =>
    rw [value_cons, List.reverse_cons, List.map_append, Nat.ofDigits_append, ← ih, List.map_singleton,
      Nat.ofDigits_singleton, List.length_map, List.length_reverse, count_eq_pow, Nat.mul_comm,
      Nat.add_comm]

/-- The lowest byte is the last one, and the bytes before it are those of the number without it. -/
theorem reverse_ofNat (k n : ℕ) :
    (ofNat k n).reverse.map UInt8.toNat = (List.range k).map fun i => n / 256 ^ i % 256 := by
  induction k generalizing n with
  | zero => rfl
  | succ k ih =>
    rw [ofNat, List.reverse_append, List.reverse_singleton, List.singleton_append, List.map_cons, ih,
      List.range_succ_eq_map, List.map_cons, List.map_map, UInt8.toNat_ofNat']
    refine congrArg₂ List.cons ?_ (List.map_congr_left ?_)
    · rw [Nat.pow_zero, Nat.div_one]
    · intro i _
      show n / 256 / 256 ^ i % 256 = n / 256 ^ (i + 1) % 256
      rw [Nat.div_div_eq_div_mul, Nat.pow_succ']

end Bytes

namespace U256

theorem toList_toBytes (w : U256) : w.toBytes.toList = .ofNat 32 w.toNat := by
  apply Bytes.eq_of_value_eq
  · rw [w.toBytes.length_eq, Bytes.length_ofNat]
  · have hvalue : w.toBytes.toList.value = w.toNat := toBytes_value w
    rw [hvalue, Bytes.value_ofNat]
    exact (Nat.mod_eq_of_lt w.toNat_lt).symm

/-- Bytes are read as the integer whose digits they are, the last byte lowest, and an integer is written
in its 32 digits. Both ways are inverse to each other. -/
theorem words_and_bytes_correspond :
    (∀ b : Bytes32, (ofBytes b).toNat = Nat.ofDigits 256 (b.toList.reverse.map UInt8.toNat)) ∧
    (∀ w : U256,
      w.toBytes.toList.reverse.map UInt8.toNat =
        (List.range 32).map fun i => w.toNat / 256 ^ i % 256) ∧
    (∀ w : U256, Nat.ofDigits 256 (w.toBytes.toList.reverse.map UInt8.toNat) = w.toNat) ∧
    (∀ b : Bytes32, (ofBytes b).toBytes = b) ∧
    ∀ w : U256, ofBytes w.toBytes = w := by
  refine ⟨?_, ?_, ?_, toBytes_ofBytes, ofBytes_toBytes⟩
  · intro b
    rw [← Bytes.value_eq_ofDigits]
    exact ofBytes_toNat b
  · intro w
    rw [toList_toBytes, Bytes.reverse_ofNat]
  · intro w
    rw [← Bytes.value_eq_ofDigits]
    exact toBytes_value w

end U256

end Bn254
