import Bn254.Bytes
import Bn254.U256.Basic

/-!
# 256-bit integers as bytes

The words of an integer run from the least significant one up, its bytes from the most significant
one down. Both ways keep the number: `ofBytes_toNat` and `toBytes_value`.
-/

namespace Bn254.U256

/-- The integer that 32 bytes write, most significant byte first. -/
def ofBytes (b : Bytes32) : U256 where
  w0 := .ofBytes (b.toList.drop 24)
  w1 := .ofBytes ((b.toList.drop 16).take 8)
  w2 := .ofBytes ((b.toList.drop 8).take 8)
  w3 := .ofBytes (b.toList.take 8)

/-- The integer in 32 bytes, most significant byte first. -/
def toBytes (a : U256) : Bytes32 :=
  ⟨a.w3.toBytes ++ a.w2.toBytes ++ a.w1.toBytes ++ a.w0.toBytes, by simp⟩

theorem ofBytes_toNat (b : Bytes32) : (ofBytes b).toNat = b.value := by
  have hb := b.length_eq
  have e3 : b.toList = b.toList.take 8 ++ b.toList.drop 8 := (List.take_append_drop 8 _).symm
  have e2 : b.toList.drop 8 = (b.toList.drop 8).take 8 ++ b.toList.drop 16 := by
    rw [← List.drop_drop (i := 8) (j := 8), List.take_append_drop]
  have e1 : b.toList.drop 16 = (b.toList.drop 16).take 8 ++ b.toList.drop 24 := by
    rw [← List.drop_drop (i := 8) (j := 16), List.take_append_drop]
  rw [Bytes32.value, e3, Bytes.value_append, e2, Bytes.value_append, e1, Bytes.value_append]
  simp only [toNat, ofBytes]
  rw [Word.ofBytes_toNat _ (by simp [hb]), Word.ofBytes_toNat _ (by simp [hb]),
    Word.ofBytes_toNat _ (by simp [hb]), Word.ofBytes_toNat _ (by simp [hb])]
  simp only [List.length_append, List.length_take, List.length_drop, hb, Nat.reduceSub,
    Nat.reduceLeDiff, Nat.min_eq_left, Nat.reduceAdd, Bytes.count]
  omega

theorem toBytes_value (a : U256) : a.toBytes.value = a.toNat := by
  simp only [toBytes, Bytes32.value, Bytes.value_append, Word.value_toBytes, Word.length_toBytes,
    Bytes.count, toNat]
  omega

theorem ofBytes_toBytes (a : U256) : ofBytes a.toBytes = a :=
  toNat_inj.1 <| by rw [ofBytes_toNat, toBytes_value]

theorem toBytes_ofBytes (b : Bytes32) : (ofBytes b).toBytes = b :=
  Bytes32.value_inj.1 <| by rw [toBytes_value, ofBytes_toNat]

end Bn254.U256
