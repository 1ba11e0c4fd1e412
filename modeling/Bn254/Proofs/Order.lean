import Bn254.Proofs.Encoding
import Mathlib.Data.List.TFAE

/-!
# Equality, order and hashes

Equality and hashes look at the stored words, the order and the encodings at the number that they
stand for. On words below `p` each of them determines the other, so all of these tell the same
elements apart. The order is that of the numbers, which is the lexicographic order of their 32 bytes,
most significant byte first.
-/

namespace Bn254

/-! ## Bytes in lexicographic order -/

namespace Bytes

/-- The digit in front decides; the rest counts if the digits are equal. -/
theorem compare_digit {c m n u v : ℕ} (hu : u < c) (hv : v < c) :
    compare (m * c + u) (n * c + v) = (compare m n).then (compare u v) := by
  rcases Nat.lt_trichotomy m n with h | rfl | h
  · have hle : (m + 1) * c ≤ n * c := Nat.mul_le_mul_right c h
    rw [Nat.add_one_mul] at hle
    rw [Nat.compare_eq_lt.2 h, Nat.compare_eq_lt.2 (by omega)]
    rfl
  · rw [Nat.compare_eq_eq.2 rfl, Ordering.eq_then]
    simp only [compare, compareOfLessAndEq, Nat.add_lt_add_iff_left, Nat.add_left_cancel_iff]
  · have hle : (n + 1) * c ≤ m * c := Nat.mul_le_mul_right c h
    rw [Nat.add_one_mul] at hle
    rw [Nat.compare_eq_gt.2 h, Nat.compare_eq_gt.2 (by omega)]
    rfl

theorem compare_byte (a b : UInt8) : compare a b = compare a.toNat b.toNat := by
  simp only [compare, compareOfLessAndEq, UInt8.lt_iff_toNat_lt, UInt8.toNat_inj]

theorem compare_value {as bs : Bytes} (h : as.length = bs.length) :
    compare as.value bs.value = compare as bs := by
  induction as generalizing bs with
  | nil =>
    rw [List.eq_nil_of_length_eq_zero h.symm]
    rfl
  | cons a as ih =>
    cases bs with
    | nil => cases h
    | cons b bs =>
      have hlen : as.length = bs.length := Nat.succ.inj h
      have has := value_lt as
      rw [hlen] at has
      rw [value_cons, value_cons, hlen, compare_digit has (value_lt bs), ih hlen, ← compare_byte,
        List.compare_cons_cons]

end Bytes

/-! ## Words as bytes, least significant first -/

theorem Word.toBytes_reverse_inj {v w : Word} (h : v.toBytes.reverse = w.toBytes.reverse) :
    v = w := by
  have hbytes : v.toBytes = w.toBytes := List.reverse_injective h
  rw [← UInt64.toNat_inj, ← value_toBytes, hbytes, value_toBytes]

/-- Every word has eight bytes, so it is known where the next one starts. -/
theorem Word.flatMap_toBytes_reverse_inj {vs ws : List Word} (hlen : vs.length = ws.length)
    (h : vs.flatMap (·.toBytes.reverse) = ws.flatMap (·.toBytes.reverse)) : vs = ws := by
  induction vs generalizing ws with
  | nil => exact (List.eq_nil_of_length_eq_zero hlen.symm).symm
  | cons v vs ih =>
    cases ws with
    | nil => cases hlen
    | cons w ws =>
      rw [List.flatMap_cons, List.flatMap_cons] at h
      have hsize : v.toBytes.reverse.length = w.toBytes.reverse.length := by
        rw [List.length_reverse, List.length_reverse, length_toBytes, length_toBytes]
      obtain ⟨hhead, htail⟩ := List.append_inj h hsize
      rw [toBytes_reverse_inj hhead, ih (Nat.succ.inj hlen) htail]

theorem U256.words_inj {a b : U256} : a.words = b.words ↔ a = b := by
  simp only [words, List.cons.injEq, and_true, U256.ext_iff]

namespace Fp

variable {a b c : Fp}

/-! ## What tells elements apart -/

theorem hashBytes_inj : a.hashBytes = b.hashBytes ↔ a = b := by
  refine ⟨?_, congrArg hashBytes⟩
  intro h
  have hwords := Word.flatMap_toBytes_reverse_inj (by rfl) h
  exact Fp.ext (U256.words_inj.1 (List.cons.inj hwords).2)

theorem Reduced.toNat_inj (ha : a.Reduced) (hb : b.Reduced) : a.toNat = b.toNat ↔ a = b :=
  bijOn_toNat.injOn.eq_iff ha hb

theorem Reduced.canonical_inj (ha : a.Reduced) (hb : b.Reduced) :
    a.canonical = b.canonical ↔ a = b := by
  rw [← U256.toNat_inj]
  exact ha.toNat_inj hb

theorem value_toBytes (a : Fp) : a.toBytes.toList.value = a.toNat := by
  rw [MinimalBytes.toList, Bytes.value_trim]
  exact value_toBytes32 a

theorem Reduced.toBytes_toList_inj (ha : a.Reduced) (hb : b.Reduced) :
    a.toBytes.toList = b.toBytes.toList ↔ a = b := by
  refine ⟨?_, fun h => h ▸ rfl⟩
  intro h
  rw [← ha.toNat_inj hb, ← value_toBytes, h, value_toBytes]

theorem Reduced.toBytes_inj (ha : a.Reduced) (hb : b.Reduced) : a.toBytes = b.toBytes ↔ a = b := by
  refine ⟨?_, congrArg toBytes⟩
  intro h
  exact (ha.toBytes_toList_inj hb).1 (congrArg MinimalBytes.toList h)

theorem Reduced.isZero_sub_iff (ha : a.Reduced) (hb : b.Reduced) :
    (a - b).isZero = true ↔ a = b := by
  have hsub := ha.represents.sub hb.represents
  rw [isZero_iff, hsub.eq_zero_iff, sub_eq_zero]
  exact (ha.represents.eq_iff hb.represents).symm

/-! ## The order -/

theorem compare_eq_compare_toNat (a b : Fp) : a.compare b = Ord.compare a.toNat b.toNat :=
  U256.compare_eq _ _

theorem compare_eq_compare_toBytes32 (a b : Fp) :
    a.compare b = Ord.compare a.toBytes32.toList b.toBytes32.toList := by
  have hlen : a.toBytes32.toList.length = b.toBytes32.toList.length := by
    rw [a.toBytes32.length_eq, b.toBytes32.length_eq]
  rw [compare_eq_compare_toNat, ← value_toBytes32, ← value_toBytes32]
  exact Bytes.compare_value hlen

theorem compare_eq_eq_iff : a.compare b = .eq ↔ a.toNat = b.toNat := by
  rw [compare_eq_compare_toNat, Nat.compare_eq_eq]

theorem Reduced.compare_eq_eq_iff (ha : a.Reduced) (hb : b.Reduced) :
    a.compare b = .eq ↔ a = b :=
  Fp.compare_eq_eq_iff.trans (ha.toNat_inj hb)

instance : Std.TransCmp Fp.compare where
  eq_swap := by
    intro a b
    rw [compare_eq_compare_toNat, compare_eq_compare_toNat]
    exact Std.OrientedCmp.eq_swap
  isLE_trans := by
    intro a b c hab hbc
    rw [compare_eq_compare_toNat] at hab hbc ⊢
    exact Std.TransCmp.isLE_trans hab hbc

theorem isLE_compare_total (a b : Fp) : (a.compare b).isLE = true ∨ (b.compare a).isLE = true := by
  simp only [compare_eq_compare_toNat, Nat.isLE_compare]
  exact Nat.le_total _ _

theorem Reduced.isLE_compare_antisymm (ha : a.Reduced) (hb : b.Reduced)
    (hab : (a.compare b).isLE = true) (hba : (b.compare a).isLE = true) : a = b := by
  rw [compare_eq_compare_toNat, Nat.isLE_compare] at hab hba
  exact (ha.toNat_inj hb).1 (Nat.le_antisymm hab hba)

/-- On words below `p`, whatever compares two elements comes to the same answer on whether they are
equal: both tests, the numbers, the order, what is hashed, the shortest encodings and the difference.
The order is total, and it is that of the numbers and of their 32 bytes. -/
theorem equality_order_and_hash_agree (a b : Fp) (ha : a.Reduced) (hb : b.Reduced) :
    [(a == b) = true, a.sameWords b = true, a.canonical = b.canonical, a.compare b = .eq,
      a.hashBytes = b.hashBytes, a.toBytes = b.toBytes, a.toBytes.toList = b.toBytes.toList,
      (a - b).isZero = true].TFAE ∧
    (a.compare b = Ord.compare a.toNat b.toNat ∧
      a.compare b = Ord.compare a.toBytes32.toList b.toBytes32.toList) ∧
    a.partialCompare b = some (a.compare b) ∧
    (b.compare a = (a.compare b).swap ∧
      ((a.compare b).isLE = true ∨ (b.compare a).isLE = true) ∧
      ((a.compare b).isLE = true → (b.compare a).isLE = true → a = b) ∧
      ∀ c : Fp, (a.compare b).isLE = true → (b.compare c).isLE = true →
        (a.compare c).isLE = true) := by
  refine ⟨?_, ⟨compare_eq_compare_toNat a b, compare_eq_compare_toBytes32 a b⟩, rfl, ?_⟩
  · refine List.tfae_of_forall (a = b) _ ?_
    simp only [List.forall_mem_cons, List.not_mem_nil, false_imp_iff, implies_true, and_true]
    exact ⟨beq_iff_eq, sameWords_iff a b, ha.canonical_inj hb, ha.compare_eq_eq_iff hb,
      hashBytes_inj, ha.toBytes_inj hb, ha.toBytes_toList_inj hb, ha.isZero_sub_iff hb⟩
  · exact ⟨Std.OrientedCmp.eq_swap, isLE_compare_total a b, ha.isLE_compare_antisymm hb,
      fun c => Std.TransCmp.isLE_trans⟩

/-- The stored form of one is large, and that of the element with stored form one is small. The order
goes by the numbers. -/
theorem equality_order_and_hash_agree_against_words :
    let a : Fp := one
    let b : Fp := ⟨.ofWord 1⟩
    a.Reduced ∧ b.Reduced ∧ b.words.compare a.words = .lt ∧
      a.compare b = .lt ∧ Ord.compare a.toBytes32.toList b.toBytes32.toList = .lt ∧
      a.hashBytes ≠ b.hashBytes ∧ (a.compare (-one)).isLE = true := by
  intro a b
  have hb : b.Reduced := by decide
  have hlt : a.compare b = .lt := by decide +kernel
  have hle : (b.compare (-one)).isLE = true := by decide +kernel
  obtain ⟨hsame, ⟨-, hlex⟩, -, -, -, -, htrans⟩ :=
    equality_order_and_hash_agree a b reduced_one hb
  have hhash : a.compare b = .eq ↔ a.hashBytes = b.hashBytes := hsame.out 3 4
  refine ⟨reduced_one, hb, by decide +kernel, hlt, hlex ▸ hlt, ?_, ?_⟩
  · rw [Ne, ← hhash, hlt]
    decide
  · exact htrans (-one) (by rw [hlt]; rfl) hle

end Fp

end Bn254
