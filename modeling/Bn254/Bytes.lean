import Bn254.Word

/-!
# Byte strings

Byte strings as big-endian integers, strings of exactly 32 bytes, and the cutting of a string into
blocks of 32. The value of a string joined from two is told by `Bytes.value_append`; leading zero
bytes leave it alone.
-/

namespace Bn254

/-- A string of bytes, first byte first. -/
abbrev Bytes := List UInt8

namespace Bytes

/-- How many strings of `k` bytes there are. -/
def count : Nat → Nat
  | 0 => 1
  | k + 1 => count k * 256

/-- The big-endian integer that the bytes write. The empty string writes zero. -/
def value (bs : Bytes) : Nat := bs.foldl (fun n b => 256 * n + b.toNat) 0

/-- The `k` low bytes of `n`, most significant first. -/
def ofNat : Nat → Nat → Bytes
  | 0, _ => []
  | k + 1, n => ofNat k (n / 256) ++ [.ofNat n]

/-- The string without its leading zero bytes. -/
def trim (bs : Bytes) : Bytes := bs.dropWhile (· == 0)

/-- The bits of the bytes, most significant first. -/
def bits (bs : Bytes) : List Bool :=
  bs.flatMap fun b => [7, 6, 5, 4, 3, 2, 1, 0].map fun i : UInt8 => (b >>> i) &&& 1 == 1

theorem count_pos (k : Nat) : 0 < count k := by
  induction k with
  | zero => decide
  | succ k ih => rw [count]; omega

theorem count_le {j k : Nat} (h : j ≤ k) : count j ≤ count k := by
  induction h with
  | refl => exact Nat.le_refl _
  | step _ ih => rw [count]; omega

theorem value_foldl (bs : Bytes) (n : Nat) :
    bs.foldl (fun n b => 256 * n + b.toNat) n = n * count bs.length + value bs := by
  induction bs generalizing n with
  | nil => simp [value, count]
  | cons b bs ih =>
    simp only [value, List.foldl_cons, List.length_cons, Nat.mul_zero, Nat.zero_add]
    rw [ih, ih b.toNat, count, Nat.add_mul, Nat.add_assoc]
    congr 1
    rw [Nat.mul_comm 256 n, Nat.mul_assoc, Nat.mul_comm 256]

theorem value_cons (b : UInt8) (bs : Bytes) :
    value (b :: bs) = b.toNat * count bs.length + value bs := by
  simp only [value, List.foldl_cons, Nat.mul_zero, Nat.zero_add]
  exact value_foldl bs b.toNat

theorem value_append (as bs : Bytes) :
    value (as ++ bs) = value as * count bs.length + value bs := by
  simp only [value, List.foldl_append]
  exact value_foldl bs _

theorem value_lt (bs : Bytes) : value bs < count bs.length := by
  induction bs with
  | nil => decide
  | cons b bs ih =>
    have hb := b.toNat_lt
    have h : b.toNat * count bs.length ≤ 255 * count bs.length :=
      Nat.mul_le_mul_right _ (by omega)
    rw [value_cons, List.length_cons, count]
    omega

/-- Strings of one length are told apart by their values. -/
theorem eq_of_value_eq {as bs : Bytes} (hl : as.length = bs.length) (h : value as = value bs) :
    as = bs := by
  induction as generalizing bs with
  | nil => exact (List.length_eq_zero_iff.1 hl.symm).symm
  | cons a as ih =>
    cases bs with
    | nil => simp at hl
    | cons b bs =>
      simp only [List.length_cons, Nat.add_right_cancel_iff] at hl
      have ha := value_lt as
      have hb := value_lt bs
      rw [value_cons, value_cons, hl] at h
      rw [hl] at ha
      have hpos : 0 < count bs.length := count_pos _
      have hdiv (c : UInt8) {v : Nat} (hv : v < count bs.length) :
          (c.toNat * count bs.length + v) / count bs.length = c.toNat := by
        rw [Nat.mul_comm, Nat.mul_add_div hpos, Nat.div_eq_of_lt hv, Nat.add_zero]
      have hab : a.toNat = b.toNat := by rw [← hdiv a ha, h, hdiv b hb]
      rw [hab] at h
      rw [UInt8.toNat_inj.1 hab, ih hl (Nat.add_left_cancel h)]

@[simp] theorem length_ofNat (k n : Nat) : (ofNat k n).length = k := by
  induction k generalizing n with
  | zero => rfl
  | succ k ih => simp [ofNat, ih]

/-- As many bytes as are asked for keep the number modulo the count of such strings. -/
theorem value_ofNat (k n : Nat) : value (ofNat k n) = n % count k := by
  induction k generalizing n with
  | zero => simp [ofNat, value, count, Nat.mod_one]
  | succ k ih =>
    rw [ofNat, value_append, ih, count, Nat.mul_comm (count k), Nat.mod_mul]
    simp only [value, List.foldl_cons, List.foldl_nil, List.length_singleton, UInt8.toNat_ofNat']
    rw [show count 1 = 256 from rfl]
    omega

theorem value_replicate_zero_append (n : Nat) (bs : Bytes) :
    value (List.replicate n 0 ++ bs) = value bs := by
  induction n with
  | zero => rfl
  | succ n ih => rw [List.replicate_succ, List.cons_append, value_cons, ih]; simp

theorem value_trim (bs : Bytes) : value (trim bs) = value bs := by
  induction bs with
  | nil => rfl
  | cons b bs ih =>
    by_cases hb : b = 0
    · rw [value_cons, hb, ← ih]
      simp [trim]
    · simp [trim, hb]

end Bytes

/-! ## Blocks of 32 bytes -/

/-- A string of 32 bytes. -/
@[ext]
structure Bytes32 where
  /-- The bytes. -/
  toList : Bytes
  /-- There are 32 of them. -/
  length_eq : toList.length = 32
deriving DecidableEq

namespace Bytes32

/-- The string, if it has 32 bytes. -/
def ofList? (bs : Bytes) : Option Bytes32 :=
  if h : bs.length = 32 then some ⟨bs, h⟩ else none

/-- The string with as many zero bytes in front as 32 take. -/
def padLeft (bs : Bytes) (h : bs.length ≤ 32) : Bytes32 :=
  ⟨List.replicate (32 - bs.length) 0 ++ bs, by simp; omega⟩

/-- The big-endian integer that the bytes write. -/
def value (b : Bytes32) : Nat := b.toList.value

/-- The bytes in front of whole blocks of 32 can be padded to one. -/
theorem length_front_le (bs : Bytes) : (bs.take (bs.length % 32)).length ≤ 32 :=
  Nat.le_trans (List.length_take_le _ bs) (Nat.le_of_lt (Nat.mod_lt _ (by decide)))

/-- The first byte replaced by what `f` makes of it. -/
def mapHead (f : UInt8 → UInt8) (b : Bytes32) : Bytes32 :=
  ⟨b.toList.modifyHead f, by simp [b.length_eq]⟩

/-- A 256-bit number in big-endian bytes. -/
def ofBitVec (n : BitVec 256) : Bytes32 :=
  ⟨.ofNat 32 n.toNat, by simp⟩

/-- The 256-bit number that the bytes write. -/
def toBitVec (b : Bytes32) : BitVec 256 := .ofNat 256 b.value

theorem value_lt (b : Bytes32) : b.value < 2 ^ 256 := by
  have h := Bytes.value_lt b.toList
  rw [b.length_eq] at h
  exact h

theorem value_inj {b c : Bytes32} : b.value = c.value ↔ b = c :=
  ⟨fun h => Bytes32.ext (Bytes.eq_of_value_eq (by rw [b.length_eq, c.length_eq]) h),
    fun h => h ▸ rfl⟩

theorem value_ofBitVec (n : BitVec 256) : (ofBitVec n).value = n.toNat := by
  rw [value, ofBitVec, Bytes.value_ofNat]
  exact Nat.mod_eq_of_lt n.isLt

theorem value_padLeft (bs : Bytes) (h : bs.length ≤ 32) : (padLeft bs h).value = bs.value :=
  Bytes.value_replicate_zero_append _ bs

theorem toBitVec_ofBitVec (n : BitVec 256) : (ofBitVec n).toBitVec = n := by
  rw [toBitVec, value_ofBitVec, BitVec.ofNat_toNat, BitVec.setWidth_eq]

theorem ofBitVec_toBitVec (b : Bytes32) : ofBitVec b.toBitVec = b := by
  rw [← value_inj, value_ofBitVec, toBitVec, BitVec.toNat_ofNat]
  exact Nat.mod_eq_of_lt b.value_lt

theorem ofList?_eq_some_iff {bs : Bytes} {b : Bytes32} : ofList? bs = some b ↔ b.toList = bs := by
  refine ⟨fun h => ?_, fun h => ?_⟩
  · unfold ofList? at h
    split at h
    · cases h
      rfl
    · cases h
  · subst h
    simp [ofList?, b.length_eq]

theorem length_of_ofList? {bs : Bytes} {b : Bytes32} (h : ofList? bs = some b) :
    bs.length = 32 := by
  rw [← ofList?_eq_some_iff.1 h, b.length_eq]

theorem ofList?_toList (b : Bytes32) : ofList? b.toList = some b := ofList?_eq_some_iff.2 rfl

end Bytes32

/-- The whole blocks of 32 bytes that the string starts with. What is left over at the end, less
than a block, is dropped. -/
def Bytes.blocks (bs : Bytes) : List Bytes32 :=
  if h : (bs.take 32).length = 32 then
    ⟨bs.take 32, h⟩ :: Bytes.blocks (bs.drop 32)
  else
    []
termination_by bs.length
decreasing_by
  simp only [List.length_take, List.length_drop] at h ⊢
  omega

/-! ## Words as bytes -/

namespace Word

/-- The eight bytes of a word, most significant first. -/
def toBytes (w : Word) : Bytes := .ofNat 8 w.toNat

/-- The word shifted up by a byte, with `b` in the place that falls free. -/
def shiftIn (w : Word) (b : UInt8) : Word := (w <<< 8) ||| b.toUInt64

/-- The word that bytes write, each shifted in after those before it. -/
def ofBytes (bs : Bytes) : Word := bs.foldl shiftIn 0

/-- The bits of a word, most significant first. -/
def bits (w : Word) : List Bool :=
  (List.range 64).reverse.map fun i => (w >>> .ofNat i) &&& 1 == 1

@[simp] theorem length_toBytes (w : Word) : w.toBytes.length = 8 := Bytes.length_ofNat 8 _

theorem value_toBytes (w : Word) : w.toBytes.value = w.toNat := by
  rw [toBytes, Bytes.value_ofNat]
  exact Nat.mod_eq_of_lt w.toNat_lt

theorem shiftIn_toNat (w : Word) (b : UInt8) (h : 256 * w.toNat < 2 ^ 64) :
    (shiftIn w b).toNat = 256 * w.toNat + b.toNat := by
  have hb := b.toNat_lt
  simp only [shiftIn, UInt64.toNat_or, UInt64.toNat_shiftLeft, UInt64.reduceToNat, Nat.reduceMod,
    UInt8.toNat_toUInt64, Nat.shiftLeft_eq]
  rw [Nat.mod_eq_of_lt (by omega), Nat.mul_comm, ← Nat.two_pow_add_eq_or_of_lt hb]

theorem foldl_shiftIn_toNat (bs : Bytes) (w : Word)
    (h : (w.toNat + 1) * Bytes.count bs.length ≤ 2 ^ 64) :
    (bs.foldl shiftIn w).toNat = bs.foldl (fun n b => 256 * n + b.toNat) w.toNat := by
  induction bs generalizing w with
  | nil => rfl
  | cons b bs ih =>
    have hb := b.toNat_lt
    have hpos : 0 < Bytes.count bs.length := Bytes.count_pos _
    rw [List.length_cons, Bytes.count, Nat.mul_comm (Bytes.count _), ← Nat.mul_assoc] at h
    have hw : (w.toNat + 1) * 256 ≤ 2 ^ 64 :=
      Nat.le_trans (Nat.le_mul_of_pos_right _ hpos) h
    have hs := shiftIn_toNat w b (by omega)
    have hle : (shiftIn w b).toNat + 1 ≤ (w.toNat + 1) * 256 := by omega
    rw [List.foldl_cons, List.foldl_cons, ih _ (Nat.le_trans (Nat.mul_le_mul_right _ hle) h), hs]

/-- Up to eight bytes fit in a word. -/
theorem ofBytes_toNat (bs : Bytes) (h : bs.length ≤ 8) : (ofBytes bs).toNat = bs.value :=
  foldl_shiftIn_toNat bs 0 <| by
    rw [show (0 : Word).toNat + 1 = 1 from rfl, Nat.one_mul]
    exact Bytes.count_le h

end Word

end Bn254
