import Bn254.Fp.Basic

/-!
# Integers and numerals as elements

Integers of fixed width enter the field as their residues modulo `p`; a negative one is the
negative of its absolute value. An element can be taken a small number of times, which is to
multiply it by the element of that number.

A numeral is `0`, or digits of which the first is not zero. It may be of any length: its value
counts modulo `p`.
-/

namespace Bn254.Fp

variable {m : Type → Type} [MonadReduce m]

/-! ## Machine integers -/

/-- The element of a 32-bit integer. -/
def ofUInt32M (n : UInt32) : m Fp := ofUInt64M n.toUInt64

@[inherit_doc ofUInt32M]
def ofUInt32 (n : UInt32) : Fp := Id.run (ofUInt32M n)

/-- The element of a signed integer. -/
def ofInt64M (n : Int64) : m Fp := do
  let size ← ofUInt64M (.ofNat n.toInt.natAbs)
  return if n < 0 then -size else size

@[inherit_doc ofInt64M]
def ofInt64 (n : Int64) : Fp := Id.run (ofInt64M n)

theorem ofInt64_eq_ite (n : Int64) :
    ofInt64 n =
      if n < 0 then -ofUInt64 (.ofNat n.toInt.natAbs) else ofUInt64 (.ofNat n.toInt.natAbs) :=
  rfl

/-- The element of a 128-bit integer. -/
def ofBitVec128M (n : BitVec 128) : m Fp :=
  ofU256M ⟨.ofNat n.toNat, .ofNat (n.toNat / 2 ^ 64), 0, 0⟩

@[inherit_doc ofBitVec128M]
def ofBitVec128 (n : BitVec 128) : Fp := Id.run (ofBitVec128M n)

/-- The element of a 128-bit integer, computed in the field: its upper word doubled 64 times, plus
its lower one. -/
def ofBitVec128ByDoublingM (n : BitVec 128) : m Fp := do
  let upper ← ofUInt64M (.ofNat (n.toNat / 2 ^ 64))
  let lower ← ofUInt64M (.ofNat n.toNat)
  return Nat.repeat double 64 upper + lower

@[inherit_doc ofBitVec128ByDoublingM]
def ofBitVec128ByDoubling (n : BitVec 128) : Fp := Id.run (ofBitVec128ByDoublingM n)

/-- The element taken `k` times. -/
def mulSmallM (a : Fp) (k : Int64) : m Fp := do
  let k ← ofInt64M k
  a.mulM k

@[inherit_doc mulSmallM]
def mulSmall (a : Fp) (k : Int64) : Fp := Id.run (a.mulSmallM k)

/-! ## Decimal numerals -/

/-- The value of a decimal digit. -/
def digitValue (c : Char) : UInt64 := .ofNat (c.toNat - '0'.toNat)

/-- The element of digits to the base `ten` that follow after the number of `acc`. -/
def appendDigitsM (ten acc : Fp) (digits : List Char) : m Fp :=
  digits.foldlM (fun r c => do
    let s ← r.mulM ten
    let d ← ofUInt64M (digitValue c)
    return s + d) acc

/-- The element of decimal digits that follow after the number of `acc`. -/
def appendDigits (acc : Fp) (digits : List Char) : Fp :=
  Id.run (appendDigitsM (ofUInt64 10) acc digits)

theorem appendDigits_eq_foldl (acc : Fp) (digits : List Char) :
    appendDigits acc digits =
      digits.foldl (fun r c => r * ofUInt64 10 + ofUInt64 (digitValue c)) acc :=
  List.idRun_foldlM

/-- Is the text a decimal numeral? The digits are `0` to `9` of ASCII, and there are no leading
zeros. -/
def isNumeral : List Char → Bool
  | [] => false
  | ['0'] => true
  | '0' :: _ => false
  | digits => digits.all Char.isDigit

/-- A numeral is nothing but digits. -/
theorem all_isDigit_of_isNumeral {cs : List Char} (h : isNumeral cs = true) :
    cs.all Char.isDigit = true := by
  unfold isNumeral at h
  split at h
  · cases h
  · rfl
  · cases h
  · exact h

/-- The element of a decimal numeral. The digits in front of what is no digit are taken in before
that is seen. -/
def ofDecimalM? (text : String) : m (Option Fp) := do
  let ten ← ofUInt64M 10
  let a ← appendDigitsM ten zero (text.toList.takeWhile Char.isDigit)
  return if isNumeral text.toList then some a else none

@[inherit_doc ofDecimalM?]
def ofDecimal? (text : String) : Option Fp := Id.run (ofDecimalM? text)

theorem ofDecimal?_eq_ite_takeWhile (text : String) :
    ofDecimal? text =
      if isNumeral text.toList then
        some (appendDigits zero (text.toList.takeWhile Char.isDigit))
      else
        none := by
  rw [ofDecimal?, ofDecimalM?, Id.run_bind, Id.run_bind, Id.run_pure, ← ofUInt64, ← appendDigits]

theorem ofDecimal?_eq_ite (text : String) :
    ofDecimal? text =
      if isNumeral text.toList then some (appendDigits zero text.toList) else none := by
  rw [ofDecimal?_eq_ite_takeWhile]
  by_cases h : isNumeral text.toList = true
  · have hdigits := List.all_eq_true.1 (all_isDigit_of_isNumeral h)
    have htake : (text.toList ++ []).takeWhile Char.isDigit = text.toList ++ [].takeWhile _ :=
      List.takeWhile_append_of_pos hdigits
    rw [List.append_nil, List.takeWhile_nil, List.append_nil] at htake
    rw [htake]
  · rw [if_neg h, if_neg h]

end Bn254.Fp
