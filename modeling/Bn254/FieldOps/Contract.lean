import Bn254.FieldOps.Basic

/-!
# Checks on the operations of a field

Eleven checks that the operations of a field pass, each run on the same four sample elements, on
their pairs or on their triples. A check uses nothing of the field but its operations and the
equality of its elements.
-/

namespace Bn254.FieldOps

variable {α : Type} [DecidableEq α] (F : FieldOps α)

/-- The elements that are tried: two small ones, one of them negative, a larger one and a power. -/
def samples : List α :=
  [F.mulSmall F.one 5, F.mulSmall F.one (-7), F.mulSmall F.one 123456789,
    F.power (F.mulSmall F.one 3) 200]

/-- The checks. -/
inductive Check
  /-- Zero is zero and changes nothing when it is added, and no sample is zero. -/
  | additiveIdentity
  /-- One changes nothing when it is multiplied. -/
  | multiplicativeIdentity
  /-- An element and its negative add up to zero, and its difference with itself is zero. -/
  | additiveInverse
  /-- To subtract what was added gives back the element. -/
  | subtractUndoesAdd
  /-- An element divided by itself is one. -/
  | selfDivision
  /-- Nothing is divided by zero, and zero can be divided by all else. -/
  | divisionByZero
  /-- The laws of commutativity and associativity, and that products distribute over sums. -/
  | commutativityAndAssociativity
  /-- Multiples by small numbers agree with sums and negatives. -/
  | multiplyScalar
  /-- Powers up to the thirty-ninth agree with repeated multiplication, on both routes. -/
  | powerConsistency
  /-- Zero encodes as no bytes, and all else as bytes of which the first is not zero. -/
  | serialization
  /-- Zero, one and the samples are valid. -/
  | validity
deriving DecidableEq

/-- Do the powers of `a` agree with repeated multiplication, for the `count` exponents from `n` on?
The power before them is `previous`. -/
def powersAgree (a : α) : (count : Nat) → (n : UInt64) → (previous : α) → Bool
  | 0, _, _ => true
  | count + 1, n, previous =>
    let expected := F.mul previous a
    F.power a n == expected &&
    F.power a n == F.mul (F.power a (n - 1)) a &&
    F.powerWide a (n :: List.replicate 7 0) == expected &&
    powersAgree a count (n + 1) expected

/-- Does the check pass? -/
def passes : Check → Bool
  | .additiveIdentity =>
    F.isZero F.zero && F.samples.all fun a =>
      F.add a F.zero == a && F.add F.zero a == a && !F.isZero a
  | .multiplicativeIdentity =>
    F.samples.all fun a => F.mul a F.one == a && F.mul F.one a == a
  | .additiveInverse =>
    (F.samples.all fun a => F.add a (F.neg a) == F.zero && F.sub a a == F.zero) &&
      F.neg F.zero == F.zero
  | .subtractUndoesAdd =>
    F.samples.all fun a => F.samples.all fun b => F.sub (F.add a b) b == a
  | .selfDivision =>
    F.samples.all fun a => F.divide a a == .ok F.one
  | .divisionByZero =>
    F.divide F.zero F.zero == .error .divisionByZero && F.samples.all fun a =>
      F.divide a F.zero == .error .divisionByZero && F.divide F.zero a == .ok F.zero
  | .commutativityAndAssociativity =>
    F.samples.all fun a => F.samples.all fun b =>
      F.add a b == F.add b a && F.mul a b == F.mul b a && F.samples.all fun c =>
        F.add (F.add a b) c == F.add a (F.add b c) &&
        F.mul (F.mul a b) c == F.mul a (F.mul b c) &&
        F.mul a (F.add b c) == F.add (F.mul a b) (F.mul a c)
  | .multiplyScalar =>
    F.samples.all fun a =>
      F.mulSmall a 3 == F.add (F.add a a) a &&
      F.mulSmall a (-1) == F.neg a &&
      F.mulSmall a 0 == F.zero
  | .powerConsistency =>
    F.samples.all fun a =>
      F.power a 0 == F.one && F.power a 1 == a && F.power a 2 == F.mul a a &&
      F.powersAgree a 39 1 F.one
  | .serialization =>
    (F.toBytes F.zero).isEmpty && F.samples.all fun a =>
      (F.toBytes a).head?.any (· != 0)
  | .validity =>
    F.isValid F.zero && F.isValid F.one && F.samples.all F.isValid

/-- All checks, in the order that they are reported in. -/
def Check.all : List Check :=
  [additiveIdentity, multiplicativeIdentity, additiveInverse, subtractUndoesAdd, selfDivision,
    divisionByZero, commutativityAndAssociativity, multiplyScalar, powerConsistency, serialization,
    validity]

/-- The name that a check is reported by. -/
def Check.name : Check → String
  | additiveIdentity => "additive_identity"
  | multiplicativeIdentity => "multiplicative_identity"
  | additiveInverse => "additive_inverse"
  | subtractUndoesAdd => "subtract_undoes_add"
  | selfDivision => "self_division"
  | divisionByZero => "division_by_zero"
  | commutativityAndAssociativity => "commutativity_and_associativity"
  | multiplyScalar => "multiply_scalar"
  | powerConsistency => "power_consistency"
  | serialization => "serialization"
  | validity => "validity"

/-- The outcome of every check. -/
def report : List (Check × Bool) := Check.all.map fun c => (c, F.passes c)

end Bn254.FieldOps
