import Bn254.FieldOps.Fault
import Bn254.Proofs.Detection

/-!
# What the checks notice of a fault

A fault is in one operation, and leaves all others as they are. So the checks that do not call this
operation pass with the fault. Where the operation makes no samples, the fault is a replacement: it goes
unnoticed exactly if the spoilt operation is right at the points at which the checks try it. A fault in
the power gives another power, which makes a sample of its own.
-/

namespace Bn254

open FieldOps

variable {f : Fault}

namespace Fault

/-- The operation that the fault is in. -/
def op : Fault → Op
  | zero _ => .zero
  | one _ => .one
  | isZero _ => .isZero
  | isValid _ => .isValid
  | add _ => .add
  | sub _ => .sub
  | mulSmall _ => .mulSmall
  | mul _ => .mul
  | divide _ => .divide
  | neg _ => .neg
  | power _ => .power
  | powerWide _ => .powerWide
  | toBytes _ => .toBytes

theorem agree_ops (f : Fault) : ∀ o ≠ f.op, o.Agree Fp.ops f.ops := by
  intro o ho
  cases f <;> cases o <;> first | exact absurd rfl ho | simp only [Op.Agree, ops]

theorem passes_ops {c : Check} (h : f.op ∉ c.calls) : f.ops.passes c = true :=
  Fp.passes_of_agree f.agree_ops h

/-- The function that the fault puts in the place of an operation that makes no samples. -/
def replacement? : Fault → Option (Replacement Fp)
  | isZero f => some (.isZero fun a => f.spoil a.isZero)
  | isValid f => some (.isValid fun a => f.spoil a.isValid)
  | sub f => some (.sub fun a b => f.spoil a (a - b))
  | divide f => some (.divide fun a b => f.spoil a (a.divide b))
  | neg f => some (.neg fun a => f.spoil a (-a))
  | powerWide f => some (.powerWide fun a e => f.spoil a (a.powTrimmed e))
  | toBytes f => some (.toBytes f.spoil)
  | zero _ | one _ | add _ | mulSmall _ | mul _ | power _ => none

theorem ops_eq_replace {r : Replacement Fp} (h : f.replacement? = some r) :
    f.ops = Fp.ops.replace r := by
  cases f <;> cases h <;> rfl

theorem forall_passes_ops_iff {r : Replacement Fp} (h : f.replacement? = some r) :
    (∀ c, f.ops.passes c = true) ↔ r.RightAt Fp.ops Fp.ops.samples := by
  rw [ops_eq_replace h]
  exact Fp.forall_passes_replace_iff r

/-- A fault in the power is another power. -/
theorem ops_power_eq_withPower (f : ResultFault) :
    (power f).ops = Fp.ops.withPower fun a e => f.spoil a (a.power e) :=
  rfl

end Fault

end Bn254
