import Bn254.FieldOps.Basic
import Bn254.Proofs.Encoding
import Bn254.Proofs.Integer

/-!
# Operations that compute in a field

What a record of operations is right about is told by a relation, where `R a x` says that `a` stands
for the member `x` of a field: each operation leads from what stands for its operands to what stands
for its result. The elements need not all stand for something. Those of the base field do if their
words are below `p`.
-/

namespace Bn254

variable {α K : Type} [Field K]

/-- The operations compute in the field `K` on the elements that stand for a member of it. -/
structure FieldOps.Implements (F : FieldOps α) (R : α → K → Prop) : Prop where
  eq_iff {a b : α} {x y : K} : R a x → R b y → (a = b ↔ x = y)
  zero : R F.zero 0
  one : R F.one 1
  isZero_iff {a : α} {x : K} : R a x → (F.isZero a = true ↔ x = 0)
  isValid {a : α} {x : K} : R a x → F.isValid a = true
  add {a b : α} {x y : K} : R a x → R b y → R (F.add a b) (x + y)
  sub {a b : α} {x y : K} : R a x → R b y → R (F.sub a b) (x - y)
  mulSmall {a : α} {x : K} (k : Int64) : R a x → R (F.mulSmall a k) (x * k.toInt)
  mul {a b : α} {x y : K} : R a x → R b y → R (F.mul a b) (x * y)
  divide_zero {a b : α} {x : K} : R a x → R b 0 → F.divide a b = .error .divisionByZero
  divide {a b : α} {x y : K} : R a x → R b y → y ≠ 0 → ∃ q, F.divide a b = .ok q ∧ R q (x / y)
  neg {a : α} {x : K} : R a x → R (F.neg a) (-x)
  power {a : α} {x : K} (n : UInt64) : R a x → R (F.power a n) (x ^ n.toNat)
  powerWide {a : α} {x : K} (ws : List Word) : R a x → R (F.powerWide a ws) (x ^ wordsValue ws)
  toBytes_eq_nil_iff {a : α} {x : K} : R a x → (F.toBytes a = [] ↔ x = 0)
  head?_toBytes_ne_zero {a : α} {x : K} : R a x → ∀ b ∈ (F.toBytes a).head?, b ≠ 0

theorem Fp.implements_ops : Fp.ops.Implements Fp.Represents where
  eq_iff := Represents.eq_iff
  zero := represents_zero
  one := represents_one
  isZero_iff := by
    intro a x ha
    exact (Fp.isZero_iff a).trans ha.eq_zero_iff
  isValid := by
    intro a x ha
    exact (Fp.isValid_iff a).2 ha.1
  add := Represents.add
  sub := Represents.sub
  mulSmall := by
    intro a x k ha
    exact ha.mulSmall k
  mul := Represents.mul
  divide_zero := by
    intro a b x _ hb
    exact divide_eq_error_iff.2 (hb.eq_zero_iff.2 rfl)
  divide := by
    intro a b x y ha hb hy
    exact ha.divide hb (mt hb.eq_zero_iff.1 hy)
  neg := Represents.neg
  power := by
    intro a x n ha
    exact ha.pow (.word n)
  powerWide := by
    intro a x ws ha
    exact ha.powTrimmed ws
  toBytes_eq_nil_iff := by
    intro a x ha
    simp only [ops]
    exact ha.toBytes_eq_nil_iff
  head?_toBytes_ne_zero := by
    intro a x _
    simp only [ops]
    exact Fp.head?_toBytes_ne_zero a

namespace FieldOps

variable {F : FieldOps α} {R : α → K → Prop} {a b : α} {x y : K}

theorem Implements.eq_zero_iff (h : F.Implements R) (ha : R a x) : a = F.zero ↔ x = 0 :=
  h.eq_iff ha h.zero

/-! ## What tells zero apart -/

theorem Implements.isZero_eq_false_iff (h : F.Implements R) (ha : R a x) :
    F.isZero a = false ↔ a ≠ F.zero := by
  rw [Bool.eq_false_iff, Ne, h.isZero_iff ha, Ne, h.eq_zero_iff ha]

theorem Implements.divide_self_iff (h : F.Implements R) (ha : R a x) :
    F.divide a a = .ok F.one ↔ a ≠ F.zero := by
  rw [Ne, h.eq_zero_iff ha]
  by_cases hx : x = 0
  · rw [hx] at ha
    rw [h.divide_zero ha ha]
    exact iff_of_false nofun (fun hne => hne hx)
  · obtain ⟨q, hq, hrep⟩ := h.divide ha ha hx
    rw [hq, (h.eq_iff hrep h.one).2 (div_self hx)]
    exact iff_of_true rfl hx

theorem Implements.zero_divide_iff (h : F.Implements R) (ha : R a x) :
    F.divide F.zero a = .ok F.zero ↔ a ≠ F.zero := by
  rw [Ne, h.eq_zero_iff ha]
  by_cases hx : x = 0
  · rw [hx] at ha
    rw [h.divide_zero h.zero ha]
    exact iff_of_false nofun (fun hne => hne hx)
  · obtain ⟨q, hq, hrep⟩ := h.divide h.zero ha hx
    rw [hq, (h.eq_zero_iff hrep).2 (zero_div x)]
    exact iff_of_true rfl hx

theorem Implements.toBytes_eq_cons_iff (h : F.Implements R) (ha : R a x) :
    (∃ c cs, F.toBytes a = c :: cs ∧ c ≠ 0) ↔ a ≠ F.zero := by
  rw [Ne, h.eq_zero_iff ha, ← h.toBytes_eq_nil_iff ha]
  constructor
  · rintro ⟨c, cs, hcs, -⟩
    rw [hcs]
    exact List.cons_ne_nil c cs
  · intro hne
    obtain ⟨c, cs, hcs⟩ := List.exists_cons_of_ne_nil hne
    refine ⟨c, cs, hcs, h.head?_toBytes_ne_zero ha c ?_⟩
    rw [hcs]
    rfl

/-! ## Repeated multiplication -/

/-- One, multiplied by the element `n` times. -/
def natPow (F : FieldOps α) (a : α) (n : ℕ) : α := (fun r => F.mul r a)^[n] F.one

theorem natPow_succ (F : FieldOps α) (a : α) (n : ℕ) :
    F.natPow a (n + 1) = F.mul (F.natPow a n) a :=
  Function.iterate_succ_apply' _ n _

theorem Implements.natPow (h : F.Implements R) (ha : R a x) (n : ℕ) :
    R (F.natPow a n) (x ^ n) := by
  induction n with
  | zero =>
    rw [pow_zero]
    exact h.one
  | succ n ih =>
    rw [natPow_succ, pow_succ]
    exact h.mul ih ha

/-- An exponent of one word in the eight words of the wide one. -/
def wideExponent (n : UInt64) : List Word := n :: List.replicate 7 0

theorem wordsValue_wideExponent (n : UInt64) : wordsValue (wideExponent n) = n.toNat := by
  rw [wideExponent, wordsValue_cons, wordsValue_replicate_zero, Nat.mul_zero, Nat.add_zero]

theorem Implements.power_eq (h : F.Implements R) (ha : R a x) (n : UInt64) :
    F.power a n = F.natPow a n.toNat :=
  (h.eq_iff (h.power n ha) (h.natPow ha n.toNat)).2 rfl

theorem Implements.powerWide_eq (h : F.Implements R) (ha : R a x) (n : UInt64) :
    F.powerWide a (wideExponent n) = F.natPow a n.toNat := by
  have hwide := h.powerWide (wideExponent n) ha
  rw [wordsValue_wideExponent] at hwide
  exact (h.eq_iff hwide (h.natPow ha n.toNat)).2 rfl

end FieldOps

end Bn254
