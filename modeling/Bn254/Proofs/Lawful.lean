import Bn254.Proofs.Detection
import Mathlib.Algebra.Field.IsField
import Mathlib.Algebra.Field.ZMod
import Mathlib.Algebra.Ring.MinimalAxioms

/-!
# The checks on lawful operations

The laws of a field, asked of the operations themselves and for all elements that count, make those
elements a field that the operations compute in. What the checks ask for follows from the laws, up to
the samples being other than zero, which is a condition on four multiples of one. It is met in the base
field and in every field built on it.
-/

namespace Bn254.FieldOps

variable {α : Type}

/-- The sum of `n` copies of an element. -/
def natMul (F : FieldOps α) (n : ℕ) (a : α) : α := (fun r => F.add r a)^[n] F.zero

/-- The sum of `k` copies of an element, or of copies of its negative if `k` is negative. -/
def intMul (F : FieldOps α) : ℤ → α → α
  | .ofNat n, a => F.natMul n a
  | .negSucc n, a => F.neg (F.natMul (n + 1) a)

/-- The operations are those of a field on the elements in `E`. These are all elements of the type if it
has no others, and in the base field the ones with words below `p`. -/
structure Lawful (F : FieldOps α) (E : α → Prop) : Prop where
  zero_mem : E F.zero
  one_mem : E F.one
  add_mem {a b : α} : E a → E b → E (F.add a b)
  neg_mem {a : α} : E a → E (F.neg a)
  mul_mem {a b : α} : E a → E b → E (F.mul a b)
  protected add_assoc {a b c : α} : E a → E b → E c → F.add (F.add a b) c = F.add a (F.add b c)
  protected add_comm {a b : α} : E a → E b → F.add a b = F.add b a
  protected zero_add {a : α} : E a → F.add F.zero a = a
  protected neg_add_cancel {a : α} : E a → F.add (F.neg a) a = F.zero
  protected sub_eq_add_neg {a b : α} : E a → E b → F.sub a b = F.add a (F.neg b)
  protected mul_assoc {a b c : α} : E a → E b → E c → F.mul (F.mul a b) c = F.mul a (F.mul b c)
  protected mul_comm {a b : α} : E a → E b → F.mul a b = F.mul b a
  protected one_mul {a : α} : E a → F.mul F.one a = a
  protected mul_add {a b c : α} : E a → E b → E c → F.mul a (F.add b c) = F.add (F.mul a b) (F.mul a c)
  protected one_ne_zero : F.one ≠ F.zero
  divide_zero {a : α} : E a → F.divide a F.zero = .error .divisionByZero
  divide {a b : α} : E a → E b → b ≠ F.zero → ∃ q, F.divide a b = .ok q ∧ E q ∧ F.mul q b = a
  mulSmall {a : α} (k : Int64) : E a → F.mulSmall a k = F.intMul k.toInt a
  power {a : α} (n : UInt64) : E a → F.power a n = F.natPow a n.toNat
  powerWide {a : α} (ws : List Word) : E a → F.powerWide a ws = F.natPow a (wordsValue ws)
  isZero_iff {a : α} : E a → (F.isZero a = true ↔ a = F.zero)
  isValid {a : α} : E a → F.isValid a = true
  toBytes_zero : F.toBytes F.zero = []
  toBytes {a : α} : E a → a ≠ F.zero → ∃ b bs, F.toBytes a = b :: bs ∧ b ≠ 0

namespace Lawful

variable {F : FieldOps α} {E : α → Prop}

/-! ## The field of the elements -/

/-- An element that the laws hold of. -/
@[ext]
structure Elem (h : F.Lawful E) where
  val : α
  mem : E val

variable (h : F.Lawful E)

instance : Zero h.Elem := ⟨⟨F.zero, h.zero_mem⟩⟩
instance : One h.Elem := ⟨⟨F.one, h.one_mem⟩⟩
instance : Add h.Elem := ⟨fun x y => ⟨F.add x.val y.val, h.add_mem x.mem y.mem⟩⟩
instance : Neg h.Elem := ⟨fun x => ⟨F.neg x.val, h.neg_mem x.mem⟩⟩
instance : Mul h.Elem := ⟨fun x y => ⟨F.mul x.val y.val, h.mul_mem x.mem y.mem⟩⟩

theorem val_eq_zero_iff (x : h.Elem) : x.val = F.zero ↔ x = 0 :=
  ⟨fun heq => Elem.ext heq, congrArg Elem.val⟩

instance : CommRing h.Elem :=
  CommRing.ofMinimalAxioms
    (fun x y z => Elem.ext (h.add_assoc x.mem y.mem z.mem))
    (fun x => Elem.ext (h.zero_add x.mem))
    (fun x => Elem.ext (h.neg_add_cancel x.mem))
    (fun x y z => Elem.ext (h.mul_assoc x.mem y.mem z.mem))
    (fun x y => Elem.ext (h.mul_comm x.mem y.mem))
    (fun x => Elem.ext (h.one_mul x.mem))
    (fun x y z => Elem.ext (h.mul_add x.mem y.mem z.mem))

/-- The quotient of one by an element is its inverse. -/
theorem isField : IsField h.Elem where
  exists_pair_ne := ⟨1, 0, fun heq => h.one_ne_zero (congrArg Elem.val heq)⟩
  mul_comm x y := Elem.ext (h.mul_comm x.mem y.mem)
  mul_inv_cancel := by
    intro x hx
    have hne : x.val ≠ F.zero := mt (h.val_eq_zero_iff x).1 hx
    obtain ⟨q, -, hq, hmul⟩ := h.divide h.one_mem x.mem hne
    refine ⟨⟨q, hq⟩, Elem.ext ?_⟩
    exact (h.mul_comm x.mem hq).trans hmul

noncomputable instance : Field h.Elem := h.isField.toField

theorem natMul_eq_nsmul (n : ℕ) (x : h.Elem) : F.natMul n x.val = (n • x).val := by
  induction n with
  | zero =>
    rw [zero_nsmul]
    rfl
  | succ n ih =>
    rw [natMul, Function.iterate_succ_apply', ← natMul, ih, succ_nsmul]
    rfl

theorem intMul_eq_zsmul (k : ℤ) (x : h.Elem) : F.intMul k x.val = (k • x).val := by
  cases k with
  | ofNat n =>
    rw [intMul, h.natMul_eq_nsmul, Int.ofNat_eq_natCast, natCast_zsmul]
  | negSucc n =>
    rw [intMul, h.natMul_eq_nsmul, negSucc_zsmul]
    rfl

theorem natPow_eq_pow (n : ℕ) (x : h.Elem) : F.natPow x.val n = (x ^ n).val := by
  induction n with
  | zero =>
    rw [pow_zero]
    rfl
  | succ n ih =>
    rw [natPow_succ, ih, pow_succ]
    rfl

theorem implements : F.Implements fun a (x : h.Elem) => a = x.val where
  eq_iff := by
    rintro a b x y rfl rfl
    exact Elem.ext_iff.symm
  zero := rfl
  one := rfl
  isZero_iff := by
    rintro a x rfl
    exact (h.isZero_iff x.mem).trans (h.val_eq_zero_iff x)
  isValid := by
    rintro a x rfl
    exact h.isValid x.mem
  add := by
    rintro a b x y rfl rfl
    rfl
  sub := by
    rintro a b x y rfl rfl
    rw [h.sub_eq_add_neg x.mem y.mem, sub_eq_add_neg]
    rfl
  mulSmall := by
    rintro a x k rfl
    rw [h.mulSmall k x.mem, h.intMul_eq_zsmul, zsmul_eq_mul, mul_comm]
  mul := by
    rintro a b x y rfl rfl
    rfl
  divide_zero := by
    rintro a b x rfl rfl
    exact h.divide_zero x.mem
  divide := by
    rintro a b x y rfl rfl hy
    have hne : y.val ≠ F.zero := mt (h.val_eq_zero_iff y).1 hy
    obtain ⟨q, hdiv, hq, hmul⟩ := h.divide x.mem y.mem hne
    -- the quotient of the field is made from inverses, so it is told by its product with the divisor
    have hprod : (⟨q, hq⟩ : h.Elem) * y = x := Elem.ext hmul
    refine ⟨q, hdiv, ?_⟩
    rw [← (eq_div_iff hy).2 hprod]
  neg := by
    rintro a x rfl
    rfl
  power := by
    rintro a x n rfl
    rw [h.power n x.mem, h.natPow_eq_pow]
  powerWide := by
    rintro a x ws rfl
    rw [h.powerWide ws x.mem, h.natPow_eq_pow]
  toBytes_eq_nil_iff := by
    rintro a x rfl
    by_cases hx : x = 0
    · rw [hx]
      exact iff_of_true h.toBytes_zero rfl
    · obtain ⟨b, bs, hbs, -⟩ := h.toBytes x.mem (mt (h.val_eq_zero_iff x).1 hx)
      rw [hbs]
      exact iff_of_false (List.cons_ne_nil b bs) hx
  head?_toBytes_ne_zero := by
    rintro a x rfl b hb
    by_cases hx : x = 0
    · rw [hx] at hb
      change b ∈ (F.toBytes F.zero).head? at hb
      rw [h.toBytes_zero] at hb
      cases hb
    · obtain ⟨c, cs, hcs, hc⟩ := h.toBytes x.mem (mt (h.val_eq_zero_iff x).1 hx)
      rw [hcs] at hb
      cases hb
      exact hc

end Lawful

/-! ## Fields whose operations are lawful -/

variable {β K : Type} [Field K]

section Implements

variable {F : FieldOps α} {R : α → K → Prop}

theorem Implements.natMul (h : F.Implements R) {a : α} {x : K} (ha : R a x) (n : ℕ) :
    R (F.natMul n a) (n * x) := by
  induction n with
  | zero =>
    rw [Nat.cast_zero, zero_mul]
    exact h.zero
  | succ n ih =>
    rw [FieldOps.natMul, Function.iterate_succ_apply', Nat.cast_succ, add_one_mul]
    exact h.add ih ha

theorem Implements.natMul_one_eq_zero_iff (h : F.Implements R) (n : ℕ) :
    F.natMul n F.one = F.zero ↔ (n : K) = 0 := by
  have hn := h.natMul h.one n
  rw [mul_one] at hn
  exact h.eq_zero_iff hn

theorem Implements.intMul (h : F.Implements R) {a : α} {x : K} (ha : R a x) (k : ℤ) :
    R (F.intMul k a) (k * x) := by
  cases k with
  | ofNat n =>
    rw [Int.ofNat_eq_natCast, Int.cast_natCast]
    exact h.natMul ha n
  | negSucc n =>
    rw [Int.cast_negSucc, neg_mul]
    exact h.neg (h.natMul ha (n + 1))

/-- What computes in a field obeys its laws on the elements that stand for a member of it. -/
theorem Implements.lawful (h : F.Implements R) : F.Lawful fun a => ∃ x, R a x where
  zero_mem := ⟨0, h.zero⟩
  one_mem := ⟨1, h.one⟩
  add_mem := by
    rintro a b ⟨x, ha⟩ ⟨y, hb⟩
    exact ⟨x + y, h.add ha hb⟩
  neg_mem := by
    rintro a ⟨x, ha⟩
    exact ⟨-x, h.neg ha⟩
  mul_mem := by
    rintro a b ⟨x, ha⟩ ⟨y, hb⟩
    exact ⟨x * y, h.mul ha hb⟩
  add_assoc := by
    rintro a b c ⟨x, ha⟩ ⟨y, hb⟩ ⟨z, hc⟩
    exact (h.eq_iff (h.add (h.add ha hb) hc) (h.add ha (h.add hb hc))).2 (add_assoc x y z)
  add_comm := by
    rintro a b ⟨x, ha⟩ ⟨y, hb⟩
    exact (h.eq_iff (h.add ha hb) (h.add hb ha)).2 (add_comm x y)
  zero_add := by
    rintro a ⟨x, ha⟩
    exact (h.eq_iff (h.add h.zero ha) ha).2 (zero_add x)
  neg_add_cancel := by
    rintro a ⟨x, ha⟩
    exact (h.eq_iff (h.add (h.neg ha) ha) h.zero).2 (neg_add_cancel x)
  sub_eq_add_neg := by
    rintro a b ⟨x, ha⟩ ⟨y, hb⟩
    exact (h.eq_iff (h.sub ha hb) (h.add ha (h.neg hb))).2 (sub_eq_add_neg x y)
  mul_assoc := by
    rintro a b c ⟨x, ha⟩ ⟨y, hb⟩ ⟨z, hc⟩
    exact (h.eq_iff (h.mul (h.mul ha hb) hc) (h.mul ha (h.mul hb hc))).2 (mul_assoc x y z)
  mul_comm := by
    rintro a b ⟨x, ha⟩ ⟨y, hb⟩
    exact (h.eq_iff (h.mul ha hb) (h.mul hb ha)).2 (mul_comm x y)
  one_mul := by
    rintro a ⟨x, ha⟩
    exact (h.eq_iff (h.mul h.one ha) ha).2 (one_mul x)
  mul_add := by
    rintro a b c ⟨x, ha⟩ ⟨y, hb⟩ ⟨z, hc⟩
    exact (h.eq_iff (h.mul ha (h.add hb hc)) (h.add (h.mul ha hb) (h.mul ha hc))).2 (mul_add x y z)
  one_ne_zero := mt (h.eq_iff h.one h.zero).1 one_ne_zero
  divide_zero := by
    rintro a ⟨x, ha⟩
    exact h.divide_zero ha h.zero
  divide := by
    rintro a b ⟨x, ha⟩ ⟨y, hb⟩ hne
    have hy : y ≠ 0 := mt (h.eq_zero_iff hb).2 hne
    obtain ⟨q, hdiv, hq⟩ := h.divide ha hb hy
    exact ⟨q, hdiv, ⟨x / y, hq⟩, (h.eq_iff (h.mul hq hb) ha).2 (div_mul_cancel₀ x hy)⟩
  mulSmall := by
    rintro a k ⟨x, ha⟩
    exact (h.eq_iff (h.mulSmall k ha) (h.intMul ha k.toInt)).2 (mul_comm _ _)
  power := by
    rintro a n ⟨x, ha⟩
    exact h.power_eq ha n
  powerWide := by
    rintro a ws ⟨x, ha⟩
    exact (h.eq_iff (h.powerWide ws ha) (h.natPow ha _)).2 rfl
  isZero_iff := by
    rintro a ⟨x, ha⟩
    exact (h.isZero_iff ha).trans (h.eq_zero_iff ha).symm
  isValid := by
    rintro a ⟨x, ha⟩
    exact h.isValid ha
  toBytes_zero := (h.toBytes_eq_nil_iff h.zero).2 rfl
  toBytes := by
    rintro a ⟨x, ha⟩ hne
    exact (h.toBytes_eq_cons_iff ha).2 hne

end Implements

/-- The operations of any field, in which all but zero is encoded as a single byte. -/
def ofField (K : Type) [Field K] [DecidableEq K] : FieldOps K where
  zero := 0
  one := 1
  isZero a := decide (a = 0)
  isValid _ := true
  add a b := a + b
  sub a b := a - b
  mulSmall a k := a * k.toInt
  mul a b := a * b
  divide a b := if b = 0 then .error .divisionByZero else .ok (a / b)
  neg a := -a
  power a n := a ^ n.toNat
  powerWide a ws := a ^ wordsValue ws
  toBytes a := if a = 0 then [] else [1]

theorem implements_ofField [DecidableEq K] : (ofField K).Implements (· = ·) where
  eq_iff := by
    rintro a b x y rfl rfl
    rfl
  zero := rfl
  one := rfl
  isZero_iff := by
    rintro a x rfl
    exact decide_eq_true_iff
  isValid _ := rfl
  add := by
    rintro a b x y rfl rfl
    rfl
  sub := by
    rintro a b x y rfl rfl
    rfl
  mulSmall := by
    rintro a x k rfl
    rfl
  mul := by
    rintro a b x y rfl rfl
    rfl
  divide_zero := by
    rintro a b x - rfl
    exact if_pos rfl
  divide := by
    rintro a b x y rfl rfl hy
    exact ⟨a / b, if_neg hy, rfl⟩
  neg := by
    rintro a x rfl
    rfl
  power := by
    rintro a x n rfl
    rfl
  powerWide := by
    rintro a x ws rfl
    rfl
  toBytes_eq_nil_iff := by
    rintro a x rfl
    simp only [ofField, ite_eq_left_iff, reduceCtorEq, imp_false, not_not]
  head?_toBytes_ne_zero := by
    rintro a x rfl b hb
    simp only [ofField] at hb
    split at hb
    · cases hb
    · cases hb
      decide

theorem lawful_ofField [DecidableEq K] : (ofField K).Lawful fun _ => True := by
  have h := (implements_ofField (K := K)).lawful
  simp only [exists_eq'] at h
  exact h

/-! ## One field in another -/

/-- The map takes the elements in `E` into those in `E'` as a part of that field. -/
structure Extends (F : FieldOps α) (E : α → Prop) (G : FieldOps β) (E' : β → Prop) (i : α → β) :
    Prop where
  mem {a : α} : E a → E' (i a)
  one : i F.one = G.one
  add {a b : α} : E a → E b → i (F.add a b) = G.add (i a) (i b)
  mul {a b : α} : E a → E b → i (F.mul a b) = G.mul (i a) (i b)

section Extends

variable {F : FieldOps α} {E : α → Prop} {G : FieldOps β} {E' : β → Prop} {i : α → β}

/-- The map between the fields of the elements. -/
noncomputable def Extends.ringHom (hi : Extends F E G E' i) (hF : F.Lawful E) (hG : G.Lawful E') :
    hF.Elem →+* hG.Elem :=
  RingHom.mk'
    { toFun := fun x => ⟨i x.val, hi.mem x.mem⟩
      map_one' := Lawful.Elem.ext hi.one
      map_mul' := fun x y => Lawful.Elem.ext (hi.mul x.mem y.mem) }
    fun x y => Lawful.Elem.ext (hi.add x.mem y.mem)

/-- A multiple of one is zero in both fields or in neither. -/
theorem Extends.natMul_one_eq_zero_iff (hi : Extends F E G E' i) (hF : F.Lawful E)
    (hG : G.Lawful E') (n : ℕ) : G.natMul n G.one = G.zero ↔ F.natMul n F.one = F.zero := by
  rw [hF.implements.natMul_one_eq_zero_iff, hG.implements.natMul_one_eq_zero_iff,
    ← map_natCast (hi.ringHom hF hG), map_eq_zero]

end Extends

end Bn254.FieldOps

namespace Bn254

open FieldOps

/-! ## The checks -/

theorem Fp.lawful_ops : Fp.ops.Lawful Fp.Reduced := by
  have hred : (fun a => ∃ x, Fp.Represents a x) = Fp.Reduced := by
    funext a
    exact propext ⟨fun ⟨_, ha⟩ => ha.1, fun ha => ⟨_, ha.represents⟩⟩
  rw [← hred]
  exact Fp.implements_ops.lawful

variable {α : Type} {F : FieldOps α} {E : α → Prop}

theorem FieldOps.Lawful.forall_natMul_ne_zero_of_extends (h : F.Lawful E) {i : Fp → α}
    (hi : Extends Fp.ops Fp.Reduced F E i) :
    ∀ n ∈ [3, 5, 7, 123456789], F.natMul n F.one ≠ F.zero := by
  intro n hn
  rw [Ne, hi.natMul_one_eq_zero_iff Fp.lawful_ops h,
    Fp.implements_ops.natMul_one_eq_zero_iff]
  exact Fp.natCast_multiples_ne_zero n hn

/-- The checks raise no false alarm. Operations that obey the laws of a field pass all of them if and
only if four multiples of one are not zero, as they are not in the base field and in any field that
contains it; if one of the four is zero, it is the first check that fails. -/
theorem FieldOps.Lawful.passes_iff_multiples_ne_zero [DecidableEq α] (h : F.Lawful E) :
    ((∀ c, F.passes c = true) ↔ ∀ n ∈ [3, 5, 7, 123456789], F.natMul n F.one ≠ F.zero) ∧
    (∀ n ∈ [3, 5, 7, 123456789], F.natMul n F.one = F.zero →
      F.passes .additiveIdentity = false) ∧
    ∀ i : Fp → α, Extends Fp.ops Fp.Reduced F E i → ∀ c, F.passes c = true := by
  have hmul (n : ℕ) : F.natMul n F.one = F.zero ↔ (n : h.Elem) = 0 :=
    h.implements.natMul_one_eq_zero_iff n
  have hpasses : (∀ c, F.passes c = true) ↔
      ∀ n ∈ [3, 5, 7, 123456789], F.natMul n F.one ≠ F.zero := by
    simp only [Ne, hmul]
    exact h.implements.forall_passes_iff
  refine ⟨hpasses, ?_, ?_⟩
  · intro n hn hzero
    rw [Bool.eq_false_iff, Ne, h.implements.passes_iff_multiples (by decide)]
    intro hne
    exact hne n hn ((hmul n).1 hzero)
  · intro i hi
    exact hpasses.2 (h.forall_natMul_ne_zero_of_extends hi)

/-- The base field passes. The field with three elements, where three is zero, does not. -/
theorem FieldOps.Lawful.passes_iff_multiples_ne_zero_of_three :
    let F := ofField (ZMod 3)
    (Fp.ops.Lawful Fp.Reduced ∧ ∀ c, Fp.ops.passes c = true) ∧
      F.Lawful (fun _ => True) ∧ F.natMul 3 F.one = F.zero ∧
      F.passes .additiveIdentity = false := by
  intro F
  have hself : Extends Fp.ops Fp.Reduced Fp.ops Fp.Reduced id :=
    ⟨fun ha => ha, rfl, fun _ _ => rfl, fun _ _ => rfl⟩
  have hthree : F.natMul 3 F.one = F.zero := by decide
  obtain ⟨-, -, hbase⟩ := Fp.lawful_ops.passes_iff_multiples_ne_zero
  obtain ⟨-, hfails, -⟩ := (lawful_ofField (K := ZMod 3)).passes_iff_multiples_ne_zero
  exact ⟨⟨Fp.lawful_ops, hbase id hself⟩, lawful_ofField, hthree, hfails 3 (by decide) hthree⟩

end Bn254
