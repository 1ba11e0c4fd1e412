import Bn254.FieldOps.Contract
import Bn254.Proofs.FieldOps

/-!
# What the checks on a field ask for

A check passes if a proposition holds of the sample elements. Stated for any list of elements in the
place of the samples, it holds for all operations that compute in a field, with one reserve: four
checks ask in addition that none of the elements is zero (`Check.refuseZero`).
-/

namespace Bn254.FieldOps

variable {α K : Type} [Field K]

/-! ## The checks as propositions -/

/-- What the check asks for, with `s` for the samples. -/
def HoldsOn (F : FieldOps α) (s : List α) : Check → Prop
  | .additiveIdentity =>
    F.isZero F.zero = true ∧
      ∀ a ∈ s, F.add a F.zero = a ∧ F.add F.zero a = a ∧ F.isZero a = false
  | .multiplicativeIdentity => ∀ a ∈ s, F.mul a F.one = a ∧ F.mul F.one a = a
  | .additiveInverse =>
    (∀ a ∈ s, F.add a (F.neg a) = F.zero ∧ F.sub a a = F.zero) ∧ F.neg F.zero = F.zero
  | .subtractUndoesAdd => ∀ a ∈ s, ∀ b ∈ s, F.sub (F.add a b) b = a
  | .selfDivision => ∀ a ∈ s, F.divide a a = .ok F.one
  | .divisionByZero =>
    F.divide F.zero F.zero = .error .divisionByZero ∧
      ∀ a ∈ s, F.divide a F.zero = .error .divisionByZero ∧ F.divide F.zero a = .ok F.zero
  | .commutativityAndAssociativity =>
    ∀ a ∈ s, ∀ b ∈ s, F.add a b = F.add b a ∧ F.mul a b = F.mul b a ∧ ∀ c ∈ s,
      F.add (F.add a b) c = F.add a (F.add b c) ∧
      F.mul (F.mul a b) c = F.mul a (F.mul b c) ∧
      F.mul a (F.add b c) = F.add (F.mul a b) (F.mul a c)
  | .multiplyScalar =>
    ∀ a ∈ s, F.mulSmall a 3 = F.add (F.add a a) a ∧ F.mulSmall a (-1) = F.neg a ∧
      F.mulSmall a 0 = F.zero
  | .powerConsistency =>
    ∀ a ∈ s, F.power a 0 = F.one ∧ F.power a 1 = a ∧ F.power a 2 = F.mul a a ∧ ∀ n < 39,
      F.power a (.ofNat (n + 1)) = F.natPow a (n + 1) ∧
      F.power a (.ofNat (n + 1)) = F.mul (F.power a (.ofNat n)) a ∧
      F.powerWide a (wideExponent (.ofNat (n + 1))) = F.natPow a (n + 1)
  | .serialization =>
    F.toBytes F.zero = [] ∧ ∀ a ∈ s, ∃ b bs, F.toBytes a = b :: bs ∧ b ≠ 0
  | .validity => F.isValid F.zero = true ∧ F.isValid F.one = true ∧ ∀ a ∈ s, F.isValid a = true

/-- The loop over the exponents, from any of them on. The product that it carries is the power before
the first exponent. -/
theorem powersAgree_iff [DecidableEq α] (F : FieldOps α) (a : α) (count m : ℕ) :
    F.powersAgree a count (.ofNat (m + 1)) (F.natPow a m) = true ↔ ∀ n, m ≤ n → n < m + count →
      F.power a (.ofNat (n + 1)) = F.natPow a (n + 1) ∧
      F.power a (.ofNat (n + 1)) = F.mul (F.power a (.ofNat n)) a ∧
      F.powerWide a (wideExponent (.ofNat (n + 1))) = F.natPow a (n + 1) := by
  induction count generalizing m with
  | zero =>
    refine iff_of_true rfl ?_
    intro n hle hlt
    omega
  | succ count ih =>
    have hnext : UInt64.ofNat (m + 1) + 1 = .ofNat (m + 1 + 1) := (UInt64.ofNat_add _ _).symm
    have hprev : UInt64.ofNat (m + 1) - 1 = .ofNat m := by
      rw [UInt64.ofNat_add]
      exact UInt64.add_sub_cancel _ _
    rw [powersAgree]
    simp only [Bool.and_eq_true, beq_iff_eq]
    rw [hnext, hprev, ← natPow_succ, ih (m + 1)]
    constructor
    · rintro ⟨⟨⟨hpow, hstep⟩, hwide⟩, hrest⟩ n hle hlt
      by_cases hn : n = m
      · rw [hn]
        exact ⟨hpow, hstep, hwide⟩
      · exact hrest n (by omega) (by omega)
    · intro h
      obtain ⟨hpow, hstep, hwide⟩ := h m le_rfl (by omega)
      refine ⟨⟨⟨hpow, hstep⟩, hwide⟩, ?_⟩
      intro n hle hlt
      exact h n (by omega) (by omega)

theorem head?_any_iff (bs : Bytes) :
    bs.head?.any (· != 0) = true ↔ ∃ c cs, bs = c :: cs ∧ c ≠ 0 := by
  cases bs with
  | nil => exact iff_of_false Bool.false_ne_true (by rintro ⟨c, cs, h, -⟩; cases h)
  | cons c cs => simp

theorem passes_iff [DecidableEq α] (F : FieldOps α) (c : Check) :
    F.passes c = true ↔ F.HoldsOn F.samples c := by
  cases c with
  | powerConsistency =>
    simp only [passes, HoldsOn, List.all_eq_true, Bool.and_eq_true, beq_iff_eq, and_assoc]
    refine forall₂_congr fun a _ => and_congr_right fun _ => and_congr_right fun _ =>
      and_congr_right fun _ => ?_
    have h := powersAgree_iff F a 39 0
    simp only [Nat.zero_le, Nat.zero_add, true_implies] at h
    exact h
  | serialization =>
    simp only [passes, HoldsOn, List.all_eq_true, Bool.and_eq_true, List.isEmpty_iff,
      head?_any_iff]
  | _ =>
    simp only [passes, HoldsOn, List.all_eq_true, Bool.and_eq_true, beq_iff_eq, and_assoc,
      Bool.not_eq_true']

/-- Where one is neutral on the left, the powers are asked for up to the thirty-ninth, on both
routes, and nothing else is. -/
theorem holdsOn_powerConsistency_iff {F : FieldOps α} {s : List α}
    (hone : ∀ a ∈ s, F.mul F.one a = a) :
    F.HoldsOn s .powerConsistency ↔ ∀ a ∈ s,
      (∀ n ≤ 39, F.power a (.ofNat n) = F.natPow a n) ∧
      ∀ n, 1 ≤ n → n ≤ 39 → F.powerWide a (wideExponent (.ofNat n)) = F.natPow a n := by
  refine forall₂_congr ?_
  intro a ha
  have hfirst : F.natPow a 1 = a := hone a ha
  have hsecond : F.natPow a 2 = F.mul a a := by rw [natPow_succ, hfirst]
  constructor
  · rintro ⟨hzero, -, -, hloop⟩
    refine ⟨?_, ?_⟩
    · intro n hn
      cases n with
      | zero => exact hzero
      | succ n => exact (hloop n (by omega)).1
    · intro n hpos hn
      obtain ⟨m, rfl⟩ := Nat.exists_eq_add_of_le' hpos
      exact (hloop m (by omega)).2.2
  · rintro ⟨hpow, hwide⟩
    refine ⟨hpow 0 (by omega), (hpow 1 (by omega)).trans hfirst,
      (hpow 2 (by omega)).trans hsecond, ?_⟩
    intro n hn
    refine ⟨hpow (n + 1) (by omega), ?_, hwide (n + 1) (by omega) (by omega)⟩
    rw [hpow (n + 1) (by omega), hpow n (by omega), natPow_succ]

/-! ## The checks on operations that compute in a field -/

/-- The checks that no field passes with zero among the samples. -/
def Check.refuseZero : List Check :=
  [additiveIdentity, selfDivision, divisionByZero, serialization]

section Lawful

variable {F : FieldOps α} {R : α → K → Prop} {s : List α} {c : Check}

theorem Implements.powerConsistency (h : F.Implements R) (hs : ∀ a ∈ s, ∃ x, R a x) :
    F.HoldsOn s .powerConsistency := by
  have hsmall {n : ℕ} (hn : n ≤ 39) : (UInt64.ofNat n).toNat = n :=
    UInt64.toNat_ofNat_of_lt' (hn.trans_lt (by decide))
  refine (holdsOn_powerConsistency_iff ?_).2 ?_
  · intro a ha
    obtain ⟨x, hx⟩ := hs a ha
    exact (h.eq_iff (h.mul h.one hx) hx).2 (one_mul x)
  · intro a ha
    obtain ⟨x, hx⟩ := hs a ha
    refine ⟨?_, ?_⟩
    · intro n hn
      rw [h.power_eq hx, hsmall hn]
    · intro n _ hn
      rw [h.powerWide_eq hx, hsmall hn]

/-- What a field passes with any samples. -/
theorem Implements.holdsOn (h : F.Implements R) (hs : ∀ a ∈ s, ∃ x, R a x)
    (hc : c ∉ Check.refuseZero) : F.HoldsOn s c := by
  cases c with
  | additiveIdentity => exact absurd (by decide) hc
  | multiplicativeIdentity =>
    intro a ha
    obtain ⟨x, hx⟩ := hs a ha
    exact ⟨(h.eq_iff (h.mul hx h.one) hx).2 (mul_one x),
      (h.eq_iff (h.mul h.one hx) hx).2 (one_mul x)⟩
  | additiveInverse =>
    refine ⟨?_, (h.eq_zero_iff (h.neg h.zero)).2 neg_zero⟩
    intro a ha
    obtain ⟨x, hx⟩ := hs a ha
    exact ⟨(h.eq_zero_iff (h.add hx (h.neg hx))).2 (add_neg_cancel x),
      (h.eq_zero_iff (h.sub hx hx)).2 (sub_self x)⟩
  | subtractUndoesAdd =>
    intro a ha b hb
    obtain ⟨x, hx⟩ := hs a ha
    obtain ⟨y, hy⟩ := hs b hb
    exact (h.eq_iff (h.sub (h.add hx hy) hy) hx).2 (add_sub_cancel_right x y)
  | selfDivision => exact absurd (by decide) hc
  | divisionByZero => exact absurd (by decide) hc
  | commutativityAndAssociativity =>
    intro a ha b hb
    obtain ⟨x, hx⟩ := hs a ha
    obtain ⟨y, hy⟩ := hs b hb
    refine ⟨(h.eq_iff (h.add hx hy) (h.add hy hx)).2 (add_comm x y),
      (h.eq_iff (h.mul hx hy) (h.mul hy hx)).2 (mul_comm x y), ?_⟩
    intro c hc
    obtain ⟨z, hz⟩ := hs c hc
    exact ⟨(h.eq_iff (h.add (h.add hx hy) hz) (h.add hx (h.add hy hz))).2 (add_assoc x y z),
      (h.eq_iff (h.mul (h.mul hx hy) hz) (h.mul hx (h.mul hy hz))).2 (mul_assoc x y z),
      (h.eq_iff (h.mul hx (h.add hy hz)) (h.add (h.mul hx hy) (h.mul hx hz))).2 (mul_add x y z)⟩
  | multiplyScalar =>
    intro a ha
    obtain ⟨x, hx⟩ := hs a ha
    have hthree : (3 : Int64).toInt = 3 := by decide
    have hneg : (-1 : Int64).toInt = -1 := by decide
    have hzero : (0 : Int64).toInt = 0 := by decide
    refine ⟨(h.eq_iff (h.mulSmall 3 hx) (h.add (h.add hx hx) hx)).2 ?_,
      (h.eq_iff (h.mulSmall (-1) hx) (h.neg hx)).2 ?_, (h.eq_zero_iff (h.mulSmall 0 hx)).2 ?_⟩
    · rw [hthree]
      push_cast
      ring
    · rw [hneg, Int.cast_neg, Int.cast_one, mul_neg_one]
    · rw [hzero, Int.cast_zero, mul_zero]
  | powerConsistency => exact h.powerConsistency hs
  | serialization => exact absurd (by decide) hc
  | validity =>
    refine ⟨h.isValid h.zero, h.isValid h.one, ?_⟩
    intro a ha
    obtain ⟨x, hx⟩ := hs a ha
    exact h.isValid hx

/-- What a field passes with all samples but zero. -/
theorem Implements.holdsOn_iff_ne_zero (h : F.Implements R) (hs : ∀ a ∈ s, ∃ x, R a x)
    (hc : c ∈ Check.refuseZero) : F.HoldsOn s c ↔ ∀ a ∈ s, a ≠ F.zero := by
  simp only [Check.refuseZero, List.mem_cons, List.not_mem_nil, or_false] at hc
  rcases hc with rfl | rfl | rfl | rfl
  · refine (and_iff_right ((h.isZero_iff h.zero).2 rfl)).trans (forall₂_congr ?_)
    intro a ha
    obtain ⟨x, hx⟩ := hs a ha
    rw [(h.eq_iff (h.add hx h.zero) hx).2 (add_zero x),
      (h.eq_iff (h.add h.zero hx) hx).2 (zero_add x), and_iff_right rfl, and_iff_right rfl]
    exact h.isZero_eq_false_iff hx
  · refine forall₂_congr ?_
    intro a ha
    obtain ⟨x, hx⟩ := hs a ha
    exact h.divide_self_iff hx
  · refine (and_iff_right (h.divide_zero h.zero h.zero)).trans (forall₂_congr ?_)
    intro a ha
    obtain ⟨x, hx⟩ := hs a ha
    exact (and_iff_right (h.divide_zero hx h.zero)).trans (h.zero_divide_iff hx)
  · refine (and_iff_right ((h.toBytes_eq_nil_iff h.zero).2 rfl)).trans (forall₂_congr ?_)
    intro a ha
    obtain ⟨x, hx⟩ := hs a ha
    exact h.toBytes_eq_cons_iff hx

theorem Implements.forall_holdsOn (h : F.Implements R) (hs : ∀ a ∈ s, ∃ x, R a x)
    (hne : ∀ a ∈ s, a ≠ F.zero) (c : Check) : F.HoldsOn s c := by
  by_cases hc : c ∈ Check.refuseZero
  · exact (h.holdsOn_iff_ne_zero hs hc).2 hne
  · exact h.holdsOn hs hc

/-! ## The samples -/

theorem Implements.mulSmall_one (h : F.Implements R) (k : Int64) :
    R (F.mulSmall F.one k) (k.toInt : K) := by
  have hk := h.mulSmall k h.one
  rw [one_mul] at hk
  exact hk

/-- The samples, with `x` in the place of the power among them. -/
def samplesWith (F : FieldOps α) (x : α) : List α :=
  [F.mulSmall F.one 5, F.mulSmall F.one (-7), F.mulSmall F.one 123456789, x]

theorem samples_eq (F : FieldOps α) :
    F.samples = F.samplesWith (F.power (F.mulSmall F.one 3) 200) :=
  rfl

/-- What the samples stand for, with `x` in the place of the power among them. -/
def sampleValues (x : K) : List K := [5, -7, 123456789, x]

theorem Implements.forall₂_samplesWith (h : F.Implements R) {a : α} {x : K} (ha : R a x) :
    List.Forall₂ R (F.samplesWith a) (sampleValues x) := by
  have hint (k : Int64) (n : ℤ) (hk : k.toInt = n) : R (F.mulSmall F.one k) (n : K) := by
    rw [← hk]
    exact h.mulSmall_one k
  have h5 := hint 5 5 (by decide)
  have h7 := hint (-7) (-7) (by decide)
  have hlarge := hint 123456789 123456789 (by decide)
  push_cast at h5 h7 hlarge
  exact .cons h5 (.cons h7 (.cons hlarge (.cons ha .nil)))

theorem exists_of_forall₂ {β : Type} {R : α → β → Prop} {s : List α} {t : List β}
    (hs : List.Forall₂ R s t) : ∀ a ∈ s, ∃ b, R a b := by
  induction hs with
  | nil => exact List.forall_mem_nil _
  | cons ha _ ih => exact List.forall_mem_cons.2 ⟨⟨_, ha⟩, ih⟩

theorem Implements.exists_of_mem_samplesWith (h : F.Implements R) {a : α} {x : K} (ha : R a x) :
    ∀ b ∈ F.samplesWith a, ∃ y, R b y :=
  exists_of_forall₂ (h.forall₂_samplesWith ha)

theorem Implements.forall₂_samples (h : F.Implements R) :
    List.Forall₂ R F.samples (sampleValues (3 ^ 200)) := by
  have h3 := h.mulSmall_one 3
  rw [show (3 : Int64).toInt = 3 by decide, Int.cast_ofNat] at h3
  rw [samples_eq]
  exact h.forall₂_samplesWith (h.power 200 h3)

theorem Implements.forall_ne_zero_iff (h : F.Implements R) {xs : List K}
    (hs : List.Forall₂ R s xs) : (∀ a ∈ s, a ≠ F.zero) ↔ ∀ x ∈ xs, x ≠ 0 := by
  induction hs with
  | nil => exact iff_of_true (List.forall_mem_nil _) (List.forall_mem_nil _)
  | cons ha _ ih =>
    rw [List.forall_mem_cons, List.forall_mem_cons, ih, Ne, h.eq_zero_iff ha]

theorem sampleValues_ne_zero_iff {x : K} :
    (∀ y ∈ sampleValues x, y ≠ 0) ↔ (∀ n ∈ [5, 7, 123456789], ((n : ℕ) : K) ≠ 0) ∧ x ≠ 0 := by
  simp only [sampleValues, List.forall_mem_cons, List.not_mem_nil, false_imp_iff, implies_true,
    and_true, and_assoc, neg_ne_zero, Nat.cast_ofNat]

/-- The power of three among the samples is zero only if three is. -/
theorem sampleValues_pow_ne_zero_iff :
    (∀ x ∈ sampleValues (3 ^ 200 : K), x ≠ 0) ↔ ∀ n ∈ [3, 5, 7, 123456789], ((n : ℕ) : K) ≠ 0 := by
  rw [sampleValues_ne_zero_iff, pow_ne_zero_iff (by decide), and_comm]
  simp only [List.forall_mem_cons, Nat.cast_ofNat]

variable [DecidableEq α]

theorem Implements.passes_iff_multiples (h : F.Implements R) (hc : c ∈ Check.refuseZero) :
    F.passes c = true ↔ ∀ n ∈ [3, 5, 7, 123456789], ((n : ℕ) : K) ≠ 0 := by
  have hs := h.forall₂_samples
  rw [passes_iff, h.holdsOn_iff_ne_zero (exists_of_forall₂ hs) hc, h.forall_ne_zero_iff hs,
    sampleValues_pow_ne_zero_iff]

/-- A field passes all checks if it passes one of those that refuse zero. -/
theorem Implements.forall_passes_iff (h : F.Implements R) :
    (∀ c, F.passes c = true) ↔ ∀ n ∈ [3, 5, 7, 123456789], ((n : ℕ) : K) ≠ 0 := by
  constructor
  · intro hall
    exact (h.passes_iff_multiples (c := .additiveIdentity) (by decide)).1 (hall _)
  · intro hne c
    have hs := h.forall₂_samples
    have hsamples := (h.forall_ne_zero_iff hs).2 (sampleValues_pow_ne_zero_iff.2 hne)
    exact (passes_iff F c).2 (h.forall_holdsOn (exists_of_forall₂ hs) hsamples c)

end Lawful

end Bn254.FieldOps
