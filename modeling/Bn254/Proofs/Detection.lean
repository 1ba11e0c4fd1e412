import Bn254.Proofs.Contract

/-!
# What the checks on a field notice

A check reads of a record of operations only the ones that it calls. Where a record passes all checks
and one of its operations is replaced, the checks that do not call it still pass, and the others pass
just where the new operation agrees with the old one at the points at which they call it. A new power
is a case apart, for one of the samples is a power.
-/

namespace Bn254.FieldOps

variable {α : Type} {F G : FieldOps α} {s : List α} {c : Check}

/-! ## The operations that a check calls -/

/-- The members of a record of operations. -/
inductive Op
  | zero
  | one
  | isZero
  | isValid
  | add
  | sub
  | mulSmall
  | mul
  | divide
  | neg
  | power
  | powerWide
  | toBytes
deriving DecidableEq

/-- Do the two records have the same operation of this name? -/
def Op.Agree (F G : FieldOps α) : Op → Prop
  | zero => F.zero = G.zero
  | one => F.one = G.one
  | isZero => F.isZero = G.isZero
  | isValid => F.isValid = G.isValid
  | add => F.add = G.add
  | sub => F.sub = G.sub
  | mulSmall => F.mulSmall = G.mulSmall
  | mul => F.mul = G.mul
  | divide => F.divide = G.divide
  | neg => F.neg = G.neg
  | power => F.power = G.power
  | powerWide => F.powerWide = G.powerWide
  | toBytes => F.toBytes = G.toBytes

/-- The operations that the check calls on the samples. -/
def Check.uses : Check → List Op
  | additiveIdentity => [.zero, .isZero, .add]
  | multiplicativeIdentity => [.one, .mul]
  | additiveInverse => [.zero, .add, .neg, .sub]
  | subtractUndoesAdd => [.add, .sub]
  | selfDivision => [.one, .divide]
  | divisionByZero => [.zero, .divide]
  | commutativityAndAssociativity => [.add, .mul]
  | multiplyScalar => [.zero, .add, .mulSmall, .neg]
  | powerConsistency => [.one, .mul, .power, .powerWide]
  | serialization => [.zero, .toBytes]
  | validity => [.zero, .one, .isValid]

/-- The operations that the check calls, those that make the samples among them. -/
def Check.calls (c : Check) : List Op := [.one, .mulSmall, .power] ++ c.uses

theorem holdsOn_congr (h : ∀ o ∈ c.uses, o.Agree F G) : F.HoldsOn s c ↔ G.HoldsOn s c := by
  cases c <;>
    simp only [Check.uses, List.forall_mem_cons, Op.Agree] at h <;>
    simp only [HoldsOn, natPow, h]

theorem samples_congr (h : ∀ o ∈ c.calls, o.Agree F G) : F.samples = G.samples := by
  have hone : F.one = G.one := h .one (by simp [Check.calls])
  have hsmall : F.mulSmall = G.mulSmall := h .mulSmall (by simp [Check.calls])
  have hpower : F.power = G.power := h .power (by simp [Check.calls])
  rw [samples, samples, hone, hsmall, hpower]

/-- A check reads no operation that it does not call. -/
theorem passes_congr [DecidableEq α] (h : ∀ o ∈ c.calls, o.Agree F G) :
    F.passes c = G.passes c := by
  rw [Bool.eq_iff_iff, passes_iff, passes_iff, samples_congr h]
  refine holdsOn_congr ?_
  intro o ho
  exact h o (List.mem_append_right _ ho)

/-- A record that shares one and the product with one that passes is asked for the powers of the
other, on both routes. -/
theorem holdsOn_powerConsistency_iff_agree (hunit : F.HoldsOn s .multiplicativeIdentity)
    (hF : F.HoldsOn s .powerConsistency) (hone : G.one = F.one) (hmul : G.mul = F.mul) :
    G.HoldsOn s .powerConsistency ↔ ∀ a ∈ s,
      (∀ n ≤ 39, G.power a (.ofNat n) = F.power a (.ofNat n)) ∧
      ∀ n, 1 ≤ n → n ≤ 39 → G.powerWide a (wideExponent (.ofNat n)) = F.power a (.ofNat n) := by
  have hleft : ∀ a ∈ s, F.mul F.one a = a := fun a ha => (hunit a ha).2
  have hleft' : ∀ a ∈ s, G.mul G.one a = a := by rwa [hone, hmul]
  rw [holdsOn_powerConsistency_iff hleft']
  refine forall₂_congr ?_
  intro a ha
  have hpow := ((holdsOn_powerConsistency_iff hleft).1 hF a ha).1
  have hnat (n : ℕ) (hn : n ≤ 39) : G.natPow a n = F.power a (.ofNat n) := by
    rw [hpow n hn, natPow, natPow, hone, hmul]
  refine and_congr (forall₂_congr ?_) (forall₃_congr ?_)
  · intro n hn
    rw [hnat n hn]
  · intro n _ hn
    rw [hnat n hn]

/-! ## One operation replaced -/

/-- The checks that call the operation on the samples. -/
def Op.users (o : Op) : List Check := Check.all.filter (o ∈ ·.uses)

theorem Op.mem_users_iff (o : Op) (c : Check) : c ∈ o.users ↔ o ∈ c.uses := by
  have hall : c ∈ Check.all := by cases c <;> decide
  rw [users, List.mem_filter, decide_eq_true_iff, and_iff_right hall]

/-- Of a record that differs from one that passes all checks in one operation, only the checks that
call it are in question. -/
theorem forall_holdsOn_iff_users {o : Op} (hF : ∀ c, F.HoldsOn s c)
    (h : ∀ o' ≠ o, o'.Agree F G) : (∀ c, G.HoldsOn s c) ↔ ∀ c ∈ o.users, G.HoldsOn s c := by
  constructor
  · intro hG c _
    exact hG c
  · intro hG c
    by_cases hc : o ∈ c.uses
    · exact hG c ((o.mem_users_iff c).2 hc)
    · refine (holdsOn_congr ?_).1 (hF c)
      intro o' ho'
      exact h o' (ne_of_mem_of_not_mem ho' hc)

/-- A function in the place of an operation that makes no samples. -/
inductive Replacement (α : Type)
  | isZero (f : α → Bool)
  | isValid (f : α → Bool)
  | sub (f : α → α → α)
  | divide (f : α → α → Except FieldError α)
  | neg (f : α → α)
  | powerWide (f : α → List Word → α)
  | toBytes (f : α → Bytes)

/-- The operation that is replaced. -/
def Replacement.op : Replacement α → Op
  | isZero _ => .isZero
  | isValid _ => .isValid
  | sub _ => .sub
  | divide _ => .divide
  | neg _ => .neg
  | powerWide _ => .powerWide
  | toBytes _ => .toBytes

/-- The operations with the replacement. -/
def replace (F : FieldOps α) : Replacement α → FieldOps α
  | .isZero f => { F with isZero := f }
  | .isValid f => { F with isValid := f }
  | .sub f => { F with sub := f }
  | .divide f => { F with divide := f }
  | .neg f => { F with neg := f }
  | .powerWide f => { F with powerWide := f }
  | .toBytes f => { F with toBytes := f }

theorem samples_replace (F : FieldOps α) (r : Replacement α) : (F.replace r).samples = F.samples := by
  cases r <;> rfl

theorem agree_replace (F : FieldOps α) (r : Replacement α) : ∀ o ≠ r.op, o.Agree F (F.replace r) := by
  intro o ho
  cases r <;> cases o <;> first | rfl | exact absurd rfl ho

/-- Is the replacement right at the points that the checks try it at, with `s` for the samples? -/
def Replacement.RightAt (F : FieldOps α) (s : List α) : Replacement α → Prop
  | isZero f => f F.zero = true ∧ ∀ a ∈ s, f a = false
  | isValid f => f F.zero = true ∧ f F.one = true ∧ ∀ a ∈ s, f a = true
  | sub f => (∀ a ∈ s, f a a = F.zero) ∧ ∀ a ∈ s, ∀ b ∈ s, f (F.add a b) b = a
  | divide f =>
    f F.zero F.zero = .error .divisionByZero ∧
      ∀ a ∈ s, f a F.zero = .error .divisionByZero ∧ f a a = .ok F.one ∧ f F.zero a = .ok F.zero
  | neg f => f F.zero = F.zero ∧ ∀ a ∈ s, f a = F.neg a
  | powerWide f =>
    ∀ a ∈ s, ∀ n, 1 ≤ n → n ≤ 39 → f a (wideExponent (.ofNat n)) = F.power a (.ofNat n)
  | toBytes f => f F.zero = [] ∧ ∀ a ∈ s, ∃ c cs, f a = c :: cs ∧ c ≠ 0

/-- All checks pass with the replacement if and only if it is right where they try it. The checks that
the operations pass without it supply what else its users ask for. -/
theorem forall_holdsOn_replace_iff (hF : ∀ c, F.HoldsOn s c) (r : Replacement α) :
    (∀ c, (F.replace r).HoldsOn s c) ↔ r.RightAt F s := by
  rw [forall_holdsOn_iff_users hF (agree_replace F r)]
  cases r with
  | isZero f =>
    have husers : (Replacement.isZero f).op.users = [.additiveIdentity] := rfl
    rw [husers, List.forall_mem_singleton]
    refine and_congr_right fun _ => forall₂_congr fun a ha => ?_
    obtain ⟨hright, hleft, -⟩ := (hF .additiveIdentity).2 a ha
    exact (and_iff_right hright).trans (and_iff_right hleft)
  | isValid f =>
    have husers : (Replacement.isValid f).op.users = [.validity] := rfl
    rw [husers, List.forall_mem_singleton]
    rfl
  | sub f =>
    have husers : (Replacement.sub f).op.users = [.additiveInverse, .subtractUndoesAdd] := rfl
    rw [husers, List.forall_mem_cons, List.forall_mem_singleton]
    obtain ⟨hadd, hzero⟩ := hF .additiveInverse
    constructor
    · rintro ⟨⟨hself, -⟩, hundo⟩
      exact ⟨fun a ha => (hself a ha).2, hundo⟩
    · rintro ⟨hself, hundo⟩
      exact ⟨⟨fun a ha => ⟨(hadd a ha).1, hself a ha⟩, hzero⟩, hundo⟩
  | divide f =>
    have husers : (Replacement.divide f).op.users = [.selfDivision, .divisionByZero] := rfl
    rw [husers, List.forall_mem_cons, List.forall_mem_singleton]
    constructor
    · rintro ⟨hself, hzero, hrest⟩
      exact ⟨hzero, fun a ha => ⟨(hrest a ha).1, hself a ha, (hrest a ha).2⟩⟩
    · rintro ⟨hzero, hrest⟩
      exact ⟨fun a ha => (hrest a ha).2.1, hzero, fun a ha => ⟨(hrest a ha).1, (hrest a ha).2.2⟩⟩
  | neg f =>
    have husers : (Replacement.neg f).op.users = [.additiveInverse, .multiplyScalar] := rfl
    rw [husers, List.forall_mem_cons, List.forall_mem_singleton]
    have hinverse := (hF .additiveInverse).1
    have hscalar := hF .multiplyScalar
    constructor
    · -- the multiple by `-1` gives the old negative, as no law of addition is at hand
      rintro ⟨⟨-, hzero⟩, hminus⟩
      exact ⟨hzero, fun a ha => (hminus a ha).2.1.symm.trans (hscalar a ha).2.1⟩
    · rintro ⟨hzero, hminus⟩
      refine ⟨⟨?_, hzero⟩, ?_⟩
      · intro a ha
        show F.add a (f a) = F.zero ∧ _
        rw [hminus a ha]
        exact hinverse a ha
      · intro a ha
        show _ ∧ F.mulSmall a (-1) = f a ∧ _
        rw [hminus a ha]
        exact hscalar a ha
  | powerWide f =>
    have husers : (Replacement.powerWide f).op.users = [.powerConsistency] := rfl
    rw [husers, List.forall_mem_singleton]
    have hiff := holdsOn_powerConsistency_iff_agree (G := F.replace (.powerWide f))
      (hF .multiplicativeIdentity) (hF .powerConsistency) rfl rfl
    exact hiff.trans (forall₂_congr fun a _ => and_iff_right fun n _ => rfl)
  | toBytes f =>
    have husers : (Replacement.toBytes f).op.users = [.serialization] := rfl
    rw [husers, List.forall_mem_singleton]
    rfl

/-! ## Another power -/

/-- The operations with another power. -/
def withPower (F : FieldOps α) (f : α → UInt64 → α) : FieldOps α := { F with power := f }

theorem samples_withPower (F : FieldOps α) (f : α → UInt64 → α) :
    (F.withPower f).samples = F.samplesWith (f (F.mulSmall F.one 3) 200) :=
  rfl

theorem holdsOn_withPower_iff (f : α → UInt64 → α) (hc : c ≠ .powerConsistency) :
    (F.withPower f).HoldsOn s c ↔ F.HoldsOn s c := by
  have hpower : Op.power ∉ c.uses := by
    cases c <;> first | decide | exact absurd rfl hc
  refine holdsOn_congr ?_
  intro o ho
  cases o <;> first | rfl | exact absurd ho hpower

section Lawful

variable [DecidableEq α] {K : Type} [Field K] {R : α → K → Prop} {f : α → UInt64 → α} {x : K}

theorem Implements.passes_withPower (h : F.Implements R) (hx : R (f (F.mulSmall F.one 3) 200) x)
    (hc : c ∉ Check.refuseZero) (hne : c ≠ .powerConsistency) :
    (F.withPower f).passes c = true := by
  rw [passes_iff, holdsOn_withPower_iff f hne, samples_withPower]
  exact h.holdsOn (h.exists_of_mem_samplesWith hx) hc

theorem Implements.passes_withPower_iff_ne_zero (h : F.Implements R)
    (hx : R (f (F.mulSmall F.one 3) 200) x) (hc : c ∈ Check.refuseZero) :
    (F.withPower f).passes c = true ↔ ∀ y ∈ sampleValues x, y ≠ 0 := by
  have hne : c ≠ .powerConsistency := by
    rintro rfl
    exact absurd hc (by decide)
  rw [passes_iff, holdsOn_withPower_iff f hne, samples_withPower,
    h.holdsOn_iff_ne_zero (h.exists_of_mem_samplesWith hx) hc]
  exact h.forall_ne_zero_iff (h.forall₂_samplesWith hx)

/-- The check on powers compares the new power with the old one. -/
theorem Implements.powerConsistency_withPower_iff (h : F.Implements R)
    (hx : R (f (F.mulSmall F.one 3) 200) x) :
    (F.withPower f).passes .powerConsistency = true ↔
      ∀ a ∈ F.samplesWith (f (F.mulSmall F.one 3) 200), ∀ n ≤ 39,
        f a (.ofNat n) = F.power a (.ofNat n) := by
  have hs := h.exists_of_mem_samplesWith hx
  have hunit := h.holdsOn hs (c := .multiplicativeIdentity) (by decide)
  have hF := h.powerConsistency hs
  have hwide := (holdsOn_powerConsistency_iff_agree hunit hF rfl rfl).1 hF
  have hiff := holdsOn_powerConsistency_iff_agree (G := F.withPower f) hunit hF rfl rfl
  rw [passes_iff, samples_withPower]
  exact hiff.trans (forall₂_congr fun a ha => and_iff_left (hwide a ha).2)

end Lawful

end Bn254.FieldOps

namespace Bn254.Fp

open FieldOps

/-! ## The checks on the base field -/

theorem natCast_multiples_ne_zero :
    ∀ n ∈ [3, 5, 7, 123456789], ((n : ℕ) : Residue) ≠ 0 := by
  have hbound : ∀ n ∈ [3, 5, 7, 123456789], 0 < n ∧ n < Modulus.p.toNat := by decide
  intro n hn
  exact natCast_ne_zero (hbound n hn).1 (hbound n hn).2

theorem forall_sampleValues_iff {x : Residue} : (∀ y ∈ sampleValues x, y ≠ 0) ↔ x ≠ 0 := by
  rw [FieldOps.sampleValues_ne_zero_iff]
  exact and_iff_right fun n hn => natCast_multiples_ne_zero n (List.mem_cons_of_mem 3 hn)

theorem holdsOn_samples (c : Check) : ops.HoldsOn ops.samples c :=
  (passes_iff ops c).1 (implements_ops.forall_passes_iff.2 natCast_multiples_ne_zero c)

theorem forall_passes_replace_iff (r : Replacement Fp) :
    (∀ c, (ops.replace r).passes c = true) ↔ r.RightAt ops ops.samples := by
  simp only [passes_iff, samples_replace]
  exact forall_holdsOn_replace_iff holdsOn_samples r

/-- Of operations that differ from those of the base field in one, the checks that do not call it pass. -/
theorem passes_of_agree {G : FieldOps Fp} {o : Op} (hG : ∀ o' ≠ o, o'.Agree ops G) {c : Check}
    (hc : o ∉ c.calls) : G.passes c = true := by
  have hagree : ∀ o' ∈ c.calls, o'.Agree ops G := by
    intro o' ho'
    exact hG o' (ne_of_mem_of_not_mem ho' hc)
  rw [← passes_congr hagree, passes_iff]
  exact holdsOn_samples c

/-- The base field with one operation replaced by any function. All checks pass if and only if the
function is right where they try it, and those that do not call the operation pass in any case. A new
power makes a new sample `x`, which all but the check on powers take for any other element, unless it
is zero; the check on powers passes if and only if the powers of the samples up to the thirty-ninth are
right. -/
theorem checks_detect_exactly :
    (∀ r : Replacement Fp, (∀ c, (ops.replace r).passes c = true) ↔ r.RightAt ops ops.samples) ∧
    (∀ (G : FieldOps Fp) (o : Op), (∀ o' ≠ o, o'.Agree ops G) →
      ∀ c : Check, o ∉ c.calls → G.passes c = true) ∧
    ∀ (f : Fp → UInt64 → Fp) (x : Fp), f (Fp.one.mulSmall 3) 200 = x → x.Reduced →
      (x ≠ Fp.zero → ∀ c ≠ .powerConsistency, (ops.withPower f).passes c = true) ∧
      (x = Fp.zero → ∀ c ≠ .powerConsistency, ((ops.withPower f).passes c = false ↔
        c ∈ [.additiveIdentity, .selfDivision, .divisionByZero, .serialization])) ∧
      ((ops.withPower f).passes .powerConsistency = true ↔
        ∀ a ∈ [Fp.one.mulSmall 5, Fp.one.mulSmall (-7), Fp.one.mulSmall 123456789, x],
          ∀ n ≤ 39, f a (.ofNat n) = a.power (.ofNat n)) := by
  refine ⟨?_, ?_, ?_⟩
  · exact forall_passes_replace_iff
  · intro G o hG c hc
    exact passes_of_agree hG hc
  · rintro f x rfl hred
    have hx := hred.represents
    refine ⟨?_, ?_, implements_ops.powerConsistency_withPower_iff hx⟩
    · intro hne c hc
      by_cases hmem : c ∈ Check.refuseZero
      · refine (implements_ops.passes_withPower_iff_ne_zero hx hmem).2 ?_
        exact forall_sampleValues_iff.2 (mt hx.eq_zero_iff.2 hne)
      · exact implements_ops.passes_withPower hx hmem hc
    · intro hzero c hc
      by_cases hmem : c ∈ Check.refuseZero
      · refine iff_of_true ?_ hmem
        rw [Bool.eq_false_iff, Ne, implements_ops.passes_withPower_iff_ne_zero hx hmem,
          forall_sampleValues_iff]
        exact not_not_intro (hx.eq_zero_iff.1 hzero)
      · refine iff_of_false ?_ hmem
        rw [implements_ops.passes_withPower hx hmem hc]
        decide

/-- A power that is always zero is noticed by four of the other checks, and one that is wrong only at
the exponent of the sample is not noticed at all. -/
theorem checks_detect_exactly_at_wrong_powers :
    (∀ c ≠ .powerConsistency, ((ops.withPower fun _ _ => Fp.zero).passes c = false ↔
      c ∈ [.additiveIdentity, .selfDivision, .divisionByZero, .serialization])) ∧
    (∀ c, (ops.withPower fun a n => if n = 200 then Fp.one else a.power n).passes c = true) ∧
    ∀ c : Check, .add ∉ c.calls → { ops with add := fun a _ => a }.passes c = true := by
  obtain ⟨-, hframe, hpower⟩ := checks_detect_exactly
  refine ⟨?_, ?_, ?_⟩
  · exact (hpower _ Fp.zero rfl reduced_zero).2.1 rfl
  · obtain ⟨hothers, -, hpowers⟩ :=
      hpower (fun a n => if n = 200 then Fp.one else a.power n) Fp.one rfl reduced_one
    intro c
    by_cases hc : c = .powerConsistency
    · rw [hc, hpowers]
      intro a _ n hn
      have hsmall : (UInt64.ofNat n).toNat = n :=
        UInt64.toNat_ofNat_of_lt' (hn.trans_lt (by decide))
      refine if_neg ?_
      intro h
      rw [h, show (200 : UInt64).toNat = 200 from rfl] at hsmall
      omega
    · exact hothers (mt represents_one.eq_zero_iff.1 one_ne_zero) c hc
  · refine hframe _ .add ?_
    intro o ho
    cases o <;> first | rfl | exact absurd rfl ho

end Bn254.Fp
