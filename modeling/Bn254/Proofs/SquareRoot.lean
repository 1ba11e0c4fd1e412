import Bn254.Fp.Power
import Bn254.Proofs.Closure
import Mathlib.NumberTheory.LegendreSymbol.Basic

/-!
# Square roots

The modulus leaves the remainder 3 by 4. So `-1` is no square, of a residue that is not zero and its
negative exactly one is a square, and the power `(p + 1) / 4` is a root of the one that is: the
fourth power of it is `x ^ (p + 1)`, that is `x ^ 2`.

`Fp.sqrt?` tests this power by squaring it, so it is complete because the power fails for no square.
`Fp.sqrtRatio?` answers because the quotient or its negative passes the test, and not both do.
-/

namespace Bn254

/-! ## Squares among the residues -/

theorem Modulus.p_mod_four : p.toNat % 4 = 3 := by decide

/-- The root of a square that is a square itself. -/
def principalRoot (x : Residue) : Residue := x ^ Modulus.sqrtExponent.toNat

variable {x y : Residue}

theorem principalRoot_zero : principalRoot 0 = 0 := zero_pow (by decide)

theorem principalRoot_pow_four (x : Residue) : principalRoot x ^ 4 = x ^ 2 := by
  rw [principalRoot, ← pow_mul, Nat.mul_comm, Modulus.sqrtExponent_toNat, pow_succ, ZMod.pow_card,
    sq]

theorem principalRoot_sq_eq_or_neg (x : Residue) :
    principalRoot x ^ 2 = x ∨ principalRoot x ^ 2 = -x := by
  have h : (principalRoot x ^ 2) ^ 2 = x ^ 2 := by rw [← pow_mul, principalRoot_pow_four]
  exact sq_eq_sq_iff_eq_or_eq_neg.1 h

theorem principalRoot_sq_iff : principalRoot x ^ 2 = x ↔ IsSquare x := by
  constructor
  · intro h
    exact ⟨principalRoot x, by rw [← sq, h]⟩
  · rintro ⟨y, rfl⟩
    have hroot : principalRoot (y * y) = principalRoot y ^ 2 := by
      rw [principalRoot, principalRoot, ← sq, pow_right_comm]
    rw [hroot, ← pow_mul, principalRoot_pow_four, sq]

theorem isSquare_principalRoot (h : IsSquare x) : IsSquare (principalRoot x) := h.pow _

theorem ne_zero_of_not_isSquare (h : ¬IsSquare x) : x ≠ 0 := by
  rintro rfl
  exact h IsSquare.zero

/-- Of a residue that is not zero and its negative one is a square and the other is not. -/
theorem isSquare_neg_iff (hx : x ≠ 0) : IsSquare (-x) ↔ ¬IsSquare x := by
  constructor
  · rintro ⟨z, hz⟩ ⟨y, hy⟩
    have hne : y ≠ 0 := by
      rintro rfl
      exact hx (by rw [hy, mul_zero])
    have hneg : z ^ 2 = -y ^ 2 := by rw [sq, sq, ← hz, ← hy]
    exact ZMod.mod_four_ne_three_of_sq_eq_neg_sq' hne hneg Modulus.p_mod_four
  · intro h
    rcases principalRoot_sq_eq_or_neg x with hroot | hroot
    · exact absurd (principalRoot_sq_iff.1 hroot) h
    · exact ⟨principalRoot x, by rw [← sq, hroot]⟩

namespace Fp

variable {a b r : Fp}

/-! ## The root of an element -/

theorem Represents.isSquare_iff (ha : a.Represents x) :
    (∃ y : Fp, y.Reduced ∧ y.square = a) ↔ IsSquare x := by
  constructor
  · rintro ⟨y, hy, hsq⟩
    have h := (hy.represents.square.eq_iff ha).1 hsq
    exact ⟨y.toNat, by rw [← sq, h]⟩
  · rintro ⟨z, hz⟩
    obtain ⟨y, hy⟩ := exists_represents z
    exact ⟨y, hy.1, (hy.square.eq_iff ha).2 (by rw [sq, hz])⟩

theorem Represents.powSqrtExponent (ha : a.Represents x) :
    (a.powWords Modulus.sqrtExponent.words).Represents (principalRoot x) := by
  have hr := ha.powWords Modulus.sqrtExponent.words
  rw [wordsValue_words] at hr
  exact hr

theorem Represents.sqrt?_of_isSquare (ha : a.Represents x) (hx : IsSquare x) :
    ∃ r, a.sqrt? = some r ∧ r.Represents (principalRoot x) := by
  have hr := ha.powSqrtExponent
  have hsq := (hr.square.eq_iff ha).2 (principalRoot_sq_iff.2 hx)
  refine ⟨_, ?_, hr⟩
  rw [sqrt?_eq_ite, if_pos ((sameWords_iff _ _).2 hsq)]

theorem Represents.sqrt?_of_not_isSquare (ha : a.Represents x) (hx : ¬IsSquare x) :
    a.sqrt? = none := by
  have hr := ha.powSqrtExponent
  have hsq := mt (hr.square.eq_iff ha).1 (mt principalRoot_sq_iff.1 hx)
  rw [sqrt?_eq_ite, if_neg (mt (sameWords_iff _ _).1 hsq)]

theorem Represents.sqrt?_eq_some_iff (ha : a.Represents x) :
    a.sqrt? = some r ↔ IsSquare x ∧ r.Represents (principalRoot x) := by
  by_cases hx : IsSquare x
  · obtain ⟨s, hs, hrep⟩ := ha.sqrt?_of_isSquare hx
    rw [hs, Option.some_inj, and_iff_right hx]
    constructor
    · rintro rfl
      exact hrep
    · intro hr
      exact hrep.unique hr
  · rw [ha.sqrt?_of_not_isSquare hx]
    exact iff_of_false nofun (fun h => hx h.1)

theorem Represents.isSome_sqrt?_iff (ha : a.Represents x) :
    a.sqrt?.isSome = true ↔ IsSquare x := by
  constructor
  · intro h
    obtain ⟨r, hr⟩ := Option.isSome_iff_exists.1 h
    exact (ha.sqrt?_eq_some_iff.1 hr).1
  · intro hx
    obtain ⟨r, hr, -⟩ := ha.sqrt?_of_isSquare hx
    exact Option.isSome_iff_exists.2 ⟨r, hr⟩

theorem Represents.sqrt?_square (ha : a.Represents x) :
    a.square.sqrt? = some a ∨ a.square.sqrt? = some (-a) := by
  obtain ⟨r, hr, hrep⟩ := ha.square.sqrt?_of_isSquare (IsSquare.sq x)
  rw [hr]
  rcases sq_eq_sq_iff_eq_or_eq_neg.1 (principalRoot_sq_iff.2 (IsSquare.sq x)) with h | h
  · rw [h] at hrep
    exact .inl (congrArg some (hrep.unique ha))
  · rw [h] at hrep
    exact .inr (congrArg some (hrep.unique ha.neg))

/-- An element has a root exactly when it is a square. The root is the power `(p + 1) / 4`, which is
a square as well, and the square of an element has that element or its negative as root. -/
theorem sqrt?_sound_and_complete (a : Fp) (ha : a.Reduced) :
    ((∃ r, a.sqrt? = some r) ↔ ∃ y : Fp, y.Reduced ∧ y.square = a) ∧
    (∀ r, a.sqrt? = some r →
      r.Reduced ∧ r.square = a ∧
      (∀ e : Exponent, e.value = (Modulus.p.toNat + 1) / 4 → r = a.pow e) ∧
      ∃ z : Fp, z.Reduced ∧ z.square = r) ∧
    (∀ y : Fp, y.Reduced → y.square.sqrt? = some y ∨ y.square.sqrt? = some (-y)) := by
  have ra := ha.represents
  refine ⟨?_, ?_, ?_⟩
  · rw [ra.isSquare_iff]
    constructor
    · rintro ⟨r, hr⟩
      exact (ra.sqrt?_eq_some_iff.1 hr).1
    · intro hx
      obtain ⟨r, hr, -⟩ := ra.sqrt?_of_isSquare hx
      exact ⟨r, hr⟩
  · intro r hr
    obtain ⟨hx, hrep⟩ := ra.sqrt?_eq_some_iff.1 hr
    have hsq := (hrep.square.eq_iff ra).2 (principalRoot_sq_iff.2 hx)
    refine ⟨hrep.1, hsq, ?_, hrep.isSquare_iff.2 (isSquare_principalRoot hx)⟩
    intro e he
    have hpow := ra.pow e
    have hexp : e.value = Modulus.sqrtExponent.toNat := by
      have h := Modulus.sqrtExponent_toNat
      omega
    rw [hexp] at hpow
    exact hrep.unique hpow
  · intro y hy
    exact hy.represents.sqrt?_square

/-- The square of `-2`, of which the root is `2` or `-2`. -/
theorem sqrt?_sound_and_complete_of_four :
    let a : Fp := ofUInt64 4
    let y : Fp := -ofUInt64 2
    a.Reduced ∧ y.Reduced ∧ y.square = a ∧ (∃ r, a.sqrt? = some r ∧ r.square = a) ∧
      (a.sqrt? = some y ∨ a.sqrt? = some (-y)) := by
  intro a y
  have ha : a.Reduced := reduced_ofUInt64 4
  have hy : y.Reduced := (reduced_ofUInt64 2).neg
  have hsq : y.square = a := by decide +kernel
  obtain ⟨hiff, hsound, hback⟩ := sqrt?_sound_and_complete a ha
  obtain ⟨r, hr⟩ := hiff.2 ⟨y, hy, hsq⟩
  have h := hback y hy
  rw [hsq] at h
  exact ⟨ha, hy, hsq, ⟨r, hr, (hsound r hr).2.1⟩, h⟩

/-! ## The root of a quotient -/

theorem Represents.ratio (ha : a.Represents x) (hb : b.Represents y) :
    (b.inv?.getD zero * a).Represents (x / y) := by
  have hi : (b.inv?.getD zero).Represents y⁻¹ := by
    by_cases h : b = zero
    · rw [inv?_eq_none_iff.2 h, Option.getD_none, hb.eq_zero_iff.1 h, inv_zero]
      exact represents_zero
    · rw [inv?_eq_some h, Option.getD_some]
      exact hb.inverseOrZero
  rw [div_eq_mul_inv, mul_comm]
  exact hi.mul ha

theorem Represents.mul_rootOfUnity (ha : a.Represents x) : (a * rootOfUnity).Represents (-x) := by
  have h := ha.mul represents_one.neg
  rw [mul_neg_one] at h
  exact h

/-- The quotient has a root. Its negative has one as well only if the quotient is zero, and then the
dividend or the divisor is. -/
theorem Represents.sqrtRatio?_of_isSquare (ha : a.Represents x) (hb : b.Represents y)
    (h : IsSquare (x / y)) :
    ∃ r, Fp.sqrtRatio? a b = some (a.isZero || !b.isZero, r) ∧
      r.Represents (principalRoot (x / y)) := by
  have hq := ha.ratio hb
  obtain ⟨r, hr, hrep⟩ := hq.sqrt?_of_isSquare h
  refine ⟨r, ?_, hrep⟩
  have hguard : (a.isZero || b.isZero ||
      (true ^^ (b.inv?.getD zero * a * rootOfUnity).sqrt?.isSome)) = true := by
    by_cases hxy : x / y = 0
    · rcases div_eq_zero_iff.1 hxy with hx | hy
      · rw [(isZero_iff a).2 (ha.eq_zero_iff.2 hx), Bool.true_or, Bool.true_or]
      · rw [(isZero_iff b).2 (hb.eq_zero_iff.2 hy), Bool.or_true, Bool.true_or]
    · have hneg : ¬IsSquare (-(x / y)) := fun hs => (isSquare_neg_iff hxy).1 hs h
      rw [hq.mul_rootOfUnity.sqrt?_of_not_isSquare hneg]
      exact Bool.or_true _
  rw [Fp.sqrtRatio?_eq_ite]
  simp only [hr, Option.isSome_some, hguard, if_true, Option.map_some, Bool.true_and]

/-- The quotient has no root, so it is not zero and its negative has one. -/
theorem Represents.sqrtRatio?_of_not_isSquare (ha : a.Represents x) (hb : b.Represents y)
    (h : ¬IsSquare (x / y)) :
    ∃ r, Fp.sqrtRatio? a b = some (false, r) ∧ r.Represents (principalRoot (-(x / y))) := by
  have hq := ha.ratio hb
  have hxy := ne_zero_of_not_isSquare h
  obtain ⟨r, hr, hrep⟩ := hq.mul_rootOfUnity.sqrt?_of_isSquare ((isSquare_neg_iff hxy).2 h)
  refine ⟨r, ?_, hrep⟩
  rw [Fp.sqrtRatio?_eq_ite]
  simp only [hq.sqrt?_of_not_isSquare h, hr, Option.isSome_none, Option.isSome_some,
    Bool.false_xor, Bool.or_true, if_true, Bool.false_eq_true, if_false, Option.map_some,
    Bool.false_and]

/-- A square of the quotient is a square times the divisor. -/
theorem Represents.isSquare_div_iff (ha : a.Represents x) (hb : b.Represents y) (hy : y ≠ 0) :
    (∃ z : Fp, z.Reduced ∧ z.square * b = a) ↔ IsSquare (x / y) := by
  constructor
  · rintro ⟨z, hz, hzb⟩
    have h := ((hz.represents.square.mul hb).eq_iff ha).1 hzb
    exact ⟨z.toNat, by rw [← sq, ← h, mul_div_cancel_right₀ _ hy]⟩
  · rintro ⟨w, hw⟩
    obtain ⟨z, hz⟩ := exists_represents w
    refine ⟨z, hz.1, ((hz.square.mul hb).eq_iff ha).2 ?_⟩
    rw [sq, ← hw, div_mul_cancel₀ _ hy]

theorem sqrtRatio?_zero (ha : a.Reduced) : Fp.sqrtRatio? a zero = some (a.isZero, zero) := by
  have hdiv : (a.toNat : Residue) / 0 = 0 := div_zero _
  have hsq : IsSquare ((a.toNat : Residue) / 0) := by
    rw [hdiv]
    exact IsSquare.zero
  obtain ⟨r, hr, hrep⟩ := ha.represents.sqrtRatio?_of_isSquare represents_zero hsq
  rw [hdiv, principalRoot_zero] at hrep
  rw [hr, hrep.unique represents_zero, (isZero_iff zero).2 rfl, Bool.not_true, Bool.or_false]

theorem Reduced.sqrtRatio?_of_ne_zero (ha : a.Reduced) (hb : b.Reduced) (h : b ≠ zero) :
    ∃ s r, Fp.sqrtRatio? a b = some (s, r) ∧ r.Reduced ∧
      (s = true ↔ ∃ y : Fp, y.Reduced ∧ y.square * b = a) ∧
      r.square * b = if s then a else -a := by
  have ra := ha.represents
  have rb := hb.represents
  have hy : (b.toNat : Residue) ≠ 0 := mt rb.eq_zero_iff.2 h
  by_cases hsq : IsSquare ((a.toNat : Residue) / b.toNat)
  · obtain ⟨r, hr, hrep⟩ := ra.sqrtRatio?_of_isSquare rb hsq
    have hroot := principalRoot_sq_iff.2 hsq
    have hs : (a.isZero || !b.isZero) = true := by
      rw [Bool.eq_false_iff.2 (mt (isZero_iff b).1 h)]
      exact Bool.or_true _
    rw [hs] at hr
    refine ⟨true, r, hr, hrep.1, iff_of_true rfl ((ra.isSquare_div_iff rb hy).2 hsq), ?_⟩
    exact ((hrep.square.mul rb).eq_iff ra).2 (by rw [hroot, div_mul_cancel₀ _ hy])
  · obtain ⟨r, hr, hrep⟩ := ra.sqrtRatio?_of_not_isSquare rb hsq
    have hneg := (isSquare_neg_iff (ne_zero_of_not_isSquare hsq)).2 hsq
    have hroot := principalRoot_sq_iff.2 hneg
    refine ⟨false, r, hr, hrep.1,
      iff_of_false Bool.false_ne_true (mt (ra.isSquare_div_iff rb hy).1 hsq), ?_⟩
    exact ((hrep.square.mul rb).eq_iff ra.neg).2 (by rw [hroot, neg_mul, div_mul_cancel₀ _ hy])

/-- There is always an answer. For a divisor that is not zero it tells whether the quotient is a
square, with a root of it or of its negative; for the divisor zero it tells whether the dividend is
zero, with zero as root. -/
theorem sqrtRatio?_decides (num den : Fp) (hn : num.Reduced) (hd : den.Reduced) :
    (∃ s r, Fp.sqrtRatio? num den = some (s, r) ∧ r.Reduced ∧
      (den ≠ zero →
        (s = true ↔ ∃ y : Fp, y.Reduced ∧ y.square * den = num) ∧
        (s = true → r.square * den = num) ∧ (s = false → r.square * den = -num)) ∧
      (den = zero → num = zero → s = true ∧ r = zero) ∧
      (den = zero → num ≠ zero → s = false ∧ r = zero)) ∧
    num.sqrtAlt? = Fp.sqrtRatio? num one := by
  refine ⟨?_, rfl⟩
  by_cases h : den = zero
  · refine ⟨num.isZero, zero, ?_, reduced_zero, fun hne => absurd h hne, ?_, ?_⟩
    · rw [h, sqrtRatio?_zero hn]
    · intro _ hz
      exact ⟨(isZero_iff num).2 hz, rfl⟩
    · intro _ hz
      exact ⟨Bool.eq_false_iff.2 (mt (isZero_iff num).1 hz), rfl⟩
  · obtain ⟨s, r, hr, hred, hiff, hroot⟩ := hn.sqrtRatio?_of_ne_zero hd h
    refine ⟨s, r, hr, hred, fun _ => ⟨hiff, ?_, ?_⟩, fun h0 => absurd h0 h, fun h0 => absurd h0 h⟩
    · rintro rfl
      exact hroot
    · rintro rfl
      exact hroot

/-- `-1` is no square, so the answer holds a root of `1`. -/
theorem sqrtRatio?_decides_of_neg_one :
    (-one).Reduced ∧ one.Reduced ∧ one ≠ zero ∧
      ∃ r, Fp.sqrtRatio? (-one) one = some (false, r) ∧ r.square * one = - -one := by
  have hn : (-one).Reduced := represents_one.neg.1
  have hne : one ≠ zero := mt represents_one.eq_zero_iff.1 one_ne_zero
  have hnot : ¬∃ y : Fp, y.Reduced ∧ y.square * one = -one := by
    rw [represents_one.neg.isSquare_div_iff represents_one one_ne_zero, div_one,
      isSquare_neg_iff one_ne_zero, not_not]
    exact IsSquare.one
  obtain ⟨⟨s, r, hr, -, hsome, -, -⟩, -⟩ := sqrtRatio?_decides (-one) one hn reduced_one
  obtain ⟨hiff, -, hroot⟩ := hsome hne
  have hs : s = false := Bool.eq_false_iff.2 (mt hiff.1 hnot)
  rw [hs] at hr
  exact ⟨hn, reduced_one, hne, r, hr, hroot hs⟩

end Fp

end Bn254
