import Bn254.Proofs.Closure
import Bn254.Proofs.Traced

/-!
# The reductions of the operations

What every operation reduces is in the domain. A test that decides over a result does not spare the
reductions that lead to it: integers are encoded before it is known that they are below `p`, and zero is
inverted as any other element.

Two things keep the reductions in their domain. The factors of a product are elements below `p`;
and where an integer may be anything below `2^256`, its factor is a constant below `p`.

The number of reductions is told exactly for the parts that the others are made of, and for inverse,
quotient and root. The bits of an exponent decide it, and of the operands only a zero divisor.
-/

namespace Bn254.Traced

variable {a b : Fp}

/-! ## Elements and products -/

theorem computes_ofU256 (n : U256) : Computes (Fp.ofU256M n) (Fp.ofU256 n) :=
  (computes_encode n).map Fp.mk

theorem computes_ofUInt64 (n : UInt64) : Computes (Fp.ofUInt64M n) (Fp.ofUInt64 n) :=
  computes_ofU256 _

theorem computes_one : Computes Fp.oneM Fp.one := computes_ofUInt64 1

theorem computes_canonical (a : Fp) : Computes a.canonicalM a.canonical :=
  computes_decode a.words

theorem computes_mul (a : Fp) (hb : b.Reduced) : Computes (a.mulM b) (a * b) :=
  (computes_reduce (Montgomery.inDomain_mul a.words hb)).map Fp.mk

theorem computes_square (ha : a.Reduced) : Computes a.squareM a.square := computes_mul a ha

theorem computes_cube (ha : a.Reduced) : Computes a.cubeM a.cube :=
  (computes_square ha).bind (computes_mul a.square ha)

/-! ## Integers -/

theorem computes_ofInt64 (n : Int64) : Computes (Fp.ofInt64M n) (Fp.ofInt64 n) :=
  (computes_ofUInt64 _).bind (Computes.pure _)

theorem computes_ofBitVec128ByDoubling (n : BitVec 128) :
    Computes (Fp.ofBitVec128ByDoublingM n) (Fp.ofBitVec128ByDoubling n) := by
  refine (computes_ofUInt64 _).bind ?_
  refine (computes_ofUInt64 _).bind ?_
  exact Computes.pure _

theorem computes_mulSmall (a : Fp) (k : Int64) : Computes (a.mulSmallM k) (a.mulSmall k) :=
  (computes_ofInt64 k).bind (computes_mul a (Fp.reduced_ofInt64 k))

/-! ## Powers -/

theorem computes_powBits (ha : a.Reduced) (bits : List Bool) :
    Computes (a.powBitsM bits) (a.powBits bits) := by
  rw [Fp.powBits_eq_foldl]
  refine computes_one.bind (Computes.foldlM (P := Fp.Reduced) bits ?_ ?_ Fp.reduced_one)
  · intro r bit _ hr
    refine (computes_square hr).bind ?_
    cases bit with
    | false => exact Computes.pure _
    | true => exact computes_mul r.square ha
  · intro r bit _ hr
    cases bit with
    | false => exact hr.square
    | true => exact hr.square.mul ha

theorem computes_powWords (ha : a.Reduced) (ws : List Word) :
    Computes (a.powWordsM ws) (a.powWords ws) :=
  computes_powBits ha _

theorem computes_powUniform (ha : a.Reduced) (ws : List Word) :
    Computes (a.powUniformM ws) (a.powUniform ws) := by
  rw [Fp.powUniform_eq_foldl]
  refine computes_one.bind (Computes.foldlM (P := Fp.Reduced) _ ?_ ?_ Fp.reduced_one)
  · intro r bit _ hr
    refine (computes_square hr).bind ?_
    refine (computes_mul r.square ha).bind ?_
    exact Computes.pure _
  · intro r bit _ hr
    exact hr.square.select bit (hr.square.mul ha)

theorem computes_pow (ha : a.Reduced) (e : Fp.Exponent) : Computes (a.powM e) (a.pow e) := by
  cases e with
  | word e => exact computes_powWords ha [e]
  | words e => exact computes_powWords ha e
  | trimmed e => exact computes_powBits ha _
  | uniform e => exact computes_powUniform ha e
  | bytes e => exact computes_powBits ha _

/-! ## Inverses, quotients and roots -/

theorem computes_inverseOf (n : U256) : Computes (Fp.inverseOfM n) (Fp.inverseOf n) := by
  refine (computes_ofU256 n).bind ?_
  refine (computes_powWords (Fp.reduced_ofU256 n) _).bind ?_
  exact computes_canonical _

theorem computes_inverseOrZero (a : Fp) : Computes a.inverseOrZeroM a.inverseOrZero := by
  refine (computes_inverseOf a.words).bind ?_
  exact (computes_reduce (Montgomery.inDomain_mul _ Modulus.radixCube_lt)).map Fp.mk

theorem computes_inv? (a : Fp) : Computes a.invM? a.inv? :=
  (computes_inverseOrZero a).bind (Computes.pure _)

theorem computes_divide (a : Fp) (hb : b.Reduced) : Computes (a.divideM b) (a.divide b) := by
  rw [Fp.divide_eq_elim]
  refine (computes_inv? b).bind ?_
  have hi := hb.inv?
  cases h : b.inv? with
  | none => exact Computes.pure _
  | some i => exact (computes_mul a (hi i h)).map Except.ok

theorem computes_sqrt? (ha : a.Reduced) : Computes a.sqrtM? a.sqrt? := by
  rw [Fp.sqrt?_eq_ite]
  refine (computes_powWords ha _).bind ?_
  refine (computes_square (ha.powWords _)).bind ?_
  exact Computes.pure _

theorem computes_sqrtRatio? (ha : a.Reduced) (hb : b.Reduced) :
    Computes (a.sqrtRatioM? b) (Fp.sqrtRatio? a b) := by
  have hq := ha.ratio hb
  rw [Fp.sqrtRatio?_eq_ite]
  refine (computes_inv? b).bind ?_
  refine (computes_mul _ ha).bind ?_
  refine (computes_sqrt? hq).bind ?_
  refine (computes_one.map (- ·)).bind ?_
  refine (computes_mul _ Fp.reduced_rootOfUnity).bind ?_
  refine (computes_sqrt? (hq.mul Fp.reduced_rootOfUnity)).bind ?_
  exact Computes.pure _

theorem computes_sqrtAlt? (ha : a.Reduced) : Computes a.sqrtAltM? a.sqrtAlt? :=
  computes_one.bind (computes_sqrtRatio? ha Fp.reduced_one)

/-! ## Order and lists -/

theorem computes_compare (a b : Fp) : Computes (a.compareM b) (a.compare b) := by
  refine (computes_canonical a).bind ?_
  refine (computes_canonical b).bind ?_
  exact Computes.pure _

theorem computes_max (a b : Fp) : Computes (a.maxM b) (a.max b) := by
  rw [Fp.max_eq_ite]
  exact (computes_compare a b).bind (Computes.pure _)

theorem computes_min (a b : Fp) : Computes (a.minM b) (a.min b) := by
  rw [Fp.min_eq_ite]
  exact (computes_compare a b).bind (Computes.pure _)

theorem computes_product {xs : List Fp} (hxs : ∀ x ∈ xs, x.Reduced) :
    Computes (Fp.productM xs) (Fp.product xs) := by
  rw [Fp.product_eq_combine]
  cases xs with
  | nil => exact computes_one
  | cons x xs =>
    rw [Fp.combine_cons]
    refine Computes.foldlM (P := Fp.Reduced) xs ?_ ?_ (hxs x List.mem_cons_self)
    · intro r y hy _
      exact computes_mul r (hxs y (List.mem_cons_of_mem x hy))
    · intro r y hy hr
      exact hr.mul (hxs y (List.mem_cons_of_mem x hy))

/-! ## Decoders -/

theorem computes_ofWords? (n : U256) : Computes (Fp.ofWordsM? n) (Fp.ofWords? n) :=
  (computes_ofU256 n).bind (Computes.pure _)

theorem computes_ofBytes32? (b : Bytes32) : Computes (Fp.ofBytes32M? b) (Fp.ofBytes32? b) :=
  computes_ofWords? _

theorem computes_ofBytes? (bs : Bytes) : Computes (Fp.ofBytesM? bs) (Fp.ofBytes? bs) := by
  rw [Fp.ofBytes?_eq_bind, Fp.ofBytesM?]
  cases Bytes32.ofList? bs with
  | none => exact Computes.pure none
  | some b => exact computes_ofBytes32? b

theorem computes_decode_encoding (bs : Bytes) : Computes (Fp.decodeM bs) (Fp.decode bs) := by
  rw [Fp.decode_eq_elim, Fp.decodeM]
  cases Bytes32.ofList? bs with
  | none => exact Computes.pure _
  | some b =>
    rw [Option.elim_some]
    refine (computes_ofBytes32? b).bind ?_
    cases Fp.ofBytes32? b with
    | none => exact Computes.pure _
    | some a => exact Computes.pure _

theorem computes_ofBytesReduced (bs : Bytes) :
    Computes (Fp.ofBytesReducedM bs) (Fp.ofBytesReduced bs) := by
  rw [Fp.ofBytesReduced_eq_foldl]
  refine (computes_ofU256 _).bind ?_
  refine Computes.foldlM (P := Fp.Reduced) _ ?_ ?_ (Fp.reduced_ofU256 _)
  · intro acc block _ _
    refine (computes_mul acc Fp.reduced_radix).bind ?_
    refine (computes_ofU256 _).bind ?_
    exact Computes.pure _
  · intro acc block _ hacc
    exact (hacc.mul Fp.reduced_radix).add (Fp.reduced_ofU256 _)

theorem computes_appendDigits (ha : a.Reduced) (digits : List Char) :
    Computes (Fp.appendDigitsM (Fp.ofUInt64 10) a digits) (Fp.appendDigits a digits) := by
  rw [Fp.appendDigits_eq_foldl]
  refine Computes.foldlM (P := Fp.Reduced) digits ?_ ?_ ha
  · intro r c _ _
    refine (computes_mul r (Fp.reduced_ofUInt64 10)).bind ?_
    refine (computes_ofUInt64 _).bind ?_
    exact Computes.pure _
  · intro r c _ hr
    exact (hr.mul (Fp.reduced_ofUInt64 10)).add (Fp.reduced_ofUInt64 _)

theorem computes_ofDecimal? (text : String) :
    Computes (Fp.ofDecimalM? text) (Fp.ofDecimal? text) := by
  rw [Fp.ofDecimal?_eq_ite_takeWhile]
  refine (computes_ofUInt64 10).bind ?_
  refine (computes_appendDigits Fp.reduced_zero _).bind ?_
  exact Computes.pure _

/-! ## Random elements -/

/-- A search reduces what its candidates reduce. -/
theorem computes_search {α : Type} {accept : Bytes32 → Traced (Option α)}
    {accept' : Bytes32 → Option α} (h : ∀ b, (accept b).Computes (accept' b)) (s : ByteSource) :
    (s.searchM accept).Computes (s.search accept') := by
  induction s using ByteSource.draw_induction with
  | step s ih =>
    rw [ByteSource.searchM]
    cases hdraw : s.draw? with
    | none =>
      rw [ByteSource.search_of_draw?_eq_none hdraw]
      exact Computes.pure _
    | some next =>
      obtain ⟨b, rest⟩ := next
      rw [ByteSource.search_of_draw?_eq_some hdraw]
      refine (h b).bind ?_
      cases accept' b with
      | none => exact ih b rest hdraw
      | some a => exact Computes.pure _

theorem computes_sample (s : ByteSource) : Computes (Fp.sampleM s) (Fp.sample s) :=
  computes_search (fun _ => computes_ofBytes32? _) s

theorem computes_sampleList (n : ℕ) (s : ByteSource) :
    Computes (Fp.sampleListM n s) (Fp.sampleList n s) := by
  induction n generalizing s with
  | zero => exact Computes.pure []
  | succ n ih =>
    rw [Fp.sampleListM]
    rcases hs : Fp.sample s with ⟨_ | a, rest⟩
    · rw [Fp.sampleList_of_sample_eq_error hs]
      refine (computes_sample s).bind ?_
      rw [hs]
      exact Computes.pure _
    · rw [Fp.sampleList_of_sample_eq_ok hs]
      refine (computes_sample s).bind ?_
      rw [hs]
      exact (ih rest).bind (Computes.pure _)

/-! ## How often is reduced -/

section

variable (a b : Fp)

theorem calls_ofU256 (n : U256) :
    (Fp.ofU256M n : Traced Fp).calls = [n.mul Modulus.radixSq] := rfl

theorem calls_canonical : (a.canonicalM : Traced U256).calls = [a.words.widen] := rfl

theorem calls_mul : (a.mulM b : Traced Fp).calls = [a.words.mul b.words] := rfl

theorem sum_one_add_toNat (bits : List Bool) :
    (bits.map fun bit => 1 + bit.toNat).sum = bits.length + bits.count true := by
  induction bits with
  | nil => rfl
  | cons bit bits ih =>
    rw [List.map_cons, List.sum_cons, ih, List.length_cons, List.count_cons]
    cases bit with
    | false => simp only [Bool.toNat_false, beq_iff_eq, Bool.false_eq_true, if_false]; omega
    | true => simp only [Bool.toNat_true, beq_self_eq_true, if_true]; omega

theorem length_calls_powBits (bits : List Bool) :
    (a.powBitsM bits : Traced Fp).calls.length = 1 + (bits.length + bits.count true) := by
  have hstep : ∀ (r : Fp) (bit : Bool), (do
      let s ← r.squareM
      if bit then s.mulM a else return s : Traced Fp).calls.length = 1 + bit.toNat := by
    intro r bit
    cases bit with
    | false => rfl
    | true => rfl
  rw [Fp.powBitsM, calls_bind, List.length_append, length_calls_foldlM hstep, sum_one_add_toNat]
  rfl

/-- The work of the uniform route depends neither on the element nor on the bits of the exponent. -/
theorem length_calls_powUniform (ws : List Word) :
    (a.powUniformM ws : Traced Fp).calls.length = 1 + 128 * ws.length := by
  have hstep : ∀ (r : Fp) (bit : Bool), (do
      let s ← r.squareM
      let t ← s.mulM a
      return Fp.select bit s t : Traced Fp).calls.length = 2 := by
    intro r bit
    rfl
  have hbits : (ws.reverse.flatMap Word.bits).length = 64 * ws.length := by
    have hword (w : Word) : w.bits.length = 64 := by
      rw [Word.bits, List.length_map]
      rfl
    rw [List.length_flatMap, List.map_congr_left fun w _ => hword w, List.map_const', List.sum_replicate,
      List.length_reverse, smul_eq_mul, Nat.mul_comm]
  rw [Fp.powUniformM, calls_bind, List.length_append, length_calls_foldlM hstep, List.map_const',
    List.sum_replicate, hbits, smul_eq_mul]
  refine congrArg (1 + ·) ?_
  omega

/-- Every element is inverted by the same number of reductions, zero included. -/
theorem length_calls_inverseOrZero : (a.inverseOrZeroM : Traced Fp).calls.length = 370 := by
  have hbits : (Modulus.inverseExponent.words.reverse.flatMap Word.bits).length +
      (Modulus.inverseExponent.words.reverse.flatMap Word.bits).count true = 366 := by decide +kernel
  -- the stored form is encoded, its power is decoded, and the inverse goes back into stored form
  rw [Fp.inverseOrZeroM, Fp.inverseOfM, calls_bind, calls_bind, calls_bind, calls_ofU256,
    calls_canonical, List.length_append, List.length_append, List.length_append, Fp.powWordsM,
    length_calls_powBits, hbits]
  rfl

/-- A divisor is inverted before it is seen whether it is zero. -/
theorem length_calls_divide :
    (a.divideM b : Traced (Except FieldError Fp)).calls.length = if b.isZero then 370 else 371 := by
  have hinv : (b.invM? : Traced (Option Fp)).calls.length = 370 := by
    rw [Fp.invM?, calls_bind, List.length_append, length_calls_inverseOrZero, calls_pure,
      List.length_nil]
  have hvalue : (b.invM? : Traced (Option Fp)).value = b.inv? := (computes_inv? b).value_eq
  rw [Fp.divideM, calls_bind, List.length_append, hinv, hvalue, Fp.inv?_eq_ite]
  cases b.isZero with
  | false => rfl
  | true => rfl

/-- A root is tried by the same number of reductions, whether there is one or not. -/
theorem length_calls_sqrt? : (a.sqrtM? : Traced (Option Fp)).calls.length = 367 := by
  have hbits : (Modulus.sqrtExponent.words.reverse.flatMap Word.bits).length +
      (Modulus.sqrtExponent.words.reverse.flatMap Word.bits).count true = 365 := by decide +kernel
  rw [Fp.sqrtM?, calls_bind, calls_bind, List.length_append, List.length_append, Fp.powWordsM,
    length_calls_powBits, hbits]
  rfl

end

end Bn254.Traced
