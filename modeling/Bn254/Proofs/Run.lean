import Bn254.Program
import Bn254.Proofs.TracedField

/-!
# What a run preserves

All registers that are set hold words below `p`: a step then results in such elements only, so the
registers keep the property, and a run of any length never leaves it. For the same reason the
reductions of a run stay in their domain.
-/

namespace Bn254

variable {r : Registers} {a b : Fp}

/-! ## Registers and outcomes -/

/-- Every register that is set holds an element whose words are below `p`. -/
def Registers.Reduced (r : Registers) : Prop := ∀ name, ∀ a ∈ r.get? name, a.Reduced

theorem Registers.reduced_empty : Registers.empty.Reduced := by
  intro name a ha
  cases ha

theorem Registers.get?_set (r : Registers) (name other : String) (a : Fp) :
    (r.set name a).get? other = if other = name then some a else r.get? other := by
  by_cases h : other = name
  · rw [if_pos h, h]
    exact List.lookup_cons_self
  · rw [if_neg h]
    have hne : (other == name) = false := beq_eq_false_iff_ne.2 h
    unfold Registers.get? Registers.set
    rw [List.lookup_cons, hne]

theorem Registers.Reduced.set (hr : r.Reduced) (ha : a.Reduced) (name : String) :
    (r.set name a).Reduced := by
  intro other b hb
  rw [Registers.get?_set] at hb
  split at hb
  · cases hb
    exact ha
  · exact hr other b hb

/-- All elements of the outcome have words below `p`. -/
def Outcome.Reduced (o : Outcome) : Prop := ∀ a ∈ o.elements, a.Reduced

namespace Outcome

theorem reduced_element (ha : a.Reduced) : (element a).Reduced := by
  intro x hx
  rcases List.mem_singleton.1 hx with rfl
  exact ha

theorem reduced_ofOption {o : Option Fp} (h : ∀ a ∈ o, a.Reduced) : (ofOption o).Reduced := by
  cases o with
  | none =>
    intro x hx
    cases hx
  | some a => exact reduced_element (h a rfl)

theorem reduced_ofExcept {e : Except FieldError Fp} (h : ∀ a, e = .ok a → a.Reduced) :
    (ofExcept e).Reduced := by
  cases e with
  | error e =>
    intro x hx
    cases hx
  | ok a => exact reduced_element (h a rfl)

theorem reduced_map {α : Type} {f : α → Outcome} {x : Id α} (h : (f x.run).Reduced) :
    (Id.run (f <$> x)).Reduced :=
  h

theorem reduced_pair (ha : a.Reduced) (hb : b.Reduced) : (pair a b).Reduced := by
  intro x hx
  rcases List.mem_cons.1 hx with rfl | hx
  · exact ha
  · rcases List.mem_singleton.1 hx with rfl
    exact hb

theorem reduced_ratio {answer : Option (Bool × Fp)} (h : ∀ x ∈ answer, x.2.Reduced) :
    (ratio answer).Reduced := by
  intro x hx
  obtain ⟨y, hy, rfl⟩ := List.mem_map.1 hx
  exact h y (Option.mem_toList.1 hy)

theorem reduced_draws {ds : List Fp.Draw} (h : ∀ d ∈ ds, ∀ a, d.result = .ok a → a.Reduced) :
    (draws ds).Reduced := by
  intro x hx
  obtain ⟨d, hd, hx⟩ := List.mem_filterMap.1 hx
  cases hres : d.result with
  | error e =>
    rw [hres] at hx
    cases hx
  | ok a =>
    rw [hres] at hx
    cases hx
    exact h d hd x hres

end Outcome

theorem Registers.Reduced.record (hr : r.Reduced) {outcome : Option Outcome}
    (ho : ∀ o ∈ outcome, o.Reduced) (target : Option String) :
    (r.record target outcome).Reduced := by
  unfold Registers.record
  split
  · exact hr.set (ho _ rfl _ List.mem_cons_self) _
  · exact hr

/-! ## Steps -/

section

variable {α β : Type} {P : α → Prop} {Q : β → Prop}

/-- What a computation in two parts results in has a property that the second part gives to its results,
if the first part results in what the second one needs for it. -/
theorem forall_mem_run_bind {t : OptionT Id α} {f : α → OptionT Id β} (ht : ∀ a ∈ t.run.run, P a)
    (hf : ∀ a, P a → ∀ o ∈ (f a).run.run, Q o) : ∀ o ∈ (t >>= f).run.run, Q o := by
  intro o ho
  rw [OptionT.run_bind] at ho
  change o ∈ t.run.run.elim none fun a => (f a).run.run at ho
  cases h : t.run.run with
  | none =>
    rw [h] at ho
    cases ho
  | some a =>
    rw [h] at ho
    exact hf a (ht a h) o ho

theorem forall_mem_run_pure {a : α} (h : P a) : ∀ o ∈ (pure a : OptionT Id α).run.run, P o := by
  intro o ho
  cases ho
  exact h

theorem forall_mem_run_lift {x : Id α} (h : P x.run) : ∀ o ∈ (OptionT.lift x).run.run, P o := by
  intro o ho
  rw [← Option.some.inj ho]
  exact h

end

theorem Operand.reduced_value? (hr : r.Reduced) (x : Operand) : ∀ a ∈ x.value? r, a.Reduced := by
  intro a ha
  cases x with
  | number bs =>
    cases ha
    exact Fp.reduced_ofBytesReduced bs
  | stored words => exact Fp.reduced_ofStored? words a ha
  | register name => exact hr name a ha

theorem Operand.value?_stored_eq_some_iff {w : U256} :
    (Operand.stored w).value? r = some a ↔ a.Reduced ∧ a.words = w :=
  Fp.ofStored?_eq_some_iff

/-- An element of any outcome can be the operand of a later step by its stored form, also where no register
takes it. -/
theorem Outcome.Reduced.value?_stored {o : Outcome} (ho : o.Reduced) (ha : a ∈ o.elements)
    (r : Registers) : (Operand.stored a.words).value? r = some a :=
  Operand.value?_stored_eq_some_iff.2 ⟨ho a ha, rfl⟩

theorem Operand.reduced_mapM (hr : r.Reduced) (xs : List Operand) :
    ∀ as ∈ (xs.mapM fun x : Operand => x.valueM? (m := Id) r).run.run, ∀ a ∈ as, a.Reduced := by
  induction xs with
  | nil => exact forall_mem_run_pure (List.forall_mem_nil _)
  | cons x xs ih =>
    rw [List.mapM_cons]
    refine forall_mem_run_bind (x.reduced_value? hr) ?_
    intro a ha
    refine forall_mem_run_bind ih ?_
    intro as has
    exact forall_mem_run_pure (List.forall_mem_cons.2 ⟨ha, has⟩)

theorem Datum.reduced_outcome (d : Datum) : d.outcome.Reduced := by
  cases d with
  | bytes32 b => exact Outcome.reduced_ofOption (Fp.reduced_ofWords? _)
  | bitVec n => exact Outcome.reduced_ofOption (Fp.reduced_ofWords? _)
  | bytes bs => exact Outcome.reduced_ofOption (Fp.reduced_ofBytes? bs)
  | encoding bs => exact Outcome.reduced_ofExcept fun a => Fp.reduced_decode
  | stored words => exact Outcome.reduced_ofOption (Fp.reduced_ofStored? words)
  | bitVecReduced n => exact Outcome.reduced_element (Fp.reduced_ofU256 _)
  | bytesReduced bs => exact Outcome.reduced_element (Fp.reduced_ofBytesReduced bs)
  | uint32 n => exact Outcome.reduced_element (Fp.reduced_ofUInt64 _)
  | uint64 n => exact Outcome.reduced_element (Fp.reduced_ofUInt64 n)
  | int64 n => exact Outcome.reduced_element (Fp.reduced_ofInt64 n)
  | bitVec128 n => exact Outcome.reduced_element (Fp.reduced_ofU256 _)
  | bitVec128ByDoubling n => exact Outcome.reduced_element (Fp.reduced_ofBitVec128ByDoubling n)
  | decimal text => exact Outcome.reduced_ofOption (Fp.reduced_ofDecimal? text)

theorem UnaryOp.reduced_outcome (ha : a.Reduced) (op : UnaryOp) : (op.outcome a).Reduced := by
  cases op with
  | same => exact Outcome.reduced_element ha
  | neg => exact Outcome.reduced_element ha.neg
  | double => exact Outcome.reduced_element ha.double
  | square => exact Outcome.reduced_map (Outcome.reduced_element ha.square)
  | cube => exact Outcome.reduced_map (Outcome.reduced_element ha.cube)
  | erase => exact Outcome.reduced_element Fp.reduced_zero
  | invert => exact Outcome.reduced_map (Outcome.reduced_ofOption ha.inv?)
  | sqrt => exact Outcome.reduced_map (Outcome.reduced_ofOption ha.sqrt?)
  | sqrtAlt => exact Outcome.reduced_map (Outcome.reduced_ratio (ha.sqrtRatio? Fp.reduced_one))

theorem BinaryOp.reduced_outcome (ha : a.Reduced) (hb : b.Reduced) (op : BinaryOp) :
    (op.outcome a b).Reduced := by
  cases op with
  | add => exact Outcome.reduced_element (ha.add hb)
  | sub => exact Outcome.reduced_element (ha.sub hb)
  | mul => exact Outcome.reduced_map (Outcome.reduced_element (ha.mul hb))
  | divide => exact Outcome.reduced_map (Outcome.reduced_ofExcept fun q => ha.divide hb)
  | sqrtRatio => exact Outcome.reduced_map (Outcome.reduced_ratio (ha.sqrtRatio? hb))
  | max => exact Outcome.reduced_map (Outcome.reduced_element (ha.max hb))
  | min => exact Outcome.reduced_map (Outcome.reduced_element (ha.min hb))

/-- What a step preserves: from registers with words below `p` it makes only such elements. -/
theorem Step.reduced_outcome? (hr : r.Reduced) (s : Step) : ∀ o ∈ s.outcome? r, o.Reduced := by
  cases s with
  | make d => exact forall_mem_run_lift d.reduced_outcome
  | unary op x =>
    refine forall_mem_run_bind (x.reduced_value? hr) ?_
    intro a ha
    exact forall_mem_run_lift (op.reduced_outcome ha)
  | binary op x y =>
    refine forall_mem_run_bind (x.reduced_value? hr) ?_
    intro a ha
    refine forall_mem_run_bind (y.reduced_value? hr) ?_
    intro b hb
    exact forall_mem_run_lift (op.reduced_outcome ha hb)
  | mulSmall x k =>
    refine forall_mem_run_bind (x.reduced_value? hr) ?_
    intro a ha
    exact forall_mem_run_lift (Outcome.reduced_map (Outcome.reduced_element (ha.mulSmall k)))
  | pow x e =>
    refine forall_mem_run_bind (x.reduced_value? hr) ?_
    intro a ha
    exact forall_mem_run_lift (Outcome.reduced_map (Outcome.reduced_element (ha.pow e)))
  | sum xs =>
    refine forall_mem_run_bind (Operand.reduced_mapM hr xs) ?_
    intro as has
    exact forall_mem_run_pure (Outcome.reduced_element (Fp.reduced_sum has))
  | product xs =>
    refine forall_mem_run_bind (Operand.reduced_mapM hr xs) ?_
    intro as has
    exact forall_mem_run_lift (Outcome.reduced_map (Outcome.reduced_element (Fp.reduced_product has)))
  | select choice x y =>
    refine forall_mem_run_bind (x.reduced_value? hr) ?_
    intro a ha
    refine forall_mem_run_bind (y.reduced_value? hr) ?_
    intro b hb
    exact forall_mem_run_pure (Outcome.reduced_element (ha.select choice hb))
  | swap choice x y =>
    refine forall_mem_run_bind (x.reduced_value? hr) ?_
    intro a ha
    refine forall_mem_run_bind (y.reduced_value? hr) ?_
    intro b hb
    exact forall_mem_run_pure (Outcome.reduced_pair (ha.select choice hb) (hb.select choice ha))
  | draw stream count =>
    exact forall_mem_run_lift (Outcome.reduced_map
      (Outcome.reduced_draws (Fp.reduced_sampleList count _)))

theorem Instruction.reduced_run {ω : Type} (hr : r.Reduced) (i : Instruction ω) :
    (i.run r).2.Reduced := by
  cases i with
  | compute step target => exact hr.record (step.reduced_outcome? hr) target
  | inspect look => exact hr

theorem Instruction.reduced_answer {ω : Type} (hr : r.Reduced) (i : Instruction ω) {o : Outcome}
    (ho : (i.run r).1 = .computed (some o)) : o.Reduced := by
  cases i with
  | compute step target =>
    have h : step.outcome? r = some o := Answer.computed.inj ho
    exact step.reduced_outcome? hr o h
  | inspect look => cases ho

/-! ## Runs -/

theorem reduced_of_mem_runProgram {ω : Type} (hr : r.Reduced) (is : List (Instruction ω))
    {o : Outcome} (ho : .computed (some o) ∈ runProgram r is) : o.Reduced := by
  induction is generalizing r with
  | nil => cases ho
  | cons i is ih =>
    rcases List.mem_cons.1 ho with h | h
    · exact i.reduced_answer hr h.symm
    · exact ih (i.reduced_run hr) h

/-! ## The reductions of a run -/

namespace Traced

/-- The answers of a program, with the reductions of the whole run. -/
def program {ω : Type} (r : Registers) (is : List (Instruction ω)) : Traced (List (Answer ω)) :=
  runProgramM r is

theorem computes_operand? (r : Registers) (x : Operand) :
    Computes (x.valueM? r).run (x.value? r) := by
  cases x with
  | number bs => exact (computes_ofBytesReduced bs).lift
  | stored words => exact Computes.pure _
  | register name => exact Computes.pure _

theorem computes_datum (d : Datum) : Computes d.outcomeM d.outcome := by
  cases d with
  | bytes32 b => exact (computes_ofBytes32? b).map _
  | bitVec n => exact (computes_ofWords? _).map _
  | bytes bs => exact (computes_ofBytes? bs).map _
  | encoding bs => exact (computes_decode_encoding bs).map _
  | stored words => exact Computes.pure _
  | bitVecReduced n => exact (computes_ofU256 _).map _
  | bytesReduced bs => exact (computes_ofBytesReduced bs).map _
  | uint32 n => exact (computes_ofUInt64 _).map _
  | uint64 n => exact (computes_ofUInt64 n).map _
  | int64 n => exact (computes_ofInt64 n).map _
  | bitVec128 n => exact (computes_ofU256 _).map _
  | bitVec128ByDoubling n => exact (computes_ofBitVec128ByDoubling n).map _
  | decimal text => exact (computes_ofDecimal? text).map _

theorem computes_unary (ha : a.Reduced) (op : UnaryOp) :
    Computes (op.outcomeM a) (op.outcome a) := by
  cases op with
  | same => exact Computes.pure _
  | neg => exact Computes.pure _
  | double => exact Computes.pure _
  | square => exact (computes_square ha).map _
  | cube => exact (computes_cube ha).map _
  | erase => exact Computes.pure _
  | invert => exact (computes_inv? a).map _
  | sqrt => exact (computes_sqrt? ha).map _
  | sqrtAlt => exact (computes_sqrtAlt? ha).map _

theorem computes_binary (ha : a.Reduced) (hb : b.Reduced) (op : BinaryOp) :
    Computes (op.outcomeM a b) (op.outcome a b) := by
  cases op with
  | add => exact Computes.pure _
  | sub => exact Computes.pure _
  | mul => exact (computes_mul a hb).map _
  | divide => exact (computes_divide a hb).map _
  | sqrtRatio => exact (computes_sqrtRatio? ha hb).map _
  | max => exact (computes_max a b).map _
  | min => exact (computes_min a b).map _

/-- The operands of a step come first, and what they stand for is below `p`. -/
theorem computes_step? (hr : r.Reduced) (s : Step) :
    Computes (s.outcomeM? r).run (s.outcome? r) := by
  cases s with
  | make d => exact (computes_datum d).lift
  | unary op x =>
    refine (computes_operand? r x).optionBind ?_
    intro a ha
    exact (computes_unary (x.reduced_value? hr a ha) op).lift
  | binary op x y =>
    refine (computes_operand? r x).optionBind ?_
    intro a ha
    refine (computes_operand? r y).optionBind ?_
    intro b hb
    exact (computes_binary (x.reduced_value? hr a ha) (y.reduced_value? hr b hb) op).lift
  | mulSmall x k =>
    refine (computes_operand? r x).optionBind ?_
    intro a ha
    exact ((computes_mulSmall a k).map _).lift
  | pow x e =>
    refine (computes_operand? r x).optionBind ?_
    intro a ha
    exact ((computes_pow (x.reduced_value? hr a ha) e).map _).lift
  | sum xs =>
    refine (Computes.optionMapM xs fun x _ => computes_operand? r x).optionBind ?_
    intro as _
    exact Computes.pure _
  | product xs =>
    refine (Computes.optionMapM xs fun x _ => computes_operand? r x).optionBind ?_
    intro as has
    exact ((computes_product (Operand.reduced_mapM hr xs as has)).map _).lift
  | select choice x y =>
    refine (computes_operand? r x).optionBind ?_
    intro a _
    refine (computes_operand? r y).optionBind ?_
    intro b _
    exact Computes.pure _
  | swap choice x y =>
    refine (computes_operand? r x).optionBind ?_
    intro a _
    refine (computes_operand? r y).optionBind ?_
    intro b _
    exact Computes.pure _
  | draw stream count => exact ((computes_sampleList count _).map _).lift

theorem computes_instruction {ω : Type} (hr : r.Reduced) (i : Instruction ω) :
    Computes (i.runM r) (i.run r) := by
  cases i with
  | compute step target => exact (computes_step? hr step).bind (Computes.pure _)
  | inspect look => exact Computes.pure _

theorem computes_program {ω : Type} (hr : r.Reduced) (is : List (Instruction ω)) :
    (program r is).Computes (runProgram r is) := by
  induction is generalizing r with
  | nil => exact Computes.pure []
  | cons i is ih =>
    refine (computes_instruction hr i).bind ?_
    exact (ih (i.reduced_run hr)).bind (Computes.pure _)

end Traced

/-- A run of any program, from registers with words below `p`: every element that a step results in
has words below `p` and passes the test for validity, and every reduction on the way has an
argument below `2^256 * p`, so that the sum which clears its lower half has no carry. -/
theorem runProgram_reduced_in_domain {ω : Type} (r : Registers) (hr : r.Reduced)
    (is : List (Instruction ω)) :
    (∀ o, .computed (some o) ∈ runProgram r is →
      ∀ a ∈ o.elements, a.words.toNat < Modulus.p.toNat ∧ a.isValid = true) ∧
    (Traced.program r is).value = runProgram r is ∧
    (∀ x ∈ (Traced.program r is).calls,
      x.toNat < Modulus.radix * Modulus.p.toNat ∧ (Montgomery.cancel x).2 = 0) := by
  obtain ⟨hvalue, hcalls⟩ := Traced.computes_program hr is
  refine ⟨?_, hvalue, ?_⟩
  · intro o ho a ha
    have hred : a.Reduced := reduced_of_mem_runProgram hr is ho a ha
    exact ⟨hred, (Fp.isValid_iff a).2 hred⟩
  · intro x hx
    have hdom := hcalls x hx
    exact ⟨hdom, (Montgomery.cancel_toNat hdom).1⟩

/-- The sum `-1 + -1` wraps around, and its square is the second of two reductions. -/
theorem runProgram_reduced_in_domain_of_wrap :
    let wrap : List (Instruction Empty) :=
      [.compute (.make (.int64 (-1))) (some "x"),
        .compute (.binary .add (.register "x") (.register "x")) (some "y"),
        .compute (.unary .square (.register "y")) none]
    Registers.empty.Reduced ∧ (Traced.program .empty wrap).calls.length = 2 ∧
      (∀ x ∈ (Traced.program .empty wrap).calls, (Montgomery.cancel x).2 = 0) := by
  intro wrap
  refine ⟨Registers.reduced_empty, rfl, ?_⟩
  intro x hx
  have h := (runProgram_reduced_in_domain .empty Registers.reduced_empty wrap).2.2 x hx
  exact h.2

end Bn254
