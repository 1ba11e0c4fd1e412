import Bn254.Fp.Integer
import Bn254.Fp.Order
import Bn254.Fp.Sampling
import Bn254.Fp.Power
import Bn254.Proofs.Division

/-!
# Words below `p` everywhere

Every constructor, decoder and operation results in words below `p`, given such operands. For the
operations that represent a residue this is half of what they are known for; the others end in one
of those, or hand on one of their operands.
-/

namespace Bn254.Fp

variable {a b : Fp}

/-- The test for validity looks at the words and at the number, of which only the words can fail
it. -/
theorem isValid_iff (a : Fp) : a.isValid = true ↔ a.Reduced := by
  rw [isValid, Bool.and_eq_true, U256.lt_iff, U256.lt_iff]
  exact and_iff_left a.toNat_lt

/-! ## Integers -/

theorem reduced_zero : zero.Reduced := represents_zero.1

theorem reduced_one : one.Reduced := represents_one.1

theorem reduced_ofU256 (n : U256) : (ofU256 n).Reduced := (represents_ofU256 n).1

theorem reduced_ofUInt64 (n : UInt64) : (ofUInt64 n).Reduced := reduced_ofU256 _

theorem reduced_ofInt64 (n : Int64) : (ofInt64 n).Reduced := by
  have h := represents_ofUInt64 (.ofNat n.toInt.natAbs)
  rw [ofInt64_eq_ite]
  split
  · exact h.neg.1
  · exact h.1

theorem reduced_rootOfUnity : rootOfUnity.Reduced := represents_one.neg.1

/-! ## Operations -/

theorem Reduced.add (ha : a.Reduced) (hb : b.Reduced) : (a + b).Reduced :=
  (ha.represents.add hb.represents).1

theorem Reduced.sub (ha : a.Reduced) (hb : b.Reduced) : (a - b).Reduced :=
  (ha.represents.sub hb.represents).1

theorem Reduced.neg (ha : a.Reduced) : (-a).Reduced := ha.represents.neg.1

theorem Reduced.mul (ha : a.Reduced) (hb : b.Reduced) : (a * b).Reduced :=
  (ha.represents.mul hb.represents).1

theorem Reduced.double (ha : a.Reduced) : a.double.Reduced := ha.represents.double.1

theorem Reduced.square (ha : a.Reduced) : a.square.Reduced := ha.represents.square.1

theorem Reduced.cube (ha : a.Reduced) : a.cube.Reduced := ha.represents.cube.1

theorem Reduced.mulSmall (ha : a.Reduced) (k : Int64) : (a.mulSmall k).Reduced :=
  ha.mul (reduced_ofInt64 k)

theorem Reduced.pow (ha : a.Reduced) (e : Exponent) : (a.pow e).Reduced := (ha.represents.pow e).1

theorem Reduced.powWords (ha : a.Reduced) (ws : List Word) : (a.powWords ws).Reduced :=
  (ha.represents.powWords ws).1

theorem Reduced.inverseOrZero (ha : a.Reduced) : a.inverseOrZero.Reduced :=
  ha.represents.inverseOrZero.1

theorem Reduced.inv? (ha : a.Reduced) : ∀ i ∈ a.inv?, i.Reduced := by
  intro i hi
  rw [inv?_eq_ite] at hi
  split at hi
  · cases hi
  · cases hi
    exact ha.inverseOrZero

theorem Reduced.divide (ha : a.Reduced) (hb : b.Reduced) {q : Fp} (h : a.divide b = .ok q) :
    q.Reduced := by
  by_cases hz : b = zero
  · rw [hz, divide_zero] at h
    cases h
  · rw [divide_eq_ok a hz] at h
    cases h
    exact ha.mul hb.inverseOrZero

theorem Reduced.sqrt? (ha : a.Reduced) : ∀ r ∈ a.sqrt?, r.Reduced := by
  intro r hr
  rw [sqrt?_eq_ite] at hr
  split at hr
  · rw [← Option.some.inj hr]
    exact ha.powWords _
  · cases hr

theorem Reduced.ratio (ha : a.Reduced) (hb : b.Reduced) : (b.inv?.getD zero * a).Reduced := by
  refine Reduced.mul ?_ ha
  cases h : b.inv? with
  | none => exact reduced_zero
  | some i => exact hb.inv? i h

theorem Reduced.sqrtRatio? (ha : a.Reduced) (hb : b.Reduced) :
    ∀ answer ∈ Fp.sqrtRatio? a b, answer.2.Reduced := by
  intro answer h
  have hq := ha.ratio hb
  have ht := hq.mul reduced_rootOfUnity
  rw [sqrtRatio?_eq_ite] at h
  simp only at h
  split at h
  · obtain ⟨r, hr, rfl⟩ := Option.map_eq_some_iff.1 h
    split at hr
    · exact hq.sqrt? r hr
    · exact ht.sqrt? r hr
  · cases h

theorem Reduced.select (choice : Bool) (ha : a.Reduced) (hb : b.Reduced) :
    (Fp.select choice a b).Reduced := by
  rw [select_eq]
  split
  · exact hb
  · exact ha

theorem Reduced.max (ha : a.Reduced) (hb : b.Reduced) : (a.max b).Reduced := by
  rw [max_eq_ite]
  split
  · exact ha
  · exact hb

theorem Reduced.min (ha : a.Reduced) (hb : b.Reduced) : (a.min b).Reduced := by
  rw [min_eq_ite]
  split
  · exact hb
  · exact ha

/-! ## Folds -/

theorem reduced_foldl {ι : Type} {f : Fp → ι → Fp} (l : List ι)
    (hf : ∀ r : Fp, ∀ i ∈ l, r.Reduced → (f r i).Reduced) {r : Fp} (hr : r.Reduced) :
    (l.foldl f r).Reduced := by
  induction l generalizing r with
  | nil => exact hr
  | cons i l ih =>
    refine ih (fun r j hj => hf r j (List.mem_cons_of_mem i hj)) ?_
    exact hf r i List.mem_cons_self hr

theorem reduced_combine {op : Fp → Fp → Fp} {empty : Fp} {xs : List Fp}
    (hop : ∀ {a b : Fp}, a.Reduced → b.Reduced → (op a b).Reduced) (hempty : empty.Reduced)
    (hxs : ∀ x ∈ xs, x.Reduced) : (combine op empty xs).Reduced := by
  cases xs with
  | nil => exact hempty
  | cons x xs =>
    rw [combine_cons]
    refine reduced_foldl xs ?_ (hxs x List.mem_cons_self)
    intro r y hy hr
    exact hop hr (hxs y (List.mem_cons_of_mem x hy))

theorem reduced_sum {xs : List Fp} (hxs : ∀ x ∈ xs, x.Reduced) : (sum xs).Reduced :=
  reduced_combine Reduced.add reduced_zero hxs

theorem reduced_product {xs : List Fp} (hxs : ∀ x ∈ xs, x.Reduced) : (product xs).Reduced :=
  reduced_combine Reduced.mul reduced_one hxs

theorem reduced_repeat_double (n : ℕ) (ha : a.Reduced) : (Nat.repeat double n a).Reduced := by
  induction n with
  | zero => exact ha
  | succ n ih => exact ih.double

theorem reduced_ofBitVec128ByDoubling (n : BitVec 128) : (ofBitVec128ByDoubling n).Reduced :=
  (reduced_repeat_double 64 (reduced_ofUInt64 _)).add (reduced_ofUInt64 _)

/-! ## Decoders -/

theorem reduced_ofWords? (n : U256) : ∀ a ∈ ofWords? n, a.Reduced := by
  intro a h
  rw [ofWords?_eq_ite] at h
  split at h
  · cases h
    exact reduced_ofU256 n
  · cases h

theorem reduced_ofBytes? (bs : Bytes) : ∀ a ∈ ofBytes? bs, a.Reduced := by
  intro a h
  rw [ofBytes?_eq_bind] at h
  obtain ⟨b, -, hb⟩ := Option.bind_eq_some_iff.1 h
  exact reduced_ofWords? _ a hb

theorem reduced_decode {bs : Bytes} {a : Fp} (h : decode bs = .ok a) : a.Reduced := by
  rw [decode_eq_elim] at h
  cases hb : Bytes32.ofList? bs with
  | none =>
    rw [hb] at h
    cases h
  | some b =>
    rw [hb, Option.elim_some] at h
    cases ha : ofBytes32? b with
    | none =>
      rw [ha] at h
      cases h
    | some a' =>
      rw [ha, Option.elim_some] at h
      rw [← Except.ok.inj h]
      exact reduced_ofWords? _ a' ha

/-- The words themselves are tested, so what is taken over is below `p`, and is taken over as it is. -/
theorem ofStored?_eq_some_iff {w : U256} : ofStored? w = some a ↔ a.Reduced ∧ a.words = w := by
  rw [ofStored?]
  split_ifs with h
  · rw [U256.lt_iff] at h
    constructor
    · intro hw
      cases hw
      exact ⟨h, rfl⟩
    · rintro ⟨-, rfl⟩
      rfl
  · rw [U256.lt_iff] at h
    refine iff_of_false nofun ?_
    rintro ⟨ha, rfl⟩
    exact h ha

theorem reduced_ofStored? (words : U256) : ∀ a ∈ ofStored? words, a.Reduced := by
  intro a h
  exact (ofStored?_eq_some_iff.1 h).1

theorem reduced_radix : radix.Reduced := Modulus.radixSq_lt

theorem reduced_ofBytesReduced (bs : Bytes) : (ofBytesReduced bs).Reduced := by
  rw [ofBytesReduced_eq_foldl]
  refine reduced_foldl _ ?_ (reduced_ofU256 _)
  intro acc block _ hacc
  exact (hacc.mul reduced_radix).add (reduced_ofU256 _)

theorem reduced_appendDigits (digits : List Char) (ha : a.Reduced) :
    (appendDigits a digits).Reduced := by
  rw [appendDigits_eq_foldl]
  refine reduced_foldl _ ?_ ha
  intro r c _ hr
  exact (hr.mul (reduced_ofUInt64 10)).add (reduced_ofUInt64 _)

theorem reduced_ofDecimal? (text : String) : ∀ a ∈ ofDecimal? text, a.Reduced := by
  intro a h
  rw [ofDecimal?_eq_ite] at h
  split at h
  · cases h
    exact reduced_appendDigits _ reduced_zero
  · cases h

/-! ## Random elements -/

/-- What a search results in has been accepted. -/
theorem accepted_of_search {α : Type} {accept : Bytes32 → Option α} {s t : ByteSource} {x : α}
    (h : s.search accept = (.ok x, t)) : ∃ b, accept b = some x := by
  induction s using ByteSource.draw_induction with
  | step s ih =>
    cases hdraw : s.draw? with
    | none =>
      rw [ByteSource.search_of_draw?_eq_none hdraw] at h
      cases h
    | some next =>
      obtain ⟨b, rest⟩ := next
      rw [ByteSource.search_of_draw?_eq_some hdraw] at h
      cases hb : accept b with
      | none =>
        rw [hb] at h
        exact ih b rest hdraw h
      | some y =>
        rw [hb] at h
        cases h
        exact ⟨b, hb⟩

theorem reduced_sample {s t : ByteSource} {a : Fp} (h : sample s = (.ok a, t)) : a.Reduced := by
  obtain ⟨b, hb⟩ := accepted_of_search h
  exact reduced_ofWords? _ a hb

theorem reduced_sampleList (n : ℕ) (s : ByteSource) :
    ∀ d ∈ sampleList n s, ∀ a, d.result = .ok a → a.Reduced := by
  induction n generalizing s with
  | zero =>
    intro d hd
    cases hd
  | succ n ih =>
    intro d hd a ha
    rcases hs : sample s with ⟨_ | a', rest⟩
    · rw [sampleList_of_sample_eq_error hs] at hd
      rcases List.mem_singleton.1 hd with rfl
      cases ha
    · rw [sampleList_of_sample_eq_ok hs] at hd
      rcases List.mem_cons.1 hd with rfl | hd
      · cases ha
        exact reduced_sample hs
      · exact ih rest d hd a ha

end Bn254.Fp
