import Bn254.Proofs.Encoding
import Mathlib.Data.Set.Card

/-!
# Elements from random bytes

A stream is cut into blocks of 32 bytes, and a block is good if its number without the top two bits is
below `p`. Draws from a stream look at its blocks in order, each of them once, and take the good ones:
every draw yields the number of the next good block, and ends behind it. When there is none left, the
draw ends behind the last block with the error of the source. As the two bits that are cleared are free,
every element is that of exactly four blocks.
-/

namespace Bn254

/-! ## Streams in blocks -/

namespace Bytes

variable {bs : Bytes}

/-- The block in front, and the blocks of what follows it. -/
theorem blocks_eq_cons_iff {b : Bytes32} {rest : List Bytes32} :
    blocks bs = b :: rest ↔ bs.take 32 = b.toList ∧ blocks (bs.drop 32) = rest := by
  rw [blocks]
  split
  · rw [List.cons.injEq, Bytes32.ext_iff]
  · rename_i hlen
    refine iff_of_false nofun ?_
    rintro ⟨htake, -⟩
    exact hlen (htake ▸ b.length_eq)

theorem blocks_eq_nil_iff : blocks bs = [] ↔ (bs.take 32).length ≠ 32 := by
  rw [blocks]
  split
  · rename_i hlen
    exact iff_of_false nofun (fun hne => hne hlen)
  · rename_i hlen
    exact iff_of_true rfl hlen

theorem blocks_toList (b : Bytes32) : blocks b.toList = [b] := by
  have htake : b.toList.take 32 = b.toList := List.take_of_length_le b.length_eq.le
  have hdrop : b.toList.drop 32 = [] := List.drop_of_length_le b.length_eq.le
  rw [blocks_eq_cons_iff, hdrop, blocks_eq_nil_iff]
  exact ⟨htake, nofun⟩

theorem length_blocks (bs : Bytes) : (blocks bs).length = bs.length / 32 := by
  fun_induction blocks bs with
  | case1 bs h ih =>
    simp only [List.length_take] at h
    simp only [List.length_cons, ih, List.length_drop]
    omega
  | case2 bs h =>
    simp only [List.length_take] at h
    simp only [List.length_nil]
    omega

theorem flatMap_blocks_append_drop (bs : Bytes) :
    (blocks bs).flatMap Bytes32.toList ++ bs.drop (32 * (blocks bs).length) = bs := by
  fun_induction blocks bs with
  | case1 bs h ih =>
    have hdrop : bs.drop (32 * ((blocks (bs.drop 32)).length + 1)) =
        (bs.drop 32).drop (32 * (blocks (bs.drop 32)).length) := by
      rw [List.drop_drop, Nat.mul_add, Nat.add_comm]
    rw [List.flatMap_cons, List.length_cons, hdrop, List.append_assoc, ih, List.take_append_drop]
  | case2 bs h => rfl

end Bytes

namespace Bytes32

/-- The number of the block without its top two bits. -/
def masked (b : Bytes32) : ℕ := b.value % 2 ^ 254

/-- Is the number without the top two bits below `p`? -/
def good (b : Bytes32) : Bool := b.masked < Modulus.p.toNat

theorem good_iff {b : Bytes32} : b.good = true ↔ b.value % 2 ^ 254 < Modulus.p.toNat :=
  decide_eq_true_iff

theorem value_mapHead_and (b : Bytes32) : (b.mapHead (· &&& 0x3f)).value = b.masked := by
  obtain ⟨bs, hlen⟩ := b
  cases bs with
  | nil => cases hlen
  | cons x xs =>
    have hxs : xs.length = 31 := Nat.succ.inj hlen
    have hvalue := Bytes.value_lt xs
    have hx : (x &&& 0x3f).toNat = x.toNat % 64 := by
      rw [UInt8.toNat_and]
      exact Nat.and_two_pow_sub_one_eq_mod x.toNat 6
    have hcount : Bytes.count 31 = 2 ^ 248 := by decide
    rw [hxs, hcount] at hvalue
    simp only [masked, value, mapHead, List.modifyHead_cons, Bytes.value_cons, hxs, hx, hcount]
    omega

/-- The block that writes `n` below the two bits of `k`. -/
def withTop (k n : ℕ) : Bytes32 := ofBitVec (.ofNat 256 (2 ^ 254 * k + n))

theorem value_withTop {k n : ℕ} (hk : k < 4) (hn : n < 2 ^ 254) :
    (withTop k n).value = 2 ^ 254 * k + n := by
  rw [withTop, value_ofBitVec, BitVec.toNat_ofNat]
  exact Nat.mod_eq_of_lt (by omega)

theorem masked_eq_iff {b : Bytes32} {n : ℕ} (hn : n < 2 ^ 254) :
    b.masked = n ↔ ∃ k < 4, withTop k n = b := by
  have hb := b.value_lt
  constructor
  · rintro rfl
    have hk : b.value / 2 ^ 254 < 4 := by omega
    refine ⟨b.value / 2 ^ 254, hk, value_inj.1 ?_⟩
    rw [value_withTop hk hn]
    exact Nat.div_add_mod _ _
  · rintro ⟨k, hk, rfl⟩
    rw [masked, value_withTop hk hn]
    omega

end Bytes32

/-- The places of the good blocks among the blocks of the stream, in order and from zero. -/
def Bytes.goodPlaces (s : Bytes) : List ℕ := s.blocks.findIdxs Bytes32.good

theorem Bytes.mem_goodPlaces_iff {s : Bytes} {j : ℕ} :
    j ∈ s.goodPlaces ↔ ∃ b, s.blocks[j]? = some b ∧ b.good = true := by
  rw [goodPlaces, List.mem_findIdxs_iff_exists_getElem_pos]
  constructor
  · rintro ⟨hj, hgood⟩
    exact ⟨_, List.getElem?_eq_getElem hj, hgood⟩
  · rintro ⟨b, hb, hgood⟩
    obtain ⟨hj, rfl⟩ := List.getElem?_eq_some_iff.1 hb
    exact ⟨hj, hgood⟩

/-! ## One search -/

namespace ByteSource

variable {s : ByteSource} {b : Bytes32} {bs : List Bytes32}

/-- The source after `n` more blocks. -/
def skip (s : ByteSource) (n : ℕ) : ByteSource := ⟨s.pending.drop (32 * n), s.consumed + 32 * n⟩

theorem skip_skip (s : ByteSource) (m n : ℕ) : (s.skip m).skip n = s.skip (m + n) := by
  simp only [skip, List.drop_drop, Nat.mul_add, Nat.add_assoc]

theorem blocks_skip_one (h : s.pending.blocks = b :: bs) : (s.skip 1).pending.blocks = bs :=
  (Bytes.blocks_eq_cons_iff.1 h).2

theorem draw?_of_blocks_eq_nil (h : s.pending.blocks = []) : s.draw? = none := by
  rw [draw?, Bytes32.ofList?, dif_neg (Bytes.blocks_eq_nil_iff.1 h), Option.map_none]

theorem draw?_of_blocks_eq_cons (h : s.pending.blocks = b :: bs) :
    s.draw? = some (b, s.skip 1) := by
  obtain ⟨htake, -⟩ := Bytes.blocks_eq_cons_iff.1 h
  rw [draw?, htake, Bytes32.ofList?_toList]
  rfl

variable {α : Type} {accept : Bytes32 → Option α}

theorem search_of_blocks_eq_nil (h : s.pending.blocks = []) :
    s.search accept = (.error .exhausted, s) :=
  search_of_draw?_eq_none (draw?_of_blocks_eq_nil h)

/-- The block in front is taken off in any case, and it ends the search if it is accepted. -/
theorem search_of_blocks_eq_cons (h : s.pending.blocks = b :: bs) :
    s.search accept =
      (accept b).elim ((s.skip 1).search accept) fun a => (.ok a, s.skip 1) :=
  search_of_draw?_eq_some (draw?_of_blocks_eq_cons h)

end ByteSource

/-! ## Draws one after the other -/

namespace Fp

variable {a : Fp} {b : Bytes32} {s : ByteSource} {bs : List Bytes32}

theorem ofCandidate?_eq_some_iff : ofCandidate? b = some a ↔ a.Reduced ∧ a.toNat = b.masked := by
  rw [ofCandidate?_eq_ofBytes32?, ofBytes32?_eq_ofWords?, ofWords?_eq_some_iff, U256.ofBytes_toNat,
    Bytes32.value_mapHead_and]

theorem exists_ofCandidate? (h : b.good = true) : ∃ a, ofCandidate? b = some a := by
  obtain ⟨a, ha, hnum⟩ := bijOn_toNat.surjOn (of_decide_eq_true h)
  exact ⟨a, ofCandidate?_eq_some_iff.2 ⟨ha, hnum⟩⟩

theorem ofCandidate?_eq_none (h : b.good = false) : ofCandidate? b = none := by
  rw [Option.eq_none_iff_forall_ne_some]
  intro a ha
  obtain ⟨-, hnum⟩ := ofCandidate?_eq_some_iff.1 ha
  have hlt := a.toNat_lt
  rw [hnum] at hlt
  exact of_decide_eq_false h hlt

theorem sample_of_good (h : s.pending.blocks = b :: bs) (ha : ofCandidate? b = some a) :
    sample s = (.ok a, s.skip 1) := by
  rw [sample_eq_search, ByteSource.search_of_blocks_eq_cons h, ha, Option.elim_some]

theorem sample_of_not_good (h : s.pending.blocks = b :: bs) (hb : ofCandidate? b = none) :
    sample s = sample (s.skip 1) := by
  rw [sample_eq_search, ByteSource.search_of_blocks_eq_cons h, hb, Option.elim_none, sample_eq_search]

/-- The draw that comes after `i` others from one source, and the source after it. -/
def sampleAt : ℕ → ByteSource → Except SamplingError Fp × ByteSource
  | 0, s => sample s
  | i + 1, s => sampleAt i (sample s).2

/-- A source without a block stays as it is, however often it is asked. -/
theorem sampleAt_of_blocks_eq_nil (h : s.pending.blocks = []) (i : ℕ) :
    sampleAt i s = (.error .exhausted, s) := by
  have hsample : sample s = (.error .exhausted, s) := ByteSource.search_of_blocks_eq_nil h
  induction i with
  | zero => exact hsample
  | succ i ih => rw [sampleAt, hsample, ih]

theorem sampleAt_succ_of_good (h : s.pending.blocks = b :: bs) (ha : ofCandidate? b = some a)
    (i : ℕ) : sampleAt (i + 1) s = sampleAt i (s.skip 1) := by
  rw [sampleAt, sample_of_good h ha]

theorem sampleAt_of_not_good (h : s.pending.blocks = b :: bs) (hb : ofCandidate? b = none)
    (i : ℕ) : sampleAt i s = sampleAt i (s.skip 1) := by
  cases i with
  | zero => exact sample_of_not_good h hb
  | succ i => rw [sampleAt, sample_of_not_good h hb, sampleAt]

theorem sampleList_of_not_good (h : s.pending.blocks = b :: bs) (hb : ofCandidate? b = none)
    (n : ℕ) : sampleList n s = sampleList n (s.skip 1) := by
  cases n with
  | zero => rfl
  | succ n =>
    have hsample := sample_of_not_good h hb
    rcases hs : sample (s.skip 1) with ⟨_ | a, rest⟩
    · rw [sampleList_of_sample_eq_error hs, sampleList_of_sample_eq_error (hsample.trans hs)]
    · rw [sampleList_of_sample_eq_ok hs, sampleList_of_sample_eq_ok (hsample.trans hs)]

/-- Draw `i` ends behind good block `i`, wherever that is among the blocks. The induction is on the
blocks: one that is not good is passed over, one that is good is what draw zero takes. -/
theorem sampleAt_eq (i : ℕ) (s : ByteSource) :
    sampleAt i s =
      (s.pending.blocks[s.pending.blocks.findIdxNth Bytes32.good i]?.bind ofCandidate?).elim
        (.error .exhausted, s.skip s.pending.blocks.length)
        fun a => (.ok a, s.skip (s.pending.blocks.findIdxNth Bytes32.good i + 1)) := by
  induction hbs : s.pending.blocks generalizing i s with
  | nil =>
    rw [sampleAt_of_blocks_eq_nil hbs]
    rfl
  | cons b bs ih =>
    have hrest := ByteSource.blocks_skip_one hbs
    cases hb : b.good with
    | false =>
      rw [sampleAt_of_not_good hbs (ofCandidate?_eq_none hb), ih i _ hrest,
        List.findIdxNth_cons_of_neg hb, List.getElem?_cons_succ, List.length_cons]
      simp only [ByteSource.skip_skip, Nat.add_comm 1]
    | true =>
      obtain ⟨a, ha⟩ := exists_ofCandidate? hb
      cases i with
      | zero =>
        rw [List.findIdxNth_cons_zero_of_pos hb, List.getElem?_cons_zero, Option.bind_some, ha]
        exact sample_of_good hbs ha
      | succ i =>
        rw [sampleAt_succ_of_good hbs ha, ih i _ hrest, List.findIdxNth_cons_succ_of_pos hb,
          List.getElem?_cons_succ, List.length_cons]
        simp only [ByteSource.skip_skip, Nat.add_comm 1]

/-- A list of draws is that of the first ones, up to the draw that no good block is left for. -/
theorem sampleList_eq (n : ℕ) (s : ByteSource) :
    sampleList n s =
      ((List.range n).take (s.pending.blocks.countP Bytes32.good + 1)).map fun i =>
        ⟨(sampleAt i s).1, (sampleAt i s).2.consumed⟩ := by
  induction hbs : s.pending.blocks generalizing n s with
  | nil =>
    cases n with
    | zero => rfl
    | succ n =>
      have hsample : sample s = (.error .exhausted, s) := sampleAt_of_blocks_eq_nil hbs 0
      rw [sampleList_of_sample_eq_error hsample, List.countP_nil, List.range_succ_eq_map, List.take_succ_cons,
        List.take_zero, List.map_singleton, sampleAt_of_blocks_eq_nil hbs]
  | cons b bs ih =>
    have hrest := ByteSource.blocks_skip_one hbs
    cases hb : b.good with
    | false =>
      have hnone := ofCandidate?_eq_none hb
      have hneg : ¬b.good = true := by simp [hb]
      rw [sampleList_of_not_good hbs hnone, ih _ _ hrest, List.countP_cons_of_neg hneg]
      simp only [sampleAt_of_not_good hbs hnone]
    | true =>
      obtain ⟨a, ha⟩ := exists_ofCandidate? hb
      cases n with
      | zero => rfl
      | succ n =>
        rw [sampleList_of_sample_eq_ok (sample_of_good hbs ha), List.countP_cons_of_pos hb, List.range_succ_eq_map,
          List.take_succ_cons, ← List.map_take, List.map_cons, List.map_map]
        simp only [ih _ _ hrest, sampleAt, sample_of_good hbs ha, Function.comp_def]

theorem skip_ofBytes (s : Bytes) (n : ℕ) :
    (ByteSource.ofBytes s).skip n = ⟨s.drop (32 * n), 32 * n⟩ := by
  rw [ByteSource.skip, ByteSource.ofBytes, Nat.zero_add]

theorem sampleAt_of_goodPlaces {s : Bytes} {i j : ℕ} (h : s.goodPlaces[i]? = some j) :
    ∃ b a, s.blocks[j]? = some b ∧ b.good = true ∧ ofCandidate? b = some a ∧
      sampleAt i (.ofBytes s) = (.ok a, ⟨s.drop (32 * (j + 1)), 32 * (j + 1)⟩) := by
  obtain ⟨hi, hplace⟩ := List.getElem?_eq_some_iff.1 h
  obtain ⟨b, hb, hgood⟩ := Bytes.mem_goodPlaces_iff.1 (List.mem_of_getElem? h)
  obtain ⟨a, ha⟩ := exists_ofCandidate? hgood
  have hj : s.blocks.findIdxNth Bytes32.good i = j := by
    rw [← hplace]
    exact List.getElem_findIdxs_eq_findIdxNth.symm
  have hdraw := sampleAt_eq i (.ofBytes s)
  rw [show (ByteSource.ofBytes s).pending = s from rfl, hj, hb, Option.bind_some, ha,
    Option.elim_some, skip_ofBytes] at hdraw
  exact ⟨b, a, hb, hgood, ha, hdraw⟩

theorem sampleAt_of_length_goodPlaces_le {s : Bytes} {i : ℕ} (h : s.goodPlaces.length ≤ i) :
    sampleAt i (.ofBytes s) =
      (.error .exhausted, ⟨s.drop (32 * (s.length / 32)), 32 * (s.length / 32)⟩) := by
  rw [Bytes.goodPlaces, List.length_findIdxs] at h
  have hj := List.findIdxNth_eq_length_of_ge_countP h
  have hdraw := sampleAt_eq i (.ofBytes s)
  rw [show (ByteSource.ofBytes s).pending = s from rfl, hj, List.getElem?_eq_none le_rfl,
    Option.bind_none, Option.elim_none, skip_ofBytes, Bytes.length_blocks] at hdraw
  exact hdraw

/-! ## The blocks of an element -/

theorem sample_toList_eq_ok_iff :
    (sample (.ofBytes b.toList)).1 = .ok a ↔ ofCandidate? b = some a := by
  have hblocks : (ByteSource.ofBytes b.toList).pending.blocks = [b] := Bytes.blocks_toList b
  have hrest := ByteSource.blocks_skip_one hblocks
  cases h : ofCandidate? b with
  | none =>
    rw [sample_of_not_good hblocks h, sample_eq_search, ByteSource.search_of_blocks_eq_nil hrest]
    exact iff_of_false nofun nofun
  | some c =>
    rw [sample_of_good hblocks h, Option.some_inj]
    exact ⟨Except.ok.inj, congrArg _⟩

theorem good_and_sample_iff (ha : a.Reduced) :
    b.good = true ∧ (sample (.ofBytes b.toList)).1 = .ok a ↔ b.masked = a.toNat := by
  rw [sample_toList_eq_ok_iff, ofCandidate?_eq_some_iff, Bytes32.good, decide_eq_true_iff]
  constructor
  · rintro ⟨-, -, h⟩
    exact h.symm
  · intro h
    exact ⟨h ▸ a.toNat_lt, ha, h.symm⟩

/-- The number of the element below any two bits on top. -/
theorem ncard_blocks_of_element (ha : a.Reduced) :
    {b : Bytes32 | b.good = true ∧ (sample (.ofBytes b.toList)).1 = .ok a}.ncard = 4 := by
  have hn : a.toNat < 2 ^ 254 := a.toNat_lt.trans (by decide)
  have himage : {b : Bytes32 | b.good = true ∧ (sample (.ofBytes b.toList)).1 = .ok a} =
      (Bytes32.withTop · a.toNat) '' (Finset.range 4 : Set ℕ) := by
    ext b
    simp only [Finset.coe_range, Set.mem_image, Set.mem_Iio]
    exact (good_and_sample_iff ha).trans (Bytes32.masked_eq_iff hn)
  have hinj : Set.InjOn (Bytes32.withTop · a.toNat) (Finset.range 4 : Set ℕ) := by
    intro j hj k hk h
    rw [Finset.mem_coe, Finset.mem_range] at hj hk
    have hvalue := congrArg Bytes32.value h
    simp only [Bytes32.value_withTop hj hn, Bytes32.value_withTop hk hn] at hvalue
    omega
  rw [himage, hinj.ncard_image, Set.ncard_coe_finset, Finset.card_range]

/-- Draw `i` from a stream, counted from zero, yields the number of good block `i` without its top two
bits and has then taken the blocks up to this one, each once. If there is no such block it ends with the
error of the source, and all whole blocks have been taken; so does every draw after it. A list of draws
holds these outcomes up to the first error. Every element is that of exactly four good blocks. -/
theorem sampling_takes_good_blocks_in_order :
    (∀ s : Bytes,
      s.blocks.length = s.length / 32 ∧
      s.blocks.flatMap Bytes32.toList ++ s.drop (32 * s.blocks.length) = s ∧
      s.goodPlaces.Pairwise (· < ·) ∧
      ∀ j, j ∈ s.goodPlaces ↔ ∃ b, s.blocks[j]? = some b ∧ b.value % 2 ^ 254 < Modulus.p.toNat) ∧
    (∀ (s : Bytes) (i j : ℕ), s.goodPlaces[i]? = some j →
      ∃ b a, s.blocks[j]? = some b ∧ a.Reduced ∧ a.toNat = b.value % 2 ^ 254 ∧
        sampleAt i (.ofBytes s) = (.ok a, ⟨s.drop (32 * (j + 1)), 32 * (j + 1)⟩)) ∧
    (∀ (s : Bytes) (i : ℕ), s.goodPlaces.length ≤ i →
      sampleAt i (.ofBytes s) =
        (.error .exhausted, ⟨s.drop (32 * (s.length / 32)), 32 * (s.length / 32)⟩)) ∧
    (∀ (s : Bytes) (n : ℕ), sampleList n (.ofBytes s) =
      ((List.range n).take (s.goodPlaces.length + 1)).map fun i =>
        ⟨(sampleAt i (.ofBytes s)).1, (sampleAt i (.ofBytes s)).2.consumed⟩) ∧
    (∀ a : Fp, a.Reduced →
      {b : Bytes32 | b.value % 2 ^ 254 < Modulus.p.toNat ∧
        (sample (.ofBytes b.toList)).1 = .ok a}.ncard = 4) := by
  refine ⟨?_, ?_, ?_, ?_, ?_⟩
  · intro s
    refine ⟨Bytes.length_blocks s, Bytes.flatMap_blocks_append_drop s, List.pairwise_findIdxs, ?_⟩
    intro j
    simp only [Bytes.mem_goodPlaces_iff, Bytes32.good_iff]
  · intro s i j h
    obtain ⟨b, a, hb, -, ha, hdraw⟩ := sampleAt_of_goodPlaces h
    obtain ⟨hred, hnum⟩ := ofCandidate?_eq_some_iff.1 ha
    exact ⟨b, a, hb, hred, hnum, hdraw⟩
  · intro s i h
    exact sampleAt_of_length_goodPlaces_le h
  · intro s n
    rw [Bytes.goodPlaces, List.length_findIdxs]
    exact sampleList_eq n (.ofBytes s)
  · intro a ha
    have hcard := ncard_blocks_of_element ha
    simp only [Bytes32.good_iff] at hcard
    exact hcard

/-- A block that is too large, one that writes five below two set bits, and three bytes more: the first
draw takes the second block, and the next one fails without another byte. -/
theorem sampling_takes_good_blocks_in_order_of_two :
    let s : Bytes := List.replicate 32 0xff ++ 0xc0 :: (List.replicate 30 0 ++ [5, 1, 2, 3])
    s.goodPlaces[0]? = some 1 ∧ s.goodPlaces.length ≤ 1 ∧
      (∃ a : Fp, a.Reduced ∧ a.toNat = 5 ∧ sampleAt 0 (.ofBytes s) = (.ok a, ⟨[1, 2, 3], 64⟩)) ∧
      sampleAt 1 (.ofBytes s) = (.error .exhausted, ⟨[1, 2, 3], 64⟩) ∧
      one.Reduced ∧
      {b : Bytes32 | b.value % 2 ^ 254 < Modulus.p.toNat ∧
        (sample (.ofBytes b.toList)).1 = .ok one}.ncard = 4 := by
  intro s
  have hplace : s.goodPlaces[0]? = some 1 := by decide +kernel
  have hlength : s.goodPlaces.length ≤ 1 := by decide +kernel
  have hvalue : (s.blocks[1]?).map Bytes32.value = some (3 * 2 ^ 254 + 5) := by decide +kernel
  have hlen : s.length = 67 := by decide
  obtain ⟨-, hdraw, hend, -, hcount⟩ := sampling_takes_good_blocks_in_order
  obtain ⟨b, a, hb, ha, hnum, hsample⟩ := hdraw s 0 1 hplace
  have herror := hend s 1 hlength
  rw [hlen] at herror
  rw [hb, Option.map_some, Option.some_inj] at hvalue
  rw [hvalue] at hnum
  exact ⟨hplace, hlength, ⟨a, ha, hnum, hsample⟩, herror, reduced_one, hcount one reduced_one⟩

end Fp

end Bn254
