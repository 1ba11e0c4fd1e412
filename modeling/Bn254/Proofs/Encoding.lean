import Bn254.Proofs.Closure

/-!
# Encodings of elements

Every decoder is known by one fact. The strict ones yield the element whose encoding they are given,
and nothing for any other input; the reducing one yields what represents the number that its input
writes. So all strict routes accept the same inputs, and each of them undoes each encoder.
-/

namespace Bn254

namespace Bytes

theorem count_add (j k : ℕ) : count (j + k) = count j * count k := by
  induction k with
  | zero => rw [Nat.add_zero, count, Nat.mul_one]
  | succ k ih => rw [← Nat.add_assoc, count, count, ih, Nat.mul_assoc]

theorem count_block : count 32 = Modulus.radix := by decide

/-- Digits after the number `n` add up in the same way if their first block joins `n` before. -/
theorem value_cut_block (n : ℕ) {bs : Bytes} (h : (bs.take 32).length = 32) :
    n * count bs.length + value bs =
      (n * Modulus.radix + value (bs.take 32)) * count (bs.drop 32).length +
        value (bs.drop 32) := by
  have hlength : bs.length = 32 + (bs.drop 32).length := by
    rw [List.length_take] at h
    rw [List.length_drop]
    omega
  have hvalue : value bs =
      value (bs.take 32) * count (bs.drop 32).length + value (bs.drop 32) := by
    rw [← value_append, List.take_append_drop]
  rw [hvalue, hlength, count_add, count_block]
  ring

/-- Only zeros write zero. -/
theorem trim_eq_nil_iff (bs : Bytes) : trim bs = [] ↔ value bs = 0 := by
  induction bs with
  | nil => exact iff_of_true rfl rfl
  | cons b bs ih =>
    by_cases hb : b = 0
    · rw [hb, trim, List.dropWhile_cons_of_pos rfl, value_cons, UInt8.toNat_zero, Nat.zero_mul,
        Nat.zero_add]
      exact ih
    · have hne : b.toNat ≠ 0 := by
        intro h
        exact hb (UInt8.toNat_inj.1 (h.trans UInt8.toNat_zero.symm))
      have hpos : 0 < b.toNat * count bs.length :=
        Nat.mul_pos (Nat.pos_of_ne_zero hne) (count_pos _)
      rw [trim, List.dropWhile_cons_of_neg (by simpa using hb), value_cons]
      exact iff_of_false (List.cons_ne_nil b bs) (by omega)

theorem head?_trim_ne_zero (bs : Bytes) : ∀ b ∈ (trim bs).head?, b ≠ 0 := by
  intro b hb
  have h := List.head?_dropWhile_not (fun b : UInt8 => b == 0) bs
  rw [trim] at hb
  rw [Option.mem_def.1 hb] at h
  simpa using h

end Bytes

namespace Fp

variable {a : Fp} {b : Bytes32} {bs : Bytes}

/-! ## Strict decoding -/

theorem ofWords?_eq_some_iff {n : U256} :
    ofWords? n = some a ↔ a.Reduced ∧ a.toNat = n.toNat := by
  have hn := represents_ofU256 n
  by_cases h : n.toNat < Modulus.p.toNat
  · rw [ofWords?_eq_ite, if_pos ((U256.lt_iff _ _).2 h), Option.some_inj]
    constructor
    · rintro rfl
      exact ⟨hn.1, by rw [hn.toNat_eq, Nat.mod_eq_of_lt h]⟩
    · rintro ⟨ha, heq⟩
      have hrep := ha.represents
      rw [heq] at hrep
      exact hn.unique hrep
  · rw [ofWords?_eq_ite, if_neg (mt (U256.lt_iff _ _).1 h)]
    refine iff_of_false nofun ?_
    rintro ⟨-, heq⟩
    exact h (heq ▸ a.toNat_lt)

theorem value_toBytes32 (a : Fp) : a.toBytes32.value = a.toNat := U256.toBytes_value _

theorem toBytes32_eq_iff : a.toBytes32 = b ↔ a.toNat = b.value := by
  rw [← Bytes32.value_inj, value_toBytes32]

theorem ofBytes32?_eq_some_iff : ofBytes32? b = some a ↔ a.Reduced ∧ a.toBytes32 = b := by
  rw [ofBytes32?_eq_ofWords?, ofWords?_eq_some_iff, U256.ofBytes_toNat, toBytes32_eq_iff]

theorem ofBytes32?_eq_none_iff : ofBytes32? b = none ↔ Modulus.p.toNat ≤ b.value := by
  rw [← Nat.not_lt, ← U256.ofBytes_toNat, ← U256.lt_iff, ofBytes32?_eq_ofWords?, ofWords?_eq_ite]
  cases (U256.ofBytes b).lt Modulus.p with
  | false => simp
  | true => simp

theorem ofBytes?_eq_some_iff : ofBytes? bs = some a ↔ a.Reduced ∧ a.toBytes32.toList = bs := by
  rw [ofBytes?_eq_bind, Option.bind_eq_some_iff]
  constructor
  · rintro ⟨b, hb, ha⟩
    obtain ⟨hred, rfl⟩ := ofBytes32?_eq_some_iff.1 ha
    exact ⟨hred, Bytes32.ofList?_eq_some_iff.1 hb⟩
  · rintro ⟨hred, rfl⟩
    exact ⟨a.toBytes32, Bytes32.ofList?_toList _, ofBytes32?_eq_some_iff.2 ⟨hred, rfl⟩⟩

theorem decode_toList (b : Bytes32) :
    decode b.toList = (ofBytes32? b).elim (.error .overflow) .ok := by
  rw [decode_eq_elim, Bytes32.ofList?_toList, Option.elim_some]

theorem decode_of_length_ne (h : bs.length ≠ 32) : decode bs = .error .invalidLength := by
  rw [decode_eq_elim, Bytes32.ofList?, dif_neg h, Option.elim_none]

theorem decode_eq_invalidLength_iff : decode bs = .error .invalidLength ↔ bs.length ≠ 32 := by
  refine ⟨?_, decode_of_length_ne⟩
  intro h hlen
  have hdec := decode_toList ⟨bs, hlen⟩
  rw [h] at hdec
  cases ho : ofBytes32? ⟨bs, hlen⟩ with
  | none => rw [ho] at hdec; cases hdec
  | some a => rw [ho] at hdec; cases hdec

theorem decode_eq_overflow_iff :
    decode bs = .error .overflow ↔ bs.length = 32 ∧ Modulus.p.toNat ≤ bs.value := by
  by_cases hlen : bs.length = 32
  · have hdec := decode_toList ⟨bs, hlen⟩
    have hnone := ofBytes32?_eq_none_iff (b := ⟨bs, hlen⟩)
    rw [and_iff_right hlen]
    refine Iff.trans ?_ hnone
    rw [hdec]
    cases ofBytes32? ⟨bs, hlen⟩ with
    | none => exact iff_of_true rfl rfl
    | some a => exact iff_of_false nofun nofun
  · rw [decode_of_length_ne hlen]
    exact iff_of_false nofun (fun h => hlen h.1)

theorem decode_eq_ok_iff : decode bs = .ok a ↔ a.Reduced ∧ a.toBytes32.toList = bs := by
  rw [← ofBytes?_eq_some_iff]
  by_cases hlen : bs.length = 32
  · have hdec := decode_toList ⟨bs, hlen⟩
    rw [hdec, ofBytes?_eq_bind, Bytes32.ofList?, dif_pos hlen, Option.bind_some]
    cases ofBytes32? ⟨bs, hlen⟩ with
    | none => simp only [Option.elim_none, reduceCtorEq]
    | some c =>
      rw [Option.elim_some, Option.some_inj]
      exact ⟨Except.ok.inj, congrArg _⟩
  · rw [decode_of_length_ne hlen, ofBytes?_eq_bind, Bytes32.ofList?, dif_neg hlen]
    simp only [Option.bind_none, reduceCtorEq]

/-! ## Decoding with reduction -/

theorem represents_ofBlock (b : Bytes32) : (ofBlock b).Represents b.value := by
  have h := represents_ofU256 (.ofBytes b)
  rw [U256.ofBytes_toNat] at h
  exact h

theorem represents_radix : radix.Represents Modulus.radix :=
  represents_iff_words.2 ⟨reduced_radix, by rw [radix, Modulus.radixSq_residue, sq]⟩

/-- Every block is one more digit. The induction is on the whole blocks that are left, with the
number of the digits before them in `n`. -/
theorem Represents.foldl_blocks {n : ℕ} (ha : a.Represents n) (hbs : bs.length % 32 = 0) :
    ((Bytes.blocks bs).foldl (fun acc block => acc * radix + ofBlock block) a).Represents
      (n * Bytes.count bs.length + bs.value : ℕ) := by
  fun_induction Bytes.blocks bs generalizing a n with
  | case1 bs hlen ih =>
    have hdrop : (bs.drop 32).length % 32 = 0 := by
      rw [List.length_drop]
      omega
    have hstep := (ha.mul represents_radix).add (represents_ofBlock ⟨bs.take 32, hlen⟩)
    rw [← Nat.cast_mul, ← Nat.cast_add] at hstep
    rw [Bytes.value_cut_block n hlen]
    exact ih hstep hdrop
  | case2 bs hlen =>
    have hnil : bs = [] := by
      rw [List.length_take] at hlen
      exact List.eq_nil_of_length_eq_zero (by omega)
    rw [hnil]
    have hn : n * Bytes.count ([] : Bytes).length + Bytes.value [] = n := by
      rw [List.length_nil, Bytes.count, Nat.mul_one]
      rfl
    rw [hn]
    exact ha

/-- The reducing decoder goes by the residue of the number, however long its input is. -/
theorem represents_ofBytesReduced (bs : Bytes) : (ofBytesReduced bs).Represents bs.value := by
  have hrest : (bs.drop (bs.length % 32)).length % 32 = 0 := by
    rw [List.length_drop]
    omega
  have hstart := represents_ofBlock (.padLeft _ (Bytes32.length_front_le bs))
  rw [Bytes32.value_padLeft] at hstart
  have h := hstart.foldl_blocks hrest
  rw [← Bytes.value_append, List.take_append_drop] at h
  rw [ofBytesReduced_eq_foldl]
  exact h

/-! ## The shortest encoding -/

theorem Represents.toBytes_eq_nil_iff {x : Residue} (ha : a.Represents x) :
    a.toBytes.toList = [] ↔ x = 0 := by
  have hvalue : a.toBytes.padded.toList.value = a.toNat := value_toBytes32 a
  rw [MinimalBytes.toList, Bytes.trim_eq_nil_iff, hvalue, ← ha.2, ZMod.natCast_eq_zero_iff]
  constructor
  · intro h
    rw [h]
    exact dvd_zero _
  · intro h
    exact Nat.eq_zero_of_dvd_of_lt h a.toNat_lt

theorem head?_toBytes_ne_zero (a : Fp) : ∀ b ∈ a.toBytes.toList.head?, b ≠ 0 :=
  Bytes.head?_trim_ne_zero _

/-! ## The routes together -/

theorem toNat_toBitVec (b : Bytes32) : b.toBitVec.toNat = b.value := by
  rw [Bytes32.toBitVec, BitVec.toNat_ofNat]
  exact Nat.mod_eq_of_lt b.value_lt

theorem ofBitVec_eq {n : BitVec 256} (hn : n.toNat = b.value) : Bytes32.ofBitVec n = b :=
  Bytes32.value_inj.1 (by rw [Bytes32.value_ofBitVec, hn])

theorem ofBitVec?_eq {n : BitVec 256} (hn : n.toNat = b.value) : ofBitVec? n = ofBytes32? b := by
  rw [ofBitVec?_eq_ofBytes32?, ofBitVec_eq hn]

/-- On what the strict decoders accept, the reducing ones agree with them. -/
theorem reduced_routes_of_eq_some (ha : ofBytes32? b = some a) {n : BitVec 256}
    (hn : n.toNat = b.value) : ofBitVecReduced n = a ∧ ofBytesReduced b.toList = a := by
  obtain ⟨hred, hb⟩ := ofBytes32?_eq_some_iff.1 ha
  have hrep := hred.represents
  rw [toBytes32_eq_iff.1 hb] at hrep
  constructor
  · show ofBlock (.ofBitVec n) = a
    rw [ofBitVec_eq hn]
    exact (represents_ofBlock b).unique hrep
  · exact (represents_ofBytesReduced b.toList).unique hrep

theorem bijOn_toBytes32 :
    Set.BijOn toBytes32 {a | a.Reduced} {b | b.value < Modulus.p.toNat} := by
  refine ⟨?_, ?_, ?_⟩
  · intro a _
    show a.toBytes32.value < _
    rw [value_toBytes32]
    exact a.toNat_lt
  · intro a ha c hc hac
    have h : a.toNat = c.toNat := by rw [toBytes32_eq_iff.1 hac, value_toBytes32]
    exact bijOn_toNat.injOn ha hc h
  · intro b hb
    obtain ⟨a, ha, heq⟩ := bijOn_toNat.surjOn hb
    exact ⟨a, ha, toBytes32_eq_iff.2 heq⟩

/-- The 32 bytes of an element determine it, and every string of 32 bytes that writes a number below
`p` is those of an element. The strict decoder tells a wrong length from a number that is too large;
all routes agree with it, and each of them gives back an element from each of its encodings. -/
theorem strict_codec_is_bijective :
    Set.BijOn toBytes32 {a | a.Reduced} {b | b.value < Modulus.p.toNat} ∧
    (∀ s : Bytes,
      (decode s = .error .invalidLength ↔ s.length ≠ 32) ∧
      (decode s = .error .overflow ↔ s.length = 32 ∧ Modulus.p.toNat ≤ s.value) ∧
      (s.length = 32 → s.value < Modulus.p.toNat →
        ∃ x, decode s = .ok x ∧ x.Reduced ∧ x.toBytes32.toList = s) ∧
      (∀ x, ofBytes? s = some x ↔ decode s = .ok x)) ∧
    (∀ (b : Bytes32) (n : BitVec 256), n.toNat = b.value →
      ofBitVec? n = ofBytes32? b ∧
      (∀ x, ofBytes32? b = some x ↔ decode b.toList = .ok x) ∧
      (∀ x, ofBytes32? b = some x → ofBitVecReduced n = x ∧ ofBytesReduced b.toList = x)) ∧
    (∀ x : Fp, x.Reduced →
      (∀ b ∈ [x.toBytes32, x.toBytes.padded, .ofBitVec x.toBitVec],
        decode b.toList = .ok x ∧ ofBytes? b.toList = some x ∧ ofBytes32? b = some x ∧
        ofBytesReduced b.toList = x) ∧
      ofBitVec? x.toBitVec = some x ∧ ofBitVecReduced x.toBitVec = x) := by
  refine ⟨bijOn_toBytes32, ?_, ?_, ?_⟩
  · intro s
    refine ⟨decode_eq_invalidLength_iff, decode_eq_overflow_iff, ?_, ?_⟩
    · intro hlen hlt
      obtain ⟨x, hx, hb⟩ := bijOn_toBytes32.surjOn (a := ⟨s, hlen⟩) hlt
      have hs : x.toBytes32.toList = s := congrArg Bytes32.toList hb
      exact ⟨x, decode_eq_ok_iff.2 ⟨hx, hs⟩, hx, hs⟩
    · intro x
      rw [ofBytes?_eq_some_iff, decode_eq_ok_iff]
  · intro b n hn
    refine ⟨ofBitVec?_eq hn, ?_, fun x hx => reduced_routes_of_eq_some hx hn⟩
    intro x
    rw [ofBytes32?_eq_some_iff, decode_eq_ok_iff, Bytes32.ext_iff]
  · intro x hx
    have hstrict := ofBytes32?_eq_some_iff.2 ⟨hx, rfl⟩
    have hnum := toNat_toBitVec x.toBytes32
    obtain ⟨hbits, hbytes⟩ := reduced_routes_of_eq_some hstrict hnum
    refine ⟨?_, ?_, hbits⟩
    · -- the three encodings are one string
      intro b hb
      have heq : b = x.toBytes32 := by
        simp only [List.mem_cons, List.not_mem_nil, or_false] at hb
        rcases hb with rfl | rfl | rfl
        · rfl
        · rfl
        · exact Bytes32.ofBitVec_toBitVec _
      rw [heq]
      exact ⟨decode_eq_ok_iff.2 ⟨hx, rfl⟩, ofBytes?_eq_some_iff.2 ⟨hx, rfl⟩, hstrict, hbytes⟩
    · exact (ofBitVec?_eq hnum).trans hstrict

/-- `p` itself is too large, and `p - 1` is the number of `-1`. -/
theorem strict_codec_is_bijective_at_the_top :
    let s : Bytes := .ofNat 32 Modulus.p.toNat
    let t : Bytes := .ofNat 32 (Modulus.p.toNat - 1)
    decode s = .error .overflow ∧ (-one).Reduced ∧ t = (-one).toBytes32.toList ∧
      decode t = .ok (-one) := by
  intro s t
  have hs : s.length = 32 ∧ Modulus.p.toNat ≤ Bytes.value s := by decide +kernel
  have ht : t = (-one).toBytes32.toList := by decide +kernel
  have hred : (-one).Reduced := reduced_one.neg
  obtain ⟨-, hstrict, -, hback⟩ := strict_codec_is_bijective
  refine ⟨(hstrict s).2.1.2 hs, hred, ht, ?_⟩
  rw [ht]
  exact ((hback (-one) hred).1 _ List.mem_cons_self).1

end Fp

end Bn254
