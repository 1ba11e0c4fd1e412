import Bn254.Fp.Encoding

/-!
# Elements from random bytes

A random element is drawn by rejection: 32 bytes are taken, the top two bits are cleared, which
leaves as many bits as `p` has, and if the number is not below `p` the next 32 are tried. Each
element is drawn with the same chance, and a source that ends ends the search.
-/

namespace Bn254

/-- A source of bytes, handed out in order. -/
structure ByteSource where
  /-- The bytes that are still there. -/
  pending : Bytes
  /-- The number of bytes handed out so far. -/
  consumed : Nat

/-- A source that has nothing handed out yet. -/
def ByteSource.ofBytes (bs : Bytes) : ByteSource := ⟨bs, 0⟩

/-- The next 32 bytes. A source with fewer of them left gives none and keeps them. -/
def ByteSource.draw? (s : ByteSource) : Option (Bytes32 × ByteSource) :=
  (Bytes32.ofList? (s.pending.take 32)).map fun b => (b, ⟨s.pending.drop 32, s.consumed + 32⟩)

theorem ByteSource.length_of_draw? {s t : ByteSource} {b : Bytes32}
    (h : s.draw? = some (b, t)) : t.pending.length < s.pending.length := by
  simp only [draw?, Option.map_eq_some_iff, Prod.mk.injEq] at h
  obtain ⟨b', hb', -, rfl⟩ := h
  have hlen := Bytes32.length_of_ofList? hb'
  simp only [List.length_take, List.length_drop] at hlen ⊢
  omega

/-- Why nothing could be drawn. -/
inductive SamplingError
  /-- The source has too few bytes left. -/
  | exhausted

/-- The text of the error. -/
def SamplingError.message : SamplingError → String
  | exhausted => "stream exhausted"

section

variable {m : Type → Type} {α : Type}

/-- What `accept` makes of the first block that it accepts, and the source after that block. The
blocks before it are used up. -/
def ByteSource.searchM [Monad m] (accept : Bytes32 → m (Option α)) (s : ByteSource) :
    m (Except SamplingError α × ByteSource) :=
  match _h : s.draw? with
  | none => return (.error .exhausted, s)
  | some (b, rest) => do
    match ← accept b with
    | some a => return (.ok a, rest)
    | none => rest.searchM accept
termination_by s.pending.length
decreasing_by exact length_of_draw? _h

@[inherit_doc ByteSource.searchM]
def ByteSource.search (accept : Bytes32 → Option α) (s : ByteSource) :
    Except SamplingError α × ByteSource :=
  Id.run (s.searchM accept)

theorem ByteSource.search_of_draw?_eq_none {accept : Bytes32 → Option α} {s : ByteSource}
    (h : s.draw? = none) : s.search accept = (.error .exhausted, s) := by
  rw [search, searchM]
  split
  · rfl
  · rename_i hsome
    rw [h] at hsome
    cases hsome

theorem ByteSource.search_of_draw?_eq_some {accept : Bytes32 → Option α} {s rest : ByteSource}
    {b : Bytes32} (h : s.draw? = some (b, rest)) :
    s.search accept = (accept b).elim (rest.search accept) fun a => (.ok a, rest) := by
  rw [search, searchM]
  split
  · rename_i hnone
    rw [h] at hnone
    cases hnone
  · rename_i b' rest' hsome
    rw [h] at hsome
    obtain ⟨rfl, rfl⟩ := Prod.mk.inj (Option.some.inj hsome)
    rw [Id.run_bind]
    change Id.run (match accept b with | some a => _ | none => _) = _
    cases accept b with
    | none => rfl
    | some a => rfl

end

/-- What holds of a source if it holds of the source after the next 32 bytes holds of all sources. -/
@[elab_as_elim]
theorem ByteSource.draw_induction {motive : ByteSource → Prop}
    (step : ∀ s, (∀ b rest, s.draw? = some (b, rest) → motive rest) → motive s)
    (s : ByteSource) : motive s :=
  step s fun _ rest _ => draw_induction step rest
termination_by s.pending.length
decreasing_by exact length_of_draw? ‹_›

namespace Fp

variable {m : Type → Type} [MonadReduce m]

/-- The element of a block without its top two bits, if that is a number below `p`. -/
def ofCandidateM? (b : Bytes32) : m (Option Fp) := ofBytes32M? (b.mapHead (· &&& 0x3f))

@[inherit_doc ofCandidateM?]
def ofCandidate? (b : Bytes32) : Option Fp := Id.run (ofCandidateM? b)

theorem ofCandidate?_eq_ofBytes32? (b : Bytes32) :
    ofCandidate? b = ofBytes32? (b.mapHead (· &&& 0x3f)) := rfl

/-- An element from the source, and the source after it. -/
def sampleM (s : ByteSource) : m (Except SamplingError Fp × ByteSource) := s.searchM ofCandidateM?

@[inherit_doc sampleM]
def sample (s : ByteSource) : Except SamplingError Fp × ByteSource := Id.run (sampleM s)

theorem sample_eq_search (s : ByteSource) : sample s = s.search ofCandidate? := rfl

/-- The outcome of one draw. -/
structure Draw where
  /-- The element, or why there is none. -/
  result : Except SamplingError Fp
  /-- The number of bytes that the source has handed out since it was opened. -/
  consumed : Nat

/-- The outcomes of `n` draws, one after the other. The first that fails is the last. -/
def sampleListM : Nat → ByteSource → m (List Draw)
  | 0, _ => return []
  | n + 1, s => do
    match ← sampleM s with
    | (.ok a, rest) =>
      let ds ← sampleListM n rest
      return ⟨.ok a, rest.consumed⟩ :: ds
    | (.error e, rest) => return [⟨.error e, rest.consumed⟩]

@[inherit_doc sampleListM]
def sampleList (n : Nat) (s : ByteSource) : List Draw := Id.run (sampleListM n s)

theorem sampleList_of_sample_eq_ok {s rest : ByteSource} {a : Fp} (h : sample s = (.ok a, rest))
    (n : Nat) : sampleList (n + 1) s = ⟨.ok a, rest.consumed⟩ :: sampleList n rest := by
  rw [sampleList, sampleListM, Id.run_bind, ← sample, h]
  rfl

theorem sampleList_of_sample_eq_error {s rest : ByteSource} {e : SamplingError}
    (h : sample s = (.error e, rest)) (n : Nat) :
    sampleList (n + 1) s = [⟨.error e, rest.consumed⟩] := by
  rw [sampleList, sampleListM, Id.run_bind, ← sample, h]
  rfl

end Fp

end Bn254
