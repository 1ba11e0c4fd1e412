import Bn254.Fp.Basic
import Bn254.U256.Bytes

/-!
# Elements as bytes

An element is written as the number that it stands for, in big-endian bytes: 32 of them, or no more
than the number needs. The strict decoders accept exactly the 32 bytes of a number below `p`, so
each element has one encoding; the reducing ones take any string and go by its residue modulo `p`.
-/

namespace Bn254

/-- The shortest big-endian encoding of a number of up to 32 bytes, kept padded. Two are equal if
their padded bytes are. -/
structure MinimalBytes where
  /-- The bytes with zeros in front. -/
  padded : Bytes32
deriving DecidableEq

/-- The bytes from the first one on that is not zero. Zero has none. -/
def MinimalBytes.toList (m : MinimalBytes) : Bytes := m.padded.toList.trim

/-- The number of bytes. -/
def MinimalBytes.length (m : MinimalBytes) : Nat := m.toList.length

namespace Fp

variable {m : Type → Type} [MonadReduce m]

/-! ## Strict decoding -/

/-- The element of a number below `p`. The number is encoded before it is compared with `p`. -/
def ofWordsM? (n : U256) : m (Option Fp) := do
  let a ← ofU256M n
  return if n.lt Modulus.p then some a else none

@[inherit_doc ofWordsM?]
def ofWords? (n : U256) : Option Fp := Id.run (ofWordsM? n)

theorem ofWords?_eq_ite (n : U256) :
    ofWords? n = if n.lt Modulus.p then some (ofU256 n) else none := rfl

/-- The element of 32 bytes that write a number below `p`. -/
def ofBytes32M? (b : Bytes32) : m (Option Fp) := ofWordsM? (.ofBytes b)

@[inherit_doc ofBytes32M?]
def ofBytes32? (b : Bytes32) : Option Fp := Id.run (ofBytes32M? b)

theorem ofBytes32?_eq_ofWords? (b : Bytes32) : ofBytes32? b = ofWords? (.ofBytes b) := rfl

/-- The element of a 256-bit number below `p`. -/
def ofBitVecM? (n : BitVec 256) : m (Option Fp) := ofWordsM? (.ofBytes (.ofBitVec n))

@[inherit_doc ofBitVecM?]
def ofBitVec? (n : BitVec 256) : Option Fp := Id.run (ofBitVecM? n)

theorem ofBitVec?_eq_ofBytes32? (n : BitVec 256) : ofBitVec? n = ofBytes32? (.ofBitVec n) := rfl

/-- The element of a string that is 32 bytes and writes a number below `p`. -/
def ofBytesM? (bs : Bytes) : m (Option Fp) :=
  match Bytes32.ofList? bs with
  | none => return none
  | some b => ofBytes32M? b

@[inherit_doc ofBytesM?]
def ofBytes? (bs : Bytes) : Option Fp := Id.run (ofBytesM? bs)

theorem ofBytes?_eq_bind (bs : Bytes) : ofBytes? bs = (Bytes32.ofList? bs).bind ofBytes32? := by
  rw [ofBytes?, ofBytesM?]
  cases Bytes32.ofList? bs with
  | none => rfl
  | some b => rfl

/-- The element of an encoding, or what is wrong with it: first its length counts, then its
value. -/
def decodeM (bs : Bytes) : m (Except FieldError Fp) :=
  match Bytes32.ofList? bs with
  | none => return .error .invalidLength
  | some b => do
    match ← ofBytes32M? b with
    | none => return .error .overflow
    | some a => return .ok a

@[inherit_doc decodeM]
def decode (bs : Bytes) : Except FieldError Fp := Id.run (decodeM bs)

theorem decode_eq_elim (bs : Bytes) :
    decode bs =
      (Bytes32.ofList? bs).elim (.error .invalidLength)
        fun b => (ofBytes32? b).elim (.error .overflow) .ok := by
  rw [decode, decodeM]
  cases Bytes32.ofList? bs with
  | none => rfl
  | some b =>
    rw [Option.elim_some, Id.run_bind, ← ofBytes32?]
    cases ofBytes32? b with
    | none => rfl
    | some a => rfl

/-- The element whose stored form is given, which has to be below `p`. -/
def ofStored? (words : U256) : Option Fp := if words.lt Modulus.p then some ⟨words⟩ else none

/-! ## Decoding with reduction -/

/-- The element of a 256-bit number modulo `p`. -/
def ofBitVecReducedM (n : BitVec 256) : m Fp := ofU256M (.ofBytes (.ofBitVec n))

@[inherit_doc ofBitVecReducedM]
def ofBitVecReduced (n : BitVec 256) : Fp := Id.run (ofBitVecReducedM n)

/-- `2^256` as an element: its stored form is the square of the radix. -/
def radix : Fp := ⟨Modulus.radixSq⟩

/-- The element of 32 bytes modulo `p`. -/
def ofBlockM (b : Bytes32) : m Fp := ofU256M (.ofBytes b)

@[inherit_doc ofBlockM]
def ofBlock (b : Bytes32) : Fp := Id.run (ofBlockM b)

/-- The element of a string of any length modulo `p`. The bytes in front that make no whole block
are a number of their own; every block after them is one more digit to the base `2^256`. -/
def ofBytesReducedM (bs : Bytes) : m Fp := do
  let front := bs.length % 32
  let acc ← ofBlockM (.padLeft (bs.take front) (Bytes32.length_front_le bs))
  (Bytes.blocks (bs.drop front)).foldlM (fun acc block => do
    let s ← acc.mulM radix
    let d ← ofBlockM block
    return s + d) acc

@[inherit_doc ofBytesReducedM]
def ofBytesReduced (bs : Bytes) : Fp := Id.run (ofBytesReducedM bs)

theorem ofBytesReduced_eq_foldl (bs : Bytes) :
    ofBytesReduced bs =
      (Bytes.blocks (bs.drop (bs.length % 32))).foldl (fun acc block => acc * radix + ofBlock block)
        (ofBlock (.padLeft (bs.take (bs.length % 32)) (Bytes32.length_front_le bs))) :=
  List.idRun_foldlM

/-! ## Encoding -/

/-- The number of the element in 32 bytes. -/
def toBytes32 (a : Fp) : Bytes32 := a.canonical.toBytes

/-- The number of the element in as few bytes as it needs. -/
def toBytes (a : Fp) : MinimalBytes := ⟨a.toBytes32⟩

/-- The number of the element in 256 bits. -/
def toBitVec (a : Fp) : BitVec 256 := a.toBytes32.toBitVec

/-- What of an element goes into a hash: the count of its stored words, then the words themselves,
the least significant one first, all of them in bytes from the least significant one up. -/
def hashBytes (a : Fp) : Bytes :=
  (4 :: a.words.words).flatMap fun w => w.toBytes.reverse

end Fp

end Bn254
