import Bn254.Fp.Integer
import Bn254.Fp.Order
import Bn254.Fp.Sampling
import Bn254.Fp.Power

/-!
# Programs over registers

A program is a list of instructions that run in order over named registers, each of which holds an
element once it has been set. Most instructions compute an element, from data or from operands, and
put it in a register; the others only look at the registers.

An instruction changes a register only if its outcome is an element: an outcome that is no element,
such as an error or the root that is missing, leaves the register as it is.
-/

namespace Bn254

variable {m : Type → Type} [MonadReduce m]

/-- Elements under names. -/
structure Registers where
  /-- The names with their elements. Of two entries for a name the first counts. -/
  entries : List (String × Fp)

namespace Registers

/-- No register is set. -/
def empty : Registers := ⟨[]⟩

/-- The element of a register that is set. -/
def get? (r : Registers) (name : String) : Option Fp := r.entries.lookup name

/-- The registers after one of them has been set. -/
def set (r : Registers) (name : String) (a : Fp) : Registers := ⟨(name, a) :: r.entries⟩

end Registers

/-- An operand of an instruction. -/
inductive Operand
  /-- The element of a big-endian integer of any length, modulo `p`. -/
  | number (bs : Bytes)
  /-- The element with a stored form below `p`. -/
  | stored (words : U256)
  /-- The element in a register. -/
  | register (name : String)

/-- The element that an operand stands for. A register that is not set has none, and neither has a
stored form that is too large. -/
def Operand.valueM? (r : Registers) : Operand → OptionT m Fp
  | number bs => OptionT.lift (Fp.ofBytesReducedM bs)
  | stored words => OptionT.mk (return Fp.ofStored? words)
  | register name => OptionT.mk (return r.get? name)

@[inherit_doc Operand.valueM?]
def Operand.value? (r : Registers) (x : Operand) : Option Fp := Id.run (x.valueM? r).run

/-- The outcome of a computation. -/
inductive Outcome
  /-- An element. -/
  | element (a : Fp)
  /-- There is no such element. -/
  | absent
  /-- An error. -/
  | error (e : FieldError)
  /-- Two elements. -/
  | pair (a b : Fp)
  /-- A root of a quotient or of its negative, if it could be told which. -/
  | ratio (answer : Option (Bool × Fp))
  /-- Random elements, up to the first that could not be drawn. -/
  | draws (ds : List Fp.Draw)

namespace Outcome

/-- The outcome of a computation that may have no result. -/
def ofOption : Option Fp → Outcome
  | some a => element a
  | none => absent

/-- The outcome of a computation that may fail. -/
def ofExcept : Except FieldError Fp → Outcome
  | .ok a => element a
  | .error e => error e

/-- All elements of the outcome. -/
def elements : Outcome → List Fp
  | element a => [a]
  | absent => []
  | error _ => []
  | pair a b => [a, b]
  | ratio answer => answer.toList.map Prod.snd
  | draws ds => ds.filterMap fun d => d.result.toOption

end Outcome

/-- Data that an element is made from. -/
inductive Datum
  /-- The 32 bytes of a number below `p`. -/
  | bytes32 (b : Bytes32)
  /-- A 256-bit number below `p`. -/
  | bitVec (n : BitVec 256)
  /-- Bytes that may be the 32 bytes of a number below `p`. -/
  | bytes (bs : Bytes)
  /-- An encoding, of which it is told what is wrong with it. -/
  | encoding (bs : Bytes)
  /-- A stored form. -/
  | stored (words : U256)
  /-- A 256-bit number, modulo `p`. -/
  | bitVecReduced (n : BitVec 256)
  /-- A number in any number of bytes, modulo `p`. -/
  | bytesReduced (bs : Bytes)
  /-- A 32-bit integer. -/
  | uint32 (n : UInt32)
  /-- A 64-bit integer. -/
  | uint64 (n : UInt64)
  /-- A signed 64-bit integer. -/
  | int64 (n : Int64)
  /-- A 128-bit integer. -/
  | bitVec128 (n : BitVec 128)
  /-- A 128-bit integer whose upper word is doubled up. -/
  | bitVec128ByDoubling (n : BitVec 128)
  /-- A decimal numeral. -/
  | decimal (text : String)

/-- The element that is made from data. -/
def Datum.outcomeM : Datum → m Outcome
  | bytes32 b => .ofOption <$> Fp.ofBytes32M? b
  | bitVec n => .ofOption <$> Fp.ofBitVecM? n
  | bytes bs => .ofOption <$> Fp.ofBytesM? bs
  | encoding bs => .ofExcept <$> Fp.decodeM bs
  | stored words => return .ofOption (Fp.ofStored? words)
  | bitVecReduced n => .element <$> Fp.ofBitVecReducedM n
  | bytesReduced bs => .element <$> Fp.ofBytesReducedM bs
  | uint32 n => .element <$> Fp.ofUInt32M n
  | uint64 n => .element <$> Fp.ofUInt64M n
  | int64 n => .element <$> Fp.ofInt64M n
  | bitVec128 n => .element <$> Fp.ofBitVec128M n
  | bitVec128ByDoubling n => .element <$> Fp.ofBitVec128ByDoublingM n
  | decimal text => .ofOption <$> Fp.ofDecimalM? text

@[inherit_doc Datum.outcomeM]
def Datum.outcome (d : Datum) : Outcome := Id.run d.outcomeM

/-- The operations on one element. To `erase` it is to put zero in its place, and `sqrtAlt` finds a
root of the element or of its negative. -/
inductive UnaryOp
  | same | neg | double | square | cube | erase | invert | sqrt | sqrtAlt

/-- The outcome of an operation on one element. -/
def UnaryOp.outcomeM (a : Fp) : UnaryOp → m Outcome
  | same => return .element a
  | neg => return .element (-a)
  | double => return .element a.double
  | square => .element <$> a.squareM
  | cube => .element <$> a.cubeM
  | erase => return .element Fp.zero
  | invert => .ofOption <$> a.invM?
  | sqrt => .ofOption <$> a.sqrtM?
  | sqrtAlt => .ratio <$> a.sqrtAltM?

@[inherit_doc UnaryOp.outcomeM]
def UnaryOp.outcome (a : Fp) (op : UnaryOp) : Outcome := Id.run (op.outcomeM a)

/-- The operations on two elements. -/
inductive BinaryOp
  | add | sub | mul | divide | sqrtRatio | max | min

/-- The outcome of an operation on two elements. -/
def BinaryOp.outcomeM (a b : Fp) : BinaryOp → m Outcome
  | add => return .element (a + b)
  | sub => return .element (a - b)
  | mul => .element <$> a.mulM b
  | divide => .ofExcept <$> a.divideM b
  | sqrtRatio => .ratio <$> a.sqrtRatioM? b
  | max => .element <$> a.maxM b
  | min => .element <$> a.minM b

@[inherit_doc BinaryOp.outcomeM]
def BinaryOp.outcome (a b : Fp) (op : BinaryOp) : Outcome := Id.run (op.outcomeM a b)

/-- A computation of elements. -/
inductive Step
  /-- An element is made from data. -/
  | make (d : Datum)
  /-- An operation on one element. -/
  | unary (op : UnaryOp) (a : Operand)
  /-- An operation on two elements. -/
  | binary (op : BinaryOp) (a b : Operand)
  /-- An element is taken a small number of times. -/
  | mulSmall (a : Operand) (k : Int64)
  /-- A power. -/
  | pow (a : Operand) (e : Fp.Exponent)
  /-- The sum of a list. -/
  | sum (xs : List Operand)
  /-- The product of a list. -/
  | product (xs : List Operand)
  /-- The second element if the choice holds, otherwise the first. -/
  | select (choice : Bool) (a b : Operand)
  /-- The two elements, swapped if the choice holds. -/
  | swap (choice : Bool) (a b : Operand)
  /-- Elements are drawn from a source of bytes. -/
  | draw (stream : Bytes) (count : Nat)

/-- The outcome of a step. There is none if an operand stands for no element. -/
def Step.outcomeM? (r : Registers) : Step → OptionT m Outcome
  | make d => OptionT.lift d.outcomeM
  | unary op a => do
    let a ← a.valueM? r
    OptionT.lift (op.outcomeM a)
  | binary op a b => do
    let a ← a.valueM? r
    let b ← b.valueM? r
    OptionT.lift (op.outcomeM a b)
  | mulSmall a k => do
    let a ← a.valueM? r
    OptionT.lift (.element <$> a.mulSmallM k)
  | pow a e => do
    let a ← a.valueM? r
    OptionT.lift (.element <$> a.powM e)
  | sum xs => do
    let xs ← xs.mapM (·.valueM? r)
    return .element (Fp.sum xs)
  | product xs => do
    let xs ← xs.mapM (·.valueM? r)
    OptionT.lift (.element <$> Fp.productM xs)
  | select choice a b => do
    let a ← a.valueM? r
    let b ← b.valueM? r
    return .element (Fp.select choice a b)
  | swap choice a b => do
    let a ← a.valueM? r
    let b ← b.valueM? r
    let (a, b) := Fp.swapIf choice a b
    return .pair a b
  | draw stream count => OptionT.lift (.draws <$> Fp.sampleListM count (.ofBytes stream))

@[inherit_doc Step.outcomeM?]
def Step.outcome? (r : Registers) (s : Step) : Option Outcome := Id.run (s.outcomeM? r).run

/-- An instruction, where looking at the registers results in an `ω`. -/
inductive Instruction (ω : Type)
  /-- A step, and the register that takes its element. -/
  | compute (step : Step) (target : Option String)
  /-- A look at the registers. -/
  | inspect (look : Registers → ω)

/-- The answer to an instruction. -/
inductive Answer (ω : Type)
  /-- The outcome of a step. -/
  | computed (outcome : Option Outcome)
  /-- What was seen of the registers. -/
  | seen (view : ω)

/-- The registers after a step: its element is put in the target. -/
def Registers.record (r : Registers) (target : Option String) (outcome : Option Outcome) :
    Registers :=
  match target, outcome with
  | some name, some (.element a) => r.set name a
  | _, _ => r

/-- The answer to an instruction, and the registers after it. What a look computes is its own. -/
def Instruction.runM {ω : Type} (r : Registers) : Instruction ω → m (Answer ω × Registers)
  | compute step target => do
    let outcome ← (step.outcomeM? r).run
    return (.computed outcome, r.record target outcome)
  | inspect look => return (.seen (look r), r)

@[inherit_doc Instruction.runM]
def Instruction.run {ω : Type} (r : Registers) (i : Instruction ω) : Answer ω × Registers :=
  Id.run (i.runM r)

/-- The answers of a program that starts with the registers `r`. -/
def runProgramM {ω : Type} (r : Registers) : List (Instruction ω) → m (List (Answer ω))
  | [] => return []
  | i :: is => do
    let (answer, r) ← i.runM r
    let answers ← runProgramM r is
    return answer :: answers

@[inherit_doc runProgramM]
def runProgram {ω : Type} (r : Registers) (is : List (Instruction ω)) : List (Answer ω) :=
  Id.run (runProgramM r is)

end Bn254
