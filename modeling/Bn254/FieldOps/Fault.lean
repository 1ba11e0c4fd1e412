import Bn254.FieldOps.Basic

/-!
# Faulty operations

To see what the checks on a field notice, one operation of the base field is altered and the others
are left as they are. The altered operation computes its right result first, and spoils it then.
-/

namespace Bn254

/-- How an element is spoilt. -/
inductive ElementFault
  /-- A constant is added to it. -/
  | plus (k : Fp)
  /-- A constant takes its place. -/
  | const (k : Fp)
  /-- The first operand takes its place. -/
  | operand

/-- A fault in an operation that results in an element. -/
structure ResultFault where
  /-- How the result is spoilt. -/
  how : ElementFault
  /-- The only result that is spoilt. If there is none, all are. -/
  onlyIf : Option Fp

/-- The result that is given in place of `right`, for the first operand `first`. -/
def ResultFault.spoil (f : ResultFault) (first right : Fp) : Fp :=
  if f.onlyIf.all (· == right) then
    match f.how with
    | .plus k => right + k
    | .const k => k
    | .operand => first
  else
    right

/-- A fault in the quotient. -/
inductive QuotientFault
  /-- Results are spoilt, errors are not. -/
  | result (f : ResultFault)
  /-- Every division is said to be one by zero. -/
  | alwaysError
  /-- The quotient by zero is zero. -/
  | zeroForError
  /-- The quotient by zero is reported as an overflow. -/
  | overflowForError

/-- The quotient that is given in place of `right`, for the dividend `first`. -/
def QuotientFault.spoil (f : QuotientFault) (first : Fp) (right : Except FieldError Fp) :
    Except FieldError Fp :=
  match f, right with
  | .result f, .ok r => .ok (f.spoil first r)
  | .alwaysError, _ => .error .divisionByZero
  | .zeroForError, .error _ => .ok Fp.zero
  | .overflowForError, .error _ => .error .overflow
  | _, right => right

/-- A fault in a test. -/
inductive TestFault
  /-- The answer is turned around. -/
  | negated
  /-- The answer is always the same. -/
  | always (answer : Bool)

/-- The answer that is given in place of `right`. -/
def TestFault.spoil (f : TestFault) (right : Bool) : Bool :=
  match f with
  | .negated => !right
  | .always answer => answer

/-- A fault in the shortest encoding. -/
inductive EncodingFault
  /-- The zeros in front are kept. -/
  | padded
  /-- There are no bytes. -/
  | empty
  /-- A zero byte comes first. -/
  | zeroFirst
  /-- Zero is encoded in one byte. -/
  | zeroAsOneByte
  /-- The bytes run from the least significant one up. -/
  | reversed

/-- The bytes that are given for `a`. -/
def EncodingFault.spoil (f : EncodingFault) (a : Fp) : Bytes :=
  let right := a.toBytes.toList
  match f with
  | .padded => a.toBytes.padded.toList
  | .empty => []
  | .zeroFirst => 0 :: right
  | .zeroAsOneByte => if right.isEmpty then [0] else right
  | .reversed => right.reverse

/-- A fault in the operation of the same name. -/
inductive Fault
  | zero (f : ResultFault)
  | one (f : ResultFault)
  | isZero (f : TestFault)
  | isValid (f : TestFault)
  | add (f : ResultFault)
  | sub (f : ResultFault)
  | mulSmall (f : ResultFault)
  | mul (f : ResultFault)
  | divide (f : QuotientFault)
  | neg (f : ResultFault)
  | power (f : ResultFault)
  | powerWide (f : ResultFault)
  | toBytes (f : EncodingFault)

/-- The operations of the base field with a fault in one of them. A constant has no operand, so it
stays what it is where an operand would take its place. -/
def Fault.ops : Fault → FieldOps Fp
  | zero f => { Fp.ops with zero := f.spoil Fp.zero Fp.zero }
  | one f => { Fp.ops with one := f.spoil Fp.one Fp.one }
  | isZero f => { Fp.ops with isZero := fun a => f.spoil a.isZero }
  | isValid f => { Fp.ops with isValid := fun a => f.spoil a.isValid }
  | add f => { Fp.ops with add := fun a b => f.spoil a (a + b) }
  | sub f => { Fp.ops with sub := fun a b => f.spoil a (a - b) }
  | mulSmall f => { Fp.ops with mulSmall := fun a k => f.spoil a (a.mulSmall k) }
  | mul f => { Fp.ops with mul := fun a b => f.spoil a (a * b) }
  | divide f => { Fp.ops with divide := fun a b => f.spoil a (a.divide b) }
  | neg f => { Fp.ops with neg := fun a => f.spoil a (-a) }
  | power f => { Fp.ops with power := fun a e => f.spoil a (a.power e) }
  | powerWide f => { Fp.ops with powerWide := fun a e => f.spoil a (a.powTrimmed e) }
  | toBytes f => { Fp.ops with toBytes := f.spoil }

end Bn254
