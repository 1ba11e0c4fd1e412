import Bn254.Fp.Encoding
import Bn254.Fp.Power

/-!
# Workloads

The operations whose speed is of interest, each run once on two elements, with what it computes.
-/

namespace Bn254

/-- The operations that are run. Those with one operand take the first element. -/
inductive Workload
  | add | sub | mul | neg | divide | power | toBytes | sqrt
deriving DecidableEq

namespace Workload

/-- What an operation computes. -/
inductive Result
  /-- An element. -/
  | element (a : Fp)
  /-- An element or an error. -/
  | quotient (q : Except FieldError Fp)
  /-- An encoding. -/
  | bytes (m : MinimalBytes)
  /-- An element, if there is one. -/
  | root (r : Option Fp)

/-- The operations in the order that they are run in. -/
def all : List Workload := [add, sub, mul, neg, divide, power, toBytes, sqrt]

/-- The name that an operation is reported by. -/
def name : Workload → String
  | add => "add"
  | sub => "sub"
  | mul => "mul"
  | neg => "neg"
  | divide => "divide"
  | power => "power"
  | toBytes => "to_bytes"
  | sqrt => "sqrt"

/-- The exponent of the power: `2^64` over the golden ratio, rounded down. -/
def exponent : UInt64 := 0x9e3779b97f4a7c15

/-- The result of an operation on two elements. -/
def run (a b : Fp) : Workload → Result
  | add => .element (a + b)
  | sub => .element (a - b)
  | mul => .element (a * b)
  | neg => .element (-a)
  | divide => .quotient (a.divide b)
  | power => .element (a.power exponent)
  | toBytes => .bytes a.toBytes
  | sqrt => .root a.sqrt?

/-- The group that the operations are reported under. -/
def group : String := "field element operations"

/-- The results of all operations on two elements, in order. -/
def report (a b : Fp) : List (Workload × Result) := all.map fun w => (w, w.run a b)

end Workload

end Bn254
