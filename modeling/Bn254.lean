import Bn254.Bytes
import Bn254.Chain
import Bn254.FieldOps.Basic
import Bn254.FieldOps.Contract
import Bn254.FieldOps.Fault
import Bn254.Fp.Basic
import Bn254.Fp.Encoding
import Bn254.Fp.Integer
import Bn254.Fp.Order
import Bn254.Fp.Power
import Bn254.Fp.Sampling
import Bn254.Fp.Text
import Bn254.Modulus
import Bn254.Montgomery
import Bn254.PrimeField
import Bn254.Program
import Bn254.U256.Basic
import Bn254.U256.Bytes
import Bn254.U512
import Bn254.Word
import Bn254.Workload
import Bn254.Proofs.Arithmetic
import Bn254.Proofs.ByteOrder
import Bn254.Proofs.Chains
import Bn254.Proofs.Closure
import Bn254.Proofs.Contract
import Bn254.Proofs.Decimal
import Bn254.Proofs.Detection
import Bn254.Proofs.Division
import Bn254.Proofs.DoubleWords
import Bn254.Proofs.Encoding
import Bn254.Proofs.Faults
import Bn254.Proofs.FieldOps
import Bn254.Proofs.Generators
import Bn254.Proofs.GroupOrder
import Bn254.Proofs.Integer
import Bn254.Proofs.Lawful
import Bn254.Proofs.Multiples
import Bn254.Proofs.Numerals
import Bn254.Proofs.Order
import Bn254.Proofs.Parity
import Bn254.Proofs.Power
import Bn254.Proofs.Prime
import Bn254.Proofs.Products
import Bn254.Proofs.Reduction
import Bn254.Proofs.Representation
import Bn254.Proofs.RootProducts
import Bn254.Proofs.Run
import Bn254.Proofs.Sampling
import Bn254.Proofs.ShortestEncoding
import Bn254.Proofs.SquareRoot
import Bn254.Proofs.StoredForm
import Bn254.Proofs.Sums
import Bn254.Proofs.Text
import Bn254.Proofs.Traced
import Bn254.Proofs.TracedField
import Bn254.Proofs.UnreducedWords
