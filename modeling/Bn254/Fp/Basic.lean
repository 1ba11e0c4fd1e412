import Bn254.Montgomery

/-!
# Elements of the base field

The base field of the curve BN254 is the integers modulo `p`. An element is kept as the four words
of its stored form, its product with `2^256` modulo `p`. Every operation answers with a stored form
below `p`, given such forms; an element is then known by its words, and elements are equal when
their words are.

The type itself admits any four words. `Fp.Reduced` singles out the elements whose words are below
`p`, and `Fp.isValid` tests for them.

An element that is computed or read may fail to exist, for a cause that `FieldError` names.
-/

namespace Bn254

/-- The causes of failure. -/
inductive FieldError
  /-- A quotient by zero was asked for. -/
  | divisionByZero
  /-- An encoded integer is not below the modulus. -/
  | overflow
  /-- An encoding has not 32 bytes. -/
  | invalidLength
deriving DecidableEq

/-- The text of an error. -/
def FieldError.message : FieldError → String
  | divisionByZero => "field error: division by zero"
  | overflow => "field error: value overflows modulus"
  | invalidLength => "field error: invalid encoding length"

/-- Results that may be errors are compared by what they hold. -/
instance decidableEqExcept {ε α : Type} [DecidableEq ε] [DecidableEq α] :
    DecidableEq (Except ε α)
  | .ok a, .ok b => decidable_of_iff (a = b) ⟨congrArg _, Except.ok.inj⟩
  | .error a, .error b => decidable_of_iff (a = b) ⟨congrArg _, Except.error.inj⟩
  | .ok _, .error _ => isFalse nofun
  | .error _, .ok _ => isFalse nofun

/-- An element of the base field, by its stored form. -/
@[ext]
structure Fp where
  /-- The words of the stored form. -/
  words : U256
deriving DecidableEq

namespace Fp

/-- The stored form is the least one: its words are below `p`. -/
def Reduced (a : Fp) : Prop := a.words.toNat < Modulus.p.toNat

instance (a : Fp) : Decidable a.Reduced := inferInstanceAs (Decidable (_ < _))

variable {m : Type → Type} [MonadReduce m]

/-- The words of the number, below `p`, that the element stands for. -/
def canonicalM (a : Fp) : m U256 := Montgomery.decodeM a.words

@[inherit_doc canonicalM]
def canonical (a : Fp) : U256 := Id.run a.canonicalM

/-- The number, below `p`, that the element stands for. -/
def toNat (a : Fp) : Nat := a.canonical.toNat

/-- The element of an integer, taken modulo `p`. -/
def ofU256M (n : U256) : m Fp := Fp.mk <$> Montgomery.encodeM n

@[inherit_doc ofU256M]
def ofU256 (n : U256) : Fp := Id.run (ofU256M n)

/-- The element of a word. -/
def ofUInt64M (n : UInt64) : m Fp := ofU256M (.ofWord n)

@[inherit_doc ofUInt64M]
def ofUInt64 (n : UInt64) : Fp := Id.run (ofUInt64M n)

/-- The neutral element of addition. -/
def zero : Fp := ⟨.zero⟩

/-- The neutral element of multiplication. -/
def oneM : m Fp := ofUInt64M 1

@[inherit_doc oneM]
def one : Fp := Id.run oneM

instance : Zero Fp := ⟨zero⟩
instance : One Fp := ⟨one⟩
instance : Inhabited Fp := ⟨zero⟩

/-! ## Arithmetic -/

/-- The sum. -/
def add (a b : Fp) : Fp :=
  let (sum, carry) := a.words.add b.words
  ⟨sum.subtractOnce carry Modulus.p⟩

/-- The difference. The borrow of the words is the mask under which `p` is added back. -/
def sub (a b : Fp) : Fp :=
  let (diff, borrow) := a.words.sub b.words
  ⟨(diff.add (Modulus.p.and (.fill borrow))).1⟩

/-- The product. One reduction takes the factor `2^256` away that the stored forms have in
excess. -/
def mulM (a b : Fp) : m Fp := Fp.mk <$> MonadReduce.reduce (a.words.mul b.words)

@[inherit_doc mulM]
def mul (a b : Fp) : Fp := Id.run (a.mulM b)

/-- The element that adds up to zero with `a`. -/
def neg (a : Fp) : Fp := zero.sub a

instance : Add Fp := ⟨add⟩
instance : Sub Fp := ⟨sub⟩
instance : Mul Fp := ⟨mul⟩
instance : Neg Fp := ⟨neg⟩

/-- The sum of an element with itself. -/
def double (a : Fp) : Fp := a + a

/-- The product of an element with itself. -/
def squareM (a : Fp) : m Fp := a.mulM a

@[inherit_doc squareM]
def square (a : Fp) : Fp := Id.run a.squareM

/-- The third power. -/
def cubeM (a : Fp) : m Fp := do
  let s ← a.squareM
  s.mulM a

@[inherit_doc cubeM]
def cube (a : Fp) : Fp := Id.run a.cubeM

/-! ## Tests -/

/-- Are the elements equal? Every word is compared. -/
def sameWords (a b : Fp) : Bool := a.words.sameWords b.words

/-- Is the element zero? -/
def isZero (a : Fp) : Bool := a.sameWords zero

/-- Is the number of the element odd? -/
def isOdd (a : Fp) : Bool := a.canonical.w0 &&& 1 == 1

/-- Is the number of the element even? -/
def isEven (a : Fp) : Bool := !a.isOdd

/-- Are both the words and the number that they stand for below `p`? -/
def isValid (a : Fp) : Bool := a.words.lt Modulus.p && a.canonical.lt Modulus.p

/-! ## Choice -/

/-- `b` if `choice` holds, otherwise `a`. The words are mixed by a mask, without a branch. -/
def select (choice : Bool) (a b : Fp) : Fp := ⟨.blend (Word.mask choice) b.words a.words⟩

/-- The pair, swapped if `choice` holds. -/
def swapIf (choice : Bool) (a b : Fp) : Fp × Fp := (select choice a b, select choice b a)

end Fp

end Bn254
