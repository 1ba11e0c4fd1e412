import Bn254.Bytes
import Bn254.Fp.Basic

/-!
# Powers, inverses and roots

A power is computed by walking the bits of the exponent from the most significant one down:
squaring at every bit, and multiplying by the base where the bit is set. Exponents of any length
come as words, least significant first, or as bytes, most significant first. The routes differ in
the zeros that they skip and in whether the work depends on the bits.

Inverses and roots are powers. The inverse of a number modulo the prime `p` is its power `p - 2`.
As `p` leaves the remainder 3 by 4, the power `(p + 1) / 4` of a square is one of its roots, the one
that is itself a square. Of an element that is not zero and its negative, one is a square and the
other is not; so a quotient always has a root up to the sign, and `Fp.sqrtRatio?` finds it.
-/

namespace Bn254.Fp

variable {m : Type → Type} [MonadReduce m]

/-! ## Powers -/

/-- The power by the bits of an exponent, most significant first: a product is formed where the bit is
set. -/
def powBitsM (a : Fp) (bits : List Bool) : m Fp := do
  let r ← oneM
  bits.foldlM (fun r bit => do
    let s ← r.squareM
    if bit then s.mulM a else return s) r

@[inherit_doc powBitsM]
def powBits (a : Fp) (bits : List Bool) : Fp := Id.run (a.powBitsM bits)

/-- The power by all bits of the words of an exponent. -/
def powWordsM (a : Fp) (exponent : List Word) : m Fp :=
  a.powBitsM (exponent.reverse.flatMap Word.bits)

@[inherit_doc powWordsM]
def powWords (a : Fp) (exponent : List Word) : Fp := Id.run (a.powWordsM exponent)

/-- The power by the words of an exponent, from its highest non-zero word on. -/
def powTrimmedM (a : Fp) (exponent : List Word) : m Fp :=
  a.powBitsM ((exponent.reverse.dropWhile (· == 0)).flatMap Word.bits)

@[inherit_doc powTrimmedM]
def powTrimmed (a : Fp) (exponent : List Word) : Fp := Id.run (a.powTrimmedM exponent)

/-- The power by the bytes of an exponent, from its first non-zero byte on. -/
def powBytesM (a : Fp) (exponent : Bytes) : m Fp := a.powBitsM exponent.trim.bits

@[inherit_doc powBytesM]
def powBytes (a : Fp) (exponent : Bytes) : Fp := Id.run (a.powBytesM exponent)

/-- The power by the words of an exponent, with the same work at every bit: the product is always
formed, and kept where the bit is set. -/
def powUniformM (a : Fp) (exponent : List Word) : m Fp := do
  let r ← oneM
  (exponent.reverse.flatMap Word.bits).foldlM (fun r bit => do
    let s ← r.squareM
    let t ← s.mulM a
    return select bit s t) r

@[inherit_doc powUniformM]
def powUniform (a : Fp) (exponent : List Word) : Fp := Id.run (a.powUniformM exponent)

/-- The power with an exponent of one word. -/
def powerM (a : Fp) (exponent : UInt64) : m Fp := a.powWordsM [exponent]

@[inherit_doc powerM]
def power (a : Fp) (exponent : UInt64) : Fp := Id.run (a.powerM exponent)

/-- An exponent, in the form that one of the routes takes. -/
inductive Exponent
  /-- A single word. -/
  | word (e : UInt64)
  /-- Words, least significant first, of which every bit is walked. -/
  | words (e : List Word)
  /-- Words, least significant first, of which the upper zeros are skipped. -/
  | trimmed (e : List Word)
  /-- Words, least significant first, walked with the same work at every bit. -/
  | uniform (e : List Word)
  /-- Bytes, most significant first. -/
  | bytes (e : Bytes)

/-- The power by the route of the exponent. -/
def powM (a : Fp) : Exponent → m Fp
  | .word e => a.powerM e
  | .words e => a.powWordsM e
  | .trimmed e => a.powTrimmedM e
  | .uniform e => a.powUniformM e
  | .bytes e => a.powBytesM e

@[inherit_doc powM]
def pow (a : Fp) (e : Exponent) : Fp := Id.run (a.powM e)

theorem powBits_eq_foldl (a : Fp) (bits : List Bool) :
    a.powBits bits = bits.foldl (fun r bit => if bit then r.square * a else r.square) one := by
  have hstep : (fun (r : Fp) (bit : Bool) => Id.run (do
      let s ← r.squareM
      if bit then s.mulM a else return s)) =
      fun r bit => if bit then r.square * a else r.square := by
    funext r bit
    cases bit with
    | false => rfl
    | true => rfl
  rw [powBits, powBitsM, Id.run_bind, List.idRun_foldlM, hstep]
  rfl

theorem powUniform_eq_foldl (a : Fp) (exponent : List Word) :
    a.powUniform exponent =
      (exponent.reverse.flatMap Word.bits).foldl
        (fun r bit => select bit r.square (r.square * a)) one :=
  List.idRun_foldlM

/-! ## Inverses and quotients -/

/-- The inverse modulo `p` of an integer, and zero for a multiple of `p`. -/
def inverseOfM (n : U256) : m U256 := do
  let a ← ofU256M n
  let i ← a.powWordsM Modulus.inverseExponent.words
  i.canonicalM

@[inherit_doc inverseOfM]
def inverseOf (n : U256) : U256 := Id.run (inverseOfM n)

/-- What takes the place of the inverse for all elements: zero for zero. Taken of the stored form, the
inverse comes out with the radix in the denominator, and a factor of the radix cubed, of which the
reduction takes one away, brings it back into stored form. -/
def inverseOrZeroM (a : Fp) : m Fp := do
  let i ← inverseOfM a.words
  Fp.mk <$> MonadReduce.reduce (i.mul Modulus.radixCube)

@[inherit_doc inverseOrZeroM]
def inverseOrZero (a : Fp) : Fp := Id.run a.inverseOrZeroM

/-- The inverse. Zero has none, which is found out only after the inversion. -/
def invM? (a : Fp) : m (Option Fp) := do
  let i ← a.inverseOrZeroM
  return if a.isZero then none else some i

@[inherit_doc invM?]
def inv? (a : Fp) : Option Fp := Id.run a.invM?

theorem inv?_eq_ite (a : Fp) : a.inv? = if a.isZero then none else some a.inverseOrZero := rfl

/-- The quotient, unless `b` is zero. -/
def divideM (a b : Fp) : m (Except FieldError Fp) := do
  match ← b.invM? with
  | some i => .ok <$> a.mulM i
  | none => return .error .divisionByZero

@[inherit_doc divideM]
def divide (a b : Fp) : Except FieldError Fp := Id.run (a.divideM b)

theorem divide_eq_elim (a b : Fp) :
    a.divide b = b.inv?.elim (.error .divisionByZero) fun i => .ok (a * i) := by
  change Id.run (match b.inv? with | some i => _ | none => _) = _
  cases b.inv? with
  | none => rfl
  | some i => rfl

/-! ## Roots -/

/-- The root of unity of the highest power of two: `-1`, as `p - 1` is twice an odd number. -/
def rootOfUnityM : m Fp := (- ·) <$> oneM

@[inherit_doc rootOfUnityM]
def rootOfUnity : Fp := Id.run rootOfUnityM

/-- The root of a square that is a square itself. -/
def sqrtM? (a : Fp) : m (Option Fp) := do
  let root ← a.powWordsM Modulus.sqrtExponent.words
  let s ← root.squareM
  return if s.sameWords a then some root else none

@[inherit_doc sqrtM?]
def sqrt? (a : Fp) : Option Fp := Id.run a.sqrtM?

theorem sqrt?_eq_ite (a : Fp) :
    a.sqrt? =
      if (a.powWords Modulus.sqrtExponent.words).square.sameWords a then
        some (a.powWords Modulus.sqrtExponent.words)
      else
        none := by
  rw [sqrt?, sqrtM?, Id.run_bind, Id.run_bind, Id.run_pure, ← powWords, ← square]

/-- A root of `num / den`, with `true`, or a root of the negative of it, with `false`, where the
quotient by zero counts as zero. Both are looked for. A quotient by zero is marked with `true` only if
`num` is zero too. There is no answer if the quotient and its negative have both a root, unless `num`
or `den` is zero, or if neither has. -/
def sqrtRatioM? (num den : Fp) : m (Option (Bool × Fp)) := do
  let i ← den.invM?
  let quotient ← (i.getD zero).mulM num
  let root ← quotient.sqrtM?
  let unit ← rootOfUnityM
  let opposite ← quotient.mulM unit
  let turned ← opposite.sqrtM?
  let isSquare := root.isSome
  return if num.isZero || den.isZero || (isSquare ^^ turned.isSome) then
    (if isSquare then root else turned).map fun r => (isSquare && (num.isZero || !den.isZero), r)
  else
    none

@[inherit_doc sqrtRatioM?]
def sqrtRatio? (num den : Fp) : Option (Bool × Fp) := Id.run (num.sqrtRatioM? den)

theorem sqrtRatio?_eq_ite (num den : Fp) :
    sqrtRatio? num den =
      let quotient := den.inv?.getD zero * num
      let root := quotient.sqrt?
      let turned := (quotient * rootOfUnity).sqrt?
      let isSquare := root.isSome
      if num.isZero || den.isZero || (isSquare ^^ turned.isSome) then
        (if isSquare then root else turned).map fun r =>
          (isSquare && (num.isZero || !den.isZero), r)
      else
        none := by
  rw [sqrtRatio?, sqrtRatioM?, Id.run_bind, Id.run_bind, Id.run_bind, Id.run_bind, Id.run_bind,
    Id.run_bind, Id.run_pure, ← inv?, ← mul, ← sqrt?, ← rootOfUnity, ← mul, ← sqrt?]
  rfl

/-- A root of `a`, with `true`, or a root of its negative, with `false`. -/
def sqrtAltM? (a : Fp) : m (Option (Bool × Fp)) := do
  let unit ← oneM
  a.sqrtRatioM? unit

@[inherit_doc sqrtAltM?]
def sqrtAlt? (a : Fp) : Option (Bool × Fp) := Id.run a.sqrtAltM?

end Bn254.Fp
