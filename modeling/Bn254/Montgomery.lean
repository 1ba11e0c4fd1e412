import Bn254.Modulus
import Bn254.U512

/-!
# Montgomery reduction

To divide by the radix `2^256` modulo `p`, a multiple of `p` is added that clears the lower 256
bits, and the upper half of the sum is what remains. For `x` below `2^256 * p` the sum fits in 512
bits and its upper half is below `2 * p`, so one conditional subtraction of `p` makes the result
the least residue.

The stored form of a number is its product with the radix modulo `p`; `encode` and `decode` go
there and back.

What reduces on its way is written once, for any monad in which there is a reduction, and is named
with an `M`. In `Id` it is the plain function of the name without it, and a monad that keeps more
than the value tells what was reduced.
-/

namespace Bn254

namespace Montgomery

/-- How often `p` is added: `x * (-1 / p)` modulo the radix. Only the lower half of `x` counts. -/
def multiplier (x : U512) : U256 :=
  (x.lo.mul Modulus.negInverse).lo.and Modulus.radixMask

/-- `x` with its lower half cleared by a multiple of `p`, and the carry of that sum. -/
def cancel (x : U512) : U512 × Word :=
  ((multiplier x).mul Modulus.p).add x

/-- `x / 2^256` modulo `p`. -/
def reduce (x : U512) : U256 :=
  (cancel x).1.hi.subtractOnce 0 Modulus.p

end Montgomery

/-- The monads in which 512-bit integers are reduced. -/
class MonadReduce (m : Type → Type) extends Monad m where
  /-- The reduction. -/
  reduce : U512 → m U256

instance : MonadReduce Id := ⟨Montgomery.reduce⟩

namespace Montgomery

variable {m : Type → Type} [MonadReduce m]

/-- The stored form of `a`, which may be any 256-bit integer. -/
def encodeM (a : U256) : m U256 := MonadReduce.reduce (a.mul Modulus.radixSq)

@[inherit_doc encodeM]
def encode (a : U256) : U256 := Id.run (encodeM a)

/-- The number that the stored form `n` stands for. -/
def decodeM (n : U256) : m U256 := MonadReduce.reduce n.widen

@[inherit_doc decodeM]
def decode (n : U256) : U256 := Id.run (decodeM n)

/-! ## What a reduction computes -/

theorem multiplier_toNat (x : U512) :
    (multiplier x).toNat = x.toNat * Modulus.negInverse.toNat % Modulus.radix := by
  rw [multiplier, Modulus.radixMask, U256.and_fill_ones, U512.lo_toNat, U256.mul_toNat,
    U512.lo_toNat]
  exact Nat.mod_mul_mod _ _ _

/-- The multiple of `p` that is added cancels `x` modulo the radix. -/
theorem multiplier_mul_add_mod (x : U512) :
    ((multiplier x).toNat * Modulus.p.toNat + x.toNat) % Modulus.radix = 0 := by
  have h : (x.toNat * Modulus.negInverse.toNat * Modulus.p.toNat + x.toNat) % Modulus.radix = 0 := by
    have hx : x.toNat * Modulus.negInverse.toNat * Modulus.p.toNat + x.toNat =
        x.toNat * (Modulus.negInverse.toNat * Modulus.p.toNat + 1) := by
      rw [Nat.mul_add, Nat.mul_one, Nat.mul_assoc]
    rw [hx, Nat.mul_mod, Modulus.negInverse_mul_p, Nat.mul_zero, Nat.zero_mod]
  rw [multiplier_toNat, Nat.add_mod, Nat.mod_mul_mod, ← Nat.add_mod, h]

/-- In its domain the sum of a reduction has no carry. -/
theorem cancel_toNat {x : U512} (h : x.toNat < Modulus.radix * Modulus.p.toNat) :
    (cancel x).2 = 0 ∧
      (cancel x).1.toNat = (multiplier x).toNat * Modulus.p.toNat + x.toNat := by
  have hsum := U512.add_toNat ((multiplier x).mul Modulus.p) x
  have ht := (multiplier x).toNat_lt
  have hp := Modulus.p_toNat
  rw [U256.mul_toNat] at hsum
  rw [Modulus.radix, hp] at h
  rw [hp] at hsum ⊢
  change (cancel x).1.toNat + 2 ^ 256 * 2 ^ 256 * (cancel x).2.toNat = _ at hsum
  have hcarry : (cancel x).2.toNat = 0 := by omega
  rw [hcarry, Nat.mul_zero, Nat.add_zero] at hsum
  exact ⟨UInt64.toNat_inj.1 hcarry, hsum⟩

/-- In its domain a reduction divides exactly: the upper half of the sum, times the radix, is the
sum. -/
theorem cancel_hi {x : U512} (h : x.toNat < Modulus.radix * Modulus.p.toNat) :
    (cancel x).1.lo = .zero ∧
      (cancel x).1.hi.toNat * Modulus.radix = (multiplier x).toNat * Modulus.p.toNat + x.toNat := by
  have hsum := (cancel_toNat h).2
  have hmod := multiplier_mul_add_mod x
  rw [← hsum] at hmod
  refine ⟨U256.toNat_inj.1 (by rw [U512.lo_toNat]; exact hmod), ?_⟩
  rw [← hsum, U512.hi_toNat]
  simp only [Modulus.radix] at hmod ⊢
  omega

theorem cancel_hi_lt {x : U512} (h : x.toNat < Modulus.radix * Modulus.p.toNat) :
    (cancel x).1.hi.toNat < 2 * Modulus.p.toNat := by
  have hhi := (cancel_hi h).2
  have ht := (multiplier x).toNat_lt
  rw [Modulus.radix, Modulus.p_toNat] at *
  omega

theorem reduce_toNat {x : U512} (h : x.toNat < Modulus.radix * Modulus.p.toNat) :
    (reduce x).toNat = (cancel x).1.hi.toNat % Modulus.p.toNat := by
  have hlt := cancel_hi_lt h
  have htop : (cancel x).1.hi.toNat + 2 ^ 256 * (0 : Word).toNat = (cancel x).1.hi.toNat := by
    rw [UInt64.toNat_zero, Nat.mul_zero, Nat.add_zero]
  rw [← htop] at hlt
  rw [reduce, U256.subtractOnce_eq_mod hlt, htop]

theorem reduce_lt {x : U512} (h : x.toNat < Modulus.radix * Modulus.p.toNat) :
    (reduce x).toNat < Modulus.p.toNat := by
  rw [reduce_toNat h]
  exact Nat.mod_lt _ (by decide)

/-- A reduction divides by the radix modulo `p`. -/
theorem reduce_mul_radix {x : U512} (h : x.toNat < Modulus.radix * Modulus.p.toNat) :
    (reduce x).toNat * Modulus.radix % Modulus.p.toNat = x.toNat % Modulus.p.toNat := by
  rw [reduce_toNat h, Nat.mod_mul_mod, (cancel_hi h).2, Nat.mul_add_mod_self_right]

end Montgomery

end Bn254
