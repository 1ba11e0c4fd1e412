import Bn254.Word

/-!
# Chains of steps

Longer numbers are computed word by word, the least significant one first: each step results in a word
and hands another one on to the next step. What one step keeps is kept by a chain of any length, so a
chain of exact steps is exact.
-/

namespace Bn254

/-- The number that digits write, least significant first, with `top` above them. -/
def placeValue (ds : List Nat) (top : Nat) : Nat := ds.foldr (fun d n => d + 2 ^ 64 * n) top

theorem placeValue_cons (d : Nat) (ds : List Nat) (top : Nat) :
    placeValue (d :: ds) top = d + 2 ^ 64 * placeValue ds top := rfl

section

variable {α : Type} {step : α → Word → Word × Word} {f g : α → Nat}

theorem placeValue_map_add (f g : α → Nat) (xs : List α) :
    placeValue (xs.map fun x => f x + g x) 0 = placeValue (xs.map f) 0 + placeValue (xs.map g) 0 := by
  induction xs with
  | nil => rfl
  | cons x xs ih =>
    rw [List.map_cons, List.map_cons, List.map_cons, placeValue_cons, placeValue_cons, placeValue_cons,
      ih]
    omega

theorem placeValue_map_mul (n : Nat) (f : α → Nat) (xs : List α) :
    placeValue (xs.map fun x => n * f x) 0 = n * placeValue (xs.map f) 0 := by
  induction xs with
  | nil => rfl
  | cons x xs ih =>
    rw [List.map_cons, List.map_cons, placeValue_cons, placeValue_cons, ih, Nat.mul_add,
      Nat.mul_left_comm]

/-- One step for each of `xs`: the words that result from them, and the one that the last step hands
on. -/
def chain (step : α → Word → Word × Word) : List α → Word → List Word × Word
  | [], carry => ([], carry)
  | x :: xs, carry =>
    let (low, high) := step x carry
    let (words, top) := chain step xs high
    (low :: words, top)

theorem chain_cons (step : α → Word → Word × Word) (x : α) (xs : List α) (carry : Word) :
    chain step (x :: xs) carry =
      ((step x carry).1 :: (chain step xs (step x carry).2).1,
        (chain step xs (step x carry).2).2) :=
  rfl

/-- Steps that add lose nothing: what the last one hands on stands above the words. -/
theorem placeValue_chain
    (hstep : ∀ x c, (step x c).1.toNat + 2 ^ 64 * (step x c).2.toNat = f x + c.toNat)
    (xs : List α) (carry : Word) :
    placeValue ((chain step xs carry).1.map UInt64.toNat) (chain step xs carry).2.toNat =
      placeValue (xs.map f) 0 + carry.toNat := by
  induction xs generalizing carry with
  | nil => exact (Nat.zero_add _).symm
  | cons x xs ih =>
    have hx := hstep x carry
    have hxs := ih (step x carry).2
    rw [chain_cons, List.map_cons, List.map_cons, placeValue_cons, placeValue_cons, hxs]
    omega

/-- Steps that subtract owe no more than one bit: the borrow of the last one stands above the words that
are subtracted from. -/
theorem placeValue_chain_borrow
    (hstep : ∀ x c, (step x c).1.toNat + g x + (Word.borrowBit c).toNat =
      f x + 2 ^ 64 * (Word.borrowBit (step x c).2).toNat)
    (xs : List α) (borrow : Word) :
    placeValue ((chain step xs borrow).1.map UInt64.toNat) 0 + placeValue (xs.map g) 0 +
        (Word.borrowBit borrow).toNat =
      placeValue (xs.map f) (Word.borrowBit (chain step xs borrow).2).toNat := by
  induction xs generalizing borrow with
  | nil => exact Nat.zero_add _
  | cons x xs ih =>
    have hx := hstep x borrow
    have hxs := ih (step x borrow).2
    rw [chain_cons, List.map_cons, List.map_cons, List.map_cons, placeValue_cons, placeValue_cons,
      placeValue_cons, ← hxs]
    omega

end

end Bn254
