import Bn254.Fp.Basic

/-!
# Order, and lists of elements

Elements are ordered by the numbers below `p` that they stand for, which their stored forms do not
show. A list of them can be sorted, and it is added or multiplied up from its first member on; the
neutral element stands for the empty list alone.
-/

namespace Bn254.Fp

variable {m : Type → Type} [MonadReduce m]

/-! ## Order -/

/-- The order of the numbers of two elements. -/
def compareM (a b : Fp) : m Ordering := do
  let x ← a.canonicalM
  let y ← b.canonicalM
  return x.compare y

@[inherit_doc compareM]
def compare (a b : Fp) : Ordering := Id.run (a.compareM b)

instance : Ord Fp := ⟨compare⟩

/-- The order as one in which elements need not be comparable, though any two are. -/
def partialCompare (a b : Fp) : Option Ordering := some (a.compare b)

/-- The larger one; of equals, the second. -/
def maxM (a b : Fp) : m Fp := do
  let order ← a.compareM b
  return if order = .gt then a else b

@[inherit_doc maxM]
def max (a b : Fp) : Fp := Id.run (a.maxM b)

theorem max_eq_ite (a b : Fp) : a.max b = if a.compare b = .gt then a else b := by
  rw [max, maxM, Id.run_bind, Id.run_pure, ← compare]

/-- The smaller one; of equals, the first. -/
def minM (a b : Fp) : m Fp := do
  let order ← a.compareM b
  return if order = .gt then b else a

@[inherit_doc minM]
def min (a b : Fp) : Fp := Id.run (a.minM b)

theorem min_eq_ite (a b : Fp) : a.min b = if a.compare b = .gt then b else a := by
  rw [min, minM, Id.run_bind, Id.run_pure, ← compare]

instance : Max Fp := ⟨max⟩
instance : Min Fp := ⟨min⟩

/-- The elements in ascending order, equal ones in the order that they came in. -/
def sort (xs : List Fp) : List Fp := xs.mergeSort fun a b => a.compare b != .gt

/-! ## Sums and products -/

/-- The members joined from left to right, or `empty` if there are none. -/
def combineM (op : Fp → Fp → m Fp) (empty : m Fp) : List Fp → m Fp
  | [] => empty
  | x :: xs => xs.foldlM op x

@[inherit_doc combineM]
def combine (op : Fp → Fp → Fp) (empty : Fp) (xs : List Fp) : Fp :=
  Id.run (combineM op empty xs)

theorem combine_cons (op : Fp → Fp → Fp) (empty x : Fp) (xs : List Fp) :
    combine op empty (x :: xs) = xs.foldl op x :=
  List.idRun_foldlM

/-- The sum of the members. -/
def sum (xs : List Fp) : Fp := combine (· + ·) zero xs

/-- The product of the members. -/
def productM (xs : List Fp) : m Fp := combineM mulM oneM xs

@[inherit_doc productM]
def product (xs : List Fp) : Fp := Id.run (productM xs)

theorem product_eq_combine (xs : List Fp) : product xs = combine (· * ·) one xs := rfl

end Bn254.Fp
