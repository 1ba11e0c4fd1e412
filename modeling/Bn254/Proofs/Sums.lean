import Bn254.Proofs.Closure
import Mathlib.Algebra.BigOperators.Ring.Finset

/-!
# Sums and products of lists of elements

A list is joined from its first member on. As the element that stands in for the empty list is neutral,
the result is that of a fold which starts from it, and it represents the sum or the product of the
residues of the members. So neither the order of a list nor where it is cut in two matters, and a
product is zero only if a member is, however long the list: residues have no divisors of zero.
-/

namespace Bn254.Fp

variable {a : Fp} {x : Residue} {xs ys : List Fp}

/-- The residues of the members. -/
def residues (xs : List Fp) : List Residue := xs.map fun a => (a.toNat : Residue)

theorem residues_append (xs ys : List Fp) : residues (xs ++ ys) = residues xs ++ residues ys :=
  List.map_append

theorem perm_residues (h : xs.Perm ys) : (residues xs).Perm (residues ys) := h.map _

theorem sum_residues (xs : List Fp) : (residues xs).sum = ((xs.map toNat).sum : ℕ) := by
  rw [Nat.cast_list_sum, List.map_map]
  rfl

theorem prod_residues (xs : List Fp) : (residues xs).prod = ((xs.map toNat).prod : ℕ) := by
  rw [Nat.cast_list_prod, List.map_map]
  rfl

theorem zero_mem_residues_iff (hxs : ∀ a ∈ xs, a.Reduced) : 0 ∈ residues xs ↔ zero ∈ xs := by
  unfold residues
  rw [List.mem_map]
  constructor
  · rintro ⟨a, ha, hzero⟩
    rw [← (hxs a ha).represents.eq_zero_iff.2 hzero]
    exact ha
  · intro h
    exact ⟨zero, h, represents_zero.2⟩

/-! ## Joining the members

An operation on elements follows one on residues, and the element for the empty list stands for what is
neutral there. -/

section Combine

variable {op : Fp → Fp → Fp} {empty : Fp} {f : Residue → Residue → Residue} {e : Residue}
variable (hop : ∀ {a b : Fp} {x y : Residue}, a.Represents x → b.Represents y →
  (op a b).Represents (f x y))
include hop

/-- Every step of the loop joins the residue of one more member. The induction is on the members that
are left, with the residue of those before them in `x`. -/
theorem Represents.foldl (hxs : ∀ b ∈ xs, b.Reduced) (ha : a.Represents x) :
    (xs.foldl op a).Represents ((residues xs).foldl f x) := by
  induction xs generalizing a x with
  | nil => exact ha
  | cons b xs ih =>
    rcases List.forall_mem_cons.1 hxs with ⟨hb, hxs⟩
    exact ih hxs (hop ha hb.represents)

variable (hempty : empty.Represents e)
include hempty

/-- To start from the first member is to start from the neutral element. -/
theorem represents_combine [Std.LawfulLeftIdentity f e] (hxs : ∀ b ∈ xs, b.Reduced) :
    (combine op empty xs).Represents ((residues xs).foldl f e) := by
  cases xs with
  | nil => exact hempty
  | cons b xs =>
    rcases List.forall_mem_cons.1 hxs with ⟨hb, hxs⟩
    have hneutral : f e b.toNat = b.toNat := Std.LawfulLeftIdentity.left_id _
    have h := hb.represents.foldl hop hxs
    rw [← hneutral] at h
    rw [combine_cons]
    exact h

theorem combine_perm [Std.LawfulLeftIdentity f e] [Std.Commutative f] [Std.Associative f]
    (hxs : ∀ b ∈ xs, b.Reduced) (h : xs.Perm ys) : combine op empty ys = combine op empty xs := by
  have hys : ∀ b ∈ ys, b.Reduced := fun b hb => hxs b (h.mem_iff.2 hb)
  have hfold := represents_combine hop hempty hys
  rw [← (perm_residues h).foldl_op_eq] at hfold
  exact hfold.unique (represents_combine hop hempty hxs)

theorem combine_append [Std.LawfulIdentity f e] [Std.Associative f] (hxs : ∀ b ∈ xs, b.Reduced)
    (hys : ∀ b ∈ ys, b.Reduced) :
    combine op empty (xs ++ ys) = op (combine op empty xs) (combine op empty ys) := by
  have hneutral : f ((residues xs).foldl f e) e = (residues xs).foldl f e :=
    Std.LawfulRightIdentity.right_id _
  have hfold := represents_combine hop hempty (List.forall_mem_append.2 ⟨hxs, hys⟩)
  rw [residues_append, List.foldl_append, ← hneutral, List.foldl_assoc] at hfold
  exact hfold.unique
    (hop (represents_combine hop hempty hxs) (represents_combine hop hempty hys))

end Combine

theorem represents_sum (hxs : ∀ b ∈ xs, b.Reduced) : (sum xs).Represents (residues xs).sum := by
  rw [List.sum_eq_foldl]
  exact represents_combine Represents.add represents_zero hxs

theorem represents_product (hxs : ∀ b ∈ xs, b.Reduced) :
    (product xs).Represents (residues xs).prod := by
  rw [List.prod_eq_foldl]
  exact represents_combine Represents.mul represents_one hxs

theorem product_eq_zero_iff (hxs : ∀ b ∈ xs, b.Reduced) : product xs = zero ↔ zero ∈ xs := by
  rw [(represents_product hxs).eq_zero_iff, List.prod_eq_zero_iff, zero_mem_residues_iff hxs]

/-- The sum and the product of a list are those of the numbers of its members modulo `p`, which are `0`
and `1` for the empty list. They do not depend on the order of the list, that of two lists joined is
the sum or the product of the two, one of them empty or not, and a product is zero exactly if a member
is. -/
theorem sum_and_product_are_folds (xs : List Fp) (hxs : ∀ x ∈ xs, x.Reduced) :
    ((sum xs).Reduced ∧ (sum xs).toNat = (xs.map toNat).sum % Modulus.p.toNat) ∧
    ((product xs).Reduced ∧ (product xs).toNat = (xs.map toNat).prod % Modulus.p.toNat) ∧
    (sum [] = zero ∧ product [] = one) ∧
    (∀ ys : List Fp, xs.Perm ys → sum ys = sum xs ∧ product ys = product xs) ∧
    (∀ ys : List Fp, (∀ y ∈ ys, y.Reduced) →
      sum (xs ++ ys) = sum xs + sum ys ∧ product (xs ++ ys) = product xs * product ys) ∧
    (product xs = zero ↔ zero ∈ xs) := by
  have hsum := represents_sum hxs
  have hprod := represents_product hxs
  rw [sum_residues] at hsum
  rw [prod_residues] at hprod
  refine ⟨⟨hsum.1, hsum.toNat_eq⟩, ⟨hprod.1, hprod.toNat_eq⟩, ⟨rfl, rfl⟩, ?_, ?_,
    product_eq_zero_iff hxs⟩
  · intro ys h
    exact ⟨combine_perm Represents.add represents_zero hxs h,
      combine_perm Represents.mul represents_one hxs h⟩
  · intro ys hys
    exact ⟨combine_append Represents.add represents_zero hxs hys,
      combine_append Represents.mul represents_one hxs hys⟩

/-- `-1` and `1` add up to zero, and no member of the list is. The empty list behind it changes
nothing. -/
theorem sum_and_product_are_folds_of_opposites :
    let xs : List Fp := [-one, one]
    (∀ x ∈ xs, x.Reduced) ∧ sum xs = zero ∧ product xs ≠ zero ∧
      sum [one, -one] = sum xs ∧ product [one, -one] = product xs ∧
      sum (xs ++ []) = sum xs + sum [] ∧ product (xs ++ [zero]) = product xs * product [zero] := by
  intro xs
  have hxs : ∀ x ∈ xs, x.Reduced := by
    rw [List.forall_mem_cons, List.forall_mem_singleton]
    exact ⟨reduced_one.neg, reduced_one⟩
  have hnone : zero ∉ xs := by decide +kernel
  have hzeros : ∀ y ∈ [zero], y.Reduced := List.forall_mem_singleton.2 reduced_zero
  obtain ⟨-, -, -, hperm, happend, hzero⟩ := sum_and_product_are_folds xs hxs
  have hswap := hperm [one, -one] (List.Perm.swap one (-one) [])
  exact ⟨hxs, by decide +kernel, mt hzero.1 hnone, hswap.1, hswap.2,
    (happend [] (List.forall_mem_nil _)).1, (happend [zero] hzeros).2⟩

end Bn254.Fp
