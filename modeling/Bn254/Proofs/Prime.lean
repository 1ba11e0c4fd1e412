import Bn254.Modulus
import Mathlib.Data.List.Prime
import Mathlib.NumberTheory.LucasPrimality
import Mathlib.Tactic.NormNum.Prime
import Mathlib.Tactic.ReduceModChar

/-!
# The modulus is prime

A number `n` is prime if the residues modulo `n` have an element of order `n - 1`, and the order is
told by the powers `(n - 1) / q` for the primes `q` that divide `n - 1`. The larger ones of these
primes are shown to be prime in the same way, until trial division reaches the rest.
-/

namespace Bn254.Modulus

/-- The primes of a number are in any list of primes of which a power is a multiple of it. -/
theorem mem_of_prime_dvd {m q k : ℕ} {primes : List ℕ} (hprime : ∀ r ∈ primes, r.Prime)
    (hall : m ∣ primes.prod ^ k) (hq : q.Prime) (hdvd : q ∣ m) : q ∈ primes := by
  have hprod : q ∣ primes.prod := hq.dvd_of_dvd_pow (hdvd.trans hall)
  obtain ⟨r, hr, hqr⟩ := (Nat.Prime.prime hq).dvd_prod_iff.1 hprod
  have heq : q = r := (Nat.prime_dvd_prime_iff_eq hq (hprime r hr)).1 hqr
  rw [heq]
  exact hr

/-- Lucas's test. The list holds the primes that divide `n - 1`, each of them once, and `k` bounds
how often. -/
theorem prime_of_generator {n : ℕ} (g : ZMod n) (primes : List ℕ) (k : ℕ)
    (hprime : ∀ q ∈ primes, q.Prime) (hall : n - 1 ∣ primes.prod ^ k)
    (hone : g ^ (n - 1) = 1) (hne : ∀ q ∈ primes, g ^ ((n - 1) / q) ≠ 1) : n.Prime := by
  refine lucas_primality n g hone ?_
  intro q hq hdvd
  exact hne q (mem_of_prime_dvd hprime hall hq hdvd)

theorem prime_1263766531 : Nat.Prime 1263766531 := by
  refine prime_of_generator 10 [2, 3, 5, 13, 911, 3557] 1 ?_ (by norm_num) (by reduce_mod_char) ?_
  · simp only [List.forall_mem_cons]
    norm_num
  · simp only [List.forall_mem_cons, Nat.reduceSub, Nat.reduceDiv]
    refine ⟨?_, ?_, ?_, ?_, ?_, ?_, List.forall_mem_nil _⟩ <;> reduce_mod_char <;> decide

theorem prime_35385462869 : Nat.Prime 35385462869 := by
  refine prime_of_generator 2 [2, 7, 1263766531] 2 ?_ (by norm_num) (by reduce_mod_char) ?_
  · simp only [List.forall_mem_cons, prime_1263766531, true_and]
    norm_num
  · simp only [List.forall_mem_cons, Nat.reduceSub, Nat.reduceDiv]
    refine ⟨?_, ?_, ?_, List.forall_mem_nil _⟩ <;> reduce_mod_char <;> decide

theorem prime_2480874801745591 : Nat.Prime 2480874801745591 := by
  refine prime_of_generator 6 [2, 3, 5, 19, 41, 35385462869] 2 ?_ (by norm_num)
    (by reduce_mod_char) ?_
  · simp only [List.forall_mem_cons, prime_35385462869, true_and]
    norm_num
  · simp only [List.forall_mem_cons, Nat.reduceSub, Nat.reduceDiv]
    refine ⟨?_, ?_, ?_, ?_, ?_, ?_, List.forall_mem_nil _⟩ <;> reduce_mod_char <;> decide

theorem prime_173171039 : Nat.Prime 173171039 := by
  refine prime_of_generator 13 [2, 73, 89, 13327] 1 ?_ (by norm_num) (by reduce_mod_char) ?_
  · simp only [List.forall_mem_cons]
    norm_num
  · simp only [List.forall_mem_cons, Nat.reduceSub, Nat.reduceDiv]
    refine ⟨?_, ?_, ?_, ?_, List.forall_mem_nil _⟩ <;> reduce_mod_char <;> decide

theorem prime_13427688667394608761327070753331941386769 :
    Nat.Prime 13427688667394608761327070753331941386769 := by
  refine prime_of_generator 17
    [2, 3, 7, 11, 1853641, 4562087, 173171039, 2480874801745591] 4 ?_ (by norm_num)
    (by reduce_mod_char) ?_
  · simp only [List.forall_mem_cons, prime_173171039, prime_2480874801745591, true_and]
    norm_num
  · simp only [List.forall_mem_cons, Nat.reduceSub, Nat.reduceDiv]
    refine ⟨?_, ?_, ?_, ?_, ?_, ?_, ?_, ?_, List.forall_mem_nil _⟩ <;> reduce_mod_char <;> decide

theorem prime_405928799 : Nat.Prime 405928799 := by
  refine prime_of_generator 22 [2, 11, 3691, 4999] 1 ?_ (by norm_num) (by reduce_mod_char) ?_
  · simp only [List.forall_mem_cons]
    norm_num
  · simp only [List.forall_mem_cons, Nat.reduceSub, Nat.reduceDiv]
    refine ⟨?_, ?_, ?_, ?_, List.forall_mem_nil _⟩ <;> reduce_mod_char <;> decide

theorem prime_11465965001 : Nat.Prime 11465965001 := by
  refine prime_of_generator 3 [2, 5, 7, 327599] 4 ?_ (by norm_num) (by reduce_mod_char) ?_
  · simp only [List.forall_mem_cons]
    norm_num
  · simp only [List.forall_mem_cons, Nat.reduceSub, Nat.reduceDiv]
    refine ⟨?_, ?_, ?_, ?_, List.forall_mem_nil _⟩ <;> reduce_mod_char <;> decide

/-! ## The group of order `p - 1` -/

/-- The primes that divide `p - 1`. -/
def orderPrimes : List ℕ :=
  [2, 3, 13, 29, 67, 229, 311, 983, 11003, 405928799, 11465965001,
    13427688667394608761327070753331941386769]

theorem prime_of_mem_orderPrimes : ∀ q ∈ orderPrimes, q.Prime := by
  simp only [orderPrimes, List.forall_mem_cons, prime_405928799, prime_11465965001,
    prime_13427688667394608761327070753331941386769, true_and]
  norm_num

theorem dvd_orderPrimes_prod_sq : p.toNat - 1 ∣ orderPrimes.prod ^ 2 := by
  rw [p_toNat, orderPrimes]
  norm_num

theorem three_pow_pred : (3 : ZMod p.toNat) ^ (p.toNat - 1) = 1 := by
  rw [p_toNat]
  reduce_mod_char

theorem three_pow_div_ne_one : ∀ q ∈ orderPrimes, (3 : ZMod p.toNat) ^ ((p.toNat - 1) / q) ≠ 1 := by
  rw [p_toNat]
  simp only [orderPrimes, List.forall_mem_cons, Nat.reduceSub, Nat.reduceDiv]
  refine ⟨?_, ?_, ?_, ?_, ?_, ?_, ?_, ?_, ?_, ?_, ?_, ?_, List.forall_mem_nil _⟩ <;>
    reduce_mod_char <;> decide

theorem p_prime : p.toNat.Prime :=
  prime_of_generator 3 orderPrimes 2 prime_of_mem_orderPrimes dvd_orderPrimes_prod_sq
    three_pow_pred three_pow_div_ne_one

instance : Fact p.toNat.Prime := ⟨p_prime⟩

end Bn254.Modulus
