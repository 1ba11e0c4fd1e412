import Bn254.Proofs.DoubleWords
import Bn254.Proofs.Power
import Bn254.U512

/-!
# Products row by row

A product is added up in rows, one for each word of the first factor. A row adds the whole second factor
times its word to the words that the rows before it have left, and its carry is the word above them, a
place that no row before it has reached. After any number of rows the words written so far hold the
product of the words used so far, so nothing is lost on the way and the rows of all words make the exact
product.
-/

namespace Bn254

section

variable (ws : List Word)

theorem wordsValue_eq_placeValue : wordsValue ws = placeValue (ws.map UInt64.toNat) 0 := by
  rw [placeValue, List.foldr_map]
  rfl

theorem wordsValue_append_words (n : U256) :
    wordsValue (ws ++ n.words) = placeValue (ws.map UInt64.toNat) n.toNat := by
  rw [← wordsValue_words, placeValue, List.foldr_map, wordsValue, List.foldr_append]
  rfl

end

namespace U256

variable (acc b : U256) (xs : List Word)

theorem length_mulRows : (mulRows b acc xs).1.length = xs.length := by
  induction xs generalizing acc with
  | nil => rfl
  | cons x xs ih => rw [mulRows_cons, List.length_cons, List.length_cons, ih]

/-- The rows of further words go on from what is handed to them, and leave the words before it alone. -/
theorem mulRows_append (ys : List Word) :
    mulRows b acc (xs ++ ys) =
      ((mulRows b acc xs).1 ++ (mulRows b (mulRows b acc xs).2 ys).1,
        (mulRows b (mulRows b acc xs).2 ys).2) := by
  induction xs generalizing acc with
  | nil => rfl
  | cons x xs ih => rw [List.cons_append, mulRows_cons, ih, mulRows_cons, List.cons_append]

theorem wordsValue_mulRows :
    wordsValue ((mulRows b acc xs).1 ++ (mulRows b acc xs).2.words) =
      acc.toNat + wordsValue xs * b.toNat := by
  rw [wordsValue_append_words, placeValue_mulRows, wordsValue_eq_placeValue]

theorem mul_eq_ofNat (a b : U256) : a.mul b = .ofNat (a.toNat * b.toNat) := by
  rw [← mul_toNat, U512.ofNat_toNat]

/-- A product has the words of the exact product. It is made of rows, which after any number of words have
written one word for each of them and four more. Later rows work on these four and add one word above
them, so no carry falls on a word that is there already; and none is lost, as the words always hold the
sum of all that was multiplied. A single step never leaves 128 bits, whatever its four words are, and its
two words are its exact value. -/
theorem products_are_exact :
    (∀ a b : U256,
      (a.mul b).toNat = a.toNat * b.toNat ∧
      a.mul b = .ofNat (a.toNat * b.toNat) ∧
      (a.mul b).lo.words = (mulRows b zero a.words).1 ∧
      (a.mul b).hi = (mulRows b zero a.words).2) ∧
    (∀ (acc b : U256) (xs ys : List Word),
      (mulRows b acc xs).1.length = xs.length ∧
      wordsValue ((mulRows b acc xs).1 ++ (mulRows b acc xs).2.words) =
        acc.toNat + wordsValue xs * b.toNat ∧
      mulRows b acc (xs ++ ys) =
        ((mulRows b acc xs).1 ++ (mulRows b (mulRows b acc xs).2 ys).1,
          (mulRows b (mulRows b acc xs).2 ys).2)) ∧
    ∀ a b c carry : Word,
      (Word.wide a + Word.wide b * Word.wide c + Word.wide carry).toNat =
        a.toNat + b.toNat * c.toNat + carry.toNat ∧
      Word.mulAdd a b c carry =
        Word.halves (Word.wide a + Word.wide b * Word.wide c + Word.wide carry) ∧
      (Word.mulAdd a b c carry).1.toNat + 2 ^ 64 * (Word.mulAdd a b c carry).2.toNat =
        a.toNat + b.toNat * c.toNat + carry.toNat := by
  refine ⟨?_, ?_, ?_⟩
  · intro a b
    obtain ⟨hlo, hhi⟩ := mul_eq_mulRows a b
    exact ⟨mul_toNat a b, mul_eq_ofNat a b, hlo, hhi⟩
  · intro acc b xs ys
    exact ⟨length_mulRows acc b xs, wordsValue_mulRows acc b xs, mulRows_append acc b xs ys⟩
  · intro a b c carry
    exact ⟨Word.toNat_wide_mulAdd a b c carry, Word.mulAdd_eq_halves a b c carry,
      Word.mulAdd_toNat a b c carry⟩

end U256

end Bn254
