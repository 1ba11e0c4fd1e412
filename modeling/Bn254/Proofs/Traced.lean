import Bn254.Proofs.Representation

/-!
# Computations that record their reductions

The reduction is total, but it divides by the radix only in its domain: outside of it the sum that
clears the lower half has a carry, which is lost. To say that no computation leaves the domain, a
`Traced` value comes with the arguments of all reductions on the way to it, in their order. As a monad
that reduces, it runs the very definitions of the library, so what it records is what they reduce.
`Traced.Computes t a` ties such a run to the plain one: it results in `a`, and all it reduces is in
the domain.
-/

namespace Bn254

/-- A value, and what was reduced to compute it. -/
structure Traced (α : Type) where
  /-- The value. -/
  value : α
  /-- The arguments of the reductions. -/
  calls : List U512

namespace Traced

variable {α β ι : Type}

instance : Monad Traced where
  pure a := ⟨a, []⟩
  bind t f := ⟨(f t.value).value, t.calls ++ (f t.value).calls⟩

theorem calls_pure (a : α) : (pure a : Traced α).calls = [] := rfl

theorem calls_bind (t : Traced α) (f : α → Traced β) :
    (t >>= f).calls = t.calls ++ (f t.value).calls := rfl

/-- A loop reduces as often as all of its steps, where the result so far does not count for a step. -/
theorem length_calls_foldlM {g : α → ι → Traced α} {n : ι → ℕ}
    (h : ∀ r i, (g r i).calls.length = n i) (l : List ι) (r : α) :
    (l.foldlM g r).calls.length = (l.map n).sum := by
  induction l generalizing r with
  | nil => rfl
  | cons i l ih =>
    rw [List.foldlM_cons, calls_bind, List.length_append, h, ih, List.map_cons, List.sum_cons]

instance : LawfulMonad Traced := by
  refine LawfulMonad.mk' Traced ?_ ?_ ?_
  · intro α t
    change Traced.mk t.value (t.calls ++ []) = t
    rw [List.append_nil]
  · intro α β a f
    rfl
  · intro α β γ t f g
    change Traced.mk _ (t.calls ++ (f t.value).calls ++ _) = Traced.mk _ (t.calls ++ (_ ++ _))
    rw [List.append_assoc]
    rfl

/-- The computation results in `a` and reduces nothing outside of the domain. -/
structure Computes (t : Traced α) (a : α) : Prop where
  /-- The result. -/
  value_eq : t.value = a
  /-- The domain of the reduction. -/
  inDomain : ∀ x ∈ t.calls, Montgomery.InDomain x

namespace Computes

theorem pure (a : α) : (Pure.pure a : Traced α).Computes a := by
  constructor
  · rfl
  · intro x hx
    rw [calls_pure] at hx
    cases hx

/-- The second computation has to be looked at only for what the first one results in. -/
theorem bind {t : Traced α} {a : α} {f : α → Traced β} {b : β} (ht : t.Computes a)
    (hf : (f a).Computes b) : (t >>= f).Computes b := by
  obtain ⟨rfl, ht⟩ := ht
  constructor
  · exact hf.value_eq
  · intro x hx
    rw [calls_bind] at hx
    rcases List.mem_append.1 hx with hx | hx
    · exact ht x hx
    · exact hf.inDomain x hx

theorem map {t : Traced α} {x : Id α} (f : α → β) (ht : t.Computes x.run) :
    (f <$> t).Computes (f <$> x).run := by
  rw [map_eq_pure_bind]
  exact ht.bind (pure _)

/-- A loop whose steps preserve `P`, each of them known to compute only where `P` holds. -/
theorem foldlM {P : α → Prop} {f : α → ι → α} {g : α → ι → Traced α} (l : List ι)
    (hg : ∀ r : α, ∀ i ∈ l, P r → (g r i).Computes (f r i))
    (hf : ∀ r : α, ∀ i ∈ l, P r → P (f r i)) {r : α} (hr : P r) :
    (l.foldlM g r).Computes (l.foldl f r) := by
  induction l generalizing r with
  | nil => exact pure r
  | cons i l ih =>
    rw [List.foldlM_cons]
    refine (hg r i List.mem_cons_self hr).bind (ih ?_ ?_ ?_)
    · intro r j hj
      exact hg r j (List.mem_cons_of_mem i hj)
    · intro r j hj
      exact hf r j (List.mem_cons_of_mem i hj)
    · exact hf r i List.mem_cons_self hr

/-! ## Computations that may have no result -/

theorem lift {t : Traced α} {a : α} (ht : t.Computes a) :
    (OptionT.lift t).run.Computes (some a) := by
  rw [OptionT.run_lift]
  exact ht.bind (pure _)

/-- As `bind`, where there is a second computation only if the first has a result. -/
theorem optionBind {t : OptionT Traced α} {u : OptionT Id α} {f : α → OptionT Traced β}
    {g : α → OptionT Id β} (ht : t.run.Computes u.run.run)
    (hf : ∀ a ∈ u.run.run, (f a).run.Computes (g a).run.run) :
    (t >>= f).run.Computes (u >>= g).run.run := by
  rw [OptionT.run_bind, OptionT.run_bind]
  change (t.run >>= fun x => x.elim (Pure.pure none) fun a => (f a).run).Computes
    (u.run.run.elim none fun a => (g a).run.run)
  refine ht.bind ?_
  cases h : u.run.run with
  | none => exact pure none
  | some a => exact hf a h

theorem optionMapM {f : ι → OptionT Traced α} {g : ι → OptionT Id α} (l : List ι)
    (hf : ∀ i ∈ l, (f i).run.Computes (g i).run.run) :
    (l.mapM f).run.Computes (l.mapM g).run.run := by
  induction l with
  | nil =>
    rw [List.mapM_nil, List.mapM_nil]
    exact pure (some [])
  | cons i l ih =>
    rw [List.mapM_cons, List.mapM_cons]
    refine (hf i List.mem_cons_self).optionBind ?_
    intro a _
    refine (ih ?_).optionBind ?_
    · intro j hj
      exact hf j (List.mem_cons_of_mem i hj)
    · intro as _
      exact pure (some (a :: as))

end Computes

/-! ## Reductions -/

/-- The reduction, recorded. -/
instance : MonadReduce Traced := ⟨fun x => ⟨Montgomery.reduce x, [x]⟩⟩

theorem calls_reduce (x : U512) : (MonadReduce.reduce x : Traced U256).calls = [x] := rfl

theorem computes_reduce {x : U512} (h : Montgomery.InDomain x) :
    Computes (MonadReduce.reduce x) (Montgomery.reduce x) := by
  constructor
  · rfl
  · intro y hy
    rw [calls_reduce] at hy
    rcases List.mem_singleton.1 hy with rfl
    exact h

theorem computes_encode (n : U256) : Computes (Montgomery.encodeM n) (Montgomery.encode n) :=
  computes_reduce (Montgomery.inDomain_mul n Modulus.radixSq_lt)

theorem computes_decode (n : U256) : Computes (Montgomery.decodeM n) (Montgomery.decode n) :=
  computes_reduce (Montgomery.inDomain_widen n)

end Traced

end Bn254
