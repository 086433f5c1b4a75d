import Mathlib.Algebra.BigOperators.Fin
import Mathlib.Algebra.Order.BigOperators.Group.Finset

/-!
# Reading a family one component after the other

A family of values that only grow is copied component by component, while it goes on
growing.  No component of the copy need be of the same moment as another one, and the copy
as a whole need never have been the state of the family.  But each component lies between
what it was when the copying began and what it is now (`Collected`), and so does the sum
(`Collected.sum_between`).
-/

namespace FileTracker
namespace Collect

variable {n : ℕ} {M : Type*} [AddCommMonoid M] [PartialOrder M]

/-- The first `k` components have been copied. -/
structure Collected (start now copy : Fin n → M) (k : ℕ) : Prop where
  grown : ∀ i, start i ≤ now i
  between : ∀ i, i.val < k → start i ≤ copy i ∧ copy i ≤ now i

variable {start now copy : Fin n → M} {k : ℕ}

omit [AddCommMonoid M] in
theorem Collected.begin (now copy : Fin n → M) : Collected now now copy 0 :=
  ⟨fun _ => le_rfl, fun _ h => absurd h (Nat.not_lt_zero _)⟩

omit [AddCommMonoid M] in
/-- The family grows. -/
theorem Collected.mono (h : Collected start now copy k) {later : Fin n → M}
    (hle : ∀ i, now i ≤ later i) : Collected start later copy k :=
  ⟨fun i => (h.grown i).trans (hle i),
    fun i hi => ⟨(h.between i hi).1, (h.between i hi).2.trans (hle i)⟩⟩

omit [AddCommMonoid M] in
/-- The next component is copied. -/
theorem Collected.next (h : Collected start now copy k) (hk : k < n) :
    Collected start now (Function.update copy ⟨k, hk⟩ (now ⟨k, hk⟩)) (k + 1) := by
  refine ⟨h.grown, fun i hi => ?_⟩
  by_cases heq : i = ⟨k, hk⟩
  · subst heq
    rw [Function.update_self]
    exact ⟨h.grown _, le_rfl⟩
  · rw [Function.update_of_ne heq]
    have hne : i.val ≠ k := fun hval => heq (Fin.ext hval)
    exact h.between i (by omega)

/-- **The sum of a copy** lies between the sums at its beginning and at its end. -/
theorem Collected.sum_between [IsOrderedAddMonoid M] (h : Collected start now copy n) :
    ∑ i, start i ≤ ∑ i, copy i ∧ ∑ i, copy i ≤ ∑ i, now i :=
  ⟨Finset.sum_le_sum fun i _ => (h.between i i.isLt).1,
    Finset.sum_le_sum fun i _ => (h.between i i.isLt).2⟩

omit [PartialOrder M] in
/-- A component that changes, in a sum over a function of the components. -/
theorem sum_apply_update {α : Type*} (g : α → M) (f : Fin n → α) (i : Fin n) (b : α) :
    ∑ j, g (Function.update f i b j) + g (f i) = ∑ j, g (f j) + g b := by
  simp only [Function.apply_update fun _ => g]
  rw [Finset.sum_update_of_mem (Finset.mem_univ i), ← Finset.sum_sdiff (Finset.subset_univ {i}),
    Finset.sum_singleton, add_assoc, add_comm]

end Collect
end FileTracker
