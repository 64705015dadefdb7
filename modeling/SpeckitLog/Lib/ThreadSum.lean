import Mathlib.Algebra.BigOperators.Group.Finset.Basic
import Mathlib.Data.Fintype.Basic
import Mathlib.Data.Fintype.BigOperators
import Mathlib.Algebra.Order.BigOperators.Group.Finset
import Mathlib.Algebra.Order.Group.Multiset

/-!
# Sums over threads

A quantity spread over the local states of finitely many threads is a sum; a
step of one thread changes one summand.
-/

open Function

variable {ι β M : Type*} [Fintype ι] [DecidableEq ι]

/-- **A change in few places.**  When two families agree outside `T`, their sums
differ by their sums over `T`. -/
theorem sum_add_of_frame_on [AddCommMonoid M] {f f' : ι → M} (T : Finset ι)
    (h : ∀ j, j ∉ T → f' j = f j) : ∑ j, f' j + ∑ j ∈ T, f j = ∑ j, f j + ∑ j ∈ T, f' j := by
  have hrest : ∑ j ∈ Tᶜ, f' j = ∑ j ∈ Tᶜ, f j :=
    Finset.sum_congr rfl fun j hj => h j (Finset.mem_compl.mp hj)
  rw [← Finset.sum_add_sum_compl T f', ← Finset.sum_add_sum_compl T f, hrest,
    add_comm (∑ j ∈ T, f' j), add_comm (∑ j ∈ T, f j), add_right_comm]

/-- **One thread moves.**  The sum loses the old contribution of thread `i` and
gains the new one. -/
theorem sum_add_of_frame [AddCommMonoid M] (f f' : ι → M) (i : ι) (h : ∀ j, j ≠ i → f' j = f j) :
    ∑ j, f' j + f i = ∑ j, f j + f' i := by
  have := sum_add_of_frame_on {i} fun j hj => h j (by simpa using hj)
  rwa [Finset.sum_singleton, Finset.sum_singleton] at this

/-- The same for a quantity read off the local state. -/
theorem sum_update_add [AddCommMonoid M] (g : ι → β) (f : β → M) (i : ι) (b : β) :
    ∑ j, f (update g i b j) + f (g i) = ∑ j, f (g j) + f b := by
  have h := sum_add_of_frame (fun j => f (g j)) (fun j => f (update g i b j)) i
    fun j hj => by rw [update_of_ne hj]
  simpa only [update_self] using h

/-- A move that does not change the contribution of the thread. -/
theorem sum_update_of_eq [AddCommMonoid M] (g : ι → β) (f : β → M) (i : ι) {b : β}
    (h : f b = f (g i)) : ∑ j, f (update g i b j) = ∑ j, f (g j) := by
  refine Finset.sum_congr rfl fun j _ => ?_
  by_cases hji : j = i
  · rw [hji, update_self, h]
  · rw [update_of_ne hji]

/-- In a sum of multisets without repetition, an element is in one summand only. -/
theorem eq_of_mem_of_nodup_sum {V : ι → Multiset M} (h : (∑ j, V j).Nodup) {x : M} {i j : ι}
    (hi : x ∈ V i) (hj : x ∈ V j) : i = j := by
  by_contra hij
  have hle : V j ≤ ∑ k ∈ Finset.univ.erase i, V k :=
    Finset.single_le_sum (fun _ _ => Multiset.zero_le _)
      (Finset.mem_erase.mpr ⟨fun hji => hij hji.symm, Finset.mem_univ j⟩)
  rw [← Finset.add_sum_erase _ V (Finset.mem_univ i)] at h
  exact Multiset.disjoint_left.mp (Multiset.nodup_add.mp h).2.2 hi (Multiset.mem_of_le hle hj)
