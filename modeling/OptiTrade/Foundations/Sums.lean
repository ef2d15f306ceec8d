import Mathlib.Algebra.BigOperators.Group.Finset.Piecewise
import Mathlib.Algebra.BigOperators.Intervals
import Mathlib.Tactic.Abel

/-! # Sums over a table of which one row changes -/

namespace OptiTrade
set_option autoImplicit false

open Finset

variable {α M : Type*} [AddCommMonoid M]

theorem sum_range_update {n i : Nat} (hi : i < n) (g : Nat → α) (a : α) (f : α → M) :
    ∑ j ∈ range n, f (Function.update g i a j) + f (g i) = ∑ j ∈ range n, f (g j) + f a := by
  have hmem : i ∈ range n := mem_range.mpr hi
  have hrest : ∑ j ∈ (range n).erase i, f (Function.update g i a j) = ∑ j ∈ (range n).erase i, f (g j) := by
    refine sum_congr rfl fun j hj => ?_
    rw [Function.update_of_ne (ne_of_mem_erase hj)]
  rw [← add_sum_erase _ _ hmem, ← add_sum_erase _ (fun j => f (g j)) hmem, hrest, Function.update_self]
  abel

theorem sum_range_update_of_le {n i : Nat} (hi : n ≤ i) (g : Nat → α) (a : α) (f : α → M) :
    ∑ j ∈ range n, f (Function.update g i a j) = ∑ j ∈ range n, f (g j) := by
  refine sum_congr rfl fun j hj => ?_
  rw [Function.update_of_ne (by have := mem_range.mp hj; omega)]

end OptiTrade
