import Mathlib.Algebra.Order.Group.Defs
import Mathlib.Algebra.Order.Group.Unbundled.Basic
import Mathlib.Order.Bounds.Basic
import Mathlib.Tactic.Common

/-! # The largest fall of a series

The falls of a series are the differences of an earlier value and a later one. Its largest fall can be kept as
the series grows, with nothing but its largest value beside it. -/

namespace OptiTrade.Drawdown
set_option autoImplicit false

variable {α : Type*} [AddCommGroup α] [LinearOrder α] [IsOrderedAddMonoid α] {xs : List α} {x p f : α}

/-- From an earlier value, or the same one, to a later one. -/
def Falls (xs : List α) : Set α := {d | ∃ (i j : Nat) (a b : α), i ≤ j ∧ xs[i]? = some a ∧ xs[j]? = some b ∧ d = a - b}

omit [LinearOrder α] [IsOrderedAddMonoid α] in
theorem mem_falls_snoc {d : α} : d ∈ Falls (xs ++ [x]) ↔ d ∈ Falls xs ∨ ∃ a ∈ xs ++ [x], d = a - x := by
  constructor
  · rintro ⟨i, j, a, b, hij, hi, hj, rfl⟩
    by_cases hlast : j < xs.length
    · rw [List.getElem?_append_left (by omega)] at hi hj
      exact .inl ⟨i, j, a, b, hij, hi, hj, rfl⟩
    · have hlen : j < (xs ++ [x]).length := (List.getElem?_eq_some_iff.mp hj).1
      have hj' : j = xs.length := by
        simp only [List.length_append, List.length_singleton] at hlen
        omega
      rw [hj', List.getElem?_concat_length] at hj
      obtain rfl := Option.some.inj hj
      exact .inr ⟨a, List.mem_of_getElem? hi, rfl⟩
  · rintro (⟨i, j, a, b, hij, hi, hj, rfl⟩ | ⟨a, ha, rfl⟩)
    · have hlen : j < xs.length := (List.getElem?_eq_some_iff.mp hj).1
      refine ⟨i, j, a, b, hij, ?_, ?_, rfl⟩
      · rw [List.getElem?_append_left (by omega)]
        exact hi
      · rw [List.getElem?_append_left hlen]
        exact hj
    · obtain ⟨i, hi⟩ := List.mem_iff_getElem?.mp ha
      have hlen : i < (xs ++ [x]).length := (List.getElem?_eq_some_iff.mp hi).1
      rw [List.length_append, List.length_singleton] at hlen
      exact ⟨i, xs.length, a, x, by omega, hi, List.getElem?_concat_length, rfl⟩

omit [AddCommGroup α] [IsOrderedAddMonoid α] in
theorem peak_snoc (h : IsGreatest {a | a ∈ xs} p) : IsGreatest {a | a ∈ xs ++ [x]} (max p x) := by
  constructor
  · rcases max_choice p x with hm | hm
    · rw [hm]
      exact List.mem_append_left _ h.1
    · rw [hm]
      exact List.mem_append_right _ (List.mem_singleton_self x)
  · intro a ha
    rcases List.mem_append.mp ha with ha | ha
    · exact (h.2 ha).trans (le_max_left p x)
    · rw [List.mem_singleton.mp ha]
      exact le_max_right p x

/-- **One more value.** -/
theorem fall_snoc (hp : IsGreatest {a | a ∈ xs} p) (hf : IsGreatest (Falls xs) f) :
    IsGreatest (Falls (xs ++ [x])) (max f (max p x - x)) := by
  have hpeak : IsGreatest {a | a ∈ xs ++ [x]} (max p x) := peak_snoc hp
  constructor
  · rcases max_choice f (max p x - x) with hm | hm
    · rw [hm]
      exact mem_falls_snoc.mpr (.inl hf.1)
    · rw [hm]
      exact mem_falls_snoc.mpr (.inr ⟨max p x, hpeak.1, rfl⟩)
  · intro d hd
    rcases mem_falls_snoc.mp hd with hd | ⟨a, ha, rfl⟩
    · exact (hf.2 hd).trans (le_max_left _ _)
    · exact (sub_le_sub_right (hpeak.2 ha) x).trans (le_max_right _ _)

end OptiTrade.Drawdown
