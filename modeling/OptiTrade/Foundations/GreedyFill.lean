import Mathlib.Algebra.GroupWithZero.Nat
import Mathlib.Tactic.Common

/-! # Filling a demand from a list of sources

The sources are visited in order as long as they are eligible, and each gives what is still wanted, as far as it
reaches. -/

namespace OptiTrade.GreedyFill
set_option autoImplicit false

variable {α : Type*} {ok : α → Bool} {size : α → Nat} {as : List α} {n : Nat}

/-- The sources that are used, each with what it gives. -/
def fill (ok : α → Bool) (size : α → Nat) : List α → Nat → List (α × Nat)
  | [], _ => []
  | a :: as, n =>
    if n = 0 then []
    else if ok a then (a, min n (size a)) :: fill ok size as (n - min n (size a))
    else []

def total (fs : List (α × Nat)) : Nat := (fs.map Prod.snd).sum

@[simp] theorem total_nil : total ([] : List (α × Nat)) = 0 := rfl

@[simp] theorem total_cons (f : α × Nat) (fs : List (α × Nat)) : total (f :: fs) = f.2 + total fs := by
  simp [total]

theorem fill_zero (as : List α) : fill ok size as 0 = [] := by
  cases as with
  | nil => rfl
  | cons a as => exact if_pos rfl

theorem fill_isPrefix (as : List α) (n : Nat) : ((fill ok size as n).map Prod.fst) <+: as.takeWhile ok := by
  induction as generalizing n with
  | nil => exact List.nil_prefix
  | cons a as ih =>
    unfold fill
    by_cases hn : n = 0
    · rw [if_pos hn]
      exact List.nil_prefix
    rw [if_neg hn]
    by_cases hok : ok a = true
    · rw [if_pos hok, List.takeWhile_cons_of_pos hok, List.map_cons]
      exact List.cons_prefix_cons.mpr ⟨rfl, ih _⟩
    · rw [if_neg hok]
      exact List.nil_prefix

theorem total_fill (as : List α) (n : Nat) : total (fill ok size as n) = min n ((as.takeWhile ok).map size).sum := by
  induction as generalizing n with
  | nil => exact (Nat.min_zero n).symm
  | cons a as ih =>
    unfold fill
    by_cases hn : n = 0
    · rw [if_pos hn, hn, Nat.zero_min]
      rfl
    rw [if_neg hn]
    by_cases hok : ok a = true
    · rw [if_pos hok, List.takeWhile_cons_of_pos hok, total_cons, ih, List.map_cons, List.sum_cons]
      omega
    · rw [if_neg hok, List.takeWhile_cons_of_neg hok, List.map_nil, List.sum_nil, Nat.min_zero]
      rfl

/-- Each source gives what is still wanted or all it has, and all it has if another source follows. -/
theorem fill_each (hpos : ∀ a ∈ as, 0 < size a) {pre post : List (α × Nat)} {f : α × Nat}
    (h : fill ok size as n = pre ++ f :: post) :
    0 < f.2 ∧ f.2 = min (n - total pre) (size f.1) ∧ (post ≠ [] → f.2 = size f.1) := by
  induction as generalizing n pre with
  | nil => simp [fill] at h
  | cons a as ih =>
    unfold fill at h
    by_cases hn : n = 0
    · simp [hn] at h
    rw [if_neg hn] at h
    by_cases hok : ok a = true
    · rw [if_pos hok] at h
      have ha := hpos a List.mem_cons_self
      cases pre with
      | nil =>
        rw [List.nil_append, List.cons.injEq] at h
        obtain ⟨rfl, hpost⟩ := h
        refine ⟨?_, rfl, fun hne => ?_⟩
        · show 0 < min n (size a)
          omega
        · by_contra hlt
          have hzero : n - min n (size a) = 0 := by
            have : ¬min n (size a) = size a := hlt
            omega
          rw [hzero, fill_zero] at hpost
          exact hne hpost.symm
      | cons g pre =>
        rw [List.cons_append, List.cons.injEq] at h
        obtain ⟨rfl, hrest⟩ := h
        obtain ⟨h₁, h₂, h₃⟩ := ih (fun a' ha' => hpos a' (List.mem_cons_of_mem a ha')) hrest
        refine ⟨h₁, ?_, h₃⟩
        rw [h₂, total_cons, Nat.sub_sub]
    · rw [if_neg hok] at h
      cases pre <;> cases h

theorem takeWhile_eq_filter (h : as.Pairwise fun a b => ok b = true → ok a = true) : as.takeWhile ok = as.filter ok := by
  induction as with
  | nil => rfl
  | cons a as ih =>
    obtain ⟨h₁, h₂⟩ := List.pairwise_cons.mp h
    by_cases hok : ok a = true
    · rw [List.takeWhile_cons_of_pos hok, List.filter_cons_of_pos hok, ih h₂]
    · rw [List.takeWhile_cons_of_neg hok, List.filter_cons_of_neg hok]
      refine (List.filter_eq_nil_iff.mpr fun b hb hokb => hok (h₁ b hb hokb)).symm

end OptiTrade.GreedyFill
