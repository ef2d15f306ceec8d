import Mathlib.Data.List.Nodup
import Mathlib.Data.List.Perm.Basic
import Mathlib.Tactic.Common

/-! # Lists as small arrays without an order

An element is removed by moving the last one into its slot; the first element in some order is found by one
scan. What the array holds is known up to the order of its slots. -/

namespace OptiTrade.SwapRemoval
set_option autoImplicit false

variable {α : Type*} {xs : List α} {x y : α} {i : Nat}

/-- The last element takes the slot of the `i`th. -/
def removeAt (xs : List α) (i : Nat) : List α :=
  match xs.getLast? with
  | none => []
  | some z => (xs.set i z).dropLast

theorem perm_set (h : xs[i]? = some x) (y : α) : (xs.set i y).Perm (y :: xs.eraseIdx i) := by
  obtain ⟨hi, rfl⟩ := List.getElem?_eq_some_iff.mp h
  have hi' : i < (xs.set i y).length := by rwa [List.length_set]
  have hperm := (List.getElem_cons_eraseIdx_perm hi').symm
  rwa [List.getElem_set_self, List.eraseIdx_set_eq] at hperm

theorem perm_eraseIdx (h : xs[i]? = some x) : xs.Perm (x :: xs.eraseIdx i) := by
  obtain ⟨hi, rfl⟩ := List.getElem?_eq_some_iff.mp h
  exact (List.getElem_cons_eraseIdx_perm hi).symm

/-- **Removal.** All elements but the `i`th are left. -/
theorem perm_removeAt (h : xs[i]? = some x) : xs.Perm (x :: removeAt xs i) := by
  obtain ⟨hi, hx⟩ := List.getElem?_eq_some_iff.mp h
  have hne : xs ≠ [] := List.ne_nil_of_length_pos (Nat.zero_lt_of_lt hi)
  unfold removeAt
  rw [List.getLast?_eq_some_getLast hne]
  dsimp only
  have hsplit := List.dropLast_append_getLast hne
  by_cases hlast : i < xs.dropLast.length
  · -- the last element moves, the others keep their slots
    have hset : (xs.set i (xs.getLast hne)).dropLast = xs.dropLast.set i (xs.getLast hne) := by
      nth_rewrite 1 [← hsplit]
      rw [List.set_append_left _ _ hlast, List.dropLast_concat]
    have hget : xs.dropLast[i]? = some x := by
      rw [← h]
      nth_rewrite 2 [← hsplit]
      rw [List.getElem?_append_left hlast]
    rw [hset]
    calc xs = xs.dropLast ++ [xs.getLast hne] := hsplit.symm
      _ |>.Perm (xs.getLast hne :: xs.dropLast) := List.perm_append_singleton _ _
      _ |>.Perm (xs.getLast hne :: x :: xs.dropLast.eraseIdx i) := (perm_eraseIdx hget).cons _
      _ |>.Perm (x :: xs.getLast hne :: xs.dropLast.eraseIdx i) := List.Perm.swap _ _ _
      _ |>.Perm (x :: xs.dropLast.set i (xs.getLast hne)) := ((perm_set hget _).symm).cons _
  · have hlen : xs.dropLast.length = xs.length - 1 := List.length_dropLast
    obtain rfl : i = xs.length - 1 := by omega
    have hxl : xs.getLast hne = x := by rw [List.getLast_eq_getElem, hx]
    rw [hxl]
    have hset : xs.set (xs.length - 1) x = xs := by
      have hself := List.set_getElem_self hi
      rwa [hx] at hself
    rw [hset]
    calc xs = xs.dropLast ++ [x] := by rw [← hxl, hsplit]
      _ |>.Perm (x :: xs.dropLast) := List.perm_append_singleton _ _

theorem length_removeAt (h : xs[i]? = some x) : (removeAt xs i).length + 1 = xs.length := (perm_removeAt h).length_eq.symm

/-! ## Arrays side by side -/

/-- The elements of one array among all of them. -/
theorem perm_flatMap {κ : Type*} [DecidableEq κ] {ks : List κ} {k : κ} (hk : k ∈ ks) (hnd : ks.Nodup) (f : κ → List α) :
    (ks.flatMap f).Perm (f k ++ ks.flatMap (Function.update f k [])) := by
  have hsame : ∀ js : List κ, k ∉ js → js.flatMap (Function.update f k []) = js.flatMap f := by
    intro js hjs
    refine List.flatMap_congr fun j hj => ?_
    have hne : j ≠ k := by
      rintro rfl
      exact hjs hj
    rw [Function.update_of_ne hne]
  induction ks with
  | nil => cases hk
  | cons j ks ih =>
    obtain ⟨hj, hnd⟩ := List.nodup_cons.mp hnd
    rw [List.flatMap_cons, List.flatMap_cons]
    rcases List.mem_cons.mp hk with rfl | hk
    · rw [hsame ks hj, Function.update_self]
      exact List.Perm.refl _
    · have hne : j ≠ k := by
        rintro rfl
        exact hj hk
      rw [Function.update_of_ne hne]
      calc f j ++ ks.flatMap f
        _ |>.Perm (f j ++ (f k ++ ks.flatMap (Function.update f k []))) := (ih hk hnd).append_left _
        _ |>.Perm (f k ++ (f j ++ ks.flatMap (Function.update f k []))) := by
          rw [← List.append_assoc, ← List.append_assoc]
          exact List.perm_append_comm.append_right _

/-! ## The scan -/

/-- The scan from slot `i` on, with the first element so far. -/
def scan (before : α → α → Bool) : List α → Nat → Option (Nat × α) → Option (Nat × α)
  | [], _, best => best
  | x :: xs, i, none => scan before xs (i + 1) (some (i, x))
  | x :: xs, i, some b => scan before xs (i + 1) (if before x b.2 then some (i, x) else some b)

/-- The slot of the first element of an array, and the element. -/
def first (before : α → α → Bool) (xs : List α) : Option (Nat × α) := scan before xs 0 none

variable {before : α → α → Bool}

theorem scan_isSome (xs : List α) (i : Nat) (b : Nat × α) : (scan before xs i (some b)).isSome = true := by
  induction xs generalizing i b with
  | nil => rfl
  | cons x xs ih =>
    unfold scan
    split
    · exact ih _ _
    · exact ih _ _

theorem first_eq_none : first before xs = none ↔ xs = [] := by
  cases xs with
  | nil => exact ⟨fun _ => rfl, fun _ => rfl⟩
  | cons x xs =>
    have hsome : (scan before xs 1 (some (0, x))).isSome = true := scan_isSome xs 1 (0, x)
    refine ⟨fun h => ?_, fun h => absurd h (List.cons_ne_nil x xs)⟩
    have h : scan before xs 1 (some (0, x)) = none := h
    rw [h] at hsome
    cases hsome

/-- The scan keeps an element of the array that nothing seen so far comes before. -/
theorem scan_first (hirrefl : ∀ a, before a a = false)
    (htrans : ∀ a b c, before a b = true → before b c = true → before a c = true) {seen rest : List α} {b r : Nat × α}
    (hb : seen[b.1]? = some b.2) (hseen : ∀ y ∈ seen, before y b.2 = false)
    (h : scan before rest seen.length (some b) = some r) :
    (seen ++ rest)[r.1]? = some r.2 ∧ ∀ y ∈ seen ++ rest, before y r.2 = false := by
  induction rest generalizing seen b with
  | nil =>
    cases h
    rw [List.append_nil]
    exact ⟨hb, hseen⟩
  | cons x rest ih =>
    unfold scan at h
    rw [List.append_cons]
    have hkeep : (seen ++ [x]).length = seen.length + 1 := List.length_append
    rw [← hkeep] at h
    by_cases hx : before x b.2 = true
    · rw [if_pos hx] at h
      refine ih (List.getElem?_concat_length) (fun y hy => ?_) h
      rw [List.mem_append, List.mem_singleton] at hy
      rcases hy with hy | rfl
      · -- otherwise it would come before the one it was compared with
        by_contra hyx
        have hyb := htrans y x b.2 (by simpa using hyx) hx
        rw [hseen y hy] at hyb
        cases hyb
      · exact hirrefl y
    · rw [if_neg hx] at h
      obtain ⟨hlt, -⟩ := List.getElem?_eq_some_iff.mp hb
      refine ih ((List.getElem?_append_left hlt).trans hb) (fun y hy => ?_) h
      rw [List.mem_append, List.mem_singleton] at hy
      rcases hy with hy | rfl
      · exact hseen y hy
      · simpa using hx

/-- **The scan.** It finds an element that none comes before. -/
theorem first_some (hirrefl : ∀ a, before a a = false)
    (htrans : ∀ a b c, before a b = true → before b c = true → before a c = true) (h : first before xs = some (i, x)) :
    xs[i]? = some x ∧ ∀ y ∈ xs, before y x = false := by
  cases xs with
  | nil => cases h
  | cons z xs =>
    have hz : ∀ y ∈ [z], before y z = false := by
      intro y hy
      rw [List.mem_singleton.mp hy]
      exact hirrefl z
    have hfirst : [z][(0, z).1]? = some (0, z).2 := rfl
    exact scan_first hirrefl htrans hfirst hz h

end OptiTrade.SwapRemoval
