import Mathlib.Tactic.Common

/-! # Finding the partition point of a list

A list on which a predicate holds for a front part and fails for the rest: a linear scan from the
back, a bisection, and a search that looks at a window at the back first. All three find the length
of the front part. -/

namespace OptiTrade.PartitionPoint
set_option autoImplicit false

variable {α : Type*} {p : α → Bool} {xs : List α}

/-- The predicate at a position of the list. -/
def holdsAt (p : α → Bool) (xs : List α) (i : Nat) : Bool := xs[i]?.any p

/-- Steps down from `i` while the element below fails the predicate, to `stop` at most. -/
def scanBack (p : α → Bool) (xs : List α) (stop : Nat) : Nat → Nat
  | 0 => 0
  | i + 1 => if stop < i + 1 ∧ holdsAt p xs i = false then scanBack p xs stop i else i + 1

/-- Halves the interval; the fuel is its length. -/
def bisect (p : α → Bool) (xs : List α) : Nat → Nat → Nat → Nat
  | 0, lo, _ => lo
  | fuel + 1, lo, hi =>
    if lo < hi then
      let mid := lo + (hi - lo) / 2
      if holdsAt p xs mid then bisect p xs fuel (mid + 1) hi else bisect p xs fuel lo mid
    else lo

/-- Scans the last `window` elements, and bisects what is before them if that did not decide. -/
def search (p : α → Bool) (xs : List α) (window : Nat) : Nat :=
  let stop := xs.length - window
  let i := scanBack p xs stop xs.length
  if stop < i ∨ stop = 0 then i else bisect p xs stop 0 stop

/-- Once the predicate fails it fails to the end. -/
def Partitioned (p : α → Bool) (xs : List α) : Prop := ∀ x ∈ xs.dropWhile p, p x = false

theorem Partitioned.of_pairwise (h : xs.Pairwise fun x y => p y = true → p x = true) : Partitioned p xs := by
  induction xs with
  | nil => exact fun x hx => absurd hx List.not_mem_nil
  | cons x xs ih =>
    rw [List.pairwise_cons] at h
    intro y hy
    rw [List.dropWhile_cons] at hy
    split at hy
    · exact ih h.2 y hy
    · rename_i hx
      rcases List.mem_cons.mp hy with rfl | hy
      · simpa using hx
      · by_contra hp
        exact hx (h.1 y hy (by simpa using hp))

theorem holdsAt_iff (h : Partitioned p xs) (i : Nat) : holdsAt p xs i = true ↔ i < (xs.takeWhile p).length := by
  unfold holdsAt
  nth_rewrite 1 [← List.takeWhile_append_dropWhile (p := p) (l := xs)]
  by_cases hi : i < (xs.takeWhile p).length
  · rw [List.getElem?_append_left hi, List.getElem?_eq_getElem hi]
    have hp := List.all_eq_true.mp (List.all_takeWhile (p := p) (l := xs)) _ (List.getElem_mem hi)
    simpa [hi] using hp
  · rw [List.getElem?_append_right (Nat.le_of_not_lt hi)]
    cases hx : (xs.dropWhile p)[i - (xs.takeWhile p).length]? with
    | none => simp [hi]
    | some x => simp [hi, h x (List.mem_of_getElem? hx)]

theorem scanBack_eq (h : Partitioned p xs) {stop i : Nat} (hc : (xs.takeWhile p).length ≤ i) (hs : stop ≤ i) :
    scanBack p xs stop i = max stop (xs.takeWhile p).length := by
  induction i with
  | zero =>
    show 0 = _
    omega
  | succ i ih =>
    have hat := holdsAt_iff h i
    unfold scanBack
    by_cases hgo : stop < i + 1 ∧ holdsAt p xs i = false
    · rw [if_pos hgo]
      rw [hgo.2] at hat
      exact ih (by simpa using hat) (by omega)
    · rw [if_neg hgo]
      by_cases hstop : stop = i + 1
      · omega
      · have : holdsAt p xs i = true := by
          by_contra hf
          exact hgo ⟨by omega, by simpa using hf⟩
        have := hat.mp this
        omega

theorem bisect_eq (h : Partitioned p xs) {fuel lo hi : Nat} (hlo : lo ≤ (xs.takeWhile p).length)
    (hhi : (xs.takeWhile p).length ≤ hi) (hf : hi - lo ≤ fuel) :
    bisect p xs fuel lo hi = (xs.takeWhile p).length := by
  induction fuel generalizing lo hi with
  | zero =>
    show lo = _
    omega
  | succ fuel ih =>
    unfold bisect
    by_cases hlt : lo < hi
    · rw [if_pos hlt]
      dsimp only
      have hat := holdsAt_iff h (lo + (hi - lo) / 2)
      by_cases hm : holdsAt p xs (lo + (hi - lo) / 2) = true
      · rw [if_pos hm]
        exact ih (hat.mp hm) hhi (by omega)
      · rw [if_neg hm]
        rw [hat] at hm
        exact ih hlo (by omega) (by omega)
    · rw [if_neg hlt]
      omega

theorem search_eq (h : Partitioned p xs) (window : Nat) : search p xs window = (xs.takeWhile p).length := by
  have hle : (xs.takeWhile p).length ≤ xs.length := (List.takeWhile_prefix p).length_le
  unfold search
  dsimp only
  rw [scanBack_eq h hle (Nat.sub_le _ _)]
  split_ifs with hfound
  · omega
  · exact bisect_eq h (Nat.zero_le _) (by omega) (by omega)

theorem search_eq_countP (h : Partitioned p xs) (window : Nat) : search p xs window = xs.countP p := by
  have hfront : (xs.takeWhile p).countP p = (xs.takeWhile p).length := by
    rw [List.countP_eq_length]
    exact List.all_eq_true.mp List.all_takeWhile
  have hback : (xs.dropWhile p).countP p = 0 := by
    rw [List.countP_eq_zero]
    intro x hx
    rw [h x hx]
    exact Bool.false_ne_true
  nth_rewrite 2 [← List.takeWhile_append_dropWhile (p := p) (l := xs)]
  rw [List.countP_append, hfront, hback, search_eq h, Nat.add_zero]

theorem take_search (h : Partitioned p xs) (window : Nat) : xs.take (search p xs window) = xs.takeWhile p := by
  rw [search_eq h]
  exact List.prefix_iff_eq_take.mp (List.takeWhile_prefix p) |>.symm

theorem drop_search (h : Partitioned p xs) (window : Nat) : xs.drop (search p xs window) = xs.dropWhile p := by
  have hs := List.take_append_drop (search p xs window) xs
  rw [take_search h] at hs
  have ht := List.takeWhile_append_dropWhile (p := p) (l := xs)
  exact List.append_cancel_left (hs.trans ht.symm)

end OptiTrade.PartitionPoint
