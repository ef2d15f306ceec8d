import Mathlib.Data.List.Induction
import Mathlib.Data.List.Sort
import Mathlib.Order.Lattice

/-! # Sliding windows over a log of times

A log is a list of times in the order they were written. When it is sorted, whether fewer than `n` entries are still
inside of a window can be read off one entry, the `n`-th from the end. -/

namespace OptiTrade.Window
set_option autoImplicit false

/-! ## Running maximum -/

section
variable {α : Type*} [LinearOrder α]

/-- Each entry at the largest value so far. -/
def runningMax : α → List α → List α
  | _, [] => []
  | m, t :: ts => max m t :: runningMax (max m t) ts

theorem runningMax_snoc (m : α) (ts : List α) (t : α) :
    runningMax m (ts ++ [t]) = runningMax m ts ++ [max ((runningMax m ts).getLastD m) t] := by
  induction ts generalizing m with
  | nil => rfl
  | cons a ts ih =>
    rw [List.cons_append, runningMax, runningMax, ih, List.cons_append, List.getLastD_cons]

@[simp] theorem length_runningMax (m : α) (ts : List α) : (runningMax m ts).length = ts.length := by
  induction ts generalizing m with
  | nil => rfl
  | cons a ts ih => simp [runningMax, ih]

theorem le_of_mem_runningMax {m : α} {ts : List α} {t : α} (h : t ∈ runningMax m ts) : m ≤ t := by
  induction ts generalizing m with
  | nil => exact absurd h List.not_mem_nil
  | cons a ts ih =>
    rcases List.mem_cons.mp h with rfl | h
    · exact le_max_left m a
    · exact (le_max_left m a).trans (ih h)

theorem runningMax_sorted (m : α) (ts : List α) : (runningMax m ts).Pairwise (· ≤ ·) := by
  induction ts generalizing m with
  | nil => exact .nil
  | cons a ts ih => exact .cons (fun t ht => le_of_mem_runningMax ht) (ih _)

theorem runningMax_eq_self {m : α} {ts : List α} (hs : ts.Pairwise (· ≤ ·)) (hm : ∀ t ∈ ts, m ≤ t) : runningMax m ts = ts := by
  induction ts generalizing m with
  | nil => rfl
  | cons a ts ih =>
    have ha : max m a = a := max_eq_right (hm a List.mem_cons_self)
    rw [runningMax, ha, ih (List.pairwise_cons.mp hs).2 (List.pairwise_cons.mp hs).1]

/-! ## Counting in a sorted list -/

variable {xs : List α} {p : α → Bool} (hs : xs.Pairwise (· ≤ ·)) (hp : ∀ a b, a ≤ b → p a = true → p b = true)
include hs hp

/-- From an entry that does not count, only the later ones can. -/
theorem countP_le {k : Nat} {a : α} (hk : xs[k]? = some a) (ha : p a = false) : xs.countP p + k + 1 ≤ xs.length := by
  induction xs generalizing k with
  | nil => exact absurd hk (by simp)
  | cons x xs ih =>
    obtain ⟨hx, hs'⟩ := List.pairwise_cons.mp hs
    cases k with
    | zero =>
      obtain rfl : x = a := Option.some.inj hk
      have := List.countP_le_length (p := p) (l := xs)
      rw [List.countP_cons_of_neg (by simp [ha]), List.length_cons]
      omega
    | succ k =>
      have hk' : xs[k]? = some a := hk
      have hle : x ≤ a := hx a (List.mem_of_getElem? hk')
      have hpx : ¬p x = true := fun h => by
        rw [hp x a hle h] at ha
        exact absurd ha (by simp)
      have := ih hs' hk'
      rw [List.countP_cons_of_neg hpx, List.length_cons]
      omega

theorem le_countP {k : Nat} {a : α} (hk : xs[k]? = some a) (ha : p a = true) : xs.length ≤ xs.countP p + k := by
  induction xs generalizing k with
  | nil => exact Nat.zero_le _
  | cons x xs ih =>
    obtain ⟨hx, hs'⟩ := List.pairwise_cons.mp hs
    cases k with
    | zero =>
      obtain rfl : x = a := Option.some.inj hk
      have hall : xs.countP p = xs.length := List.countP_eq_length.mpr fun b hb => hp x b (hx b hb) ha
      rw [List.countP_cons_of_pos ha, List.length_cons]
      omega
    | succ k =>
      have hk' : xs[k]? = some a := hk
      have := ih hs' hk'
      rw [List.length_cons]
      have hcons : xs.countP p ≤ (x :: xs).countP p := (List.sublist_cons_self x xs).countP_le
      omega

end

/-! ## Room in the window -/

variable {n w : Nat} {log : List Nat}

/-- Fewer than `n` entries, or the `n`-th from the end is `w` old. -/
def HasRoom (n w : Nat) (log : List Nat) (now : Nat) : Prop :=
  log.length < n ∨ ∃ t, log[log.length - n]? = some t ∧ t + w ≤ now

theorem hasRoom_iff (hn : 0 < n) (hs : log.Pairwise (· ≤ ·)) (now : Nat) :
    HasRoom n w log now ↔ log.countP (fun t => now < t + w) < n := by
  have hp : ∀ a b : Nat, a ≤ b → decide (now < a + w) = true → decide (now < b + w) = true := by
    intro a b hab ha
    simp only [decide_eq_true_eq] at ha ⊢
    omega
  by_cases hlen : log.length < n
  · have := List.countP_le_length (p := fun t => decide (now < t + w)) (l := log)
    exact ⟨fun _ => by omega, fun _ => .inl hlen⟩
  · have hk : log.length - n < log.length := by omega
    have hget := List.getElem?_eq_getElem hk
    constructor
    · rintro (h | ⟨t, ht, hold⟩)
      · exact absurd h hlen
      · have := countP_le hs hp ht (decide_eq_false (by omega))
        omega
    · intro hcount
      refine .inr ⟨_, hget, ?_⟩
      by_contra hnew
      have := le_countP hs hp hget (decide_eq_true (by omega))
      omega

/-- The marked entries were written when there was room, at some time not after the one they carry. -/
def Marked (n w : Nat) (log : List (Nat × Bool)) : Prop :=
  ∀ before t rest, log = before ++ (t, true) :: rest → ∃ now, now ≤ t ∧ HasRoom n w (before.map Prod.fst) now

theorem Marked.init {log : List (Nat × Bool)} {e : Nat × Bool} (h : Marked n w (log ++ [e])) : Marked n w log := by
  intro before t rest he
  exact h before t (rest ++ [e]) (by rw [he]; simp)

theorem Marked.snoc {log : List (Nat × Bool)} {e : Nat × Bool} (h : Marked n w log)
    (he : e.2 = true → ∃ now, now ≤ e.1 ∧ HasRoom n w (log.map Prod.fst) now) : Marked n w (log ++ [e]) := by
  intro before t rest hsplit
  rcases List.eq_nil_or_concat rest with rfl | ⟨rest, last, rfl⟩
  · obtain ⟨rfl, hlast⟩ := List.append_inj' hsplit rfl
    obtain rfl : e = (t, true) := List.singleton_injective hlast
    exact he rfl
  · refine h before t rest ?_
    rw [List.concat_eq_append, ← List.cons_append, ← List.append_assoc] at hsplit
    exact (List.append_inj' hsplit rfl).1

/-- **No window holds more than `n` marked entries.** -/
theorem window_bound (hn : 0 < n) {log : List (Nat × Bool)} (hs : (log.map Prod.fst).Pairwise (· ≤ ·)) (h : Marked n w log)
    (u : Nat) : log.countP (fun e => e.2 && decide (u ≤ e.1 ∧ e.1 < u + w)) ≤ n := by
  induction log using List.reverseRecOn with
  | nil => exact Nat.zero_le _
  | append_singleton log e ih =>
    rw [List.map_append, List.pairwise_append] at hs
    have hrest := ih hs.1 h.init
    rw [List.countP_append, List.countP_singleton]
    by_cases he : (e.2 && decide (u ≤ e.1 ∧ e.1 < u + w)) = true
    · rw [if_pos he]
      simp only [Bool.and_eq_true, decide_eq_true_eq] at he
      obtain ⟨hmark, hlo, hhi⟩ := he
      obtain ⟨now, hnow, hroom⟩ := h log e.1 [] (by rw [← hmark])
      -- what is counted before lies in the window that ends now
      have hsub : log.countP (fun e => e.2 && decide (u ≤ e.1 ∧ e.1 < u + w)) ≤
          (log.map Prod.fst).countP (fun t => now < t + w) := by
        rw [List.countP_map]
        refine List.countP_mono_left fun a _ ha => ?_
        simp only [Function.comp, Bool.and_eq_true, decide_eq_true_eq] at ha ⊢
        omega
      have := (hasRoom_iff hn hs.1 now).mp hroom
      omega
    · rw [if_neg he]
      exact hrest

end OptiTrade.Window
