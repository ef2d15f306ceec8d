import Mathlib.Algebra.Order.Field.Rat
import Mathlib.Data.Int.Cast.Lemmas
import Mathlib.Data.Rat.Cast.Order
import Mathlib.Tactic.FieldSimp
import Mathlib.Tactic.Linarith
import Mathlib.Tactic.Ring

/-! # Exponential averages

An average moves towards each sample by the `2 ^ k`th part of its distance. `exact` is the average of rational
numbers; `rounded` stays in the integers by rounding every step down. Since a step takes the old error with it only
in part, the errors of all steps together stay below `2 ^ k`. -/

namespace OptiTrade.MovingAverage
set_option autoImplicit false

/-- One sample. -/
def exactStep (k : Nat) (x s : ℚ) : ℚ := x + (s - x) / 2 ^ k

/-- One step of the average, rounded down. -/
def roundedStep (k : Nat) (e s : Int) : Int := e + (s - e) / 2 ^ k

/-- The first sample seeds the average. -/
def exact (k : Nat) : List ℚ → ℚ
  | [] => 0
  | x :: xs => xs.foldl (exactStep k) x

/-- The rounded average of a list, started at its first element. -/
def rounded (k : Nat) : List Int → Int
  | [] => 0
  | x :: xs => xs.foldl (roundedStep k) x

/-- `e` is not above `x`, and below it by no more than `2 ^ k - 1`. -/
structure Tracks (k : Nat) (e : Int) (x : ℚ) : Prop where
  le : (e : ℚ) ≤ x
  error : x - e ≤ 2 ^ k - 1

variable {k : Nat}

theorem Tracks.seed (k : Nat) (s : Int) : Tracks k s s := by
  refine ⟨le_refl _, ?_⟩
  have h : (1 : ℚ) ≤ 2 ^ k := one_le_pow₀ (by norm_num)
  linarith

/-- The error shrinks by the `2 ^ k`th part before the rounding adds to it. -/
theorem Tracks.step {e s : Int} {x : ℚ} (h : Tracks k e x) : Tracks k (roundedStep k e s) (exactStep k x s) := by
  have hk : (1 : ℚ) ≤ 2 ^ k := one_le_pow₀ (by norm_num)
  have hpos : (0 : ℚ) < 2 ^ k := by linarith
  have hposz : (0 : Int) < 2 ^ k := by positivity
  obtain ⟨hle, herr⟩ := h
  -- the part that the rounding drops
  have hdiv := Int.mul_ediv_add_emod (s - e) (2 ^ k)
  have hr₀ := Int.emod_nonneg (s - e) hposz.ne'
  have hr₁ : (s - e) % 2 ^ k + 1 ≤ 2 ^ k := Int.emod_lt_of_pos _ hposz
  unfold roundedStep exactStep
  generalize (s - e) / 2 ^ k = q at hdiv ⊢
  generalize (s - e) % 2 ^ k = r at hdiv hr₀ hr₁
  have hdivq : (2 : ℚ) ^ k * q + r = s - e := by exact_mod_cast hdiv
  have hr₀q : (0 : ℚ) ≤ r := by exact_mod_cast hr₀
  have hr₁q : (r : ℚ) + 1 ≤ 2 ^ k := by exact_mod_cast hr₁
  have herror : x + (s - x) / 2 ^ k - ((e + q : Int) : ℚ) = ((2 ^ k - 1) * (x - e) + r) / 2 ^ k := by
    push_cast
    field_simp
    linarith
  constructor
  · have : 0 ≤ ((2 ^ k - 1) * (x - e) + r) / (2 : ℚ) ^ k :=
      div_nonneg (add_nonneg (mul_nonneg (by linarith) (by linarith)) hr₀q) hpos.le
    linarith
  · rw [herror, div_le_iff₀ hpos]
    nlinarith

theorem Tracks.foldl {e : Int} {x : ℚ} (h : Tracks k e x) (ss : List Int) :
    Tracks k (ss.foldl (roundedStep k) e) ((ss.map Int.cast).foldl (exactStep k) x) := by
  induction ss generalizing e x with
  | nil => exact h
  | cons s ss ih => exact ih h.step

/-- **The error of a run of any length.** -/
theorem rounded_tracks {ss : List Int} (h : ss ≠ []) : Tracks k (rounded k ss) (exact k (ss.map Int.cast)) := by
  cases ss with
  | nil => exact absurd rfl h
  | cons s ss => exact (Tracks.seed k s).foldl ss

theorem exact_map_mul (c : ℚ) (xs : List ℚ) : exact k (xs.map (c * ·)) = c * exact k xs := by
  have hstep : ∀ x s, exactStep k (c * x) (c * s) = c * exactStep k x s := by
    intro x s
    unfold exactStep
    ring
  have hfold : ∀ (xs : List ℚ) (x : ℚ), (xs.map (c * ·)).foldl (exactStep k) (c * x) = c * xs.foldl (exactStep k) x := by
    intro xs
    induction xs with
    | nil => exact fun x => rfl
    | cons s xs ih =>
      intro x
      rw [List.map_cons, List.foldl_cons, List.foldl_cons, hstep, ih]
  cases xs with
  | nil => exact (mul_zero c).symm
  | cons x xs => exact hfold xs x

theorem roundedStep_between {e s lo hi : Int} (he₁ : lo ≤ e) (he₂ : e ≤ hi) (hs₁ : lo ≤ s) (hs₂ : s ≤ hi) :
    lo ≤ roundedStep k e s ∧ roundedStep k e s ≤ hi := by
  have hpos : (0 : Int) < 2 ^ k := by positivity
  unfold roundedStep
  rcases le_total e s with h | h
  · have h₁ : 0 ≤ (s - e) / 2 ^ k := Int.ediv_nonneg (by omega) hpos.le
    have h₂ : (s - e) / 2 ^ k ≤ s - e := Int.ediv_le_self _ (by omega)
    omega
  · have h₁ : s - e ≤ (s - e) / 2 ^ k := by
      rw [Int.le_ediv_iff_mul_le hpos]
      nlinarith [hpos]
    have h₂ : (s - e) / 2 ^ k ≤ 0 := Int.ediv_nonpos_of_nonpos_of_neg (by omega) (by omega)
    omega

theorem foldl_between {lo hi : Int} (ss : List Int) (hss : ∀ s ∈ ss, lo ≤ s ∧ s ≤ hi) {e : Int} (he : lo ≤ e ∧ e ≤ hi) :
    lo ≤ ss.foldl (roundedStep k) e ∧ ss.foldl (roundedStep k) e ≤ hi := by
  induction ss generalizing e with
  | nil => exact he
  | cons s ss ih =>
    obtain ⟨h₁, h₂⟩ := hss s List.mem_cons_self
    exact ih (fun s' hs' => hss s' (List.mem_cons_of_mem s hs')) (roundedStep_between he.1 he.2 h₁ h₂)

theorem rounded_between {ss : List Int} (h : ss ≠ []) {lo hi : Int} (hss : ∀ s ∈ ss, lo ≤ s ∧ s ≤ hi) :
    lo ≤ rounded k ss ∧ rounded k ss ≤ hi := by
  cases ss with
  | nil => exact absurd rfl h
  | cons s ss => exact foldl_between ss (fun s' hs' => hss s' (List.mem_cons_of_mem s hs')) (hss s List.mem_cons_self)

theorem rounded_concat {ss : List Int} (h : ss ≠ []) (s : Int) :
    rounded k (ss ++ [s]) = roundedStep k (rounded k ss) s := by
  cases ss with
  | nil => exact absurd rfl h
  | cons x ss =>
    show (ss ++ [s]).foldl (roundedStep k) x = _
    rw [List.foldl_append]
    rfl

end OptiTrade.MovingAverage
