import Mathlib.Algebra.BigOperators.Ring.Finset
import Mathlib.Algebra.Order.BigOperators.Group.Finset
import Mathlib.Order.Interval.Finset.Nat

/-! # Scaling a draw by multiplication

A draw `x` below `size` is scaled to `x * n / size`, below `n`. Every result would be equally likely if
`n` divided `size`; in general the draws whose remainder `x * n % size` is below `size % n` are turned
down, and of the others exactly `size / n` give each result. -/

namespace OptiTrade.MultiplyShift
set_option autoImplicit false

variable {size n v x : Nat}

/-- The first draw that is kept and gives `v`. -/
def first (size n v : Nat) : Nat := (v * size + size % n + n - 1) / n

theorem first_le_iff (hn : 0 < n) : first size n v ≤ x ↔ v * size + size % n ≤ x * n := by
  unfold first
  rw [Nat.div_le_iff_le_mul_add_pred hn, Nat.mul_comm n x]
  omega

theorem lt_first_add_iff (hn : 0 < n) : x < first size n v + size / n ↔ x * n < v * size + size := by
  have hsplit : n * (size / n) + size % n = size := Nat.div_add_mod size n
  have hceil : first size n v + size / n = (v * size + size + n - 1) / n := by
    unfold first
    rw [← Nat.add_mul_div_left _ _ hn]
    congr 1
    omega
  rw [hceil, ← Nat.not_le, ← Nat.not_le, not_iff_not, Nat.div_le_iff_le_mul_add_pred hn,
    Nat.mul_comm n x]
  omega

/-- **The draws that are kept and give `v`** are an interval of `size / n` draws. -/
theorem kept_iff (hn : 0 < n) (hs : 0 < size) :
    x * n / size = v ∧ size % n ≤ x * n % size ↔ first size n v ≤ x ∧ x < first size n v + size / n := by
  rw [first_le_iff hn, lt_first_add_iff hn]
  have hsplit : size * (x * n / size) + x * n % size = x * n := Nat.div_add_mod (x * n) size
  have hlt : x * n % size < size := Nat.mod_lt _ hs
  constructor
  · rintro ⟨rfl, hr⟩
    rw [Nat.mul_comm] at hsplit
    omega
  · rintro ⟨hlo, hhi⟩
    have hdiv : x * n / size = v := by
      refine Nat.div_eq_of_lt_le ?_ ?_
      · omega
      · rw [Nat.succ_mul]
        omega
    refine ⟨hdiv, ?_⟩
    rw [hdiv, Nat.mul_comm] at hsplit
    omega

theorem scaled_lt (hs : 0 < size) (hx : x < size) (hn : 0 < n) : x * n / size < n := by
  rw [Nat.div_lt_iff_lt_mul hs, Nat.mul_comm n size]
  exact Nat.mul_lt_mul_of_pos_right hx hn

theorem lt_size_of_kept (hn : 0 < n) (hv : v < n) (hx : x < first size n v + size / n) : x < size := by
  have hlt := (lt_first_add_iff hn).mp hx
  have hle : v * size + size ≤ size * n := by
    rw [← Nat.succ_mul, Nat.mul_comm size]
    exact Nat.mul_le_mul_right _ hv
  exact Nat.lt_of_mul_lt_mul_right (hlt.trans_le hle)

/-- The draws that are kept. -/
def kept (size n : Nat) : Finset Nat := (Finset.range size).filter fun x => size % n ≤ x * n % size

theorem filter_kept (hn : 0 < n) (hs : 0 < size) (hv : v < n) :
    (kept size n).filter (fun x => x * n / size = v) = Finset.Ico (first size n v) (first size n v + size / n) := by
  ext x
  rw [Finset.mem_filter, kept, Finset.mem_filter, Finset.mem_range, Finset.mem_Ico, and_assoc, and_comm (b := _ = v),
    kept_iff hn hs]
  exact ⟨fun h => h.2, fun h => ⟨lt_size_of_kept hn hv h.2, h⟩⟩

theorem card_kept (hn : 0 < n) (hs : 0 < size) : (kept size n).card = n * (size / n) := by
  have hmaps : ∀ x ∈ kept size n, x * n / size ∈ Finset.range n := by
    intro x hx
    have hlt := Finset.mem_range.mp (Finset.mem_filter.mp hx).1
    exact Finset.mem_range.mpr (scaled_lt hs hlt hn)
  have hfibre : ∀ v ∈ Finset.range n, ((kept size n).filter fun x => x * n / size = v).card = size / n := by
    intro v hv
    rw [filter_kept hn hs (Finset.mem_range.mp hv), Nat.card_Ico, Nat.add_sub_cancel_left]
  rw [Finset.card_eq_sum_card_fiberwise hmaps, Finset.sum_const_nat hfibre, Finset.card_range]

theorem size_le_two_mul_card_kept (hn : 0 < n) (hle : n ≤ size) : size ≤ 2 * (kept size n).card := by
  have hs : 0 < size := hn.trans_le hle
  have hsplit : n * (size / n) + size % n = size := Nat.div_add_mod size n
  have hmod : size % n < n := Nat.mod_lt _ hn
  have hone : n ≤ n * (size / n) := Nat.le_mul_of_pos_right n (Nat.div_pos hle hn)
  rw [card_kept hn hs]
  omega

end OptiTrade.MultiplyShift
