import Mathlib.Algebra.Group.Nat.Defs
import Mathlib.Data.Nat.Log
import Mathlib.Tactic.Common

/-! # Tables of a power of two

A table whose size is a power of two turns a counter into an index by masking. `bitCeil` is the
smallest power of two that holds `n`; within one turn of the table different counters have different
indices, also when the counters themselves wrap at a larger power of two. -/

namespace OptiTrade
set_option autoImplicit false

/-- `std::bit_ceil`. -/
def bitCeil (n : Nat) : Nat := 2 ^ Nat.clog 2 n

theorem le_bitCeil (n : Nat) : n ≤ bitCeil n := Nat.le_pow_clog (by decide) n

theorem and_mask (n k : Nat) : n &&& (2 ^ k - 1) = n % 2 ^ k := Nat.and_two_pow_sub_one_eq_mod n k

theorem eq_of_mod_eq {a b n : Nat} (hab : a ≤ b) (hlt : b < a + n) (h : a % n = b % n) : a = b := by
  have hd : n ∣ b - a := Nat.dvd_of_mod_eq_zero (Nat.sub_mod_eq_zero_of_mod_eq h.symm)
  have : b - a = 0 := Nat.eq_zero_of_dvd_of_lt hd (by omega)
  omega

/-! ## Walking round a table -/

/-- The steps from slot `a` forward to slot `b` in a table of `n`. -/
def gap (n a b : Nat) : Nat := if a ≤ b then b - a else n + b - a

theorem gap_lt {n a b : Nat} (ha : a < n) (hb : b < n) : gap n a b < n := by
  unfold gap
  split_ifs <;> omega

@[simp] theorem gap_self (n a : Nat) : gap n a a = 0 := by
  simp [gap]

theorem eq_of_gap_eq {n a b c : Nat} (ha : a < n) (hb : b < n) (hc : c < n) (h : gap n a b = gap n a c) : b = c := by
  unfold gap at h
  split_ifs at h <;> omega

theorem gap_add {n a b c : Nat} (ha : a < n) (hb : b < n) (hc : c < n) (h : gap n a b ≤ gap n a c) :
    gap n a c = gap n a b + gap n b c := by
  unfold gap at *
  split_ifs at * <;> omega

theorem gap_append {n a b c : Nat} (ha : a < n) (hb : b < n) (hc : c < n) (h : gap n a b + gap n b c < n) :
    gap n a c = gap n a b + gap n b c := by
  unfold gap at *
  split_ifs at * <;> omega

theorem and_mask_succ {i k : Nat} (hi : i < 2 ^ k) :
    (i + 1) &&& (2 ^ k - 1) = if i + 1 = 2 ^ k then 0 else i + 1 := by
  rw [and_mask]
  split_ifs with h
  · rw [h, Nat.mod_self]
  · exact Nat.mod_eq_of_lt (by omega)

end OptiTrade
