import Mathlib.Data.List.TakeWhile
import OptiTrade.Synthetic.Market

/-! # The names of the symbols

A name is read back digit by digit, so different symbols have different names. -/

namespace OptiTrade.Synthetic
set_option autoImplicit false

theorem digits_lt (places v : Nat) : ∀ d ∈ digits places v, d < 10 := by
  induction places generalizing v with
  | zero => exact fun d hd => absurd hd List.not_mem_nil
  | succ places ih =>
    intro d hd
    unfold digits at hd
    rcases List.mem_cons.mp hd with rfl | hd
    · exact Nat.mod_lt v (by decide)
    · split_ifs at hd
      · exact absurd hd List.not_mem_nil
      · exact ih _ d hd

theorem length_digits_le (places v : Nat) : (digits places v).length ≤ places := by
  induction places generalizing v with
  | zero => exact le_refl 0
  | succ places ih =>
    unfold digits
    rw [List.length_cons]
    split_ifs
    · exact Nat.succ_le_succ (Nat.zero_le _)
    · exact Nat.succ_le_succ (ih _)

theorem value_digits {places v : Nat} (hv : v < 10 ^ places) : (digits places v).foldr (fun d n => 10 * n + d) 0 = v := by
  induction places generalizing v with
  | zero =>
    obtain rfl : v = 0 := by omega
    rfl
  | succ places ih =>
    unfold digits
    rw [List.foldr_cons]
    split_ifs with hz
    · rw [List.foldr_nil]
      omega
    · rw [ih (by rw [pow_succ] at hv; omega)]
      omega

/-- The number that follows the first three characters of a name. -/
def numberOf (chars : List Byte) : Nat :=
  ((chars.drop 3).takeWhile fun c => c != ascii ' ').foldl (fun n c => 10 * n + (c.toNat - 48)) 0

theorem digit_byte : ∀ d < 10, UInt8.ofNat (48 + d) ≠ ascii ' ' ∧ (UInt8.ofNat (48 + d)).toNat - 48 = d := by decide

theorem foldl_digits (ds : List Nat) (h : ∀ d ∈ ds, d < 10) (n : Nat) :
    (ds.map fun d => UInt8.ofNat (48 + d)).foldl (fun n (c : Byte) => 10 * n + (c.toNat - 48)) n =
      ds.foldl (fun n d => 10 * n + d) n := by
  induction ds generalizing n with
  | nil => rfl
  | cons d ds ih =>
    rw [List.map_cons, List.foldl_cons, List.foldl_cons, (digit_byte d (h d List.mem_cons_self)).2]
    exact ih (fun d hd => h d (List.mem_cons_of_mem _ hd)) _

/-- **A name says its number.** -/
theorem numberOf_makeSymbol {i : Nat} (hi : i < 100000) : numberOf (makeSymbol i).chars = i := by
  have hlen := length_digits_le 5 i
  have hdigits : ∀ d ∈ (digits 5 i).reverse, d < 10 := fun d hd => digits_lt 5 i d (List.mem_reverse.mp hd)
  let zeros := List.replicate (2 - (digits 5 i).length) (ascii '0')
  let text := [ascii 'S', ascii 'Y', ascii 'M'] ++ zeros ++ (digits 5 i).reverse.map fun d => UInt8.ofNat (48 + d)
  have htext : text.length ≤ 8 := by
    simp only [text, zeros, List.length_append, List.length_replicate, List.length_map, List.length_reverse,
      List.length_cons, List.length_nil]
    omega
  have hchars : (makeSymbol i).chars = text ++ List.replicate (8 - text.length) (ascii ' ') := by
    show text.take 8 ++ _ = _
    rw [List.take_of_length_le htext]
  have hdrop : (makeSymbol i).chars.drop 3 = (zeros ++ (digits 5 i).reverse.map fun d => UInt8.ofNat (48 + d)) ++
      List.replicate (8 - text.length) (ascii ' ') := by
    rw [hchars]
    simp only [text, List.append_assoc]
    rfl
  have hno : ∀ c ∈ zeros ++ (digits 5 i).reverse.map fun d => UInt8.ofNat (48 + d), (c != ascii ' ') = true := by
    intro c hc
    rw [bne_iff_ne]
    rcases List.mem_append.mp hc with hc | hc
    · rw [List.eq_of_mem_replicate hc]
      decide
    · obtain ⟨d, hd, rfl⟩ := List.mem_map.mp hc
      exact (digit_byte d (hdigits d hd)).1
  have hspaces : (List.replicate (8 - text.length) (ascii ' ')).takeWhile (fun c => c != ascii ' ') = [] := by
    cases 8 - text.length with
    | zero => rfl
    | succ k => rfl
  have hzeros : ∀ k : Nat, (List.replicate k (ascii '0')).foldl (fun n (c : Byte) => 10 * n + (c.toNat - 48)) 0 = 0 := by
    intro k
    induction k with
    | zero => rfl
    | succ k ih => exact ih
  unfold numberOf
  rw [hdrop, List.takeWhile_append_of_pos hno, hspaces, List.append_nil, List.foldl_append, hzeros,
    foldl_digits _ hdigits, List.foldl_reverse]
  exact value_digits hi

theorem makeSymbol_injective {i j : Nat} (hi : i < 100000) (hj : j < 100000) (h : makeSymbol i = makeSymbol j) : i = j := by
  rw [← numberOf_makeSymbol hi, h, numberOf_makeSymbol hj]

theorem makeSymbol_isEmpty (i : Nat) : (makeSymbol i).isEmpty = false := by
  have hmem : ascii 'S' ∈ (makeSymbol i).chars := by
    unfold makeSymbol Symbol.ofText
    dsimp only
    rw [List.append_assoc, List.cons_append, List.take_succ_cons]
    exact List.mem_cons_self
  unfold Symbol.isEmpty Symbol.view
  rw [List.isEmpty_eq_false_iff, ne_eq, List.reverse_eq_nil_iff, List.dropWhile_eq_nil_iff]
  intro h
  have := h _ (List.mem_reverse.mpr hmem)
  revert this
  decide

end OptiTrade.Synthetic
