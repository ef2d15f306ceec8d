import Mathlib.Dynamics.PeriodicPts.Lemmas

/-! # Maps of words that lose nothing

The steps that mixing functions and shift-register generators are made of: a word combined with itself
shifted, a word times a unit, a word rotated. Each can be undone, bit by bit or by the inverse of the unit,
so none takes two words to one. -/

namespace OptiTrade.WordMaps
set_option autoImplicit false

variable {w k : Nat}

/-! ## A word and its own shift -/

/-- The bits are recovered from the highest down. -/
theorem xor_ushiftRight_injective (hk : 0 < k) : Function.Injective fun x : BitVec w => x ^^^ (x >>> k) := by
  intro x y h
  have hbit : ∀ i, (x.getLsbD i ^^ x.getLsbD (k + i)) = (y.getLsbD i ^^ y.getLsbD (k + i)) := by
    intro i
    have hi := congrArg (fun z => BitVec.getLsbD z i) h
    simpa only [BitVec.getLsbD_xor, BitVec.getLsbD_ushiftRight] using hi
  -- on the number of bits above that are known
  have hdown : ∀ n i, w ≤ i + n → x.getLsbD i = y.getLsbD i := by
    intro n
    induction n with
    | zero =>
      intro i hi
      rw [BitVec.getLsbD_of_ge x i hi, BitVec.getLsbD_of_ge y i hi]
    | succ n ih =>
      intro i hi
      have hb := hbit i
      rw [ih (k + i) (by omega)] at hb
      exact Bool.xor_left_inj.mp hb
  exact BitVec.eq_of_getLsbD_eq fun i _ => hdown w i (Nat.le_add_left w i)

theorem xor_shiftLeft_injective (hk : 0 < k) : Function.Injective fun x : BitVec w => x ^^^ (x <<< k) := by
  intro x y h
  have hbit : ∀ i < w, (x.getLsbD i ^^ (!decide (i < k) && x.getLsbD (i - k))) =
      (y.getLsbD i ^^ (!decide (i < k) && y.getLsbD (i - k))) := by
    intro i hi
    have hb := congrArg (fun z => BitVec.getLsbD z i) h
    simpa only [BitVec.getLsbD_xor, BitVec.getLsbD_shiftLeft, hi, decide_true, Bool.true_and] using hb
  apply BitVec.eq_of_getLsbD_eq
  intro i
  induction i using Nat.strongRecOn with
  | ind i ih =>
    intro hi
    have hb := hbit i hi
    by_cases hlow : i < k
    · simpa only [hlow, decide_true, Bool.not_true, Bool.false_and, Bool.xor_false] using hb
    · rw [ih (i - k) (by omega) (by omega)] at hb
      exact Bool.xor_left_inj.mp hb

/-! ## Rotation -/

/-- Bit `i` is found `k` places up, past the end from the lowest on. -/
theorem rotate_injective (hk : k ≤ w) : Function.Injective fun x : BitVec w => (x <<< k) ||| (x >>> (w - k)) := by
  have hup : ∀ (x : BitVec w) (i : Nat), i + k < w → ((x <<< k) ||| (x >>> (w - k))).getLsbD (i + k) = x.getLsbD i := by
    intro x i hi
    have hout : x.getLsbD (w - k + (i + k)) = false := BitVec.getLsbD_of_ge x _ (by omega)
    have hnot : ¬i + k < k := by omega
    rw [BitVec.getLsbD_or, BitVec.getLsbD_shiftLeft, BitVec.getLsbD_ushiftRight, hout, Nat.add_sub_cancel]
    simp only [hi, hnot, decide_true, decide_false, Bool.not_false, Bool.true_and, Bool.or_false]
  have hround : ∀ (x : BitVec w) (i : Nat), w ≤ i + k → i < w →
      ((x <<< k) ||| (x >>> (w - k))).getLsbD (i + k - w) = x.getLsbD i := by
    intro x i hi hw
    have hlow : i + k - w < k := by omega
    have hback : w - k + (i + k - w) = i := by omega
    rw [BitVec.getLsbD_or, BitVec.getLsbD_shiftLeft, BitVec.getLsbD_ushiftRight, hback]
    simp only [hlow, decide_true, Bool.not_true, Bool.and_false, Bool.false_and, Bool.false_or]
  intro x y h
  apply BitVec.eq_of_getLsbD_eq
  intro i hw
  by_cases hi : i + k < w
  · have hb := congrArg (fun z => BitVec.getLsbD z (i + k)) h
    exact (hup x i hi).symm.trans (hb.trans (hup y i hi))
  · have hb := congrArg (fun z => BitVec.getLsbD z (i + k - w)) h
    exact (hround x i (Nat.le_of_not_lt hi) hw).symm.trans (hb.trans (hround y i (Nat.le_of_not_lt hi) hw))

/-! ## Multiplication -/

theorem mul_injective {a b : BitVec w} (hunit : a * b = 1#w) : Function.Injective fun x : BitVec w => x * a := by
  intro x y h
  have hb := congrArg (fun z => z * b) h
  simpa only [BitVec.mul_assoc, hunit, BitVec.mul_one] using hb

/-! ## Cycles -/

/-- **On finitely many states** a map that loses nothing is on a cycle from every state: the steps from `x`
come back to `x`, and from then on repeat. -/
theorem exists_period {α : Type} [Finite α] {f : α → α} (hf : Function.Injective f) (x : α) :
    ∃ p > 0, ∀ k, f^[k + p] x = f^[k] x := by
  obtain ⟨p, hp, hx⟩ := Function.mem_periodicPts.mp (hf.mem_periodicPts x)
  refine ⟨p, hp, fun k => ?_⟩
  rw [Function.iterate_add_apply, hx.eq]

theorem iterate_ne_fixed {α : Type} {f : α → α} (hf : Function.Injective f) {x z : α} (hz : f z = z) (hx : x ≠ z)
    (k : Nat) : f^[k] x ≠ z := by
  intro h
  have hfix : f^[k] z = z := Function.iterate_fixed hz k
  exact hx (hf.iterate k (h.trans hfix.symm))

end OptiTrade.WordMaps
