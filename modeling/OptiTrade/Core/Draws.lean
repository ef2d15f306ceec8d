import OptiTrade.Core.Rng

/-! # What a consumer of random numbers sees

Words of 64 bits and integers below a bound, in any order. Nothing else of a generator shows in what is built
from its draws, so a source of draws is any state with these two operations. -/

namespace OptiTrade
set_option autoImplicit false

/-- A source of draws of 64 bits and of draws below a bound. -/
structure Draws (σ : Type) where
  next : σ → UInt64 × σ
  bounded : Nat → σ → Nat × σ
  bounded_lt : ∀ n r, 0 < n → (bounded n r).1 < n

namespace Draws
variable {σ : Type} (D : Draws σ)

/-- True with probability `num / den`. -/
def chance (num den : Nat) (r : σ) : Bool × σ := (decide ((D.bounded den r).1 < num), (D.bounded den r).2)

/-- The failures before the first success, at most `cap`. -/
def geometric (num den : Nat) : Nat → σ → Nat × σ
  | 0, r => (0, r)
  | cap + 1, r =>
    let hit := D.chance num den r
    if hit.1 then (0, hit.2)
    else
      let rest := geometric num den cap hit.2
      (rest.1 + 1, rest.2)

theorem geometric_le (num den cap : Nat) (r : σ) : (D.geometric num den cap r).1 ≤ cap := by
  induction cap generalizing r with
  | zero => exact le_refl 0
  | succ cap ih =>
    unfold geometric
    dsimp only
    split
    · exact Nat.zero_le _
    · exact Nat.succ_le_succ (ih _)

end Draws

namespace Rng

instance (n x : UInt64) : Decidable (Accepts n x) := inferInstanceAs (Decidable (¬_))

/-- The first draw that ends the loop, if there is one. -/
def Ends (n : UInt64) (r : Rng) : Prop := ∃ k, Accepts n (r.draw k)

open Classical in
/-- The integer of the first draw that ends the loop. -/
noncomputable def boundedDraw (n : Nat) (r : Rng) : Nat × Rng :=
  if h : 0 < (UInt64.ofNat n).toNat ∧ n < 2 ^ 64 ∧ Ends (UInt64.ofNat n) r then
    ((scaled (UInt64.ofNat n) (r.draw (Nat.find h.2.2))).toNat, after (Nat.find h.2.2 + 1) r)
  else (0, r)

/-- xoshiro256** as a source of draws, its loops run to their end. -/
noncomputable def source : Draws Rng where
  next := next
  bounded := boundedDraw
  bounded_lt := by
    intro n r hn
    unfold boundedDraw
    split
    · rename_i h
      have hlt := UInt64.lt_iff_toNat_lt.mp (scaled_lt h.1 (r.draw (Nat.find h.2.2)))
      have hof : (UInt64.ofNat n).toNat = n := by rw [UInt64.toNat_ofNat', Nat.mod_eq_of_lt h.2.1]
      exact hlt.trans_eq hof
    · exact hn

theorem source_bounded {fuel : Nat} {r r' : Rng} {n v : UInt64} (hn : 0 < n.toNat) (h : bounded fuel r n = some (v, r')) :
    source.bounded n.toNat r = (v.toNat, r') := by
  obtain ⟨k, -, hno, hyes, rfl, rfl⟩ := bounded_some hn h
  have hof : UInt64.ofNat n.toNat = n := UInt64.ofNat_toNat
  have hend : 0 < (UInt64.ofNat n.toNat).toNat ∧ n.toNat < 2 ^ 64 ∧ Ends (UInt64.ofNat n.toNat) r := by
    rw [hof]
    exact ⟨hn, n.toNat_lt, k, hyes⟩
  show boundedDraw n.toNat r = _
  unfold boundedDraw
  rw [dif_pos hend]
  have hfind : Nat.find hend.2.2 = k := by
    refine (Nat.find_eq_iff hend.2.2).mpr ⟨?_, fun i hi => ?_⟩
    · rw [hof]
      exact hyes
    · rw [hof]
      exact hno i hi
  rw [hfind, hof]

end Rng
end OptiTrade
