import Mathlib.Algebra.Order.Group.Unbundled.Int
import Mathlib.Tactic.SplitIfs
import OptiTrade.Risk.RiskEngine

/-! # What the risk engine's operations do to the ledger

One lemma per operation and per column of the ledger (working shares, working orders, positions),
and the frame: everything the order calls leave alone. -/

namespace OptiTrade.Risk
set_option autoImplicit false

theorem clamp64_eq {v : Int} (hlo : -kInt64Max ≤ v) (hhi : v ≤ kInt64Max) : clamp64 v = v := by
  unfold clamp64
  rw [if_neg (by omega), if_neg (by omega)]

theorem magnitude_eq_abs (v : Int) : magnitude v = |v| := by
  unfold magnitude
  split_ifs with h
  · exact (abs_of_neg h).symm
  · exact (abs_of_nonneg (by omega)).symm

namespace RiskEngine
variable (r : RiskEngine) (l : Nat) (side : Side) (q : Nat) (s : Slot)

/-! ## Storing a slot -/

@[simp] theorem refresh_locates : (r.refresh l s).locates = r.locates := rfl
@[simp] theorem refresh_limits : (r.refresh l s).limits = r.limits := rfl
@[simp] theorem refresh_openTotal : (r.refresh l s).openTotal = r.openTotal := rfl

theorem refresh_shares (k : Nat) :
    ((r.refresh l s).slots k).openShares = if k = l then s.openShares else (r.slots k).openShares := by
  by_cases h : k = l
  · subst h; simp [refresh]
  · simp [refresh, h]

theorem refresh_count (k : Nat) :
    ((r.refresh l s).slots k).openCount = if k = l then s.openCount else (r.slots k).openCount := by
  by_cases h : k = l
  · subst h; simp [refresh]
  · simp [refresh, h]

theorem refresh_pos (k : Nat) :
    ((r.refresh l s).slots k).pos = if k = l then s.pos else (r.slots k).pos := by
  by_cases h : k = l
  · subst h; simp [refresh]
  · simp [refresh, h]

@[simp] theorem settle_slots : r.settle.slots = r.slots := rfl
@[simp] theorem settle_locates : r.settle.locates = r.locates := rfl
@[simp] theorem settle_limits : r.settle.limits = r.limits := rfl
@[simp] theorem settle_openTotal : r.settle.openTotal = r.openTotal := rfl

/-! ## Engines with the same ledger -/

/-- The working shares, the working orders and the shape of the table are the same. -/
structure SameLedger (r r' : RiskEngine) : Prop where
  locates : r'.locates = r.locates
  limits : r'.limits = r.limits
  shares : ∀ k, (r'.slots k).openShares = (r.slots k).openShares
  count : ∀ k, (r'.slots k).openCount = (r.slots k).openCount
  total : r'.openTotal = r.openTotal

theorem SameLedger.refl : SameLedger r r := ⟨rfl, rfl, fun _ => rfl, fun _ => rfl, rfl⟩

theorem admitOrder_sameLedger (now : Nat) : SameLedger r (r.admitOrder now) := by
  unfold admitOrder rateRecord
  by_cases h : r.rateSize = 0
  · rw [if_pos h]
    exact .refl r
  · rw [if_neg h]
    exact ⟨rfl, rfl, fun _ => rfl, fun _ => rfl, rfl⟩

theorem onFill_sameLedger (price : Int) : SameLedger r (r.onFill l side q price) := by
  unfold onFill
  split_ifs with h
  · refine ⟨rfl, rfl, ?_, ?_, rfl⟩
    · intro k
      rw [settle_slots, refresh_shares]
      by_cases hk : k = l <;> simp [hk]
    · intro k
      rw [settle_slots, refresh_count]
      by_cases hk : k = l <;> simp [hk]
  · exact .refl r

theorem mark_sameLedger (price : Int) : SameLedger r (r.mark l price) := by
  unfold mark
  split_ifs with h
  · refine ⟨rfl, rfl, ?_, ?_, rfl⟩
    · intro k
      rw [settle_slots, refresh_shares]
      by_cases hk : k = l <;> simp [hk]
    · intro k
      rw [settle_slots, refresh_count]
      by_cases hk : k = l <;> simp [hk]
  · exact .refl r

theorem setKillSwitch_sameLedger (on : Bool) : SameLedger r (r.setKillSwitch on) :=
  ⟨rfl, rfl, fun _ => rfl, fun _ => rfl, rfl⟩

/-! ## The order calls -/

section
variable {r l side q}

@[simp] theorem onOrderGrow_locates : (r.onOrderGrow l side q).locates = r.locates := by
  unfold onOrderGrow; split_ifs <;> rfl
@[simp] theorem onOrderGrow_limits : (r.onOrderGrow l side q).limits = r.limits := by
  unfold onOrderGrow; split_ifs <;> rfl
@[simp] theorem onOrderGrow_openTotal : (r.onOrderGrow l side q).openTotal = r.openTotal := by
  unfold onOrderGrow; split_ifs <;> rfl
@[simp] theorem onOrderReduce_locates : (r.onOrderReduce l side q).locates = r.locates := by
  unfold onOrderReduce; split_ifs <;> rfl
@[simp] theorem onOrderReduce_limits : (r.onOrderReduce l side q).limits = r.limits := by
  unfold onOrderReduce; split_ifs <;> rfl
@[simp] theorem onOrderReduce_openTotal : (r.onOrderReduce l side q).openTotal = r.openTotal := by
  unfold onOrderReduce; split_ifs <;> rfl
@[simp] theorem onOrderOpen_locates : (r.onOrderOpen l side q).locates = r.locates := by
  unfold onOrderOpen; dsimp only; split_ifs <;> rfl
@[simp] theorem onOrderOpen_limits : (r.onOrderOpen l side q).limits = r.limits := by
  unfold onOrderOpen; dsimp only; split_ifs <;> rfl
@[simp] theorem onOrderEnd_locates : (r.onOrderEnd l side q).locates = r.locates := by
  unfold onOrderEnd; dsimp only; split_ifs <;> rfl
@[simp] theorem onOrderEnd_limits : (r.onOrderEnd l side q).limits = r.limits := by
  unfold onOrderEnd; dsimp only; split_ifs <;> rfl

theorem onOrderGrow_shares (hl : l < r.locates) (hnn : 0 ≤ (r.slots l).openShares side)
    (hfit : (r.slots l).openShares side + q ≤ kInt64Max) (k : Nat) (sd : Side) :
    ((r.onOrderGrow l side q).slots k).openShares sd =
      (r.slots k).openShares sd + if k = l ∧ sd = side then (q : Int) else 0 := by
  unfold onOrderGrow
  by_cases hq : q = 0
  · subst hq
    simp
  · rw [if_pos ⟨hl, hq⟩, refresh_shares, clamp64_eq (by unfold kInt64Max; omega) hfit]
    by_cases hk : k = l
    · subst hk
      by_cases hs : sd = side
      · subst hs; simp
      · simp [hs]
    · simp [hk]

theorem onOrderGrow_count (k : Nat) :
    ((r.onOrderGrow l side q).slots k).openCount = (r.slots k).openCount := by
  unfold onOrderGrow
  split_ifs with h
  · rw [refresh_count]
    by_cases hk : k = l <;> simp [hk]
  · rfl

theorem onOrderGrow_pos (k : Nat) : ((r.onOrderGrow l side q).slots k).pos = (r.slots k).pos := by
  unfold onOrderGrow
  split_ifs with h
  · rw [refresh_pos]
    by_cases hk : k = l <;> simp [hk]
  · rfl

theorem onOrderReduce_shares (hl : l < r.locates) (hle : (q : Int) ≤ (r.slots l).openShares side)
    (k : Nat) (sd : Side) :
    ((r.onOrderReduce l side q).slots k).openShares sd =
      (r.slots k).openShares sd - if k = l ∧ sd = side then (q : Int) else 0 := by
  unfold onOrderReduce
  rw [if_pos hl, refresh_shares, release, min_eq_left hle]
  by_cases hk : k = l
  · subst hk
    by_cases hs : sd = side
    · subst hs; simp
    · simp [hs]
  · simp [hk]

theorem onOrderReduce_count (k : Nat) :
    ((r.onOrderReduce l side q).slots k).openCount = (r.slots k).openCount := by
  unfold onOrderReduce
  split_ifs with h
  · rw [refresh_count]
    by_cases hk : k = l <;> simp [hk, release]
  · rfl

theorem onOrderReduce_pos (k : Nat) : ((r.onOrderReduce l side q).slots k).pos = (r.slots k).pos := by
  unfold onOrderReduce
  split_ifs with h
  · rw [refresh_pos]
    by_cases hk : k = l <;> simp [hk, release]
  · rfl

theorem onOrderOpen_shares (hl : l < r.locates) (hq : q ≠ 0) (hnn : 0 ≤ (r.slots l).openShares side)
    (hfit : (r.slots l).openShares side + q ≤ kInt64Max) (k : Nat) (sd : Side) :
    ((r.onOrderOpen l side q).slots k).openShares sd =
      (r.slots k).openShares sd + if k = l ∧ sd = side then (q : Int) else 0 := by
  unfold onOrderOpen
  dsimp only
  rw [if_pos ⟨hl, hq⟩, clamp64_eq (by unfold kInt64Max; omega) hfit]
  split_ifs with hc <;> rw [refresh_shares] <;> by_cases hk : k = l <;> by_cases hs : sd = side <;>
    simp_all

theorem onOrderOpen_count (hl : l < r.locates) (hq : q ≠ 0) (hc : (r.slots l).openCount side ≠ u32Max)
    (k : Nat) (sd : Side) :
    ((r.onOrderOpen l side q).slots k).openCount sd =
      (r.slots k).openCount sd + if k = l ∧ sd = side then 1 else 0 := by
  unfold onOrderOpen
  rw [if_pos ⟨hl, hq⟩, if_pos hc, refresh_count]
  by_cases hk : k = l <;> by_cases hs : sd = side <;> simp_all

theorem onOrderOpen_openTotal (hl : l < r.locates) (hq : q ≠ 0)
    (hc : (r.slots l).openCount side ≠ u32Max) : (r.onOrderOpen l side q).openTotal = r.openTotal + 1 := by
  unfold onOrderOpen
  rw [if_pos ⟨hl, hq⟩, if_pos hc]
  rfl

theorem onOrderOpen_pos (k : Nat) : ((r.onOrderOpen l side q).slots k).pos = (r.slots k).pos := by
  unfold onOrderOpen
  dsimp only
  split_ifs with h hc
  · rw [refresh_pos]
    by_cases hk : k = l <;> simp [hk]
  · rw [refresh_pos]
    by_cases hk : k = l <;> simp [hk]
  · rfl

theorem onOrderEnd_shares (hl : l < r.locates) (hle : (q : Int) ≤ (r.slots l).openShares side)
    (k : Nat) (sd : Side) :
    ((r.onOrderEnd l side q).slots k).openShares sd =
      (r.slots k).openShares sd - if k = l ∧ sd = side then (q : Int) else 0 := by
  unfold onOrderEnd
  rw [if_pos hl]
  dsimp only
  split_ifs with hc <;> rw [refresh_shares, release, min_eq_left hle] <;> by_cases hk : k = l <;>
    by_cases hs : sd = side <;> simp_all

theorem onOrderEnd_count (hl : l < r.locates) (hc : (r.slots l).openCount side ≠ 0) (k : Nat) (sd : Side) :
    ((r.onOrderEnd l side q).slots k).openCount sd =
      (r.slots k).openCount sd - if k = l ∧ sd = side then 1 else 0 := by
  unfold onOrderEnd
  rw [if_pos hl]
  dsimp only
  rw [if_pos (show (release (r.slots l) side q).openCount side ≠ 0 from hc), refresh_count]
  by_cases hk : k = l <;> by_cases hs : sd = side <;> simp_all [release]

theorem onOrderEnd_openTotal (hl : l < r.locates) (hc : (r.slots l).openCount side ≠ 0) :
    (r.onOrderEnd l side q).openTotal = r.openTotal - 1 := by
  unfold onOrderEnd
  rw [if_pos hl]
  dsimp only
  rw [if_pos (show (release (r.slots l) side q).openCount side ≠ 0 from hc)]
  rfl

theorem onOrderEnd_pos (k : Nat) : ((r.onOrderEnd l side q).slots k).pos = (r.slots k).pos := by
  unfold onOrderEnd
  dsimp only
  split_ifs with h hc
  · rw [refresh_pos]
    by_cases hk : k = l <;> simp [hk, release]
  · rw [refresh_pos]
    by_cases hk : k = l <;> simp [hk, release]
  · rfl

end
end RiskEngine
end OptiTrade.Risk
