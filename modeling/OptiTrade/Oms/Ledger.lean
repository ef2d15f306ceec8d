import Mathlib.Algebra.Order.BigOperators.Group.Finset
import OptiTrade.Oms.Table
import OptiTrade.Risk.Ledger

/-! # The exposure ledger

`Ledger m`: for every instrument and side the risk engine holds the sum of the reserved quantities
of the working orders and counts these orders. The sums run over the used slots, so an operation
that changes one slot changes each sum by one difference. -/

namespace OptiTrade.Oms
set_option autoImplicit false

open Finset
open Risk (kInt64Max)
open Risk.RiskEngine (SameLedger)

/-- What the entry contributes to the working quantity of `l` and `sd`. -/
def Entry.held (e : Entry) (l : Nat) (sd : Side) : Nat :=
  if e.working = true ∧ e.info.req.locate = l ∧ e.info.req.side = sd then e.reserved else 0

/-- What the entry contributes to the number of working orders of `l` and `sd`. -/
def Entry.counted (e : Entry) (l : Nat) (sd : Side) : Nat :=
  if e.working = true ∧ e.info.req.locate = l ∧ e.info.req.side = sd then 1 else 0

namespace OrderManager

/-- **The invariant of the ledger**: what the risk engine holds is what the working orders need. -/
structure Ledger (m : OrderManager) : Prop where
  locate : ∀ i < m.fresh, (m.slots i).info.req.locate < m.risk.locates
  bound : ∀ i < m.fresh, (m.slots i).reserved ≤ kMaxOrderQty
  shares : ∀ l sd, (m.risk.slots l).openShares sd = ((∑ i ∈ range m.fresh, (m.slots i).held l sd : Nat) : Int)
  count : ∀ l sd, (m.risk.slots l).openCount sd = ∑ i ∈ range m.fresh, (m.slots i).counted l sd
  total : m.risk.openTotal = m.opened

variable {m m' : OrderManager}

theorem Ledger.congr (h : Ledger m) (hf : m'.fresh = m.fresh) (ho : m'.opened = m.opened)
    (hr : SameLedger m.risk m'.risk)
    (hk : ∀ i < m.fresh, (m'.slots i).working = (m.slots i).working ∧
      (m'.slots i).info.req.locate = (m.slots i).info.req.locate ∧
      (m'.slots i).info.req.side = (m.slots i).info.req.side ∧
      (m'.slots i).reserved = (m.slots i).reserved) : Ledger m' where
  locate := fun i hi => by
    rw [hf] at hi
    rw [(hk i hi).2.1, hr.locates]
    exact h.locate i hi
  bound := fun i hi => by
    rw [hf] at hi
    rw [(hk i hi).2.2.2]
    exact h.bound i hi
  shares := fun l sd => by
    rw [hr.shares, h.shares, hf]
    congr 1
    refine sum_congr rfl fun i hi => ?_
    obtain ⟨h₁, h₂, h₃, h₄⟩ := hk i (mem_range.mp hi)
    simp only [Entry.held, h₁, h₂, h₃, h₄]
  count := fun l sd => by
    rw [hr.count, h.count, hf]
    refine sum_congr rfl fun i hi => ?_
    obtain ⟨h₁, h₂, h₃, _⟩ := hk i (mem_range.mp hi)
    simp only [Entry.counted, h₁, h₂, h₃]
  total := by rw [hr.total, ho]; exact h.total

/-! ## Bounds: nothing in the ledger saturates -/

theorem Entry.held_le (e : Entry) (l : Nat) (sd : Side) : e.held l sd ≤ e.reserved := by
  unfold Entry.held
  split_ifs <;> omega

theorem Entry.counted_le (e : Entry) (l : Nat) (sd : Side) : e.counted l sd ≤ 1 := by
  unfold Entry.counted
  split_ifs <;> omega

theorem Ledger.sum_held_le (h : Ledger m) (l : Nat) (sd : Side) :
    ∑ i ∈ range m.fresh, (m.slots i).held l sd ≤ m.fresh * kMaxOrderQty := by
  calc ∑ i ∈ range m.fresh, (m.slots i).held l sd ≤ ∑ _i ∈ range m.fresh, kMaxOrderQty :=
        sum_le_sum fun i hi => (Entry.held_le _ l sd).trans (h.bound i (mem_range.mp hi))
    _ = m.fresh * kMaxOrderQty := by simp

theorem Ledger.shares_nonneg (h : Ledger m) (l : Nat) (sd : Side) : 0 ≤ (m.risk.slots l).openShares sd := by
  rw [h.shares]
  exact Int.natCast_nonneg _

theorem Ledger.shares_le (h : Ledger m) (hids : Ids m) (l : Nat) (sd : Side) :
    (m.risk.slots l).openShares sd ≤ 4294967295 * 999999 := by
  have h₁ := h.sum_held_le l sd
  have h₂ := hids.fresh_le
  have h₃ := hids.capacity_lt
  have h₄ : m.fresh * kMaxOrderQty ≤ 4294967295 * 999999 := by
    unfold kMaxOrderQty kNone at *
    omega
  rw [h.shares]
  omega

theorem Ledger.count_lt (h : Ledger m) (hids : Ids m) (l : Nat) (sd : Side) :
    (m.risk.slots l).openCount sd < u32Max := by
  rw [h.count]
  calc ∑ i ∈ range m.fresh, (m.slots i).counted l sd ≤ ∑ _i ∈ range m.fresh, 1 :=
        sum_le_sum fun i _ => Entry.counted_le _ l sd
    _ = m.fresh := by simp
    _ < u32Max := by
        have h₂ := hids.fresh_le
        have h₃ := hids.capacity_lt
        unfold kNone at h₃
        unfold u32Max
        omega

theorem Ledger.held_le_shares (h : Ledger m) {i : Nat} (hi : i < m.fresh) (l : Nat) (sd : Side) :
    ((m.slots i).held l sd : Int) ≤ (m.risk.slots l).openShares sd := by
  rw [h.shares]
  have := single_le_sum (f := fun i => (m.slots i).held l sd) (fun j _ => Nat.zero_le _) (mem_range.mpr hi)
  exact_mod_cast this

theorem Ledger.counted_le_count (h : Ledger m) {i : Nat} (hi : i < m.fresh) (l : Nat) (sd : Side) :
    (m.slots i).counted l sd ≤ (m.risk.slots l).openCount sd := by
  rw [h.count]
  exact single_le_sum (f := fun i => (m.slots i).counted l sd) (fun j _ => Nat.zero_le _) (mem_range.mpr hi)

/-! ## One slot changes -/

/-- Slot `i` gets entry `e` and the risk engine moves by the difference. -/
theorem Ledger.move (h : Ledger m) {i : Nat} (hi : i < m.fresh) {e : Entry}
    (hs : m'.slots = Function.update m.slots i e) (hf : m'.fresh = m.fresh)
    (hloc : e.info.req.locate < m.risk.locates) (hres : e.reserved ≤ kMaxOrderQty)
    (hrl : m'.risk.locates = m.risk.locates)
    (hsh : ∀ l sd, (m'.risk.slots l).openShares sd =
      (m.risk.slots l).openShares sd - (m.slots i).held l sd + e.held l sd)
    (hct : ∀ l sd, (m'.risk.slots l).openCount sd + (m.slots i).counted l sd =
      (m.risk.slots l).openCount sd + e.counted l sd)
    (ht : m'.risk.openTotal = m'.opened) : Ledger m' := by
  have hslot : ∀ j, j ≠ i → m'.slots j = m.slots j := fun j hj => by rw [hs, Function.update_of_ne hj]
  have hself : m'.slots i = e := by rw [hs, Function.update_self]
  refine ⟨?_, ?_, ?_, ?_, ht⟩
  · intro j hj
    rw [hf] at hj
    rw [hrl]
    by_cases hji : j = i
    · rw [hji, hself]; exact hloc
    · rw [hslot j hji]; exact h.locate j hj
  · intro j hj
    rw [hf] at hj
    by_cases hji : j = i
    · rw [hji, hself]; exact hres
    · rw [hslot j hji]; exact h.bound j hj
  · intro l sd
    have hsum := sum_range_update hi m.slots e (fun e => e.held l sd)
    rw [hsh, h.shares, hf, hs]
    omega
  · intro l sd
    have hsum := sum_range_update hi m.slots e (fun e => e.counted l sd)
    have := hct l sd
    rw [h.count] at this
    rw [hf, hs]
    omega

/-- Slot `i`, unused or holding a finished order, gets the working order `e`. -/
theorem Ledger.put (h : Ledger m) {i : Nat} {e : Entry} (hs : m'.slots = Function.update m.slots i e)
    (hcase : (i = m.fresh ∧ m'.fresh = m.fresh + 1) ∨
      (i < m.fresh ∧ m'.fresh = m.fresh ∧ (m.slots i).working = false))
    (hloc : e.info.req.locate < m.risk.locates) (hres : e.reserved ≤ kMaxOrderQty)
    (hrl : m'.risk.locates = m.risk.locates)
    (hsh : ∀ l sd, (m'.risk.slots l).openShares sd = (m.risk.slots l).openShares sd + e.held l sd)
    (hct : ∀ l sd, (m'.risk.slots l).openCount sd = (m.risk.slots l).openCount sd + e.counted l sd)
    (ht : m'.risk.openTotal = m'.opened) : Ledger m' := by
  have hslot : ∀ j, j ≠ i → m'.slots j = m.slots j := fun j hj => by rw [hs, Function.update_of_ne hj]
  have hself : m'.slots i = e := by rw [hs, Function.update_self]
  have hother : ∀ j < m'.fresh, j ≠ i → j < m.fresh := by
    intro j hj hji
    rcases hcase with ⟨_, _⟩ | ⟨_, _, _⟩ <;> omega
  have hsum : ∀ f : Entry → Nat, (∀ e : Entry, e.working = false → f e = 0) →
      ∑ j ∈ range m'.fresh, f (m'.slots j) = ∑ j ∈ range m.fresh, f (m.slots j) + f e := by
    intro f hzero
    rcases hcase with ⟨h₁, h₂⟩ | ⟨h₁, h₂, h₃⟩
    · rw [h₂, sum_range_succ, hs, ← h₁, Function.update_self, h₁, sum_range_update_of_le (le_refl _)]
    · have := sum_range_update h₁ m.slots e f
      rw [hzero _ h₃, Nat.add_zero] at this
      rw [h₂, hs, this]
  refine ⟨?_, ?_, ?_, ?_, ht⟩
  · intro j hj
    rw [hrl]
    by_cases hji : j = i
    · rw [hji, hself]; exact hloc
    · rw [hslot j hji]; exact h.locate j (hother j hj hji)
  · intro j hj
    by_cases hji : j = i
    · rw [hji, hself]; exact hres
    · rw [hslot j hji]; exact h.bound j (hother j hj hji)
  · intro l sd
    rw [hsh, h.shares, hsum (fun e => e.held l sd) fun e he => by simp [Entry.held, he]]
    push_cast
    rfl
  · intro l sd
    rw [hct, h.count, hsum (fun e => e.counted l sd) fun e he => by simp [Entry.counted, he]]

end OrderManager
end OptiTrade.Oms
