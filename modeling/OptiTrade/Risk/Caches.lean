import Mathlib.Algebra.Order.BigOperators.Group.Finset
import Mathlib.Algebra.Order.Ring.Int
import Mathlib.Tactic.Linarith
import OptiTrade.Foundations.Sums
import OptiTrade.Risk.Limits
import OptiTrade.Risk.Operations

/-! # The caches of the risk engine

Every call that changes an instrument stores one slot and moves the totals by the difference (`refresh`). So
the totals are the sums over the table as long as what is stored is what `refresh` recomputes, and this is
said once, in `Exact.store`. -/

namespace OptiTrade.Risk
set_option autoImplicit false

open Finset

theorem clamp64_range (v : Int) : -kInt64Max ≤ clamp64 v ∧ clamp64 v ≤ kInt64Max := by
  unfold clamp64 kInt64Max
  split_ifs <;> omega

theorem clamp64_nonneg {v : Int} (h : 0 ≤ v) : 0 ≤ clamp64 v := by
  unfold clamp64 kInt64Max
  split_ifs <;> omega

/-- What one slot holds, apart from its caches. -/
structure SlotOk (s : Slot) : Prop where
  qty : -kInt64Max ≤ s.pos.qty ∧ s.pos.qty ≤ kInt64Max
  realized : -kInt64Max ≤ s.pos.realized ∧ s.pos.realized ≤ kInt64Max
  avg : 0 ≤ s.pos.avgPrice ∧ s.pos.avgPrice ≤ kInt64Max
  flat : s.pos.avgPrice = 0 ↔ s.pos.qty = 0
  mark : 0 ≤ s.mark ∧ s.mark ≤ kInt64Max
  shares : ∀ sd, 0 ≤ s.openShares sd ∧ s.openShares sd ≤ kInt64Max
  count : ∀ sd, s.openCount sd ≤ u32Max

/-! ## What the calls make of a slot -/

namespace SlotOk
variable {s : Slot}

theorem grow (h : SlotOk s) (side : Side) (qty : Nat) :
    SlotOk { s with openShares := Function.update s.openShares side (clamp64 (s.openShares side + qty)) } := by
  refine ⟨h.qty, h.realized, h.avg, h.flat, h.mark, fun sd => ?_, h.count⟩
  dsimp only
  by_cases hsd : sd = side
  · subst hsd
    rw [Function.update_self]
    exact ⟨clamp64_nonneg (by have := (h.shares sd).1; omega), (clamp64_range _).2⟩
  · rw [Function.update_of_ne hsd]
    exact h.shares sd

theorem release (h : SlotOk s) (side : Side) (qty : Nat) : SlotOk (RiskEngine.release s side qty) := by
  refine ⟨h.qty, h.realized, h.avg, h.flat, h.mark, fun sd => ?_, h.count⟩
  unfold RiskEngine.release
  dsimp only
  by_cases hsd : sd = side
  · subst hsd
    rw [Function.update_self]
    have := h.shares sd
    omega
  · rw [Function.update_of_ne hsd]
    exact h.shares sd

theorem setCount (h : SlotOk s) (side : Side) {n : Nat} (hn : n ≤ u32Max) :
    SlotOk { s with openCount := Function.update s.openCount side n } := by
  refine ⟨h.qty, h.realized, h.avg, h.flat, h.mark, h.shares, fun sd => ?_⟩
  dsimp only
  by_cases hsd : sd = side
  · subst hsd
    rw [Function.update_self]
    exact hn
  · rw [Function.update_of_ne hsd]
    exact h.count sd

theorem setMark (h : SlotOk s) {price : Int} (hp : 0 < price) (hp' : price ≤ kInt64Max) : SlotOk { s with mark := price } :=
  ⟨h.qty, h.realized, h.avg, h.flat, ⟨hp.le, hp'⟩, h.shares, h.count⟩

end SlotOk

/-- The truncated average of `a` over `m` shares and `p` over `n` shares lies between the two prices. -/
theorem average_between {a p m n lo hi : Int} (hm : 0 ≤ m) (hn : 0 < n) (hlo : 0 ≤ lo) (ha : m ≠ 0 → lo ≤ a ∧ a ≤ hi)
    (hp : lo ≤ p ∧ p ≤ hi) : lo ≤ (a * m + p * n).tdiv (m + n) ∧ (a * m + p * n).tdiv (m + n) ≤ hi := by
  have hpos : 0 < m + n := by omega
  have hlow : lo * (m + n) ≤ a * m + p * n := by
    rcases hm.eq_or_lt with rfl | hm'
    · have := mul_le_mul_of_nonneg_right hp.1 hn.le
      linarith
    · have h₁ := mul_le_mul_of_nonneg_right (ha hm'.ne').1 hm
      have h₂ := mul_le_mul_of_nonneg_right hp.1 hn.le
      linarith
  have hhigh : a * m + p * n ≤ hi * (m + n) := by
    rcases hm.eq_or_lt with rfl | hm'
    · have := mul_le_mul_of_nonneg_right hp.2 hn.le
      linarith
    · have h₁ := mul_le_mul_of_nonneg_right (ha hm'.ne').2 hm
      have h₂ := mul_le_mul_of_nonneg_right hp.2 hn.le
      linarith
  have hnn : 0 ≤ a * m + p * n := (mul_nonneg hlo hpos.le).trans hlow
  rw [Int.tdiv_eq_ediv_of_nonneg hnn]
  exact ⟨(Int.le_ediv_iff_mul_le hpos).mpr hlow, Int.ediv_le_of_le_mul hpos hhigh⟩

namespace RiskEngine

/-- The two kinds of fill. -/
theorem fillPosition_cases (p : Position) (side : Side) (qty : Nat) (price : Int) :
    (((p.qty = 0 ∨ (0 < p.qty ↔ side = .buy)) ∧ fillPosition p side qty price =
      { qty := clamp64 (p.qty + if side = .buy then (qty : Int) else -qty)
        avgPrice := Int.tdiv (p.avgPrice * magnitude p.qty + price * qty) (magnitude p.qty + qty)
        realized := clamp64 p.realized }) ∨
    (p.qty ≠ 0 ∧ ¬(0 < p.qty ↔ side = .buy) ∧ fillPosition p side qty price =
      { qty := clamp64 (p.qty + if side = .buy then (qty : Int) else -qty)
        avgPrice :=
          if p.qty + (if side = .buy then (qty : Int) else -qty) = 0 then 0
          else if ¬(0 < p.qty + (if side = .buy then (qty : Int) else -qty) ↔ 0 < p.qty) then price
          else p.avgPrice
        realized := clamp64 (p.realized + (if 0 < p.qty then price - p.avgPrice else p.avgPrice - price) *
          min (magnitude p.qty) qty) })) := by
  by_cases h : p.qty = 0 ∨ (0 < p.qty ↔ side = .buy)
  · refine .inl ⟨h, ?_⟩
    unfold fillPosition
    dsimp only
    rw [if_pos h]
  · refine .inr ⟨fun h₀ => h (.inl h₀), fun h₁ => h (.inr h₁), ?_⟩
    unfold fillPosition
    dsimp only
    rw [if_neg h]

end RiskEngine

theorem magnitude_nonneg (v : Int) : 0 ≤ magnitude v := by
  unfold magnitude
  split_ifs <;> omega

theorem SlotOk.fill {s : Slot} (h : SlotOk s) (side : Side) {qty : Nat} {price : Int} (hq : qty ≠ 0) (hp : 0 < price)
    (hp' : price ≤ kInt64Max) : SlotOk { s with pos := RiskEngine.fillPosition s.pos side qty price } := by
  have hmag : magnitude s.pos.qty ≠ 0 → s.pos.qty ≠ 0 := by
    intro hne h₀
    rw [h₀] at hne
    exact hne rfl
  have hclamp : ∀ v : Int, clamp64 v = 0 ↔ v = 0 := by
    intro v
    unfold clamp64 kInt64Max
    constructor
    · intro h
      split_ifs at h <;> omega
    · rintro rfl
      rfl
  rcases RiskEngine.fillPosition_cases s.pos side qty price with ⟨hext, he⟩ | ⟨hne, hopp, he⟩
  · have havg : 1 ≤ (RiskEngine.fillPosition s.pos side qty price).avgPrice ∧
        (RiskEngine.fillPosition s.pos side qty price).avgPrice ≤ kInt64Max := by
      rw [he]
      refine average_between (magnitude_nonneg _) (by omega) (by omega) (fun hm => ?_) ⟨by omega, hp'⟩
      have hflat := h.flat
      have hpos := h.avg.1
      exact ⟨by have := hmag hm; omega, h.avg.2⟩
    refine ⟨?_, ?_, ⟨by dsimp only; omega, havg.2⟩, ?_, h.mark, h.shares, h.count⟩
    · rw [he]
      exact clamp64_range _
    · rw [he]
      exact clamp64_range _
    · dsimp only
      refine ⟨fun h₀ => by omega, fun h₀ => ?_⟩
      rw [he] at h₀
      have h₀ := (hclamp _).mp h₀
      exfalso
      by_cases hb : side = .buy
      · rw [if_pos hb] at h₀
        simp only [hb, iff_true] at hext
        omega
      · rw [if_neg hb] at h₀
        simp only [hb, iff_false] at hext
        omega
  · rw [he]
    refine ⟨clamp64_range _, clamp64_range _, ?_, ?_, h.mark, h.shares, h.count⟩
    · dsimp only
      generalize s.pos.qty + (if side = .buy then (qty : Int) else -qty) = now
      split_ifs
      · exact ⟨le_refl _, by unfold kInt64Max; omega⟩
      · exact h.avg
      · exact ⟨hp.le, hp'⟩
    · dsimp only
      rw [hclamp]
      have hflat := h.flat
      generalize s.pos.qty + (if side = .buy then (qty : Int) else -qty) = now
      split_ifs with h₀ h₁
      · simp [h₀]
      · exact ⟨fun hz => absurd (hflat.mp hz) hne, fun hz => absurd hz h₀⟩
      · exact ⟨fun hz => by omega, fun hz => absurd hz h₀⟩

/-! ## The totals -/

namespace RiskEngine

/-- The caches and the totals are what they stand for. -/
structure Exact (r : RiskEngine) : Prop where
  locates : r.locates ≤ kMaxLocates
  slot : ∀ l, SlotOk (r.slots l)
  unrealized : ∀ l, (r.slots l).unrealized = unrealizedOf (r.slots l)
  exposure : ∀ l, (r.slots l).exposure = worst (r.slots l)
  realizedTotal : r.realizedTotal = ∑ l ∈ range r.locates, (r.slots l).pos.realized
  unrealizedTotal : r.unrealizedTotal = ∑ l ∈ range r.locates, unrealizedOf (r.slots l)
  gross : r.gross = ∑ l ∈ range r.locates, worst (r.slots l)
  openTotal : r.openTotal = ∑ l ∈ range r.locates, ((r.slots l).openCount .buy + (r.slots l).openCount .sell)

variable {r r₀ : RiskEngine} {l : Nat} {s : Slot}

theorem Exact.new (limits : Limits) (maxLocates : Nat) : (RiskEngine.new limits maxLocates).Exact where
  locates := Nat.min_le_right _ _
  slot := fun l => ⟨by simp [RiskEngine.new, kInt64Max], by simp [RiskEngine.new, kInt64Max],
    by simp [RiskEngine.new, kInt64Max], by simp [RiskEngine.new], by simp [RiskEngine.new, kInt64Max],
    fun sd => by simp [RiskEngine.new, kInt64Max], fun sd => by simp [RiskEngine.new]⟩
  unrealized := fun l => rfl
  exposure := fun l => rfl
  realizedTotal := by simp [RiskEngine.new]
  unrealizedTotal := by simp [RiskEngine.new, unrealizedOf]
  gross := by simp [RiskEngine.new, worst, leg, magnitude, clamp64, kInt64Max]
  openTotal := by simp [RiskEngine.new]

/-- **One slot is stored.** `r₀` is `r` with the totals that `refresh` does not move. -/
theorem Exact.store (h : r.Exact) (hl : l < r.locates) (hs : SlotOk s) (hu : s.unrealized = (r.slots l).unrealized)
    (he : s.exposure = (r.slots l).exposure) (hlocates : r₀.locates = r.locates) (hslots : r₀.slots = r.slots)
    (hgross : r₀.gross = r.gross) (hunr : r₀.unrealizedTotal = r.unrealizedTotal)
    (hreal : r₀.realizedTotal = r.realizedTotal + (s.pos.realized - (r.slots l).pos.realized))
    (hopen : r₀.openTotal + ((r.slots l).openCount .buy + (r.slots l).openCount .sell) =
      r.openTotal + (s.openCount .buy + s.openCount .sell)) : (r₀.refresh l s).Exact := by
  have hworst : worst { s with unrealized := unrealizedOf s, exposure := worst s } = worst s := rfl
  have hunrealized : unrealizedOf { s with unrealized := unrealizedOf s, exposure := worst s } = unrealizedOf s := rfl
  have hsum : ∀ {M : Type} [AddCommMonoid M] (f : Slot → M),
      ∑ k ∈ range r.locates, f ((r₀.refresh l s).slots k) + f (r.slots l) =
        ∑ k ∈ range r.locates, f (r.slots k) + f { s with unrealized := unrealizedOf s, exposure := worst s } := by
    intro M _ f
    have := sum_range_update hl r.slots { s with unrealized := unrealizedOf s, exposure := worst s } f
    rw [← hslots] at this ⊢
    exact this
  refine ⟨hlocates ▸ h.locates, fun k => ?_, fun k => ?_, fun k => ?_, ?_, ?_, ?_, ?_⟩
  · show SlotOk (Function.update r₀.slots l _ k)
    by_cases hk : k = l
    · subst hk
      rw [Function.update_self]
      exact ⟨hs.qty, hs.realized, hs.avg, hs.flat, hs.mark, hs.shares, hs.count⟩
    · rw [Function.update_of_ne hk, hslots]
      exact h.slot k
  · show (Function.update r₀.slots l _ k).unrealized = unrealizedOf (Function.update r₀.slots l _ k)
    by_cases hk : k = l
    · subst hk
      rw [Function.update_self, hunrealized]
    · rw [Function.update_of_ne hk, hslots]
      exact h.unrealized k
  · show (Function.update r₀.slots l _ k).exposure = worst (Function.update r₀.slots l _ k)
    by_cases hk : k = l
    · subst hk
      rw [Function.update_self, hworst]
    · rw [Function.update_of_ne hk, hslots]
      exact h.exposure k
  · have := hsum fun s => s.pos.realized
    have htotal := h.realizedTotal
    show r₀.realizedTotal = ∑ k ∈ range r₀.locates, _
    rw [hlocates, hreal]
    dsimp only at this
    omega
  · have := hsum unrealizedOf
    have htotal := h.unrealizedTotal
    have hold := h.unrealized l
    show r₀.unrealizedTotal + (unrealizedOf s - s.unrealized) = ∑ k ∈ range r₀.locates, _
    rw [hlocates, hunr, hu]
    rw [hunrealized] at this
    omega
  · have := hsum worst
    have htotal := h.gross
    have hold := h.exposure l
    show r₀.gross + (worst s - s.exposure) = ∑ k ∈ range r₀.locates, _
    rw [hlocates, hgross, he]
    rw [hworst] at this
    omega
  · have := hsum fun s => s.openCount .buy + s.openCount .sell
    have htotal := h.openTotal
    show r₀.openTotal = ∑ k ∈ range r₀.locates, _
    rw [hlocates]
    dsimp only at this
    omega

/-- Only the slots and their totals matter. -/
theorem Exact.same (h : r.Exact) (hlocates : r₀.locates = r.locates) (hslots : r₀.slots = r.slots)
    (hreal : r₀.realizedTotal = r.realizedTotal) (hunr : r₀.unrealizedTotal = r.unrealizedTotal)
    (hgross : r₀.gross = r.gross) (hopen : r₀.openTotal = r.openTotal) : r₀.Exact := by
  refine ⟨hlocates ▸ h.locates, ?_, ?_, ?_, ?_, ?_, ?_, ?_⟩
  · rw [hslots]
    exact h.slot
  · rw [hslots]
    exact h.unrealized
  · rw [hslots]
    exact h.exposure
  · rw [hslots, hlocates, hreal]
    exact h.realizedTotal
  · rw [hslots, hlocates, hunr]
    exact h.unrealizedTotal
  · rw [hslots, hlocates, hgross]
    exact h.gross
  · rw [hslots, hlocates, hopen]
    exact h.openTotal

theorem Exact.settle (h : r.Exact) : r.settle.Exact := h.same rfl rfl rfl rfl rfl rfl

theorem Exact.rateRecord (h : r.Exact) (now : Nat) : (r.rateRecord now).Exact := by
  unfold RiskEngine.rateRecord
  by_cases hz : r.rateSize = 0
  · rw [if_pos hz]
    exact h
  · rw [if_neg hz]
    exact h.same rfl rfl rfl rfl rfl rfl

section
variable {side : Side} {q : Nat}

theorem Exact.onOrderOpen (h : r.Exact) : (r.onOrderOpen l side q).Exact := by
  unfold RiskEngine.onOrderOpen
  by_cases hv : l < r.locates ∧ q ≠ 0
  · rw [if_pos hv]
    dsimp only
    have hgrow := (h.slot l).grow side q
    by_cases hc : (r.slots l).openCount side ≠ u32Max
    · rw [if_pos hc]
      have hle := (h.slot l).count side
      refine h.store hv.1 (hgrow.setCount side (by omega)) rfl rfl rfl rfl rfl rfl (by simp) ?_
      cases side with
      | buy =>
        simp only [Function.update_self, ne_eq, reduceCtorEq, not_false_eq_true, Function.update_of_ne]
        omega
      | sell =>
        simp only [Function.update_self, ne_eq, reduceCtorEq, not_false_eq_true, Function.update_of_ne]
        omega
    · rw [if_neg hc]
      exact h.store hv.1 hgrow rfl rfl rfl rfl rfl rfl (by simp) rfl
  · rw [if_neg hv]
    exact h

theorem Exact.onOrderGrow (h : r.Exact) : (r.onOrderGrow l side q).Exact := by
  unfold RiskEngine.onOrderGrow
  split_ifs with hv
  · exact h.store hv.1 ((h.slot l).grow side q) rfl rfl rfl rfl rfl rfl (by simp) rfl
  · exact h

theorem Exact.onOrderReduce (h : r.Exact) : (r.onOrderReduce l side q).Exact := by
  unfold RiskEngine.onOrderReduce
  split_ifs with hv
  · exact h.store hv ((h.slot l).release side q) rfl rfl rfl rfl rfl rfl (by simp [release]) rfl
  · exact h

theorem Exact.lessCount (h : r.Exact) (side : Side) (q : Nat) (hl : l < r.locates) {n : Nat} (hn : n ≤ (r.slots l).openCount side) :
    ({ r with openTotal := r.openTotal - ((r.slots l).openCount side - n) }.refresh l
      { release (r.slots l) side q with
        openCount := Function.update (r.slots l).openCount side n }).Exact := by
  have hle := (h.slot l).count side
  have hpart : (r.slots l).openCount .buy + (r.slots l).openCount .sell ≤ r.openTotal := by
    rw [h.openTotal]
    exact single_le_sum (f := fun l => (r.slots l).openCount .buy + (r.slots l).openCount .sell)
      (fun _ _ => Nat.zero_le _) (mem_range.mpr hl)
  refine h.store hl (((h.slot l).release side q).setCount side (by omega)) rfl rfl rfl rfl rfl rfl (by simp [release]) ?_
  cases side with
  | buy =>
    simp only [Function.update_self, ne_eq, reduceCtorEq, not_false_eq_true, Function.update_of_ne]
    omega
  | sell =>
    simp only [Function.update_self, ne_eq, reduceCtorEq, not_false_eq_true, Function.update_of_ne]
    omega

theorem Exact.onOrderEnd (h : r.Exact) : (r.onOrderEnd l side q).Exact := by
  unfold RiskEngine.onOrderEnd
  by_cases hv : l < r.locates
  · rw [if_pos hv]
    dsimp only
    by_cases hc : (release (r.slots l) side q).openCount side ≠ 0
    · rw [if_pos hc]
      have hc : (r.slots l).openCount side ≠ 0 := hc
      have hone : (r.slots l).openCount side - ((r.slots l).openCount side - 1) = 1 := by omega
      have hless := h.lessCount side q hv (Nat.sub_le ((r.slots l).openCount side) 1)
      rw [hone] at hless
      exact hless
    · rw [if_neg hc]
      exact h.store hv ((h.slot l).release side q) rfl rfl rfl rfl rfl rfl (by simp [release]) rfl
  · rw [if_neg hv]
    exact h

theorem Exact.onOrderClosed (h : r.Exact) : (r.onOrderClosed l side q).Exact := by
  unfold RiskEngine.onOrderClosed
  by_cases hv : l < r.locates
  · rw [if_pos hv]
    exact h.lessCount side q hv (Nat.min_le_left _ _)
  · rw [if_neg hv]
    exact h

theorem Exact.onFill (h : r.Exact) {price : Int} (hp : price ≤ kInt64Max) : (r.onFill l side q price).Exact := by
  unfold RiskEngine.onFill
  split_ifs with hv
  · refine Exact.settle ?_
    exact h.store hv.1 ((h.slot l).fill side hv.2.1 hv.2.2 hp) rfl rfl rfl rfl rfl rfl rfl rfl
  · exact h

theorem Exact.mark (h : r.Exact) {price : Int} (hp : price ≤ kInt64Max) : (r.mark l price).Exact := by
  unfold RiskEngine.mark
  split_ifs with hv
  · refine Exact.settle ?_
    exact h.store hv.1 ((h.slot l).setMark hv.2 hp) rfl rfl rfl rfl rfl rfl (by simp) rfl
  · exact h

end

/-- **One call.** -/
theorem Exact.apply (h : r.Exact) {op : Op} (ht : op.Typed) : (r.apply op).Exact := by
  cases op with
  | check l side price qty reference now =>
    show (if _ then _ else _ : RiskEngine).Exact
    split_ifs
    · exact h.rateRecord now
    · exact h
  | admitOrder now => exact h.rateRecord now
  | orderOpen l side qty =>
    cases side with
    | none => exact h
    | some side => exact h.onOrderOpen
  | orderGrow l side qty =>
    cases side with
    | none => exact h
    | some side => exact h.onOrderGrow
  | orderReduce l side qty =>
    cases side with
    | none => exact h
    | some side => exact h.onOrderReduce
  | orderEnd l side qty =>
    cases side with
    | none => exact h
    | some side => exact h.onOrderEnd
  | orderClosed l side qty =>
    cases side with
    | none => exact h
    | some side => exact h.onOrderClosed
  | fill l side qty price =>
    cases side with
    | none => exact h
    | some side => exact h.onFill ht.2.2
  | mark l price => exact h.mark ht.2
  | setKillSwitch on => exact h.same rfl rfl rfl rfl rfl rfl

end RiskEngine
end OptiTrade.Risk
