import Mathlib.Algebra.Order.Ring.Abs
import OptiTrade.Risk.Caches

/-! # No signed overflow

The engine once more, with every signed sum, difference, product, quotient and negation of the source put
through the range of its C++ type: `i128` and `i64` answer `none` for a value that the type does not hold. The
order of the operations is that of the source. What the two engines have in common is that they answer the
same, and that `none` never happens. -/

namespace OptiTrade.Risk
set_option autoImplicit false

open Finset

/-- A value of the 128-bit type. -/
def i128 (v : Int) : Option Int :=
  if -170141183460469231731687303715884105728 ≤ v ∧ v ≤ 170141183460469231731687303715884105727 then some v else none

/-- A value of the 64-bit type. -/
def i64 (v : Int) : Option Int := if -9223372036854775808 ≤ v ∧ v ≤ 9223372036854775807 then some v else none

theorem i128_eq {v : Int} (h : -170141183460469231731687303715884105728 ≤ v ∧ v ≤ 170141183460469231731687303715884105727) :
    i128 v = some v := if_pos h

theorem i64_eq {v : Int} (h : -9223372036854775808 ≤ v ∧ v ≤ 9223372036854775807) : i64 v = some v := if_pos h

namespace Checked

def magnitude (v : Int) : Option Int := if v < 0 then i128 (-v) else some v

def leg (s : Slot) (side : Side) (extra : Int) : Option Int :=
  match side with
  | .buy => do
    let held ← i128 (s.pos.qty + s.openShares .buy)
    i128 (held + extra)
  | .sell => do
    let held ← i128 (s.pos.qty - s.openShares .sell)
    i128 (held - extra)

def unrealizedOf (s : Slot) : Option Int :=
  if 0 < s.mark ∧ s.pos.qty ≠ 0 then do
    let gap ← i128 (s.mark - s.pos.avgPrice)
    let value ← i128 (gap * s.pos.qty)
    i64 (clamp64 value)
  else some 0

def worst (s : Slot) : Option Int := do
  let long ← leg s .buy 0
  let long ← magnitude long
  let short ← leg s .sell 0
  let short ← magnitude short
  i64 (clamp64 (max long short))

/-- The caches follow a slot that is stored. -/
def refresh (r : RiskEngine) (locate : Nat) (s : Slot) : Option RiskEngine := do
  let u ← unrealizedOf s
  let du ← i128 (u - s.unrealized)
  let unrealizedTotal ← i128 (r.unrealizedTotal + du)
  let e ← worst s
  let de ← i128 (e - s.exposure)
  let gross ← i128 (r.gross + de)
  some { r with
    unrealizedTotal := unrealizedTotal
    gross := gross
    slots := Function.update r.slots locate { s with unrealized := u, exposure := e } }

/-- The working quantity of a side goes up. -/
def grow (s : Slot) (side : Side) (qty : Nat) : Option Slot := do
  let sum ← i128 (s.openShares side + qty)
  let shares ← i64 (clamp64 sum)
  some { s with openShares := Function.update s.openShares side shares }

def release (s : Slot) (side : Side) (qty : Nat) : Option Slot := do
  let shares ← i64 (s.openShares side - min (qty : Int) (s.openShares side))
  some { s with openShares := Function.update s.openShares side shares }

def onOrderOpen (r : RiskEngine) (locate : Nat) (side : Side) (qty : Nat) : Option RiskEngine :=
  if locate < r.locates ∧ qty ≠ 0 then do
    let s ← grow (r.slots locate) side qty
    if s.openCount side ≠ u32Max then
      refresh { r with openTotal := r.openTotal + 1 } locate
        { s with openCount := Function.update s.openCount side (s.openCount side + 1) }
    else refresh r locate s
  else some r

def onOrderGrow (r : RiskEngine) (locate : Nat) (side : Side) (qty : Nat) : Option RiskEngine :=
  if locate < r.locates ∧ qty ≠ 0 then do
    let s ← grow (r.slots locate) side qty
    refresh r locate s
  else some r

def onOrderReduce (r : RiskEngine) (locate : Nat) (side : Side) (qty : Nat) : Option RiskEngine :=
  if locate < r.locates then do
    let s ← release (r.slots locate) side qty
    refresh r locate s
  else some r

def onOrderEnd (r : RiskEngine) (locate : Nat) (side : Side) (remaining : Nat) : Option RiskEngine :=
  if locate < r.locates then do
    let s ← release (r.slots locate) side remaining
    if s.openCount side ≠ 0 then
      refresh { r with openTotal := r.openTotal - 1 } locate
        { s with openCount := Function.update s.openCount side (s.openCount side - 1) }
    else refresh r locate s
  else some r

def onOrderClosed (r : RiskEngine) (locate : Nat) (side : Side) (remaining : Nat) : Option RiskEngine :=
  if locate < r.locates then do
    let s ← release (r.slots locate) side remaining
    let cap := if (u32Max : Int) ≤ s.openShares side then u32Max else (s.openShares side).toNat
    let kept := min (s.openCount side) cap
    refresh { r with openTotal := r.openTotal - (s.openCount side - kept) } locate
      { s with openCount := Function.update s.openCount side kept }
  else some r

def settle (r : RiskEngine) : Option RiskEngine := do
  let total ← i128 (r.realizedTotal + r.unrealizedTotal)
  let peak := max r.peakPnl total
  let fall ← i128 (peak - total)
  let lost ← if 0 < r.limits.maxLoss then do
      let floor ← i128 (-r.limits.maxLoss)
      some (decide (total ≤ floor))
    else some false
  some { r with peakPnl := peak, maxDrawdown := max r.maxDrawdown fall, killSwitch := r.killSwitch || lost }

/-- The divisor is not zero, and the quotient is narrowed to a price. -/
def average (avg held price fill : Int) : Option Int := do
  let old ← i128 (avg * held)
  let new ← i128 (price * fill)
  let num ← i128 (old + new)
  let den ← i128 (held + fill)
  if den = 0 then none
  else do
    let quot ← i128 (num.tdiv den)
    i64 quot

def signed (side : Side) (fill : Int) : Option Int := if side = .buy then some fill else i128 (-fill)

def perShare (p : Position) (price : Int) : Option Int :=
  if 0 < p.qty then i128 (price - p.avgPrice) else i128 (p.avgPrice - price)

/-- The position after a fill, its average rounded as in the source. -/
def fillPosition (p : Position) (side : Side) (qty : Nat) (price : Int) : Option Position := do
  let held ← magnitude p.qty
  let fill : Int := qty
  let signed ← signed side fill
  let after ← i128 (p.qty + signed)
  if p.qty = 0 ∨ (0 < p.qty ↔ side = .buy) then do
    let avg ← average p.avgPrice held price fill
    let realized ← i128 (p.realized + 0)
    some { qty := clamp64 after, avgPrice := avg, realized := clamp64 realized }
  else do
    let per ← perShare p price
    let gain ← i128 (per * min held fill)
    let realized ← i128 (p.realized + gain)
    some
      { qty := clamp64 after
        avgPrice := if after = 0 then 0 else if ¬(0 < after ↔ 0 < p.qty) then price else p.avgPrice
        realized := clamp64 realized }

def onFill (r : RiskEngine) (locate : Nat) (side : Side) (qty : Nat) (price : Int) : Option RiskEngine :=
  if locate < r.locates ∧ qty ≠ 0 ∧ 0 < price then do
    let s := r.slots locate
    let p ← fillPosition s.pos side qty price
    let moved ← i128 (p.realized - s.pos.realized)
    let realizedTotal ← i128 (r.realizedTotal + moved)
    let r ← refresh { r with realizedTotal := realizedTotal } locate { s with pos := p }
    settle r
  else some r

def mark (r : RiskEngine) (locate : Nat) (markPrice : Int) : Option RiskEngine :=
  if locate < r.locates ∧ 0 < markPrice then do
    let r ← refresh r locate { r.slots locate with mark := markPrice }
    settle r
  else some r

/-- The notional limit is exceeded. -/
def overNotional (r : RiskEngine) (price : Int) (qty : Nat) : Option Bool :=
  if 0 < r.limits.maxOrderNotional then do
    let notional ← i128 (price * qty)
    some (decide (r.limits.maxOrderNotional < notional))
  else some false

/-- The position and the gross limit. -/
def exposureRefusal (r : RiskEngine) (s : Slot) (side : Side) (add : Nat) : Option (Option Reject) :=
  if add ≠ 0 then do
    let sameLeg ← leg s side add
    let sameLeg ← magnitude sameLeg
    let held ← magnitude s.pos.qty
    if r.limits.maxPosition < sameLeg ∧ held < sameLeg then some (some Reject.position)
    else if 0 < r.limits.maxGrossPosition then do
      let otherLeg ← leg s (opposite side) 0
      let otherLeg ← magnitude otherLeg
      let rest ← i128 (r.gross - s.exposure)
      let grossAfter ← i128 (rest + max sameLeg otherLeg)
      if r.limits.maxGrossPosition < grossAfter ∧ r.gross < grossAfter then some (some .grossPosition) else some none
    else some none
  else some none

def bandRefusal (r : RiskEngine) (price reference : Int) : Option (Option Reject) :=
  if r.limits.priceBandBps ≠ 0 then
    if reference ≤ 0 then
      if r.limits.requireReference then some (some Reject.noReference) else some none
    else do
      let gap ← i128 (price - reference)
      let gap ← magnitude gap
      let gap ← i128 (gap * kBasisPoints)
      let band ← i128 (reference * r.limits.priceBandBps)
      if band < gap then some (some .priceBand) else some none
  else some none

/-- The checks of an order, in their order. -/
def assess (r : RiskEngine) (locate : Nat) (side : Side) (price : Int) (qty add : Nat) (replacing : Bool) (reference : Int)
    (now : Nat) : Option Reject :=
  let adds := !replacing || add != 0
  if r.killSwitch && adds then some .killSwitch
  else if r.locates ≤ locate ∨ qty = 0 ∨ price ≤ 0 then some .invalidOrder
  else if r.limits.maxOrderQty < qty then some .orderQty
  else do
    let exceeds ← overNotional r price qty
    if exceeds then some .orderNotional
    else do
      let refusal ← exposureRefusal r (r.slots locate) side add
      match refusal with
      | some reject => some reject
      | none => do
        let refusal ← bandRefusal r price reference
        match refusal with
        | some reject => some reject
        | none =>
          if adds && !r.rateHasRoom now then some .rateLimit
          else if !replacing ∧ r.limits.maxOpenOrders ≠ 0 ∧ r.limits.maxOpenOrders ≤ r.openTotal then some .openOrders
          else some .none

def totalPnl (r : RiskEngine) : Option Int := do
  let total ← i128 (r.realizedTotal + r.unrealizedTotal)
  i64 (clamp64 total)

def evaluateAny (r : RiskEngine) (locate : Nat) (side : Option Side) (price : Int) (qty : Nat) (reference : Int)
    (now : Nat) : Option Reject :=
  match side with
  | some side => assess r locate side price qty qty false reference now
  | none => if r.killSwitch then some .killSwitch else some .invalidOrder

def evaluateReplaceAny (r : RiskEngine) (locate : Nat) (side : Option Side) (price : Int) (openQty growth : Nat)
    (reference : Int) (now : Nat) : Option Reject :=
  match side with
  | some side => assess r locate side price openQty growth true reference now
  | none => if r.killSwitch && growth != 0 then some .killSwitch else some .invalidOrder

def apply (r : RiskEngine) : Op → Option RiskEngine
  | .check l side price qty reference now => do
    let verdict ← evaluateAny r l side price qty reference now
    some (if verdict = .none then r.admitOrder now else r)
  | .admitOrder now => some (r.admitOrder now)
  | .orderOpen l (some side) qty => onOrderOpen r l side qty
  | .orderGrow l (some side) qty => onOrderGrow r l side qty
  | .orderReduce l (some side) qty => onOrderReduce r l side qty
  | .orderEnd l (some side) qty => onOrderEnd r l side qty
  | .orderClosed l (some side) qty => onOrderClosed r l side qty
  | .fill l (some side) qty price => onFill r l side qty price
  | .mark l price => mark r l price
  | .setKillSwitch on => some (r.setKillSwitch on)
  | _ => some r

end Checked

/-! ## Ranges -/

/-- The values of the C++ types of the limits. -/
structure Limits.Typed (limits : Limits) : Prop where
  maxLoss : limits.maxLoss ≤ kInt64Max
  priceBandBps : limits.priceBandBps ≤ u32Max

theorem mul_range {a b m n : Int} (ha : -m ≤ a ∧ a ≤ m) (hb : -n ≤ b ∧ b ≤ n) : -(m * n) ≤ a * b ∧ a * b ≤ m * n := by
  have hm : 0 ≤ m := by omega
  have habs : |a * b| ≤ m * n := by
    rw [abs_mul]
    exact mul_le_mul (abs_le.mpr ha) (abs_le.mpr hb) (abs_nonneg b) hm
  exact abs_le.mp habs

theorem sum_range_bounds {n : Nat} (hn : n ≤ kMaxLocates) {f : Nat → Int} (hf : ∀ i, -kInt64Max ≤ f i ∧ f i ≤ kInt64Max) :
    -604462909807314587287552 ≤ ∑ i ∈ range n, f i ∧ ∑ i ∈ range n, f i ≤ 604462909807314587287552 := by
  unfold kMaxLocates at hn
  have hup : ∑ i ∈ range n, f i ≤ _ := sum_le_card_nsmul (range n) f kInt64Max fun i _ => (hf i).2
  have hlo : _ ≤ ∑ i ∈ range n, f i := card_nsmul_le_sum (range n) f (-kInt64Max) fun i _ => (hf i).1
  simp only [card_range, nsmul_eq_mul] at hup hlo
  unfold kInt64Max at hup hlo
  omega

theorem magnitude_range {v m : Int} (h : -m ≤ v ∧ v ≤ m) : 0 ≤ magnitude v ∧ magnitude v ≤ m := by
  unfold magnitude
  split_ifs <;> omega

namespace RiskEngine
variable {r : RiskEngine}

theorem unrealizedOf_range (s : Slot) : -kInt64Max ≤ unrealizedOf s ∧ unrealizedOf s ≤ kInt64Max := by
  unfold unrealizedOf
  split_ifs
  · exact clamp64_range _
  · unfold kInt64Max
    omega

theorem worst_range (s : Slot) : -kInt64Max ≤ worst s ∧ worst s ≤ kInt64Max := clamp64_range _

/-- The totals are far inside of 128 bits. -/
structure Totals (r : RiskEngine) : Prop where
  realized : -604462909807314587287552 ≤ r.realizedTotal ∧ r.realizedTotal ≤ 604462909807314587287552
  unrealized : -604462909807314587287552 ≤ r.unrealizedTotal ∧ r.unrealizedTotal ≤ 604462909807314587287552
  gross : -604462909807314587287552 ≤ r.gross ∧ r.gross ≤ 604462909807314587287552

theorem Exact.totals (h : r.Exact) : r.Totals := by
  refine ⟨?_, ?_, ?_⟩
  · rw [h.realizedTotal]
    exact sum_range_bounds h.locates fun l => (h.slot l).realized
  · rw [h.unrealizedTotal]
    exact sum_range_bounds h.locates fun l => unrealizedOf_range _
  · rw [h.gross]
    exact sum_range_bounds h.locates fun l => worst_range _

theorem leg_range {s : Slot} (h : SlotOk s) (side : Side) {extra : Int} (he : 0 ≤ extra ∧ extra ≤ u32Max) :
    -18446744078004518909 ≤ leg s side extra ∧ leg s side extra ≤ 18446744078004518909 := by
  have hq := h.qty
  have hs := h.shares side
  unfold kInt64Max at hq hs
  unfold u32Max at he
  cases side with
  | buy =>
    unfold leg
    dsimp only
    omega
  | sell =>
    unfold leg
    dsimp only
    omega

end RiskEngine

/-! ## Nothing overflows -/

namespace Checked
variable {r : RiskEngine} {l : Nat} {s : Slot} {side : Side} {q : Nat}

theorem magnitude_eq {v : Int} (h : -170141183460469231731687303715884105727 ≤ v) : magnitude v = some (Risk.magnitude v) := by
  unfold magnitude Risk.magnitude
  split_ifs with hv
  · exact i128_eq (by omega)
  · rfl

theorem leg_eq (h : SlotOk s) (side : Side) {extra : Int} (he : 0 ≤ extra ∧ extra ≤ u32Max) :
    leg s side extra = some (RiskEngine.leg s side extra) := by
  have hq := h.qty
  have hs := h.shares side
  unfold kInt64Max at hq hs
  unfold u32Max at he
  cases side with
  | buy =>
    have h₁ : i128 (s.pos.qty + s.openShares .buy) = some (s.pos.qty + s.openShares .buy) := i128_eq (by omega)
    have h₂ : i128 (s.pos.qty + s.openShares .buy + extra) = some (s.pos.qty + s.openShares .buy + extra) := i128_eq (by omega)
    simp only [leg, h₁, h₂, Option.bind_eq_bind, Option.bind_some, RiskEngine.leg]
  | sell =>
    have h₁ : i128 (s.pos.qty - s.openShares .sell) = some (s.pos.qty - s.openShares .sell) := i128_eq (by omega)
    have h₂ : i128 (s.pos.qty - s.openShares .sell - extra) = some (s.pos.qty - s.openShares .sell - extra) := i128_eq (by omega)
    simp only [leg, h₁, h₂, Option.bind_eq_bind, Option.bind_some, RiskEngine.leg]

theorem i64_clamp64 (v : Int) : i64 (clamp64 v) = some (clamp64 v) := by
  have h := clamp64_range v
  unfold kInt64Max at h
  exact i64_eq (by omega)

theorem legMagnitude_eq (h : SlotOk s) (side : Side) {extra : Int} (he : 0 ≤ extra ∧ extra ≤ u32Max) :
    magnitude (RiskEngine.leg s side extra) = some (Risk.magnitude (RiskEngine.leg s side extra)) :=
  magnitude_eq (by have := RiskEngine.leg_range h side he; omega)

theorem worst_eq (h : SlotOk s) : worst s = some (RiskEngine.worst s) := by
  have h₀ : (0 : Int) ≤ 0 ∧ (0 : Int) ≤ u32Max := by decide
  simp only [worst, leg_eq h .buy h₀, leg_eq h .sell h₀, legMagnitude_eq h .buy h₀, legMagnitude_eq h .sell h₀,
    i64_clamp64, Option.bind_eq_bind, Option.bind_some, RiskEngine.worst]

theorem unrealizedOf_eq (h : SlotOk s) : unrealizedOf s = some (RiskEngine.unrealizedOf s) := by
  unfold unrealizedOf RiskEngine.unrealizedOf
  split_ifs
  · have hm := h.mark
    have ha := h.avg
    have hgap : -kInt64Max ≤ s.mark - s.pos.avgPrice ∧ s.mark - s.pos.avgPrice ≤ kInt64Max := by omega
    have hmul := mul_range hgap h.qty
    unfold kInt64Max at hgap hmul
    have h₁ : i128 (s.mark - s.pos.avgPrice) = some (s.mark - s.pos.avgPrice) := i128_eq (by omega)
    have h₂ : i128 ((s.mark - s.pos.avgPrice) * s.pos.qty) = some ((s.mark - s.pos.avgPrice) * s.pos.qty) :=
      i128_eq (by omega)
    simp only [h₁, h₂, i64_clamp64, Option.bind_eq_bind, Option.bind_some]
  · rfl

/-- A slot is stored; `hx` is about what comes out. -/
theorem refresh_eq (h : SlotOk s) (hu : -kInt64Max ≤ s.unrealized ∧ s.unrealized ≤ kInt64Max)
    (he : -kInt64Max ≤ s.exposure ∧ s.exposure ≤ kInt64Max) (hx : (r.refresh l s).Exact) :
    refresh r l s = some (r.refresh l s) := by
  have htotals := hx.totals
  have hg : -604462909807314587287552 ≤ r.gross + (RiskEngine.worst s - s.exposure) ∧
      r.gross + (RiskEngine.worst s - s.exposure) ≤ 604462909807314587287552 := htotals.gross
  have ht : -604462909807314587287552 ≤ r.unrealizedTotal + (RiskEngine.unrealizedOf s - s.unrealized) ∧
      r.unrealizedTotal + (RiskEngine.unrealizedOf s - s.unrealized) ≤ 604462909807314587287552 := htotals.unrealized
  have hw := RiskEngine.worst_range s
  have hun := RiskEngine.unrealizedOf_range s
  unfold kInt64Max at *
  have h₁ : i128 (RiskEngine.unrealizedOf s - s.unrealized) = some (RiskEngine.unrealizedOf s - s.unrealized) :=
    i128_eq (by omega)
  have h₂ : i128 (r.unrealizedTotal + (RiskEngine.unrealizedOf s - s.unrealized)) =
      some (r.unrealizedTotal + (RiskEngine.unrealizedOf s - s.unrealized)) := i128_eq (by omega)
  have h₃ : i128 (RiskEngine.worst s - s.exposure) = some (RiskEngine.worst s - s.exposure) := i128_eq (by omega)
  have h₄ : i128 (r.gross + (RiskEngine.worst s - s.exposure)) = some (r.gross + (RiskEngine.worst s - s.exposure)) :=
    i128_eq (by omega)
  simp only [refresh, unrealizedOf_eq h, worst_eq h, h₁, h₂, h₃, h₄, Option.bind_eq_bind, Option.bind_some,
    RiskEngine.refresh]

/-! ## The calls -/

theorem grow_eq (h : SlotOk s) (hq : q ≤ u32Max) : grow s side q =
    some { s with openShares := Function.update s.openShares side (clamp64 (s.openShares side + q)) } := by
  have hs := h.shares side
  unfold kInt64Max at hs
  unfold u32Max at hq
  have h₁ : i128 (s.openShares side + q) = some (s.openShares side + q) := i128_eq (by omega)
  simp only [grow, h₁, i64_clamp64, Option.bind_eq_bind, Option.bind_some]

theorem release_eq (h : SlotOk s) : release s side q = some (RiskEngine.release s side q) := by
  have hs := h.shares side
  unfold kInt64Max at hs
  have h₁ : i64 (s.openShares side - min (q : Int) (s.openShares side)) =
      some (s.openShares side - min (q : Int) (s.openShares side)) := i64_eq (by omega)
  simp only [release, h₁, Option.bind_eq_bind, Option.bind_some, RiskEngine.release]

theorem cached (h : r.Exact) (l : Nat) : (-kInt64Max ≤ (r.slots l).unrealized ∧ (r.slots l).unrealized ≤ kInt64Max) ∧
    (-kInt64Max ≤ (r.slots l).exposure ∧ (r.slots l).exposure ≤ kInt64Max) := by
  rw [h.unrealized, h.exposure]
  exact ⟨RiskEngine.unrealizedOf_range _, RiskEngine.worst_range _⟩

theorem onOrderOpen_eq (h : r.Exact) (hq : q ≤ u32Max) : onOrderOpen r l side q = some (r.onOrderOpen l side q) := by
  have hx : (r.onOrderOpen l side q).Exact := h.onOrderOpen
  obtain ⟨hu, he⟩ := cached h l
  unfold onOrderOpen
  unfold RiskEngine.onOrderOpen at hx ⊢
  by_cases hv : l < r.locates ∧ q ≠ 0
  · rw [if_pos hv] at hx ⊢
    rw [if_pos hv, grow_eq (h.slot l) hq]
    simp only [Option.bind_eq_bind, Option.bind_some]
    have hgrow := (h.slot l).grow side q
    by_cases hc : (r.slots l).openCount side ≠ u32Max
    · rw [if_pos hc] at hx ⊢
      rw [if_pos hc]
      have hle := (h.slot l).count side
      exact refresh_eq (hgrow.setCount side (by omega)) hu he hx
    · rw [if_neg hc] at hx ⊢
      rw [if_neg hc]
      exact refresh_eq hgrow hu he hx
  · rw [if_neg hv, if_neg hv]

theorem onOrderGrow_eq (h : r.Exact) (hq : q ≤ u32Max) : onOrderGrow r l side q = some (r.onOrderGrow l side q) := by
  have hx : (r.onOrderGrow l side q).Exact := h.onOrderGrow
  obtain ⟨hu, he⟩ := cached h l
  unfold onOrderGrow
  unfold RiskEngine.onOrderGrow at hx ⊢
  by_cases hv : l < r.locates ∧ q ≠ 0
  · rw [if_pos hv] at hx ⊢
    rw [if_pos hv, grow_eq (h.slot l) hq]
    exact refresh_eq ((h.slot l).grow side q) hu he hx
  · rw [if_neg hv, if_neg hv]

theorem onOrderReduce_eq (h : r.Exact) : onOrderReduce r l side q = some (r.onOrderReduce l side q) := by
  have hx : (r.onOrderReduce l side q).Exact := h.onOrderReduce
  obtain ⟨hu, he⟩ := cached h l
  unfold onOrderReduce
  unfold RiskEngine.onOrderReduce at hx ⊢
  by_cases hv : l < r.locates
  · rw [if_pos hv] at hx ⊢
    rw [if_pos hv, release_eq (h.slot l)]
    exact refresh_eq ((h.slot l).release side q) hu he hx
  · rw [if_neg hv, if_neg hv]

theorem onOrderEnd_eq (h : r.Exact) : onOrderEnd r l side q = some (r.onOrderEnd l side q) := by
  have hx : (r.onOrderEnd l side q).Exact := h.onOrderEnd
  obtain ⟨hu, he⟩ := cached h l
  have hrelease := (h.slot l).release side q
  have hle := hrelease.count side
  unfold onOrderEnd
  unfold RiskEngine.onOrderEnd at hx ⊢
  by_cases hv : l < r.locates
  · rw [if_pos hv] at hx ⊢
    rw [if_pos hv, release_eq (h.slot l)]
    simp only [Option.bind_eq_bind, Option.bind_some]
    by_cases hc : (RiskEngine.release (r.slots l) side q).openCount side ≠ 0
    · rw [if_pos hc] at hx ⊢
      rw [if_pos hc]
      exact refresh_eq (hrelease.setCount side (by omega)) hu he hx
    · rw [if_neg hc] at hx ⊢
      rw [if_neg hc]
      exact refresh_eq hrelease hu he hx
  · rw [if_neg hv, if_neg hv]

theorem onOrderClosed_eq (h : r.Exact) : onOrderClosed r l side q = some (r.onOrderClosed l side q) := by
  have hx : (r.onOrderClosed l side q).Exact := h.onOrderClosed
  obtain ⟨hu, he⟩ := cached h l
  have hrelease := (h.slot l).release side q
  have hle := hrelease.count side
  unfold onOrderClosed
  unfold RiskEngine.onOrderClosed at hx ⊢
  by_cases hv : l < r.locates
  · rw [if_pos hv] at hx ⊢
    rw [if_pos hv, release_eq (h.slot l)]
    exact refresh_eq (hrelease.setCount side ((Nat.min_le_left _ _).trans hle)) hu he hx
  · rw [if_neg hv, if_neg hv]

/-- The peak is a total that was seen. -/
def Sampled (r : RiskEngine) : Prop := 0 ≤ r.peakPnl ∧ r.peakPnl ≤ 1208925819614629174575104

theorem settle_eq (h : r.Exact) (hp : Sampled r) (hl : r.limits.Typed) : settle r = some r.settle := by
  have ht := h.totals
  have hr := ht.realized
  have hu := ht.unrealized
  have hloss := hl.maxLoss
  unfold Sampled at hp
  unfold kInt64Max at hloss
  have h₁ : i128 (r.realizedTotal + r.unrealizedTotal) = some (r.realizedTotal + r.unrealizedTotal) := i128_eq (by omega)
  have h₂ : i128 (max r.peakPnl (r.realizedTotal + r.unrealizedTotal) - (r.realizedTotal + r.unrealizedTotal)) =
      some (max r.peakPnl (r.realizedTotal + r.unrealizedTotal) - (r.realizedTotal + r.unrealizedTotal)) :=
    i128_eq (by omega)
  simp only [settle, h₁, h₂, Option.bind_eq_bind, Option.bind_some, RiskEngine.settle]
  by_cases hm : 0 < r.limits.maxLoss
  · have h₃ : i128 (-r.limits.maxLoss) = some (-r.limits.maxLoss) := i128_eq (by omega)
    simp only [hm, h₃, if_true, Option.bind_some, true_and]
  · simp only [hm, if_false, false_and, decide_false]

theorem Sampled.settle (h : r.Exact) (hp : Sampled r) : Sampled r.settle := by
  have ht := h.totals
  have hr := ht.realized
  have hu := ht.unrealized
  unfold Sampled at hp ⊢
  show 0 ≤ max r.peakPnl (r.realizedTotal + r.unrealizedTotal) ∧ max r.peakPnl (r.realizedTotal + r.unrealizedTotal) ≤ _
  omega

theorem average_eq {avg held price : Int} (ha : 0 ≤ avg ∧ avg ≤ kInt64Max) (hh : 0 ≤ held ∧ held ≤ kInt64Max)
    (hp : 0 < price ∧ price ≤ kInt64Max) (hq : 0 < q) (hq' : q ≤ u32Max) :
    average avg held price q = some ((avg * held + price * q).tdiv (held + q)) := by
  have hquot := average_between (a := avg) (p := price) (m := held) (n := q) hh.1 (by omega) (le_refl 0)
    (fun _ => ha) ⟨hp.1.le, hp.2⟩
  unfold kInt64Max at *
  unfold u32Max at hq'
  have hm₁ := mul_range (a := avg) (b := held) (m := 9223372036854775807) (n := 9223372036854775807) (by omega) (by omega)
  have hm₂ := mul_range (a := price) (b := q) (m := 9223372036854775807) (n := 4294967295) (by omega) (by omega)
  have h₁ : i128 (avg * held) = some (avg * held) := i128_eq (by omega)
  have h₂ : i128 (price * q) = some (price * q) := i128_eq (by omega)
  have h₃ : i128 (avg * held + price * q) = some (avg * held + price * q) := i128_eq (by omega)
  have h₄ : i128 (held + q) = some (held + q) := i128_eq (by omega)
  have h₅ : i128 ((avg * held + price * q).tdiv (held + q)) = some ((avg * held + price * q).tdiv (held + q)) :=
    i128_eq (by omega)
  have h₆ : i64 ((avg * held + price * q).tdiv (held + q)) = some ((avg * held + price * q).tdiv (held + q)) :=
    i64_eq (by omega)
  have hden : held + (q : Int) ≠ 0 := by omega
  simp only [average, h₁, h₂, h₃, h₄, h₅, h₆, hden, if_false, Option.bind_eq_bind, Option.bind_some]

theorem fillPosition_eq (h : SlotOk s) {price : Int} (hp : 0 < price ∧ price ≤ kInt64Max) (hq : 0 < q) (hq' : q ≤ u32Max) :
    fillPosition s.pos side q price = some (RiskEngine.fillPosition s.pos side q price) := by
  have hqty := h.qty
  have havg := h.avg
  have hreal := h.realized
  have hmag := magnitude_range hqty
  have hmag₁ : magnitude s.pos.qty = some (Risk.magnitude s.pos.qty) :=
    magnitude_eq (by unfold kInt64Max at hqty; omega)
  have hneg : i128 (-(q : Int)) = some (-(q : Int)) := i128_eq (by unfold u32Max at hq'; omega)
  have hsigned : signed side q = some (if side = .buy then (q : Int) else -q) := by
    unfold signed
    split_ifs
    · rfl
    · exact hneg
  have hafter : i128 (s.pos.qty + if side = .buy then (q : Int) else -q) =
      some (s.pos.qty + if side = .buy then (q : Int) else -q) := by
    refine i128_eq ?_
    unfold kInt64Max at hqty
    unfold u32Max at hq'
    split_ifs <;> omega
  unfold fillPosition RiskEngine.fillPosition
  simp only [hmag₁, hsigned, hafter, Option.bind_eq_bind, Option.bind_some]
  by_cases hext : s.pos.qty = 0 ∨ (0 < s.pos.qty ↔ side = .buy)
  · have hz : i128 s.pos.realized = some s.pos.realized := i128_eq (by unfold kInt64Max at hreal; omega)
    simp only [hext, if_true, average_eq havg hmag hp hq hq', add_zero, hz, Option.bind_some]
  · have hper : perShare s.pos price =
        some (if 0 < s.pos.qty then price - s.pos.avgPrice else s.pos.avgPrice - price) := by
      unfold kInt64Max at *
      unfold perShare
      split_ifs
      · exact i128_eq (by omega)
      · exact i128_eq (by omega)
    have hrange : -kInt64Max ≤ (if 0 < s.pos.qty then price - s.pos.avgPrice else s.pos.avgPrice - price) ∧
        (if 0 < s.pos.qty then price - s.pos.avgPrice else s.pos.avgPrice - price) ≤ kInt64Max := by
      split_ifs <;> omega
    generalize (if 0 < s.pos.qty then price - s.pos.avgPrice else s.pos.avgPrice - price) = per at hper hrange ⊢
    have hclosed : -4294967295 ≤ min (Risk.magnitude s.pos.qty) (q : Int) ∧ min (Risk.magnitude s.pos.qty) (q : Int) ≤ 4294967295 := by
      unfold u32Max at hq'
      omega
    have hmul := mul_range hrange hclosed
    unfold kInt64Max at hmul hreal
    have h₁ : i128 (per * min (Risk.magnitude s.pos.qty) (q : Int)) = some (per * min (Risk.magnitude s.pos.qty) (q : Int)) :=
      i128_eq (by omega)
    have h₂ : i128 (s.pos.realized + per * min (Risk.magnitude s.pos.qty) (q : Int)) =
        some (s.pos.realized + per * min (Risk.magnitude s.pos.qty) (q : Int)) := i128_eq (by omega)
    simp only [hext, if_false, hper, h₁, h₂, Option.bind_some]

theorem onFill_eq (h : r.Exact) (hp : Sampled r) (hl : r.limits.Typed) {price : Int} (hq : q ≤ u32Max)
    (hprice : price ≤ kInt64Max) : onFill r l side q price = some (r.onFill l side q price) := by
  obtain ⟨hu, he⟩ := cached h l
  unfold onFill RiskEngine.onFill
  by_cases hv : l < r.locates ∧ q ≠ 0 ∧ 0 < price
  · rw [if_pos hv, if_pos hv]
    have hslot := (h.slot l).fill side hv.2.1 hv.2.2 hprice
    have hx : ({ r with realizedTotal := r.realizedTotal +
        ((RiskEngine.fillPosition (r.slots l).pos side q price).realized - (r.slots l).pos.realized) }.refresh l
        { r.slots l with pos := RiskEngine.fillPosition (r.slots l).pos side q price }).Exact :=
      h.store hv.1 hslot rfl rfl rfl rfl rfl rfl rfl rfl
    have ht := hx.totals.realized
    have hold := (h.slot l).realized
    have hnew := hslot.realized
    dsimp only [RiskEngine.refresh] at ht hnew
    unfold kInt64Max at hold hnew
    have h₁ : i128 ((RiskEngine.fillPosition (r.slots l).pos side q price).realized - (r.slots l).pos.realized) =
        some ((RiskEngine.fillPosition (r.slots l).pos side q price).realized - (r.slots l).pos.realized) :=
      i128_eq (by omega)
    have h₂ : i128 (r.realizedTotal + ((RiskEngine.fillPosition (r.slots l).pos side q price).realized -
        (r.slots l).pos.realized)) = some _ := i128_eq (by omega)
    simp only [fillPosition_eq (h.slot l) ⟨hv.2.2, hprice⟩ (Nat.pos_of_ne_zero hv.2.1) hq, h₁, h₂, Option.bind_eq_bind,
      Option.bind_some]
    rw [refresh_eq hslot hu he hx, Option.bind_some]
    exact settle_eq hx hp hl
  · rw [if_neg hv, if_neg hv]

theorem mark_eq (h : r.Exact) (hp : Sampled r) (hl : r.limits.Typed) {price : Int} (hprice : price ≤ kInt64Max) :
    mark r l price = some (r.mark l price) := by
  obtain ⟨hu, he⟩ := cached h l
  unfold mark RiskEngine.mark
  by_cases hv : l < r.locates ∧ 0 < price
  · rw [if_pos hv, if_pos hv]
    have hslot := (h.slot l).setMark hv.2 hprice
    have hx : (r.refresh l { r.slots l with mark := price }).Exact :=
      h.store hv.1 hslot rfl rfl rfl rfl rfl rfl (by simp) rfl
    simp only [Option.bind_eq_bind]
    rw [refresh_eq hslot hu he hx, Option.bind_some]
    exact settle_eq hx hp hl
  · rw [if_neg hv, if_neg hv]

/-! ## The verdicts -/

theorem overNotional_eq {price : Int} (hp : 0 < price ∧ price ≤ kInt64Max) (hq : q ≤ u32Max) :
    overNotional r price q = some (decide (0 < r.limits.maxOrderNotional ∧ r.limits.maxOrderNotional < price * q)) := by
  unfold overNotional
  unfold kInt64Max at hp
  unfold u32Max at hq
  have hmul := mul_range (a := price) (b := q) (m := 9223372036854775807) (n := 4294967295) (by omega) (by omega)
  have h₁ : i128 (price * q) = some (price * q) := i128_eq (by omega)
  by_cases h : 0 < r.limits.maxOrderNotional
  · simp [h, h₁]
  · simp [h]

theorem exposureRefusal_eq (h : r.Exact) (hq : q ≤ u32Max) : exposureRefusal r (r.slots l) side q = some
    (if q ≠ 0 ∧ r.limits.maxPosition < Risk.magnitude (RiskEngine.leg (r.slots l) side q) ∧
        Risk.magnitude (r.slots l).pos.qty < Risk.magnitude (RiskEngine.leg (r.slots l) side q) then some Reject.position
      else if q ≠ 0 ∧ 0 < r.limits.maxGrossPosition ∧
          r.limits.maxGrossPosition < r.gross - (r.slots l).exposure +
            max (Risk.magnitude (RiskEngine.leg (r.slots l) side q))
              (Risk.magnitude (RiskEngine.leg (r.slots l) (opposite side) 0)) ∧
          r.gross < r.gross - (r.slots l).exposure +
            max (Risk.magnitude (RiskEngine.leg (r.slots l) side q))
              (Risk.magnitude (RiskEngine.leg (r.slots l) (opposite side) 0)) then some .grossPosition
      else none) := by
  have hs := h.slot l
  have hqr : (0 : Int) ≤ q ∧ (q : Int) ≤ u32Max := by omega
  have h₀ : (0 : Int) ≤ 0 ∧ (0 : Int) ≤ u32Max := by decide
  have hqty := hs.qty
  have hheld : magnitude (r.slots l).pos.qty = some (Risk.magnitude (r.slots l).pos.qty) :=
    magnitude_eq (by unfold kInt64Max at hqty; omega)
  have hsame := magnitude_range (RiskEngine.leg_range hs side hqr)
  have hother := magnitude_range (RiskEngine.leg_range hs (opposite side) h₀)
  have hg := h.totals.gross
  have he := (cached h l).2
  unfold kInt64Max at he
  have h₁ : i128 (r.gross - (r.slots l).exposure) = some (r.gross - (r.slots l).exposure) := i128_eq (by omega)
  have h₂ : i128 (r.gross - (r.slots l).exposure + max (Risk.magnitude (RiskEngine.leg (r.slots l) side q))
      (Risk.magnitude (RiskEngine.leg (r.slots l) (opposite side) 0))) = some _ := i128_eq (by omega)
  unfold exposureRefusal
  by_cases hz : q ≠ 0
  · simp only [leg_eq hs side hqr, legMagnitude_eq hs side hqr, hheld,
      leg_eq hs (opposite side) h₀, legMagnitude_eq hs (opposite side) h₀, h₁, h₂, Option.bind_eq_bind, Option.bind_some]
    split_ifs <;> first | rfl | omega
  · simp only [hz, if_false, false_and]

theorem bandRefusal_eq (hl : r.limits.Typed) {price reference : Int} (hp : 0 < price ∧ price ≤ kInt64Max)
    (href : reference ≤ kInt64Max) : bandRefusal r price reference = some
    (if r.limits.priceBandBps ≠ 0 ∧ reference ≤ 0 ∧ r.limits.requireReference = true then some Reject.noReference
      else if r.limits.priceBandBps ≠ 0 ∧ 0 < reference ∧
          reference * r.limits.priceBandBps < Risk.magnitude (price - reference) * kBasisPoints then some .priceBand
      else none) := by
  unfold bandRefusal
  by_cases hb : r.limits.priceBandBps = 0
  · simp only [ne_eq, hb, not_true_eq_false, if_false, false_and]
  · by_cases hr : reference ≤ 0
    · have hr' : ¬0 < reference := by omega
      simp only [ne_eq, hb, hr, hr', not_false_eq_true, if_true, true_and, false_and, if_false]
      split_ifs <;> rfl
    · have hr' : 0 < reference := by omega
      have hbps := hl.priceBandBps
      unfold u32Max at hbps
      unfold kInt64Max at hp href
      have hgap := magnitude_range (v := price - reference) (m := 9223372036854775807) (by omega)
      have hm₁ := mul_range (a := Risk.magnitude (price - reference)) (b := kBasisPoints) (m := 9223372036854775807)
        (n := 10000) (by omega) (by decide)
      have hm₂ := mul_range (a := reference) (b := r.limits.priceBandBps) (m := 9223372036854775807) (n := 4294967295)
        (by omega) (by omega)
      have h₁ : i128 (price - reference) = some (price - reference) := i128_eq (by omega)
      have h₂ : magnitude (price - reference) = some (Risk.magnitude (price - reference)) := magnitude_eq (by omega)
      have h₃ : i128 (Risk.magnitude (price - reference) * kBasisPoints) =
          some (Risk.magnitude (price - reference) * kBasisPoints) := i128_eq (by omega)
      have h₄ : i128 (reference * r.limits.priceBandBps) = some (reference * r.limits.priceBandBps) := i128_eq (by omega)
      simp only [ne_eq, hb, hr, hr', not_false_eq_true, if_true, true_and, false_and, and_false, if_false, h₁, h₂, h₃, h₄,
        Option.bind_eq_bind, Option.bind_some]
      split_ifs <;> rfl

theorem assess_eq (h : r.Exact) (hl : r.limits.Typed) {price reference : Int} (hp : price ≤ kInt64Max) {add : Nat}
    (hq : q ≤ u32Max) (ha : add ≤ u32Max) (href : reference ≤ kInt64Max) (replacing : Bool) (now : Nat) :
    assess r l side price q add replacing reference now = some (r.assess l side price q add replacing reference now) := by
  unfold assess RiskEngine.assess
  dsimp only
  by_cases h₁ : (r.killSwitch && (!replacing || add != 0)) = true
  · rw [if_pos h₁, if_pos h₁]
  rw [if_neg h₁, if_neg h₁]
  by_cases h₂ : r.locates ≤ l ∨ q = 0 ∨ price ≤ 0
  · rw [if_pos h₂, if_pos h₂]
  rw [if_neg h₂, if_neg h₂]
  by_cases h₃ : r.limits.maxOrderQty < q
  · rw [if_pos h₃, if_pos h₃]
  rw [if_neg h₃, if_neg h₃]
  have hpos : 0 < price ∧ price ≤ kInt64Max := ⟨by omega, hp⟩
  rw [overNotional_eq hpos hq, exposureRefusal_eq h ha, bandRefusal_eq hl hpos href]
  simp only [Option.bind_eq_bind, Option.bind_some, decide_eq_true_eq]
  by_cases h₄ : 0 < r.limits.maxOrderNotional ∧ r.limits.maxOrderNotional < price * q
  · rw [if_pos h₄, if_pos h₄]
  rw [if_neg h₄, if_neg h₄]
  generalize Risk.magnitude (RiskEngine.leg (r.slots l) side add) = same
  generalize Risk.magnitude (RiskEngine.leg (r.slots l) (opposite side) 0) = other
  by_cases h₅ : add ≠ 0 ∧ r.limits.maxPosition < same ∧ Risk.magnitude (r.slots l).pos.qty < same
  · rw [if_pos h₅, if_pos h₅]
  rw [if_neg h₅, if_neg h₅]
  by_cases h₆ : add ≠ 0 ∧ 0 < r.limits.maxGrossPosition ∧
      r.limits.maxGrossPosition < r.gross - (r.slots l).exposure + max same other ∧
      r.gross < r.gross - (r.slots l).exposure + max same other
  · rw [if_pos h₆, if_pos h₆]
  rw [if_neg h₆, if_neg h₆]
  dsimp only
  by_cases h₇ : r.limits.priceBandBps ≠ 0 ∧ reference ≤ 0 ∧ r.limits.requireReference = true
  · rw [if_pos h₇, if_pos h₇]
  rw [if_neg h₇, if_neg h₇]
  by_cases h₈ : r.limits.priceBandBps ≠ 0 ∧ 0 < reference ∧
      reference * r.limits.priceBandBps < Risk.magnitude (price - reference) * kBasisPoints
  · rw [if_pos h₈, if_pos h₈]
  rw [if_neg h₈, if_neg h₈]
  dsimp only
  split_ifs <;> rfl

theorem evaluateAny_eq (h : r.Exact) (hl : r.limits.Typed) (side : Option Side) {price reference : Int} (hp : price ≤ kInt64Max)
    (hq : q ≤ u32Max) (href : reference ≤ kInt64Max) (now : Nat) :
    evaluateAny r l side price q reference now = some (r.evaluateAny l side price q reference now) := by
  cases side with
  | none =>
    unfold evaluateAny RiskEngine.evaluateAny
    split_ifs <;> rfl
  | some side => exact assess_eq h hl hp hq hq href false now

theorem evaluateReplaceAny_eq (h : r.Exact) (hl : r.limits.Typed) (side : Option Side) {price reference : Int} {growth : Nat}
    (hp : price ≤ kInt64Max) (hq : q ≤ u32Max) (hg : growth ≤ u32Max) (href : reference ≤ kInt64Max) (now : Nat) :
    evaluateReplaceAny r l side price q growth reference now =
      some (r.evaluateReplaceAny l side price q growth reference now) := by
  cases side with
  | none =>
    unfold evaluateReplaceAny RiskEngine.evaluateReplaceAny
    split_ifs <;> rfl
  | some side => exact assess_eq h hl hp hq hg href true now

/-- What the overflow results need of a state. -/
structure Sane (r : RiskEngine) : Prop where
  exact : r.Exact
  sampled : Sampled r
  limits : r.limits.Typed

/-- **No call overflows.** -/
theorem apply_eq (h : Sane r) {op : Op} (ht : op.Typed) : apply r op = some (r.apply op) := by
  cases op with
  | check l side price qty reference now =>
    obtain ⟨hp, hq, href⟩ := ht
    show ((evaluateAny r l side price qty reference now).bind _ : Option RiskEngine) = _
    rw [evaluateAny_eq h.exact h.limits side hp.2 hq href.2]
    rfl
  | admitOrder now => rfl
  | orderOpen l side qty =>
    cases side with
    | none => rfl
    | some side => exact onOrderOpen_eq h.exact ht
  | orderGrow l side qty =>
    cases side with
    | none => rfl
    | some side => exact onOrderGrow_eq h.exact ht
  | orderReduce l side qty =>
    cases side with
    | none => rfl
    | some side => exact onOrderReduce_eq h.exact
  | orderEnd l side qty =>
    cases side with
    | none => rfl
    | some side => exact onOrderEnd_eq h.exact
  | orderClosed l side qty =>
    cases side with
    | none => rfl
    | some side => exact onOrderClosed_eq h.exact
  | fill l side qty price =>
    cases side with
    | none => rfl
    | some side => exact onFill_eq h.exact h.sampled h.limits ht.1 ht.2.2
  | mark l price => exact mark_eq h.exact h.sampled h.limits ht.2
  | setKillSwitch on => rfl

theorem Sane.apply (h : Sane r) {op : Op} (ht : op.Typed) : Sane (r.apply op) := by
  have hx := h.exact.apply ht
  have he := r.effect op
  generalize r.apply op = r' at he hx
  cases he with
  | quiet _ r' _ _ _ hc =>
    refine ⟨hx, ?_, hc.limits ▸ h.limits⟩
    unfold Sampled
    rw [hc.peakPnl]
    exact h.sampled
  | recorded _ now _ =>
    have hsame : (r.rateRecord now).limits = r.limits ∧ (r.rateRecord now).peakPnl = r.peakPnl := by
      unfold RiskEngine.rateRecord
      by_cases hz : r.rateSize = 0
      · rw [if_pos hz]
        exact ⟨rfl, rfl⟩
      · rw [if_neg hz]
        exact ⟨rfl, rfl⟩
    refine ⟨hx, ?_, hsame.1 ▸ h.limits⟩
    unfold Sampled
    rw [hsame.2]
    exact h.sampled
  | sampled _ r₀ _ hc =>
    have hpeak : Sampled r₀ := by
      unfold Sampled
      rw [hc.peakPnl]
      exact h.sampled
    have hlimits : r₀.limits.Typed := hc.limits ▸ h.limits
    exact ⟨hx, .settle (hx.same rfl rfl rfl rfl rfl rfl) hpeak, hlimits⟩
  | switched on => exact ⟨hx, h.sampled, h.limits⟩

theorem Sane.after {limits : Limits} (hl : limits.Typed) (maxLocates : Nat) {ops : List Op} (hops : ∀ op ∈ ops, op.Typed) :
    Sane ((RiskEngine.new limits maxLocates).after ops) := by
  refine RiskEngine.after_invariant (P := Sane) (Q := Op.Typed) (fun r op h ht => h.apply ht) ?_ hops
  refine ⟨.new limits maxLocates, ?_, hl⟩
  unfold Sampled
  exact ⟨le_refl _, by show (0 : Int) ≤ _; decide⟩

theorem totalPnl_eq (h : r.Exact) : totalPnl r = some r.totalPnl := by
  have hr := h.totals.realized
  have hu := h.totals.unrealized
  have hsum : i128 (r.realizedTotal + r.unrealizedTotal) = some (r.realizedTotal + r.unrealizedTotal) := i128_eq (by omega)
  simp only [totalPnl, hsum, Option.bind_eq_bind, Option.bind_some]
  exact i64_clamp64 _

end Checked

namespace RiskEngine

theorem worst_eq_min (s : Slot) :
    worst s = min kInt64Max (max |s.pos.qty + s.openShares .buy| |s.pos.qty - s.openShares .sell|) := by
  unfold worst
  rw [leg_zero_buy, leg_zero_sell, magnitude_eq_abs, magnitude_eq_abs]
  have h₁ := abs_nonneg (s.pos.qty + s.openShares .buy)
  unfold clamp64 kInt64Max
  split_ifs <;> omega

/-- A 64-bit value that is not the smallest one. -/
def InRange (v : Int) : Prop := -kInt64Max ≤ v ∧ v ≤ kInt64Max

/-- **The caches are exact and nothing overflows**, after any calls with any arguments. -/
theorem caches_exact_and_no_overflow (limits : Limits) (hl : limits.Typed) (maxLocates : Nat) (ops : List Op)
    (hops : ∀ op ∈ ops, op.Typed) :
    let r := (new limits maxLocates).after ops
    (r.gross = ∑ l ∈ range r.locates, min kInt64Max (max |(r.slots l).pos.qty + (r.slots l).openShares .buy|
        |(r.slots l).pos.qty - (r.slots l).openShares .sell|) ∧
      r.unrealizedTotal = ∑ l ∈ range r.locates, (if 0 < (r.slots l).mark ∧ (r.slots l).pos.qty ≠ 0 then
        clamp64 (((r.slots l).mark - (r.slots l).pos.avgPrice) * (r.slots l).pos.qty) else 0) ∧
      r.realizedTotal = ∑ l ∈ range r.locates, (r.slots l).pos.realized ∧
      r.openTotal = ∑ l ∈ range r.locates, ((r.slots l).openCount .buy + (r.slots l).openCount .sell)) ∧
    (∀ l, (∀ sd, 0 ≤ (r.slots l).openShares sd ∧ InRange ((r.slots l).openShares sd)) ∧ InRange (r.slots l).pos.qty ∧
      InRange (r.slots l).pos.avgPrice ∧ InRange (r.slots l).pos.realized ∧ InRange (r.slots l).mark ∧
      InRange (r.slots l).unrealized ∧ InRange (r.slots l).exposure) ∧
    (∀ op : Op, op.Typed → Checked.apply r op = some (r.apply op)) ∧
    (∀ l side price qty reference now, IsPrice price → qty ≤ u32Max → IsPrice reference →
      Checked.evaluateAny r l side price qty reference now = some (r.evaluateAny l side price qty reference now) ∧
      ∀ growth, growth ≤ u32Max → Checked.evaluateReplaceAny r l side price qty growth reference now =
        some (r.evaluateReplaceAny l side price qty growth reference now)) ∧
    Checked.totalPnl r = some r.totalPnl := by
  intro r
  have h : Checked.Sane r := .after hl maxLocates hops
  have hx := h.exact
  have hrange : ∀ {v : Int}, 0 ≤ v ∧ v ≤ kInt64Max → InRange v := by
    intro v hv
    unfold InRange kInt64Max at *
    omega
  refine ⟨⟨?_, hx.unrealizedTotal, hx.realizedTotal, hx.openTotal⟩, fun l => ?_, fun op ht => Checked.apply_eq h ht, ?_,
    Checked.totalPnl_eq hx⟩
  · rw [hx.gross]
    exact sum_congr rfl fun l _ => worst_eq_min _
  · have hs := hx.slot l
    obtain ⟨hu, he⟩ := Checked.cached hx l
    exact ⟨fun sd => ⟨(hs.shares sd).1, hrange (hs.shares sd)⟩, hs.qty, hrange hs.avg, hs.realized, hrange hs.mark, hu, he⟩
  · intro l side price qty reference now hp hq href
    exact ⟨Checked.evaluateAny_eq hx h.limits side hp.2 hq href.2 now,
      fun growth hg => Checked.evaluateReplaceAny_eq hx h.limits side hp.2 hq hg href.2 now⟩

/-- The largest fill at the largest price, and then the smallest mark. -/
theorem caches_exact_at_the_largest_price :
    let ops : List Op := [.orderOpen 3 (some .buy) u32Max, .fill 3 (some .buy) u32Max kInt64Max, .mark 3 1]
    ((new { maxLoss := kInt64Max } 8).after ops).unrealizedTotal = -kInt64Max ∧
      Checked.apply ((new { maxLoss := kInt64Max } 8).after ops) (.fill 3 (some .sell) u32Max 1) =
        some (((new { maxLoss := kInt64Max } 8).after ops).apply (.fill 3 (some .sell) u32Max 1)) := by
  intro ops
  have hops : ∀ op ∈ ops, op.Typed := by
    intro op hop
    simp only [ops, List.mem_cons, List.not_mem_nil, or_false] at hop
    rcases hop with rfl | rfl | rfl <;> simp [Op.Typed, IsPrice, kInt64Max]
  have h := caches_exact_and_no_overflow { maxLoss := kInt64Max } ⟨le_refl _, by decide⟩ 8 ops hops
  refine ⟨by decide +kernel, h.2.2.1 _ ?_⟩
  simp [Op.Typed, IsPrice, kInt64Max]

end RiskEngine
end OptiTrade.Risk
