import Mathlib.Logic.Function.Basic
import OptiTrade.Core.Types

/-! # The pre-trade risk engine

Pre-trade verdicts, the exposure ledger and average-cost accounting. `Int128` intermediates are
unbounded integers; what is stored goes through `clamp64`, as in the source. The table of
instruments is a function of the locate together with its size `locates`. -/

namespace OptiTrade.Risk
set_option autoImplicit false

/-- The limits; 0 turns most of them off. -/
structure Limits where
  maxOrderQty : Nat := 1000
  /-- 0 = disabled. -/
  maxOrderNotional : Int := 0
  maxPosition : Int := 5000
  /-- 0 = disabled. -/
  maxGrossPosition : Int := 0
  /-- Basis points of the reference; 0 = band disabled. -/
  priceBandBps : Nat := 0
  requireReference : Bool := false
  /-- 0 = disabled. -/
  maxOrdersPerSecond : Nat := 0
  /-- 0 = disabled. -/
  maxOpenOrders : Nat := 0
  /-- 0 or negative = disabled. -/
  maxLoss : Int := 0

/-- Why an order is refused. -/
inductive Reject
  | none
  | killSwitch
  | invalidOrder
  | orderQty
  | orderNotional
  | position
  | grossPosition
  | priceBand
  | noReference
  | rateLimit
  | openOrders
  deriving DecidableEq, Repr

/-- Signed quantity, average entry price and realized PnL of one instrument. -/
structure Position where
  qty : Int := 0
  avgPrice : Int := 0
  realized : Int := 0
  deriving DecidableEq

def kInt64Max : Int := 9223372036854775807

/-- Saturating narrowing to `±kInt64Max`. -/
def clamp64 (v : Int) : Int :=
  if kInt64Max < v then kInt64Max else if v < -kInt64Max then -kInt64Max else v

def magnitude (v : Int) : Int := if v < 0 then -v else v

/-- What is kept of an instrument. -/
structure Slot where
  pos : Position := {}
  mark : Int := 0
  unrealized : Int := 0
  exposure : Int := 0
  /-- Working quantity per side. -/
  openShares : Side → Int := fun _ => 0
  /-- Working orders per side. -/
  openCount : Side → Nat := fun _ => 0

/-- The slots, their totals, and the ring of the last admissions. -/
structure RiskEngine where
  limits : Limits
  locates : Nat
  slots : Nat → Slot := fun _ => {}
  rateRing : Nat → Nat := fun _ => 0
  rateSize : Nat
  rateNext : Nat := 0
  rateFilled : Nat := 0
  rateLatest : Nat := 0
  realizedTotal : Int := 0
  unrealizedTotal : Int := 0
  gross : Int := 0
  peakPnl : Int := 0
  maxDrawdown : Int := 0
  openTotal : Nat := 0
  killSwitch : Bool := false

def kMaxLocates : Nat := 65536
def kRateWindowNs : Nat := 1000000000
def kMaxRateRing : Nat := 1048576
def kBasisPoints : Int := 10000

namespace RiskEngine

/-- A limit on the rate that no ring can hold is off. -/
def new (limits : Limits) (maxLocates : Nat) : RiskEngine where
  limits := limits
  locates := min maxLocates kMaxLocates
  rateSize := if limits.maxOrdersPerSecond ≤ kMaxRateRing then limits.maxOrdersPerSecond else 0

/-- Signed position if all working orders on `side` and `extra` more shares there filled. -/
def leg (s : Slot) (side : Side) (extra : Int) : Int :=
  match side with
  | .buy => s.pos.qty + s.openShares .buy + extra
  | .sell => s.pos.qty - s.openShares .sell - extra

/-! ## Rate window -/

/-- The oldest admission of a full ring is out of the window. -/
def rateHasRoom (r : RiskEngine) (now : Nat) : Bool :=
  if r.rateSize = 0 ∨ r.rateFilled < r.rateSize then true
  else
    let oldest := r.rateRing r.rateNext
    decide (oldest ≤ now ∧ kRateWindowNs ≤ now - oldest)

/-- Time does not go back in the ring: an earlier time is stamped with the latest. -/
def rateRecord (r : RiskEngine) (now : Nat) : RiskEngine :=
  if r.rateSize = 0 then r
  else
    let latest := max r.rateLatest now
    { r with
      rateLatest := latest
      rateRing := Function.update r.rateRing r.rateNext latest
      rateNext := if r.rateNext + 1 = r.rateSize then 0 else r.rateNext + 1
      rateFilled := if r.rateFilled < r.rateSize then r.rateFilled + 1 else r.rateFilled }

def admitOrder (r : RiskEngine) (now : Nat) : RiskEngine := r.rateRecord now

/-! ## Verdicts -/

/-- The shared body of `evaluate` and `evaluateReplace`: `qty` is the order's own size, `add` the
exposure it adds. -/
def assess (r : RiskEngine) (locate : Nat) (side : Side) (price : Int) (qty add : Nat)
    (replacing : Bool) (reference : Int) (now : Nat) : Reject :=
  let adds := !replacing || add != 0
  if r.killSwitch && adds then .killSwitch
  else if r.locates ≤ locate ∨ qty = 0 ∨ price ≤ 0 then .invalidOrder
  else if r.limits.maxOrderQty < qty then .orderQty
  else if 0 < r.limits.maxOrderNotional ∧ r.limits.maxOrderNotional < price * qty then .orderNotional
  else
    let s := r.slots locate
    let sameLeg := magnitude (leg s side add)
    if add ≠ 0 ∧ r.limits.maxPosition < sameLeg ∧ magnitude s.pos.qty < sameLeg then .position
    else
      let otherLeg := magnitude (leg s (opposite side) 0)
      let grossAfter := r.gross - s.exposure + max sameLeg otherLeg
      if add ≠ 0 ∧ 0 < r.limits.maxGrossPosition ∧ r.limits.maxGrossPosition < grossAfter ∧
          r.gross < grossAfter then .grossPosition
      else if r.limits.priceBandBps ≠ 0 ∧ reference ≤ 0 ∧ r.limits.requireReference then .noReference
      else if r.limits.priceBandBps ≠ 0 ∧ 0 < reference ∧
          reference * r.limits.priceBandBps < magnitude (price - reference) * kBasisPoints then .priceBand
      else if adds && !r.rateHasRoom now then .rateLimit
      else if !replacing ∧ r.limits.maxOpenOrders ≠ 0 ∧ r.limits.maxOpenOrders ≤ r.openTotal then .openOrders
      else .none

/-- The checks of a new order. -/
def evaluate (r : RiskEngine) (locate : Nat) (side : Side) (price : Int) (qty : Nat)
    (reference : Int) (now : Nat) : Reject :=
  r.assess locate side price qty qty false reference now

/-- The checks of a replace; only its growth is new. -/
def evaluateReplace (r : RiskEngine) (locate : Nat) (side : Side) (price : Int)
    (openQty growth : Nat) (reference : Int) (now : Nat) : Reject :=
  r.assess locate side price openQty growth true reference now

/-- `evaluate`, and `admitOrder` when the verdict is `none`. -/
def check (r : RiskEngine) (locate : Nat) (side : Side) (price : Int) (qty : Nat)
    (reference : Int) (now : Nat) : Reject × RiskEngine :=
  let v := r.evaluate locate side price qty reference now
  (v, if v = .none then r.admitOrder now else r)

/-! ## Ledger -/

/-- The worst-case absolute position of an instrument. -/
def worst (s : Slot) : Int := clamp64 (max (magnitude (leg s .buy 0)) (magnitude (leg s .sell 0)))

/-- The gain of the open position at the mark. -/
def unrealizedOf (s : Slot) : Int :=
  if 0 < s.mark ∧ s.pos.qty ≠ 0 then clamp64 ((s.mark - s.pos.avgPrice) * s.pos.qty) else 0

/-- Stores slot `s` at `locate` with its cached PnL and exposure recomputed, and moves the running
totals by the difference. -/
def refresh (r : RiskEngine) (locate : Nat) (s : Slot) : RiskEngine :=
  let u := unrealizedOf s
  let e := worst s
  { r with
    unrealizedTotal := r.unrealizedTotal + (u - s.unrealized)
    gross := r.gross + (e - s.exposure)
    slots := Function.update r.slots locate { s with unrealized := u, exposure := e } }

/-- An order is out: its shares are reserved. -/
def onOrderOpen (r : RiskEngine) (locate : Nat) (side : Side) (qty : Nat) : RiskEngine :=
  if locate < r.locates ∧ qty ≠ 0 then
    let s := r.slots locate
    let shares := Function.update s.openShares side (clamp64 (s.openShares side + qty))
    if s.openCount side ≠ u32Max then
      { r with openTotal := r.openTotal + 1 }.refresh locate
        { s with
          openShares := shares
          openCount := Function.update s.openCount side (s.openCount side + 1) }
    else r.refresh locate { s with openShares := shares }
  else r

def onOrderGrow (r : RiskEngine) (locate : Nat) (side : Side) (qty : Nat) : RiskEngine :=
  if locate < r.locates ∧ qty ≠ 0 then
    let s := r.slots locate
    r.refresh locate
      { s with openShares := Function.update s.openShares side (clamp64 (s.openShares side + qty)) }
  else r

/-- The slot after releasing `qty` shares of `side`, clamped to what is open. -/
def release (s : Slot) (side : Side) (qty : Nat) : Slot :=
  { s with openShares :=
      Function.update s.openShares side (s.openShares side - min (qty : Int) (s.openShares side)) }

def onOrderReduce (r : RiskEngine) (locate : Nat) (side : Side) (qty : Nat) : RiskEngine :=
  if locate < r.locates then r.refresh locate (release (r.slots locate) side qty) else r

/-- An order is over, and what was left of it is given back. -/
def onOrderEnd (r : RiskEngine) (locate : Nat) (side : Side) (remaining : Nat) : RiskEngine :=
  if locate < r.locates then
    let s := release (r.slots locate) side remaining
    if s.openCount side ≠ 0 then
      { r with openTotal := r.openTotal - 1 }.refresh locate
        { s with openCount := Function.update s.openCount side (s.openCount side - 1) }
    else r.refresh locate s
  else r

/-! ## Fills and marks -/

/-- Samples total PnL for the drawdown and trips the kill switch on the loss limit. -/
def settle (r : RiskEngine) : RiskEngine :=
  let total := r.realizedTotal + r.unrealizedTotal
  let peak := max r.peakPnl total
  { r with
    peakPnl := peak
    maxDrawdown := max r.maxDrawdown (peak - total)
    killSwitch := r.killSwitch || decide (0 < r.limits.maxLoss ∧ total ≤ -r.limits.maxLoss) }

/-- Average-cost accounting of one fill: the new position. -/
def fillPosition (p : Position) (side : Side) (qty : Nat) (price : Int) : Position :=
  let buy := side = .buy
  let held := magnitude p.qty
  let fill : Int := qty
  let after := p.qty + (if buy then fill else -fill)
  if p.qty = 0 ∨ (0 < p.qty ↔ buy) then
    { qty := clamp64 after
      avgPrice := Int.tdiv (p.avgPrice * held + price * fill) (held + fill)
      realized := clamp64 p.realized }
  else
    let closed := min held fill
    let gain := (if 0 < p.qty then price - p.avgPrice else p.avgPrice - price) * closed
    { qty := clamp64 after
      avgPrice :=
        if after = 0 then 0
        else if ¬(0 < after ↔ 0 < p.qty) then price
        else p.avgPrice
      realized := clamp64 (p.realized + gain) }

def onFill (r : RiskEngine) (locate : Nat) (side : Side) (qty : Nat) (price : Int) : RiskEngine :=
  if locate < r.locates ∧ qty ≠ 0 ∧ 0 < price then
    let s := r.slots locate
    let p := fillPosition s.pos side qty price
    ({ r with realizedTotal := r.realizedTotal + (p.realized - s.pos.realized) }.refresh locate
      { s with pos := p }).settle
  else r

def mark (r : RiskEngine) (locate : Nat) (markPrice : Int) : RiskEngine :=
  if locate < r.locates ∧ 0 < markPrice then
    (r.refresh locate { r.slots locate with mark := markPrice }).settle
  else r

def setKillSwitch (r : RiskEngine) (on : Bool) : RiskEngine := { r with killSwitch := on }

/-! ## Inspection -/

def position (r : RiskEngine) (locate : Nat) : Position :=
  if locate < r.locates then (r.slots locate).pos else {}

def openQty (r : RiskEngine) (locate : Nat) (side : Side) : Int :=
  if locate < r.locates then (r.slots locate).openShares side else 0

def grossExposure (r : RiskEngine) : Int := clamp64 r.gross

def openOrders (r : RiskEngine) : Nat := min r.openTotal u32Max

end RiskEngine
end OptiTrade.Risk
