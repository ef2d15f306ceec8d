import OptiTrade.Strategy.Strategy

/-! # The two strategies that cross the spread

Both end an update with at most one attempt to submit an IOC order, through the gate of its locate. What
they share is `Taker`; what they differ in is the signal that an update makes an attempt of. -/

namespace OptiTrade.Strategy
set_option autoImplicit false

open Oms (OrderManager OrderInfo OrderRequest SubmitResult isTerminal)

/-- An order to send if the gate lets it through. -/
structure Attempt where
  locate : Nat
  side : Side
  price : Int
  qty : Nat
  /-- History: the position that the strategy read. -/
  start : Int
  /-- The position that the strategy wants. -/
  target : Int

/-- The signal, and a gate for each locate. -/
structure Taker (σ : Type) where
  signal : σ
  gates : Nat → OrderGate := fun _ => {}
  /-- History: the last attempt of a locate whose submit returned `ok`. -/
  placed : Nat → Option Attempt := fun _ => none

namespace Taker
variable {σ : Type}

def setGate (t : Taker σ) (l : Nat) (g : OrderGate) : Taker σ := { t with gates := Function.update t.gates l g }

/-- An attempt is made if the gate is open. -/
def ask (cooldown : Nat) (t : Taker σ) (a : Attempt) (ctx : Context) : Taker σ × Option Request :=
  let (g, ok) := (t.gates a.locate).ready ctx.now cooldown ctx.orders
  (t.setGate a.locate g, if ok then some (.submit ⟨a.locate, a.side, a.price, a.qty, .ioc⟩) else none)

def answer (t : Taker σ) (a : Attempt) (now : Nat) (r : SubmitResult) : Taker σ :=
  { t.setGate a.locate ((t.gates a.locate).sent now r) with
    placed := if r.status = .ok then Function.update t.placed a.locate (some a) else t.placed }

def onOrderUpdate (maxLocates : Nat) (t : Taker σ) (o : OrderInfo) : Taker σ :=
  if o.req.locate < maxLocates then t.setGate o.req.locate ((t.gates o.req.locate).onUpdate o) else t

/-- A strategy that turns its signal into attempts. -/
def callbacks (maxLocates cooldown : Nat) (update : σ → Nat → Context → σ × Option Attempt) :
    Callbacks (Taker σ) Attempt where
  onBookUpdate t l ctx := ({ t with signal := (update t.signal l ctx).1 }, (update t.signal l ctx).2.toList)
  ask := ask cooldown
  answer := answer
  onOrderUpdate := onOrderUpdate maxLocates

end Taker

/-! ## Order book imbalance -/

/-- The parameters of the imbalance taker. -/
structure ImbalanceTakerConfig where
  maxLocates : Nat := 1024
  depth : Nat := 5
  enterBps : Int := 3000
  exitBps : Int := 500
  maxSpread : Int := 500
  orderQty : Nat := 100
  maxPosition : Int := 500
  cooldownNs : Nat := 1000000

namespace ImbalanceTaker

def sanitize (c : ImbalanceTakerConfig) : ImbalanceTakerConfig :=
  let enterBps := clamp c.enterBps 1 10000
  { c with
    depth := max c.depth 1
    enterBps := enterBps
    exitBps := clamp c.exitBps 0 (enterBps - 1)
    orderQty := clamp c.orderQty 1 kMaxOrderQty
    maxPosition := clamp c.maxPosition 0 kPositionBound
    maxLocates := min c.maxLocates Risk.kMaxLocates }

/-- C++ division truncates towards zero. -/
def imbalanceBps (bidQty askQty : Int) : Int :=
  if bidQty + askQty = 0 then 0 else ((bidQty - askQty) * 10000).tdiv (bidQty + askQty)

/-- The side, the price and the target of the order that the rules ask for, with the shares to get there. -/
def decide (c : ImbalanceTakerConfig) (touch : Touch) (imb pos : Int) : Option (Side × Int × Int × Int) :=
  if 0 < pos ∧ imb ≤ c.exitBps then some (.sell, touch.bid, pos, 0)
  else if pos < 0 ∧ -c.exitBps ≤ imb then some (.buy, touch.ask, -pos, 0)
  else if touch.ask - touch.bid ≤ c.maxSpread then
    if c.enterBps ≤ imb ∧ pos < c.maxPosition then some (.buy, touch.ask, c.maxPosition - pos, c.maxPosition)
    else if imb ≤ -c.enterBps ∧ -pos < c.maxPosition then
      some (.sell, touch.bid, c.maxPosition + pos, -c.maxPosition)
    else none
  else none

/-- An attempt to get to the target that the imbalance sets. -/
def onBookUpdate (c : ImbalanceTakerConfig) (l : Nat) (ctx : Context) : Option Attempt :=
  if c.maxLocates ≤ l then none
  else
    match ctx.books.book l with
    | none => none
    | some b =>
      match touchOf (some b) with
      | none => none
      | some touch =>
        let imb := imbalanceBps (b.totalQty .buy c.depth) (b.totalQty .sell c.depth)
        let pos := positionOf ctx.orders l
        match decide c touch imb pos with
        | none => none
        | some (side, price, qty, target) =>
          if qty ≤ 0 ∨ price ≤ 0 then none else some ⟨l, side, price, toQty (min qty c.orderQty), pos, target⟩

/-- The strategy; it keeps nothing but its gates. -/
def callbacks (cfg : ImbalanceTakerConfig) : Callbacks (Taker Unit) Attempt :=
  let c := sanitize cfg
  Taker.callbacks c.maxLocates c.cooldownNs fun _ l ctx => ((), onBookUpdate c l ctx)

end ImbalanceTaker

/-! ## Moving average crossover -/

/-- The parameters of the crossover. -/
structure EmaCrossConfig where
  maxLocates : Nat := 1024
  fastShift : Nat := 3
  slowShift : Nat := 6
  warmup : Nat := 64
  confirmTicks : Nat := 3
  orderQty : Nat := 100
  maxPosition : Int := 100
  cooldownNs : Nat := 1000000

namespace EmaCross

/-- The averages and the signal of a locate. -/
structure Slot where
  fast : Int := 0
  slow : Int := 0
  samples : Nat := 0
  run : Nat := 0
  sign : Int := 0
  armed : Bool := false

def sanitize (c : EmaCrossConfig) : EmaCrossConfig :=
  let fastShift := clamp c.fastShift 1 30
  { c with
    fastShift := fastShift
    slowShift := clamp c.slowShift (fastShift + 1) 31
    confirmTicks := max c.confirmTicks 1
    orderQty := clamp c.orderQty 1 kMaxOrderQty
    maxPosition := clamp c.maxPosition 0 kPositionBound
    maxLocates := min c.maxLocates Risk.kMaxLocates }

/-- One sample of a tradable book; the shift of a negative difference rounds down, as division does here. -/
def Slot.sample (s : Slot) (c : EmaCrossConfig) (touch : Touch) : Slot :=
  let sample := (touch.bid + touch.ask) * 256
  let fast := if s.samples = 0 then sample else s.fast + (sample - s.fast) / 2 ^ c.fastShift
  let slow := if s.samples = 0 then sample else s.slow + (sample - s.slow) / 2 ^ c.slowShift
  let samples := if s.samples ≠ u32Max then s.samples + 1 else s.samples
  let sign : Int := if slow < fast then 1 else if fast < slow then -1 else 0
  if sign = 0 then { s with fast := fast, slow := slow, samples := samples, run := 0, armed := false }
  else if sign = s.sign then
    { s with fast := fast, slow := slow, samples := samples, run := if s.run ≠ u32Max then s.run + 1 else s.run }
  else { fast := fast, slow := slow, samples := samples, sign := sign, run := 1, armed := c.warmup ≤ samples }

/-- The size of the target position. -/
def size (c : EmaCrossConfig) : Int := min c.orderQty c.maxPosition

/-- The position to move to. -/
def Slot.target (s : Slot) (c : EmaCrossConfig) (pos : Int) : Int :=
  if s.armed = true ∧ c.confirmTicks ≤ s.run then s.sign * size c
  else if pos ≠ 0 ∧ ¬(0 < pos ↔ 0 < s.sign) then 0
  else pos

/-- A sample is taken, and there is an attempt to get to the target. -/
def onBookUpdate (c : EmaCrossConfig) (slots : Nat → Slot) (l : Nat) (ctx : Context) : (Nat → Slot) × Option Attempt :=
  if c.maxLocates ≤ l then (slots, none)
  else
    match touchOf (ctx.books.book l) with
    | none => (slots, none)
    | some touch =>
      let s := (slots l).sample c touch
      let slots := Function.update slots l s
      if s.samples < c.warmup ∨ s.sign = 0 then (slots, none)
      else
        let pos := positionOf ctx.orders l
        let target := s.target c pos
        if target = pos then (slots, none)
        else if pos < target then
          (slots, some ⟨l, .buy, touch.ask, toQty (min (target - pos) c.orderQty), pos, target⟩)
        else (slots, some ⟨l, .sell, touch.bid, toQty (min (pos - target) c.orderQty), pos, target⟩)

/-- The strategy. -/
def callbacks (cfg : EmaCrossConfig) : Callbacks (Taker (Nat → Slot)) Attempt :=
  let c := sanitize cfg
  Taker.callbacks c.maxLocates c.cooldownNs (onBookUpdate c)

end EmaCross
end OptiTrade.Strategy
