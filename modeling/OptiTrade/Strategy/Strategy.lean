import OptiTrade.Engine.Engine

/-! # Strategies

What a strategy is given, and the pieces every strategy shares. None of the strategies here uses the order
API from `on_fill` or `on_order_update`, and `on_fill` does nothing; so a strategy is its state, what
`on_order_update` does to it, and `on_book_update` cut at its uses of the API: a list of jobs, each of which
asks the API for one thing at most and may note the result. -/

namespace OptiTrade.Strategy
set_option autoImplicit false

open Oms (OrderManager OrderInfo OrderRequest SubmitResult SubmitStatus isTerminal)

/-- `find` and the risk engine are those of the order manager. -/
structure Context where
  now : Nat
  books : Book.MarketBooks
  orders : OrderManager

/-- A use of the order API. -/
inductive Request
  | submit (req : OrderRequest)
  | cancel (id : Nat)
  | replace (id : Nat) (price : Int) (qty : Nat)

/-- A strategy with states in `σ` and jobs in `J`. -/
structure Callbacks (σ J : Type) where
  onBookUpdate : σ → Nat → Context → σ × List J
  /-- What the job does up to its use of the API. -/
  ask : σ → J → Context → σ × Option Request
  /-- What it does with the result of a submit. -/
  answer : σ → J → Nat → SubmitResult → σ
  onOrderUpdate : σ → OrderInfo → σ

/-! ## Shared pieces -/

section
variable {α : Type} [LinearOrder α]

/-- `v` between `lo` and `hi`. -/
def clamp (v lo hi : α) : α := if v < lo then lo else if hi < v then hi else v

theorem le_clamp {lo hi : α} (h : lo ≤ hi) (v : α) : lo ≤ clamp v lo hi := by
  unfold clamp
  split_ifs with h₁ h₂
  · exact le_refl _
  · exact h
  · exact not_lt.mp h₁

theorem clamp_le {lo hi : α} (h : lo ≤ hi) (v : α) : clamp v lo hi ≤ hi := by
  unfold clamp
  split_ifs with h₁ h₂
  · exact h
  · exact le_refl _
  · exact not_lt.mp h₂

theorem clamp_eq {lo hi v : α} (h₁ : lo ≤ v) (h₂ : v ≤ hi) : clamp v lo hi = v := by
  unfold clamp
  rw [if_neg (not_lt.mpr h₁), if_neg (not_lt.mpr h₂)]

end

/-- The conversion to an unsigned 32-bit quantity. -/
def toQty (v : Int) : Nat := (v % 4294967296).toNat

theorem toQty_eq {v : Int} (h₁ : 0 ≤ v) (h₂ : v ≤ kMaxOrderQty) : (toQty v : Int) = v := by
  unfold toQty kMaxOrderQty at *
  omega

def kPositionBound : Int := 1099511627776

/-- The position as the strategies see it, within bounds. -/
def positionOf (orders : OrderManager) (l : Nat) : Int :=
  clamp (orders.risk.position l).qty (-kPositionBound) kPositionBound

/-- Best prices and sizes of a tradable book. -/
structure Touch where
  bid : Int
  ask : Int
  bidQty : Nat
  askQty : Nat
  deriving DecidableEq

/-- A book is tradable when both sides have a price and a size and do not cross. -/
def touchOf : Option Book.OrderBook → Option Touch
  | none => none
  | some b =>
    match b.best .buy, b.best .sell with
    | some bid, some ask =>
      if bid.price ≤ 0 ∨ ask.price ≤ 0 ∨ ask.price ≤ bid.price then none
      else if bid.qty = 0 ∨ ask.qty = 0 then none
      else some ⟨bid.price, ask.price, bid.qty, ask.qty⟩
    | _, _ => none

/-- What a tradable book shows. -/
theorem touchOf_some {b : Option Book.OrderBook} {t : Touch} (h : touchOf b = some t) :
    ∃ b' bid ask, b = some b' ∧ b'.best .buy = some bid ∧ b'.best .sell = some ask ∧
      t = ⟨bid.price, ask.price, bid.qty, ask.qty⟩ ∧ 0 < t.bid ∧ t.bid < t.ask ∧ 0 < t.bidQty ∧ 0 < t.askQty := by
  cases b with
  | none => cases h
  | some b =>
    unfold touchOf at h
    dsimp only at h
    cases hb : b.best .buy with
    | none =>
      rw [hb] at h
      cases h
    | some bid =>
      cases ha : b.best .sell with
      | none =>
        rw [hb, ha] at h
        cases h
      | some ask =>
        rw [hb, ha] at h
        dsimp only at h
        split_ifs at h with h₁ h₂
        cases h
        exact ⟨b, bid, ask, rfl, hb, ha, rfl, by dsimp only; omega, by dsimp only; omega, by dsimp only; omega,
          by dsimp only; omega⟩

/-- One outstanding order, and the time of the last attempt. -/
structure OrderGate where
  inflight : Nat := 0
  last : Nat := 0
  hasLast : Bool := false
  deriving DecidableEq

namespace OrderGate

/-- The tracked order is not over. -/
def busy (g : OrderGate) (orders : OrderManager) : Bool :=
  g.inflight ≠ 0 ∧ (match orders.find g.inflight with
    | some o => !isTerminal o.status
    | none => false) = true

/-- No order is out, and the cooldown is over. -/
def ready (g : OrderGate) (now cooldown : Nat) (orders : OrderManager) : OrderGate × Bool :=
  if g.busy orders then (g, false)
  else ({ g with inflight := 0 }, !g.hasLast || (g.last ≤ now && cooldown ≤ now - g.last))

def sent (g : OrderGate) (now : Nat) (r : SubmitResult) : OrderGate :=
  { inflight := if r.status = .ok then r.id else g.inflight, last := now, hasLast := true }

def onUpdate (g : OrderGate) (o : OrderInfo) : OrderGate :=
  if g.inflight ≠ 0 ∧ o.id = g.inflight ∧ isTerminal o.status = true then { g with inflight := 0 } else g

end OrderGate
end OptiTrade.Strategy
