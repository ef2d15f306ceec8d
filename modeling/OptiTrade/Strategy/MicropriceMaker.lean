import OptiTrade.Strategy.Strategy

/-! # The two-sided market maker -/

namespace OptiTrade.Strategy
set_option autoImplicit false

open Oms (OrderManager OrderInfo OrderRequest SubmitResult isTerminal)

/-- The parameters of the maker. -/
structure MicropriceMakerConfig where
  maxLocates : Nat := 1024
  halfSpread : Int := 200
  tick : Int := 100
  skewPerShare : Int := 1
  quoteQty : Nat := 100
  maxInventory : Int := 500
  requoteTicks : Nat := 2
  maxSpread : Int := 2000

/-- The settings and the ids of the working quotes, 0 for none. -/
structure MicropriceMaker where
  cfg : MicropriceMakerConfig
  id : Nat → Side → Nat := fun _ _ => 0

namespace MicropriceMaker

/-- What `on_book_update` does to one side of the quotes of a locate; `manage` is given the price to quote
and the room for it. -/
inductive Job
  | pull (l : Nat) (s : Side)
  | manage (l : Nat) (s : Side) (target : Int) (room : Nat)

def sanitize (c : MicropriceMakerConfig) : MicropriceMakerConfig where
  halfSpread := clamp c.halfSpread 1 1099511627776
  tick := clamp c.tick 1 1099511627776
  skewPerShare := clamp c.skewPerShare 0 1000000
  quoteQty := clamp c.quoteQty 1 kMaxOrderQty
  maxInventory := clamp c.maxInventory 0 1000000000
  requoteTicks := max c.requoteTicks 1
  maxSpread := clamp c.maxSpread 0 2147483648
  maxLocates := min c.maxLocates Risk.kMaxLocates

def new (cfg : MicropriceMakerConfig) : MicropriceMaker where
  cfg := sanitize cfg

/-- C++ division truncates towards zero. -/
def microprice (bid ask : Int) (bidQty askQty : Nat) : Int :=
  bid + ((ask - bid) * bidQty).tdiv (bidQty + askQty : Nat)

def setId (q : MicropriceMaker) (l : Nat) (s : Side) (id : Nat) : MicropriceMaker :=
  { q with id := Function.update q.id l (Function.update (q.id l) s id) }

/-- A fair value is found, and each side is to be managed or pulled. -/
def onBookUpdate (q : MicropriceMaker) (l : Nat) (ctx : Context) : MicropriceMaker × List Job :=
  if q.cfg.maxLocates ≤ l then (q, [])
  else
    match touchOf (ctx.books.book l) with
    | none => (q, [.pull l .buy, .pull l .sell])
    | some touch =>
      if q.cfg.maxSpread < touch.ask - touch.bid then (q, [.pull l .buy, .pull l .sell])
      else
        let fair := microprice touch.bid touch.ask touch.bidQty touch.askQty
        let inv := clamp (positionOf ctx.orders l) (-q.cfg.maxInventory) q.cfg.maxInventory
        let skew := q.cfg.skewPerShare * inv
        let bidRaw := min (fair - q.cfg.halfSpread - skew) (touch.ask - q.cfg.tick)
        let askRaw := max (fair + q.cfg.halfSpread - skew) (touch.bid + q.cfg.tick)
        let bidRoom := toQty (min q.cfg.quoteQty (q.cfg.maxInventory - inv))
        let askRoom := toQty (min q.cfg.quoteQty (q.cfg.maxInventory + inv))
        (q, [.manage l .buy (if 0 < bidRaw then bidRaw - bidRaw % q.cfg.tick else 0) bidRoom,
          .manage l .sell (if 0 < askRaw then (askRaw + q.cfg.tick - 1) / q.cfg.tick * q.cfg.tick else 0) askRoom])

/-- The live order behind a tracked id; the id is forgotten if there is none. -/
def tracked (q : MicropriceMaker) (l : Nat) (s : Side) (orders : OrderManager) : MicropriceMaker × Option OrderInfo :=
  if q.id l s = 0 then (q, none)
  else
    match orders.find (q.id l s) with
    | none => (q.setId l s 0, none)
    | some o => if isTerminal o.status then (q.setId l s 0, none) else (q, some o)

def pull (q : MicropriceMaker) (l : Nat) (s : Side) (ctx : Context) : MicropriceMaker × Option Request :=
  match q.tracked l s ctx.orders with
  | (q, none) => (q, none)
  | (q, some o) => (q, if o.status ≠ .pendingCancel then some (.cancel (q.id l s)) else none)

/-- The quote of a side is sent, or replaced when it is too far from its price. -/
def manage (q : MicropriceMaker) (l : Nat) (s : Side) (target : Int) (room : Nat) (ctx : Context) :
    MicropriceMaker × Option Request :=
  if target ≤ 0 ∨ room = 0 then q.pull l s ctx
  else
    match q.tracked l s ctx.orders with
    | (q, none) => (q, some (.submit ⟨l, s, target, room, .day⟩))
    | (q, some o) =>
      if o.status ≠ .live then (q, none)
      else
        let moved := if o.req.price < target then target - o.req.price else o.req.price - target
        if moved < q.cfg.requoteTicks * q.cfg.tick then (q, none)
        else
          let total := o.cumQty + room
          if kMaxOrderQty < total then q.pull l s ctx
          else (q, some (.replace (q.id l s) target total))

def ask (q : MicropriceMaker) (j : Job) (ctx : Context) : MicropriceMaker × Option Request :=
  match j with
  | .pull l s => q.pull l s ctx
  | .manage l s target room => q.manage l s target room ctx

def answer (q : MicropriceMaker) (j : Job) (_ : Nat) (r : SubmitResult) : MicropriceMaker :=
  match j with
  | .pull _ _ => q
  | .manage l s _ _ => if r.status = .ok then q.setId l s r.id else q

def onOrderUpdate (q : MicropriceMaker) (o : OrderInfo) : MicropriceMaker :=
  if q.cfg.maxLocates ≤ o.req.locate ∨ isTerminal o.status = false then q
  else
    { q with
      id := Function.update q.id o.req.locate fun s => if q.id o.req.locate s = o.id then 0 else q.id o.req.locate s }

def callbacks : Callbacks MicropriceMaker Job := ⟨onBookUpdate, ask, answer, onOrderUpdate⟩

end MicropriceMaker
end OptiTrade.Strategy
