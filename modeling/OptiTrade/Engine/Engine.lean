import OptiTrade.Book.MarketBooks
import OptiTrade.Oms.Session

/-! # The trading engine

The engine joins the books, the risk engine, the order manager and one strategy. The strategy is
whatever calls its `Context` allows: while one of its callbacks runs it may submit, cancel and replace,
any number of times and with any arguments, and then returns. The session inside keeps the callbacks
and the cancel sweeps in progress; `phase` is what the engine itself still has to do when they are
over. The decoders are outside: a message arrives as what its decoder delivered, `none` if it was
refused. -/

namespace OptiTrade
set_option autoImplicit false

open Oms (Session Effect OrderRequest SubmitStatus World)
open Itch (Message)

namespace Engine

/-- The parts of an engine and their limits. -/
structure Config where
  books : Book.MarketBooks.Config := {}
  limits : Risk.Limits := {}
  oms : Oms.Config := {}
  maxLocates : Nat := 1024

/-- What an engine counts. -/
structure Stats where
  itchMessages : Nat := 0
  itchSkipped : Nat := 0
  bookUpdates : Nat := 0
  bookErrors : Nat := 0
  ouchReports : Nat := 0
  ouchErrors : Nat := 0
  feedGaps : Nat := 0
  ordersSent : Nat := 0
  riskRejects : Nat := 0
  fills : Nat := 0
  capacityRejects : Nat := 0
  deriving DecidableEq

/-- What the engine is doing. -/
inductive Phase
  | idle
  /-- Inside `on_itch` or `on_ouch`; `book` while `on_book_update` runs. -/
  | handling (now : Nat) (book : Bool)
  /-- Inside the cancel sweep that ends a call. -/
  | sweeping
  deriving DecidableEq

end Engine

/-- The books and the order manager, and what the engine is doing. -/
structure Engine where
  maxLocates : Nat
  books : Book.MarketBooks
  session : Session
  trading : Bool := true
  nextGapRetry : Nat := 0
  stats : Engine.Stats := {}
  phase : Engine.Phase := .idle

namespace Engine

/-- What comes from outside, what the strategy calls, and what callbacks in progress do next. -/
inductive Act
  | itch (m : Option Message) (now : Nat)
  | ouch (r : Option Ouch.Outbound) (now : Nat)
  | feedGap (now : Nat)
  | resumeTrading
  | submit (req : OrderRequest) (now : Nat) (gateway : Ouch.Inbound → Bool)
  | cancel (id : Nat) (now : Nat) (gateway : Ouch.Inbound → Bool)
  | replace (id : Nat) (price : Int) (qty : Nat) (now : Nat) (gateway : Ouch.Inbound → Bool)
  /-- One iteration of the running sweep. -/
  | advance (gateway : Ouch.Inbound → Bool)
  /-- The innermost callback returns. -/
  | ret
  /-- All callbacks are back: the call does what it still has to do. -/
  | finish

/-- What is seen of the engine from outside: what the session shows, and calls of `on_book_update`. -/
inductive Shown
  | order (x : Effect)
  | bookUpdate (locate : Nat) (now : Nat)

/-- The time between two attempts to cancel all during a gap. -/
def kGapRetryNs : Nat := 100000

/-- A mid is trusted when the spread is at most a tenth of it. -/
def kMaxSpreadPerMid : Int := 10

def new (config : Config) : Engine where
  maxLocates := config.maxLocates
  books := .new config.books
  session := .new config.oms config.limits config.maxLocates

/-- Mid of a sane touch, else 0. -/
def midPrice (e : Engine) (loc : Nat) : Int :=
  match e.books.book loc with
  | none => 0
  | some b =>
    match b.best .buy, b.best .sell with
    | some bid, some ask =>
      if bid.price ≤ 0 ∨ ask.price ≤ bid.price then 0
      else
        let spread := ask.price - bid.price
        let mid := bid.price + spread / 2
        if mid / kMaxSpreadPerMid < spread then 0 else mid
    | _, _ => 0

/-- The price that the risk engine checks an order against: the mid, or else the last trade. -/
def referencePrice (e : Engine) (loc : Nat) : Int :=
  if 0 < e.midPrice loc then e.midPrice loc else e.books.lastTrade loc

/-- What the order manager is given by the engine, and the gateway by the caller. -/
def world (e : Engine) (gateway : Ouch.Inbound → Bool) : World := ⟨e.books.symbol, e.referencePrice, gateway⟩

/-! ## Market data -/

/-- The locate of the order a message is about. -/
def storedLocate (e : Engine) (ref header : Nat) : Nat :=
  match e.books.order ref with
  | some o => o.locate
  | none => header

/-- The instrument an order-flow message will change; `none` for the other messages. -/
def targetLocate (e : Engine) : Message → Option Nat
  | .addOrder m => some m.h.locate
  | .orderExecuted m => some (e.storedLocate m.ref m.h.locate)
  | .orderExecutedPrice m => some (e.storedLocate m.ref m.h.locate)
  | .orderCancel m => some (e.storedLocate m.ref m.h.locate)
  | .orderDelete m => some (e.storedLocate m.ref m.h.locate)
  | .orderReplace m => some (e.storedLocate m.oldRef m.h.locate)
  | .stockDirectory _ | .trade _ | .systemEvent _ => none

def markRisk (e : Engine) (loc : Nat) (price : Int) : Engine :=
  { e with session := { e.session with manager := { e.session.manager with
      risk := e.session.manager.risk.mark loc price } } }

/-- A book has changed: the position is marked, and the strategy is told while the engine trades. -/
def bookChanged (e : Engine) (loc now : Nat) : Engine × List Shown :=
  let mark := if e.midPrice loc ≤ 0 then e.books.lastTrade loc else e.midPrice loc
  let e := if 0 < mark then e.markRisk loc mark else e
  if e.trading ∧ loc < e.maxLocates then ({ e with phase := .handling now true }, [.bookUpdate loc now]) else (e, [])

/-- A message of the feed that was decoded. -/
def apply (e : Engine) (m : Message) (now : Nat) : Engine × List Shown :=
  let loc := e.targetLocate m
  let (books, r) := e.books.on m
  let e := { e with books := books, stats := { e.stats with itchMessages := e.stats.itchMessages + 1 } }
  match loc with
  | some loc =>
    if r = .ok then
      { e with stats := { e.stats with bookUpdates := e.stats.bookUpdates + 1 } }.bookChanged loc now
    else if r ≠ .ignored then
      ({ e with stats := { e.stats with bookErrors := e.stats.bookErrors + 1 } }, [])
    else (e, [])
  | none =>
    if r ≠ .ok ∧ r ≠ .ignored then
      ({ e with stats := { e.stats with bookErrors := e.stats.bookErrors + 1 } }, [])
    else (e, [])

/-- The feed calls; `none` stands for bytes that are no message. -/
def onItch (e : Engine) (m : Option Message) (now : Nat) : Engine × List Shown :=
  let e := { e with phase := .handling now false }
  match m with
  | some m => e.apply m now
  | none => ({ e with stats := { e.stats with itchSkipped := e.stats.itchSkipped + 1 } }, [])

/-! ## Reports -/

/-- The number of fills shown. -/
def fillCount (fx : List Effect) : Nat :=
  fx.countP fun
    | .fill _ => true
    | _ => false

/-- A report of the exchange goes to the order manager. -/
def report (e : Engine) (r : Ouch.Outbound) (now : Nat) : Engine × List Shown :=
  let (s, fx) := e.session.report r now
  ({ e with
      session := s
      stats := { e.stats with ouchReports := e.stats.ouchReports + 1, fills := e.stats.fills + fillCount fx } },
    fx.map .order)

def onOuch (e : Engine) (r : Option Ouch.Outbound) (now : Nat) : Engine × List Shown :=
  let e := { e with phase := .handling now false }
  match r with
  | some r => e.report r now
  | none => ({ e with stats := { e.stats with ouchErrors := e.stats.ouchErrors + 1 } }, [])

/-! ## Gaps -/

/-- A cancel sweep begins. -/
def cancelAll (e : Engine) (now : Nat) : Engine :=
  let m := e.session.manager
  { e with
      session := ⟨m, .sweep m.working.head (m.nextId - 1) 0 now :: e.session.stack⟩
      nextGapRetry := saturatingAdd now kGapRetryNs
      phase := .sweeping }

/-- Trading stops, and all orders are canceled. -/
def onFeedGap (e : Engine) (now : Nat) : Engine :=
  { e with trading := false, stats := { e.stats with feedGaps := e.stats.feedGaps + 1 } }.cancelAll now

/-- During a gap, what still works is canceled again from time to time. -/
def retryGapCancels (e : Engine) (now : Nat) : Engine :=
  if e.trading ∨ now < e.nextGapRetry ∨ e.session.manager.opened = 0 then { e with phase := .idle }
  else e.cancelAll now

/-! ## The strategy's calls

The counters of a call move when it is made, not when the callbacks inside it are back: nothing the
strategy is given shows them. -/

def countRefusal (s : Stats) (r : SubmitStatus) : Stats :=
  if r = .capacity ∨ r = .gatewayBusy then { s with capacityRejects := s.capacityRejects + 1 } else s

def countRisk (s : Stats) (r : SubmitStatus) : Stats :=
  if r = .rejectedByRisk then { s with riskRejects := s.riskRejects + 1 } else s

/-- The engine after an order-entry call of its order manager. -/
def called {α : Type} (e : Engine) (out : Oms.OrderManager.Outcome α) (now : Nat) (w : World) (stats : Stats) :
    Engine × List Shown :=
  let (s, fx) := e.session.finishCall out now w
  ({ e with session := s, stats := stats }, fx.map .order)

/-- The strategy submits, through its `Context`. -/
def submit (e : Engine) (req : OrderRequest) (now : Nat) (gateway : Ouch.Inbound → Bool) : Engine × List Shown :=
  if e.trading then
    let w := e.world gateway
    let out := e.session.manager.submit req now w.symbol w.reference w.gateway
    let r := out.result.status
    let sent := if r = .ok then { e.stats with ordersSent := e.stats.ordersSent + 1 } else e.stats
    e.called out now w (countRefusal (countRisk sent r) r)
  else (e, [])

/-- A cancel goes out during a gap, too. -/
def cancel (e : Engine) (id now : Nat) (gateway : Ouch.Inbound → Bool) : Engine × List Shown :=
  let w := e.world gateway
  let out := e.session.manager.cancel id now w.gateway
  e.called out now w (countRefusal e.stats out.result)

def replace (e : Engine) (id : Nat) (price : Int) (qty now : Nat) (gateway : Ouch.Inbound → Bool) :
    Engine × List Shown :=
  if e.trading then
    let w := e.world gateway
    let out := e.session.manager.replace id price qty now w.reference w.gateway
    e.called out now w (countRefusal (countRisk e.stats out.result) out.result)
  else (e, [])

/-- A callback of the strategy is running. -/
def inCallback (e : Engine) : Bool :=
  match e.session.stack with
  | .update :: _ => true
  | .fill _ :: _ => true
  | .sweep .. :: _ => false
  | [] =>
    match e.phase with
    | .handling _ true => true
    | _ => false

/-! ## Steps -/

/-- A step of the session that shows `fx`. -/
def inSession (e : Engine) (r : Option (Session × List Effect)) : Option (Engine × List Shown) :=
  r.map fun (s, fx) => ({ e with session := s }, fx.map .order)

/-- One step; `none` where it is not the turn of the act. -/
def step (e : Engine) : Act → Option (Engine × List Shown)
  | .itch m now => if e.phase = .idle then some (e.onItch m now) else none
  | .ouch r now => if e.phase = .idle then some (e.onOuch r now) else none
  | .feedGap now => if e.phase = .idle then some (e.onFeedGap now, []) else none
  | .resumeTrading => if e.phase = .idle then some ({ e with trading := true }, []) else none
  | .submit req now gateway => if e.inCallback then some (e.submit req now gateway) else none
  | .cancel id now gateway => if e.inCallback then some (e.cancel id now gateway) else none
  | .replace id price qty now gateway => if e.inCallback then some (e.replace id price qty now gateway) else none
  | .advance gateway => e.inSession (e.session.step (.advance (e.world gateway)))
  | .ret =>
    match e.session.stack, e.phase with
    | [], .handling now true => some ({ e with phase := .handling now false }, [])
    | _, _ => e.inSession (e.session.step .ret)
  | .finish =>
    match e.session.stack, e.phase with
    | [], .handling now false => some (e.retryGapCancels now, [])
    | [], .sweeping => some ({ e with phase := .idle }, [])
    | _, _ => none

end Engine
end OptiTrade
