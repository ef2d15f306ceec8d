import OptiTrade.Engine.Steps
import OptiTrade.Itch.Decoder
import OptiTrade.Ouch.Wire
import OptiTrade.Replay.Capture
import OptiTrade.Sim.ExchangeSim

/-! # The backtest

`run_backtest` plays a source of records to an engine whose orders go to the exchange simulator. The strategy is
whatever calls its contexts allow, each stamped with the time the context shows, which is the time of the engine call
in progress; the source is any sequence of records. The digest and the final report only look on. -/

namespace OptiTrade.Replay
set_option autoImplicit false

open Oms (OrderRequest)
open Ouch (Inbound)
open Sim (ExchangeSim SimConfig)

/-- The messages a step of the engine hands to the gateway, each with its time. -/
def offers (e : Engine) : Engine.Act → List (Inbound × Nat)
  | .submit req now gateway =>
    if e.trading then
      let w := e.world gateway
      ((e.session.manager.submit req now w.symbol w.reference w.gateway).sent.map fun m => (m, now)).toList
    else []
  | .cancel id now gateway => ((e.session.manager.cancel id now gateway).sent.map fun m => (m, now)).toList
  | .replace id price qty now gateway =>
    if e.trading then
      let w := e.world gateway
      ((e.session.manager.replace id price qty now w.reference w.gateway).sent.map fun m => (m, now)).toList
    else []
  | .advance gateway =>
    match e.session.stack with
    | .sweep (some i) last _ now :: _ =>
      let x := (e.session.manager.slots i).info
      if last < x.id ∨ x.status = .pendingCancel then []
      else ((e.session.manager.cancelEntry i now gateway).sent.map fun m => (m, now)).toList
    | _ => []
  | _ => []

/-- The parts of a backtest. -/
structure BacktestConfig where
  engine : Engine.Config := {}
  sim : SimConfig := {}

def kMaxFlushRounds : Nat := 64

/-- `~Nanos{0}`. -/
def kEndOfTime : Nat := u64Max

/-- Where the run stands. -/
inductive Stage
  /-- The source is asked for a record. -/
  | reading
  /-- Reports due now are delivered; then the record is played. -/
  | delivering (payload : List Byte)
  /-- The engine has the record. -/
  | playing
  /-- A round of the flush: how many came before, and the reports it has delivered. -/
  | flushing (round delivered : Nat)
  | done

/-- The exchange, the engine and the loop that drives them. -/
structure Backtest where
  exchange : ExchangeSim
  engine : Engine
  now : Nat := 0
  stage : Stage := .reading
  /-- The engine has the first report. -/
  handing : Bool := false
  /-- The time of the latest call of the engine, which the contexts show. -/
  clock : Nat := 0
  /-- History: the times of the calls of the engine, and of the sends of the gateway. -/
  calls : List Nat := []
  sends : List Nat := []

/-- A step inside a call of the engine. -/
inductive Move
  | submit (req : OrderRequest)
  | cancel (id : Nat)
  | replace (id : Nat) (price : Int) (qty : Nat)
  | advance
  | ret
  | finish

def Move.act (now : Nat) (gateway : Inbound → Bool) : Move → Engine.Act
  | .submit req => .submit req now gateway
  | .cancel id => .cancel id now gateway
  | .replace id price qty => .replace id price qty now gateway
  | .advance => .advance gateway
  | .ret => .ret
  | .finish => .finish

/-- What the source and the strategy do. -/
inductive Input
  /-- The source yields a record. -/
  | record (r : Record)
  /-- The source is at its end. -/
  | eof
  /-- The engine, or its strategy, makes a step. -/
  | move (m : Move)
  /-- The loop goes on. -/
  | go

namespace Backtest

def new (config : BacktestConfig) : Backtest where
  exchange := .new config.sim
  engine := .new config.engine

/-- The engine's gateway is the exchange. -/
def gateway (b : Backtest) (m : Inbound) : Bool := (b.exchange.send m b.clock).2

/-- The gateway forwards what it is handed. -/
def forward (exchange : ExchangeSim) (ms : List (Inbound × Nat)) : ExchangeSim :=
  ms.foldl (fun s m => (s.send m.1 m.2).1) exchange

def move (b : Backtest) (m : Move) : Option Backtest :=
  let a := m.act b.clock b.gateway
  (b.engine.step a).map fun (e, _) =>
    { b with
      engine := e
      exchange := forward b.exchange (offers b.engine a)
      sends := b.sends ++ (offers b.engine a).map Prod.snd }

/-- The engine is called at time `t`. -/
def call (b : Backtest) (t : Nat) (a : Engine.Act) : Option Backtest :=
  (b.engine.step a).map fun (e, _) => { b with engine := e, clock := t, calls := b.calls ++ [t] }

/-- The first report is handed to the engine, stamped with its own delivery time. -/
def hand (b : Backtest) : Option Backtest :=
  let r := b.exchange.reports.front
  { b with handing := true }.call r.deliver (.ouch (Ouch.decodeOutbound r.bytes).toOption r.deliver)

/-- The engine is done with the first report. -/
def handed (b : Backtest) : Option Backtest :=
  if b.engine.phase = .idle then some { b with exchange := b.exchange.handed, handing := false } else none

/-- The record is played, first to the exchange and then to the engine. -/
def play (b : Backtest) (payload : List Byte) : Option Backtest :=
  let m := (Itch.decode payload).toOption
  { b with exchange := b.exchange.onItch m b.now, stage := .playing }.call b.now (.itch m b.now)

/-- A round of the flush begins. -/
def flush (b : Backtest) (round : Nat) : Backtest :=
  if round < kMaxFlushRounds then
    { b with exchange := b.exchange.advance kEndOfTime, stage := .flushing round 0 }
  else { b with stage := .done }

def go (b : Backtest) : Option Backtest :=
  match b.stage with
  | .delivering payload =>
    if b.handing then b.handed
    else if b.exchange.due b.now then b.hand
    else b.play payload
  | .playing => if b.engine.phase = .idle then some { b with stage := .reading } else none
  | .flushing round delivered =>
    if b.handing then b.handed
    else if b.exchange.due kEndOfTime then { b with stage := .flushing round (delivered + 1) }.hand
    else if delivered = 0 then some { b with stage := .done }
    else some (b.flush (round + 1))
  | .reading | .done => none

/-- One step; `none` where the input does not fit the stage. -/
def step (b : Backtest) : Input → Option Backtest
  | .record r =>
    match b.stage with
    | .reading =>
      let now := max b.now r.ts
      some { b with now := now, exchange := b.exchange.advance now, stage := .delivering r.payload }
    | _ => none
  | .eof =>
    match b.stage with
    | .reading => some (b.flush 0)
    | _ => none
  | .move m => b.move m
  | .go => b.go

end Backtest
end OptiTrade.Replay
