import OptiTrade.Foundations.RingBuffer
import OptiTrade.Ouch.Codec
import OptiTrade.Sim.Venue

/-! # The exchange simulator

The venue between a queue of requests and a queue of reports. A request sent at `t` arrives at
`t + order_latency_ns` and is processed by the first `on_itch` or `advance` whose time has come to that;
a report waits until a drain at or after its delivery time. A drain calls back for each report it hands
out and the callback may send, so a drain is a begin, a hand-out and a return for each report, and an end.

Messages of the feed arrive as what the decoder delivered, `none` if it refused them. -/

namespace OptiTrade.Sim
set_option autoImplicit false

open Ouch (Inbound Outbound)

/-- The latencies and sizes of a simulator. -/
structure SimConfig where
  orderLatencyNs : Nat := 50000
  reportLatencyNs : Nat := 50000
  maxOrders : Nat := 65536
  books : Book.MarketBooks.Config := {}

/-- A request on its way to the exchange. -/
structure Request where
  arrival : Nat := 0
  msg : Inbound := .cancel ⟨Ouch.Token.blank, 0⟩
  /-- History: when it was sent. -/
  sent : Nat := 0

/-- A queued report; `about` is history: when the requests it is about were sent. -/
structure Report where
  deliver : Nat := 0
  msg : Outbound := .rejected ⟨0, Ouch.Token.blank, 0⟩
  about : List Nat := []

/-- The bytes a drain hands out. -/
def Report.bytes (r : Report) : List Byte := (Ouch.encode r.msg).getD []

/-- The exchange with its two queues. -/
structure ExchangeSim where
  config : SimConfig
  venue : Venue
  requests : RingBuffer Request
  /-- Worst-case reports of the queued requests. -/
  reserved : Nat := 0
  reports : RingBuffer Report
  droppedReports : Nat := 0
  /-- History: every report that was queued, and every request that was processed. -/
  generated : List Report := []
  processed : List Request := []

namespace ExchangeSim

def new (config : SimConfig) : ExchangeSim where
  config := config
  venue := .new config.maxOrders config.books
  requests := .new config.maxOrders {}
  reports := .new (max 1024 (4 * config.maxOrders)) {}

/-! ## Requests -/

/-- Most reports one request can cause, as a `size_t`. -/
def reportCost (s : ExchangeSim) : Inbound → Nat
  | .cancel _ => 1
  | .enter _ | .replace _ => add64 s.config.books.maxLevelsPerSide 2

/-- The simulator after the send, and whether it took the message. -/
def send (s : ExchangeSim) (m : Inbound) (now : Nat) : ExchangeSim × Bool :=
  if s.requests.count = s.requests.size then (s, false)
  else if s.reports.size < add64 (add64 s.reports.count s.reserved) (s.reportCost m) then (s, false)
  else
    ({ s with
        reserved := add64 s.reserved (s.reportCost m)
        requests := s.requests.push ⟨saturatingAdd now s.config.orderLatencyNs, m, now⟩ }, true)

/-! ## Reports -/

/-- A report goes into the queue, or is dropped. -/
def emit (s : ExchangeSim) (m : Said) : ExchangeSim :=
  if s.reports.count = s.reports.size then { s with droppedReports := s.droppedReports + 1 }
  else if (Ouch.encode m.msg).isNone then { s with droppedReports := s.droppedReports + 1 }
  else
    let r : Report := ⟨saturatingAdd s.venue.clock s.config.reportLatencyNs, m.msg, m.about⟩
    { s with reports := s.reports.push r, generated := s.generated ++ [r] }

/-- The simulator with the venue after a call; what the venue said is queued. -/
def publish (s : ExchangeSim) (v : Venue) : ExchangeSim :=
  v.said.foldl emit { s with venue := { v with said := [] } }

/-! ## Time -/

/-- Processes the first request. -/
def process (s : ExchangeSim) : ExchangeSim :=
  let r := s.requests.front
  let s :=
    { s with
      requests := s.requests.pop
      reserved := sub64 s.reserved (s.reportCost r.msg)
      processed := s.processed ++ [r] }
  s.publish ({ s.venue with clock := max s.venue.clock r.arrival }.onRequest r.msg r.sent)

/-- The first request has arrived. -/
def arrived (s : ExchangeSim) (now : Nat) : Bool := s.requests.count ≠ 0 ∧ s.requests.front.arrival ≤ now

/-- At most `n` iterations of the loop of `advance`. -/
def advanceUpTo (now : Nat) : Nat → ExchangeSim → ExchangeSim
  | 0, s => s
  | n + 1, s => if s.arrived now then advanceUpTo now n s.process else s

/-- All requests that have arrived by `now` are served. -/
def advance (s : ExchangeSim) (now : Nat) : ExchangeSim := advanceUpTo now s.requests.count s

/-- A market message comes after the requests that arrived before it. -/
def onItch (s : ExchangeSim) (m : Option Itch.Message) (now : Nat) : ExchangeSim :=
  let s := s.advance now
  let v := { s.venue with clock := max s.venue.clock now }
  match m with
  | some m => s.publish (v.apply m)
  | none => s.publish v

/-- The first report is due. -/
def due (s : ExchangeSim) (now : Nat) : Bool := s.reports.count ≠ 0 ∧ s.reports.front.deliver ≤ now

/-- The first report has been handed out. -/
def handed (s : ExchangeSim) : ExchangeSim := { s with reports := s.reports.pop }

end ExchangeSim

/-! ## Calls -/

/-- The calls of a simulator; a drain is made of one step for each report. -/
inductive Call
  | send (m : Inbound) (now : Nat)
  | onItch (m : Option Itch.Message) (now : Nat)
  | advance (now : Nat)
  /-- `drain_reports` is called. -/
  | drain (now : Nat)
  /-- The drain in progress calls back with the first report. -/
  | hand
  /-- The callback returns. -/
  | handed
  /-- The drain in progress finds no report that is due and returns. -/
  | drained

/-- What the caller gets. -/
inductive Answer
  | none
  | taken (ok : Bool)
  | report (r : Report)

/-- The call was not refused. -/
def Answer.succeeded : Answer → Bool
  | taken ok => ok
  | _ => true

/-- The simulator and the drain in progress: its time, and whether its callback runs. -/
structure State where
  sim : ExchangeSim
  draining : Option (Nat × Bool) := none

namespace State

/-- The caller's code runs: no drain is in progress, or its callback is. -/
def mayCall (s : State) : Bool :=
  match s.draining with
  | some (_, false) => false
  | _ => true

/-- One step; between two reports a drain makes no other call. -/
def step (s : State) : Call → Option (State × Answer)
  | .send m now =>
    if s.mayCall then some ({ s with sim := (s.sim.send m now).1 }, .taken (s.sim.send m now).2) else none
  | .onItch m now => if s.mayCall then some ({ s with sim := s.sim.onItch m now }, .none) else none
  | .advance now => if s.mayCall then some ({ s with sim := s.sim.advance now }, .none) else none
  | .drain now => if s.draining = none then some ({ s with draining := some (now, false) }, .none) else none
  | .hand =>
    match s.draining with
    | some (now, false) =>
      if s.sim.due now then some ({ s with draining := some (now, true) }, .report s.sim.reports.front) else none
    | _ => none
  | .handed =>
    match s.draining with
    | some (now, true) => some (⟨s.sim.handed, some (now, false)⟩, .none)
    | _ => none
  | .drained =>
    match s.draining with
    | some (now, false) => if s.sim.due now then none else some ({ s with draining := none }, .none)
    | _ => none

end State
end OptiTrade.Sim
