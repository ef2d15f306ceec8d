import OptiTrade.Foundations.BoundedMap
import OptiTrade.Foundations.RingBuffer
import OptiTrade.Foundations.IntrusiveList
import OptiTrade.Ouch.Messages
import OptiTrade.Risk.RiskEngine

/-! # The order manager

Every member function up to the listener callback it ends with: a function returns the state at
that callback together with what the callback is given. `OrderSession` runs the callbacks.

The table slots are a function of the slot number together with `capacity`; the `prev`/`next`
fields of the entries are kept beside them in `links`. Gateway, symbol source and reference source
are arguments: `gateway msg` is the answer of `OrderGateway::send`. -/

namespace OptiTrade.Oms
set_option autoImplicit false

open Ouch (Token)
open Risk (RiskEngine)

/-! ## Orders -/

/-- How long an order works. -/
inductive Tif
  | day
  | ioc
  deriving DecidableEq, Repr

/-- What a strategy asks for. -/
structure OrderRequest where
  locate : Nat := 0
  side : Side := .buy
  price : Int := 0
  qty : Nat := 0
  tif : Tif := .day
  deriving DecidableEq

/-- The states of an order. -/
inductive OrderStatus
  | pendingNew
  | live
  | pendingCancel
  | pendingReplace
  | filled
  | canceled
  | rejected
  deriving DecidableEq, Repr

def isTerminal : OrderStatus → Bool
  | .filled | .canceled | .rejected => true
  | _ => false

/-- What a strategy may know of an order. -/
structure OrderInfo where
  id : Nat := 0
  req : OrderRequest := {}
  status : OrderStatus := .pendingNew
  cumQty : Nat := 0
  leavesQty : Nat := 0
  avgPrice : Int := 0
  exchangeRef : Nat := 0
  lastUpdate : Nat := 0
  reason : Byte := 0
  deriving DecidableEq

/-- An execution. -/
structure Fill where
  id : Nat
  locate : Nat
  side : Side
  qty : Nat
  price : Int
  ts : Nat
  matchNo : Nat
  deriving DecidableEq

/-- What a call returns. -/
inductive SubmitStatus
  | ok
  | rejectedByRisk
  | invalidRequest
  | unknownOrder
  | badState
  | capacity
  | gatewayBusy
  deriving DecidableEq, Repr

/-- What `submit` returns. -/
structure SubmitResult where
  status : SubmitStatus
  id : Nat
  riskReason : Risk.Reject
  deriving DecidableEq

/-- Prices are unsigned and of four bytes on the wire. -/
def kMaxWirePrice : Int := 4294967295
def kNone : Nat := 4294967295

/-- The match numbers an order remembers. -/
def kMatchMemory : Nat := 8

/-- An order as the manager keeps it. -/
structure Entry where
  info : OrderInfo := {}
  token : Nat := 0
  /-- Replacement token while a replace is in flight, else 0. -/
  nextToken : Nat := 0
  replacePrice : Int := 0
  replaceQty : Nat := 0
  /-- Shares the risk engine holds for this order. -/
  reserved : Nat := 0
  notional : Nat := 0
  /-- Ring of recent match numbers, indexed modulo `kMatchMemory`. -/
  matches_ : Nat → Nat := fun _ => 0
  matchCount : Nat := 0
  accepted : Bool := false
  acked : Bool := false

/-- The reports that were not applied as they came. -/
structure Stats where
  unknownTokens : Nat := 0
  lateReports : Nat := 0
  invalidReports : Nat := 0
  clampedReports : Nat := 0
  deriving DecidableEq

structure Config where
  maxOrders : Nat := 65536
  firstToken : Nat := 1

/-- The orders, the ledger they are reserved in, and the ways to find them. -/
structure OrderManager where
  risk : RiskEngine
  capacity : Nat
  slots : Nat → Entry
  byId : BoundedMap Nat Nat
  tokens : BoundedMap Nat Nat
  finished : RingBuffer Nat
  fresh : Nat
  links : Links
  working : Ends
  nextId : Nat
  opened : Nat
  nextToken : Nat
  stats : Stats

namespace OrderManager

def slotCount (n : Nat) : Nat := min n (kNone - 1)

def new (config : Config) (risk : RiskEngine) : OrderManager where
  risk := risk
  capacity := slotCount config.maxOrders
  slots := fun _ => {}
  byId := .empty (slotCount config.maxOrders)
  tokens := .empty (2 * slotCount config.maxOrders)
  finished := .new (slotCount config.maxOrders) 0
  fresh := 0
  links := .none
  working := ⟨none, none⟩
  nextId := 1
  opened := 0
  nextToken := if config.firstToken ≠ 0 then config.firstToken else 1
  stats := {}

/-! ## Table slots -/

def set (m : OrderManager) (i : Nat) (e : Entry) : OrderManager :=
  { m with slots := Function.update m.slots i e }

def tokenAvailable (m : OrderManager) : Bool :=
  m.nextToken ≤ Token.kMaxId && m.tokens.size < m.tokens.limit

def slotAvailable (m : OrderManager) : Bool := m.fresh < m.capacity || m.finished.count != 0

/-- The slot `takeSlot` will hand out. -/
def nextSlot (m : OrderManager) : Nat :=
  if m.fresh < m.capacity then m.fresh else m.finished.front

/-- Claims the slot `nextSlot` named; a finished order in it is forgotten. -/
def takeSlot (m : OrderManager) (slot : Nat) : OrderManager :=
  if m.fresh < m.capacity then { m with fresh := m.fresh + 1 }
  else
    { m with
      finished := m.finished.pop
      byId := m.byId.erase (m.slots slot).info.id
      tokens := m.tokens.erase (m.slots slot).token }

def slotOf (m : OrderManager) (id : Nat) : Option Nat := m.byId.find id

/-- The order with an id, as long as the manager has it. -/
def entry (m : OrderManager) (id : Nat) : Option Entry := (m.slotOf id).map m.slots

def find (m : OrderManager) (id : Nat) : Option OrderInfo := (m.entry id).map Entry.info

def openOrders (m : OrderManager) : Nat := m.opened

/-- Shares the risk engine holds for this order, 0 for an unknown one. -/
def reservedQty (m : OrderManager) (id : Nat) : Nat :=
  match m.entry id with
  | some e => e.reserved
  | none => 0

def ordersSubmitted (m : OrderManager) : Nat := m.nextId - 1

/-- Appends to the working list. -/
def link (m : OrderManager) (slot : Nat) : OrderManager :=
  { m with links := (m.links.pushBack m.working slot).1, working := (m.links.pushBack m.working slot).2 }

def unlink (m : OrderManager) (slot : Nat) : OrderManager :=
  { m with links := (m.links.unlink m.working slot).1, working := (m.links.unlink m.working slot).2 }

/-! ## Counters -/

/-- A report for a token that means nothing. -/
def unknown (m : OrderManager) : OrderManager :=
  { m with stats := { m.stats with unknownTokens := m.stats.unknownTokens + 1 } }

/-- A report for an order that is over. -/
def late (m : OrderManager) : OrderManager :=
  { m with stats := { m.stats with lateReports := m.stats.lateReports + 1 } }

/-- A report that cannot be. -/
def invalid (m : OrderManager) : OrderManager :=
  { m with stats := { m.stats with invalidReports := m.stats.invalidReports + 1 } }

/-- A report that says more than is open. -/
def clamped (m : OrderManager) : OrderManager :=
  { m with stats := { m.stats with clampedReports := m.stats.clampedReports + 1 } }

/-! ## Ledger -/

end OrderManager

/-- What the ledger should hold for a working order: its leaves, or while a replace is in flight at
least the open quantity it asks for. -/
def Entry.want (e : Entry) : Nat :=
  if e.nextToken ≠ 0 ∧ e.info.cumQty < e.replaceQty then
    max e.info.leavesQty (sub32 e.replaceQty e.info.cumQty)
  else e.info.leavesQty

namespace OrderManager

/-- The ledger holds what the order needs. -/
def syncLedger (m : OrderManager) (i : Nat) : OrderManager :=
  let e := m.slots i
  let want := e.want
  let risk :=
    if e.reserved < want then
      m.risk.onOrderGrow e.info.req.locate e.info.req.side (sub32 want e.reserved)
    else if want < e.reserved then
      m.risk.onOrderReduce e.info.req.locate e.info.req.side (sub32 e.reserved want)
    else m.risk
  { m with risk := risk }.set i { e with reserved := want }

/-- The replace that was in flight is given up. -/
def dropReplacement (m : OrderManager) (i : Nat) : OrderManager :=
  let e := m.slots i
  { m with tokens := if e.nextToken ≠ 0 then m.tokens.erase e.nextToken else m.tokens }.set i
    { e with nextToken := 0, replacePrice := 0, replaceQty := 0 }

/-- Terminal transition. `outcome` defaults to filled or canceled depending on whether the whole
request executed. -/
def endOfLife (m : OrderManager) (i : Nat) (outcome : Option OrderStatus) : OrderManager :=
  let m := m.set i { m.slots i with info := { (m.slots i).info with leavesQty := 0 } }
  let m := m.dropReplacement i
  let e := m.slots i
  let status := outcome.getD (if e.info.req.qty ≤ e.info.cumQty then .filled else .canceled)
  let risk := m.risk.onOrderEnd e.info.req.locate e.info.req.side e.reserved
  let m := { m with risk := risk }.set i { e with info := { e.info with status := status }, reserved := 0 }
  let m := m.unlink i
  { m with finished := m.finished.push i, opened := m.opened - 1 }

/-! ## Order entry -/

def valid (r : OrderRequest) : Bool :=
  1 ≤ r.qty && r.qty ≤ kMaxOrderQty && 0 < r.price && r.price ≤ kMaxWirePrice

def wireTif : Tif → Nat
  | .ioc => Ouch.kTifIoc
  | .day => Ouch.kTifSystemHours

/-- What an order-entry call leaves behind: the message it offered to the gateway, if any, and the
update it ends with. -/
structure Outcome (α : Type) where
  result : α
  state : OrderManager
  sent : Option Ouch.Inbound := none
  update : Option OrderInfo := none

/-- An order is checked, booked and sent; if the gateway does not take it, nothing has happened. -/
def submit (m : OrderManager) (req : OrderRequest) (now : Nat) (symbol : Nat → Symbol)
    (reference : Nat → Int) (gateway : Ouch.Inbound → Bool) : Outcome SubmitResult :=
  if !valid req then ⟨⟨.invalidRequest, 0, .none⟩, m, none, none⟩
  else if (symbol req.locate).isEmpty then ⟨⟨.invalidRequest, 0, .none⟩, m, none, none⟩
  else if !m.slotAvailable || !m.tokenAvailable then ⟨⟨.capacity, 0, .none⟩, m, none, none⟩
  else
    let verdict := m.risk.evaluate req.locate req.side req.price req.qty (reference req.locate) now
    if verdict ≠ .none then ⟨⟨.rejectedByRisk, 0, verdict⟩, m, none, none⟩
    else
      let msg : Ouch.EnterOrder :=
        { token := Token.fromId m.nextToken, side := req.side, shares := req.qty
          stock := symbol req.locate, price := req.price, timeInForce := wireTif req.tif }
      let slot := m.nextSlot
      let ins := m.tokens.insert m.nextToken slot
      if !ins.2 then ⟨⟨.capacity, 0, .none⟩, m, none, none⟩
      else if !gateway (.enter msg) then
        ⟨⟨.gatewayBusy, 0, .none⟩, { m with tokens := ins.1.erase m.nextToken }, some (.enter msg), none⟩
      else
        let m := { m with tokens := ins.1, risk := m.risk.admitOrder now }
        let m := m.takeSlot slot
        let id := m.nextId
        let e : Entry :=
          { info := { id := id, req := req, leavesQty := req.qty, lastUpdate := now }
            token := m.nextToken, reserved := req.qty }
        let m := { m with nextId := m.nextId + 1 }.set slot e
        let m := { m with byId := (m.byId.insert id slot).1 }.link slot
        let m :=
          { m with
            nextToken := m.nextToken + 1, opened := m.opened + 1
            risk := m.risk.onOrderOpen req.locate req.side req.qty }
        ⟨⟨.ok, id, .none⟩, m, some (.enter msg), some e.info⟩

/-- Sends a cancel for the order in slot `i`; it goes to the replacement token while a replace is in
flight. -/
def cancelEntry (m : OrderManager) (i : Nat) (now : Nat) (gateway : Ouch.Inbound → Bool) :
    Outcome SubmitStatus :=
  let e := m.slots i
  if isTerminal e.info.status || e.info.status = .pendingCancel then ⟨.badState, m, none, none⟩
  else
    let target := if e.nextToken ≠ 0 then e.nextToken else e.token
    let msg : Ouch.CancelOrder := ⟨Token.fromId target, 0⟩
    if !gateway (.cancel msg) then ⟨.gatewayBusy, m, some (.cancel msg), none⟩
    else
      let info := { e.info with status := .pendingCancel, lastUpdate := now }
      ⟨.ok, m.set i { e with info := info }, some (.cancel msg), some info⟩

/-- An order that is not over is canceled. -/
def cancel (m : OrderManager) (id : Nat) (now : Nat) (gateway : Ouch.Inbound → Bool) :
    Outcome SubmitStatus :=
  match m.slotOf id with
  | none => ⟨.unknownOrder, m, none, none⟩
  | some i => m.cancelEntry i now gateway

/-- A live order is replaced under the next token, when the risk engine allows the growth. -/
def replace (m : OrderManager) (id : Nat) (newPrice : Int) (newQty : Nat) (now : Nat)
    (reference : Nat → Int) (gateway : Ouch.Inbound → Bool) : Outcome SubmitStatus :=
  match m.slotOf id with
  | none => ⟨.unknownOrder, m, none, none⟩
  | some i =>
    let e := m.slots i
    if e.info.status ≠ .live then ⟨.badState, m, none, none⟩
    else if newPrice ≤ 0 ∨ kMaxWirePrice < newPrice ∨ newQty = 0 ∨ kMaxOrderQty < newQty ∨
        newQty ≤ e.info.cumQty then ⟨.invalidRequest, m, none, none⟩
    else if !m.tokenAvailable then ⟨.capacity, m, none, none⟩
    else
      let openAfter := sub32 newQty e.info.cumQty
      let growth := if e.info.leavesQty < openAfter then sub32 openAfter e.info.leavesQty else 0
      let loc := e.info.req.locate
      let verdict := m.risk.evaluateReplace loc e.info.req.side newPrice openAfter growth (reference loc) now
      if verdict ≠ .none then ⟨.rejectedByRisk, m, none, none⟩
      else
        let msg : Ouch.ReplaceOrder :=
          { existing := Token.fromId e.token, replacement := Token.fromId m.nextToken
            shares := newQty, price := newPrice, timeInForce := wireTif e.info.req.tif }
        let ins := m.tokens.insert m.nextToken i
        if !ins.2 then ⟨.capacity, m, none, none⟩
        else if !gateway (.replace msg) then
          ⟨.gatewayBusy, { m with tokens := ins.1.erase m.nextToken }, some (.replace msg), none⟩
        else
          let m := { m with tokens := ins.1, risk := if growth ≠ 0 then m.risk.admitOrder now else m.risk }
          let m := { m with nextToken := m.nextToken + 1 }.set i
            { e with nextToken := m.nextToken, replacePrice := newPrice, replaceQty := newQty }
          let m := m.syncLedger i
          let info := { (m.slots i).info with status := .pendingReplace, lastUpdate := now }
          ⟨.ok, m.set i { m.slots i with info := info }, some (.replace msg), some info⟩

/-! ## Reports -/

/-- Report token to slot; the flag says that it was the replacement token. -/
def resolve (m : OrderManager) (t : Token) : Option (Nat × Bool) :=
  match t.toId with
  | none => none
  | some id =>
    if Token.fromId id = t then
      match m.tokens.find id with
      | none => none
      | some i =>
        if (m.slots i).token = id then some (i, false)
        else if (m.slots i).nextToken = id then some (i, true)
        else none
    else none

/-- The order a report addresses by its active token, or the state with the failure counted. -/
def activeOrder (m : OrderManager) (t : Token) : Nat ⊕ OrderManager :=
  match m.resolve t with
  | none => .inr m.unknown
  | some (i, replacement) =>
    if isTerminal (m.slots i).info.status then .inr m.late
    else if replacement then .inr m.invalid
    else .inl i

def onAccepted (m : OrderManager) (a : Ouch.Accepted) (now : Nat) : OrderManager × Option OrderInfo :=
  match m.activeOrder a.token with
  | .inr m' => (m', none)
  | .inl i =>
    let e := m.slots i
    if e.accepted || (a.orderState != ascii 'L' && a.orderState != ascii 'D') then (m.invalid, none)
    else
      let m := m.set i
        { e with
          accepted := true, acked := true
          info := { e.info with exchangeRef := a.ref, lastUpdate := now } }
      let m :=
        if a.orderState = ascii 'D' then m.endOfLife i none
        else if (m.slots i).info.status = .pendingNew then
          m.set i { m.slots i with info := { (m.slots i).info with status := .live } }
        else m
      (m, some (m.slots i).info)

end OrderManager

/-- Whether `n` is among the remembered match numbers. -/
def Entry.seenMatch (e : Entry) (n : Nat) : Bool :=
  (List.range (min e.matchCount kMatchMemory)).any fun k => e.matches_ k == n

/-- The last match numbers are kept in a ring. -/
def Entry.rememberMatch (e : Entry) (n : Nat) : Entry :=
  { e with
    matches_ := Function.update e.matches_ (e.matchCount % kMatchMemory) n
    matchCount := add32 e.matchCount 1 }

/-- The order's own bookkeeping of an execution. -/
def Entry.book (e : Entry) (x : Ouch.Executed) (now : Nat) : Entry :=
  let e := e.rememberMatch x.matchNo
  let notional := add64 e.notional (x.price.toNat * x.shares)
  let cum := add32 e.info.cumQty x.shares
  { e with
    acked := true
    notional := notional
    info :=
      { e.info with
        cumQty := cum
        leavesQty := sub32 e.info.leavesQty (min x.shares e.info.leavesQty)
        req := { e.info.req with qty := max e.info.req.qty cum }
        avgPrice := (notional / cum : Nat)
        lastUpdate := now } }

namespace OrderManager

/-- The state at `on_fill`, the fill, and the copy of the order taken before the callback. -/
def onExecuted (m : OrderManager) (x : Ouch.Executed) (now : Nat) :
    OrderManager × Option (Fill × OrderInfo) :=
  match m.activeOrder x.token with
  | .inr m' => (m', none)
  | .inl i =>
    let e := m.slots i
    if x.shares = 0 ∨ x.price ≤ 0 ∨ kMaxWirePrice < x.price ∨
        sub32 kMaxOrderQty e.info.cumQty < x.shares then (m.invalid, none)
    else if e.seenMatch x.matchNo then (m.invalid, none)
    else
      let m := if e.info.leavesQty < x.shares then m.clamped else m
      let m := m.set i (e.book x now)
      let m := { m with risk := m.risk.onFill e.info.req.locate e.info.req.side x.shares x.price }
      let m :=
        if (m.slots i).info.leavesQty = 0 then m.endOfLife i (some .filled)
        else
          (if (m.slots i).info.status = .pendingNew then
            m.set i { m.slots i with info := { (m.slots i).info with status := .live } }
          else m).syncLedger i
      let info := (m.slots i).info
      (m, some (⟨info.id, info.req.locate, info.req.side, x.shares, x.price, now, x.matchNo⟩, info))

/-- What the update after `on_fill` shows: the order as it is now, or the copy if it is gone. -/
def afterFill (m : OrderManager) (before : OrderInfo) : OrderInfo :=
  (m.find before.id).getD before

def onCanceled (m : OrderManager) (c : Ouch.Canceled) (now : Nat) : OrderManager × Option OrderInfo :=
  match m.activeOrder c.token with
  | .inr m' => (m', none)
  | .inl i =>
    if c.decrement = 0 then (m.invalid, none)
    else
      let e := m.slots i
      let qty := min c.decrement e.info.leavesQty
      let m := if qty ≠ c.decrement then m.clamped else m
      let m := m.set i
        { e with
          acked := true
          info := { e.info with leavesQty := sub32 e.info.leavesQty qty, reason := c.reason, lastUpdate := now } }
      let m :=
        if (m.slots i).info.leavesQty = 0 then m.endOfLife i none
        else
          (if (m.slots i).info.status = .pendingNew then
            m.set i { m.slots i with info := { (m.slots i).info with status := .live } }
          else m).syncLedger i
      (m, some (m.slots i).info)

/-- The exchange refuses the order, or the replace in flight. -/
def onRejected (m : OrderManager) (r : Ouch.Rejected) (now : Nat) : OrderManager × Option OrderInfo :=
  match m.resolve r.token with
  | none => (m.unknown, none)
  | some (i, replacement) =>
    if isTerminal (m.slots i).info.status then (m.late, none)
    else if !replacement && (m.slots i).acked then (m.invalid, none)
    else
      let m :=
        if replacement then
          let m := m.dropReplacement i
          (m.set i { m.slots i with info := { (m.slots i).info with status := .live } }).syncLedger i
        else m.endOfLife i (some .rejected)
      let info := { (m.slots i).info with reason := r.reason, lastUpdate := now }
      (m.set i { m.slots i with info := info }, some info)

/-- The replace in flight is done: the order goes on under its new token. -/
def onReplaced (m : OrderManager) (rp : Ouch.Replaced) (now : Nat) : OrderManager × Option OrderInfo :=
  match m.resolve rp.a.token with
  | none => (m.unknown, none)
  | some (i, replacement) =>
    let e := m.slots i
    if isTerminal e.info.status then (m.late, none)
    else if !replacement || rp.previous != Token.fromId e.token ||
        (rp.a.orderState != ascii 'L' && rp.a.orderState != ascii 'D') then (m.invalid, none)
    else
      let total := e.replaceQty
      let dead := rp.a.orderState = ascii 'D'
      let asked := if e.info.cumQty < total then sub32 total e.info.cumQty else 0
      let m := { m with tokens := m.tokens.erase e.token }
      let m := if ¬dead ∧ asked < rp.a.shares then m.clamped else m
      let m := m.set i
        { e with
          token := e.nextToken
          nextToken := 0
          replaceQty := 0
          replacePrice := 0
          info :=
            { e.info with
              req :=
                { e.info.req with
                  qty := max total e.info.cumQty
                  price := if 0 < rp.a.price ∧ rp.a.price ≤ kMaxWirePrice then rp.a.price else e.replacePrice }
              exchangeRef := if rp.a.ref ≠ 0 then rp.a.ref else e.info.exchangeRef
              leavesQty := if dead then 0 else min rp.a.shares asked
              lastUpdate := now } }
      let m :=
        if (m.slots i).info.leavesQty = 0 then m.endOfLife i none
        else
          (if (m.slots i).info.status = .pendingReplace then
            m.set i { m.slots i with info := { (m.slots i).info with status := .live } }
          else m).syncLedger i
      (m, some (m.slots i).info)

end OrderManager
end OptiTrade.Oms
