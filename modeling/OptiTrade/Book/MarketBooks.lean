import OptiTrade.Book.OrderBook
import OptiTrade.Foundations.BoundedMap
import OptiTrade.Itch.Messages

/-! # The books of every instrument on the feed

One table of live orders, a slot per locate, a map of symbols. Pages of slots are not visible from
outside: a page that does not exist yet reads as slots that hold nothing, so the model has a slot for
every locate. Pages and books are taken to be allocated when they are needed. -/

namespace OptiTrade.Book
set_option autoImplicit false

open Itch (Message)

/-- What a caller may ask about a live order. -/
structure OrderInfo where
  locate : Nat
  side : Side
  price : Int
  /-- Remaining displayed quantity. -/
  qty : Nat
  deriving DecidableEq

/-- A live order as the table keeps it. -/
structure OrderRecord where
  info : OrderInfo
  /-- The level the order was added to, `kNoLevel` if it is not on the ladder. -/
  level : Nat := kNoLevel
  deriving DecidableEq

/-- What is kept under a locate. -/
structure Slot where
  book : Option OrderBook := none
  symbol : Symbol := Symbol.blank
  lastTrade : Int := 0

namespace MarketBooks

structure Config where
  maxOrders : Nat := 1048576
  maxLevelsPerSide : Nat := 256
  maxSymbols : Nat := 65536

def kLocates : Nat := 65536

end MarketBooks

/-- All books of a feed, with the live orders and the names of the instruments. -/
structure MarketBooks where
  config : MarketBooks.Config
  orders : BoundedMap Nat OrderRecord
  bySymbol : BoundedMap Symbol Nat
  slots : Nat → Slot
  applied : Nat := 0
  overflows : Nat := 0

namespace MarketBooks

def new (config : Config) : MarketBooks where
  config := config
  orders := .empty config.maxOrders
  bySymbol := .empty (min config.maxSymbols kLocates)
  slots := fun _ => {}

def setSlot (mb : MarketBooks) (l : Nat) (slot : Slot) : MarketBooks :=
  { mb with slots := Function.update mb.slots l slot }

/-- The book of a slot, created on first use. -/
def ensureBook (mb : MarketBooks) (slot : Slot) : OrderBook :=
  slot.book.getD (.new mb.config.maxLevelsPerSide)

/-- The books after recording a new order, and whether the ladder took it. -/
def insertOrder (mb : MarketBooks) (ref loc : Nat) (side : Side) (price : Int) (qty : Nat) : MarketBooks × Bool :=
  let slot := mb.slots loc
  let bk := mb.ensureBook slot
  let (bk', id) := bk.addOrder side price qty
  ({ mb.setSlot loc { slot with book := some bk' } with
      overflows := mb.overflows + (bk'.overflows - bk.overflows)
      orders := (mb.orders.insert ref ⟨⟨loc, side, price, qty⟩, id⟩).1 }, decide (id ≠ kNoLevel))

/-- The books with an operation applied to the book of a locate. -/
def withBook (mb : MarketBooks) (loc : Nat) (f : OrderBook → OrderBook) : MarketBooks :=
  mb.setSlot loc { mb.slots loc with book := (mb.slots loc).book.map f }

/-- Removes an existing order from the table and, if it is on the ladder, from its level. -/
def drop (mb : MarketBooks) (ref : Nat) : MarketBooks :=
  match mb.orders.find ref with
  | none => mb
  | some rec =>
    let mb :=
      if rec.level ≠ kNoLevel then
        mb.withBook rec.info.locate fun b => (b.removeOrder rec.info.side rec.info.price rec.info.qty rec.level).1
      else mb
    { mb with orders := mb.orders.erase ref }

/-- Takes `shares` off an order; `tradePrice` is the price of an execution that carries its own. -/
def reduce (mb : MarketBooks) (ref shares : Nat) (tradePrice : Option Int) (execution : Bool) :
    MarketBooks × Applied :=
  match mb.orders.find ref with
  | none => (mb, .unknownOrder)
  | some rec =>
    if shares = 0 then (mb, .invalid)
    else if rec.info.qty < shares then (mb.drop ref, .invalid)
    else
      let loc := rec.info.locate
      let traded := tradePrice.getD rec.info.price
      let mb :=
        if shares = rec.info.qty then mb.drop ref
        else
          let mb :=
            if rec.level ≠ kNoLevel then
              mb.withBook loc fun b => (b.reduceOrder rec.info.side rec.info.price shares rec.level).1
            else mb
          { mb with orders := mb.orders.set ref { rec with info := { rec.info with qty := rec.info.qty - shares } } }
      let mb := if execution then mb.setSlot loc { mb.slots loc with lastTrade := traded } else mb
      ({ mb with applied := mb.applied + 1 }, .ok)

/-- Type `R`: names a locate. A name is bound once, and a locate to one name. -/
def onStockDirectory (mb : MarketBooks) (m : Itch.StockDirectory) : MarketBooks × Applied :=
  let loc := m.h.locate
  if m.symbol.isEmpty then (mb, .invalid)
  else
    match mb.bySymbol.find m.symbol with
    | some bound => (mb, if bound = loc then .ignored else .invalid)
    | none =>
      let slot := mb.slots loc
      if slot.symbol.isEmpty = false then (mb, .invalid)
      else if mb.bySymbol.limit ≤ mb.bySymbol.size then (mb, .capacity)
      else
        ({ mb.setSlot loc { slot with book := some (mb.ensureBook slot), symbol := m.symbol } with
            bySymbol := (mb.bySymbol.insert m.symbol loc).1 }, .ok)

def onAddOrder (mb : MarketBooks) (m : Itch.AddOrder) : MarketBooks × Applied :=
  if m.shares = 0 then (mb, .invalid)
  else if (mb.orders.find m.ref).isSome then (mb, .duplicateOrder)
  else if mb.orders.limit ≤ mb.orders.size then (mb, .capacity)
  else
    match mb.insertOrder m.ref m.h.locate m.side m.price m.shares with
    | (mb, true) => ({ mb with applied := mb.applied + 1 }, .ok)
    | (mb, false) => (mb, .capacity)

def onOrderDelete (mb : MarketBooks) (m : Itch.OrderDelete) : MarketBooks × Applied :=
  match mb.orders.find m.ref with
  | none => (mb, .unknownOrder)
  | some _ =>
    let mb := mb.drop m.ref
    ({ mb with applied := mb.applied + 1 }, .ok)

/-- Type `U`: the old order goes, the new one comes in on the same side of the same book. -/
def onOrderReplace (mb : MarketBooks) (m : Itch.OrderReplace) : MarketBooks × Applied :=
  match mb.orders.find m.oldRef with
  | none => (mb, .unknownOrder)
  | some old =>
    if m.shares = 0 then (mb, .invalid)
    else if (mb.orders.find m.newRef).isSome then (mb, .duplicateOrder)
    else
      match (mb.drop m.oldRef).insertOrder m.newRef old.info.locate old.info.side m.price m.shares with
      | (mb, true) => ({ mb with applied := mb.applied + 1 }, .ok)
      | (mb, false) => (mb, .capacity)

/-- Type `P` is about hidden orders: only the price of the last trade changes. -/
def onTrade (mb : MarketBooks) (m : Itch.Trade) : MarketBooks × Applied :=
  (mb.setSlot m.h.locate { mb.slots m.h.locate with lastTrade := m.price }, .ignored)

/-- A message is applied, with what came of it. -/
def on (mb : MarketBooks) : Message → MarketBooks × Applied
  | .stockDirectory m => mb.onStockDirectory m
  | .addOrder m => mb.onAddOrder m
  | .orderExecuted m => mb.reduce m.ref m.shares none true
  | .orderExecutedPrice m => mb.reduce m.ref m.shares (some m.price) true
  | .orderCancel m => mb.reduce m.ref m.shares none false
  | .orderDelete m => mb.onOrderDelete m
  | .orderReplace m => mb.onOrderReplace m
  | .trade m => mb.onTrade m
  | .systemEvent _ => (mb, .ignored)

/-- The book of a locate, if it has one. -/
def book (mb : MarketBooks) (l : Nat) : Option OrderBook := (mb.slots l).book

def order (mb : MarketBooks) (ref : Nat) : Option OrderInfo := (mb.orders.find ref).map OrderRecord.info

def liveOrders (mb : MarketBooks) : Nat := mb.orders.size

def locate (mb : MarketBooks) (s : Symbol) : Option Nat := mb.bySymbol.find s

def symbol (mb : MarketBooks) (l : Nat) : Symbol := (mb.slots l).symbol

def lastTrade (mb : MarketBooks) (l : Nat) : Int := (mb.slots l).lastTrade

end MarketBooks

/-- The state after the messages and the code of each of them. -/
def replay {σ : Type} (on : σ → Message → σ × Applied) : σ → List Message → σ × List Applied
  | s, [] => (s, [])
  | s, m :: ms =>
    let (s, a) := on s m
    let (s, as) := replay on s ms
    (s, a :: as)

end OptiTrade.Book
