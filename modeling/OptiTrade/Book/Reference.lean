import Mathlib.Data.List.AList
import OptiTrade.Book.MarketBooks

/-! # The books as plain finite maps

What `MarketBooks` is for, said with maps alone: the orders by reference, the books by locate, and in
each book one map from prices to levels for each side. No array is kept sorted, nothing is searched;
the ladder of a side is its map, sorted when it is asked for. -/

namespace OptiTrade.Book
set_option autoImplicit false

open Itch (Message)

/-- A price level. -/
structure RefLevel where
  qty : Nat
  orders : Nat
  /-- Which incarnation of the price level this is. -/
  gen : Nat

/-- A side is a map from prices to levels. -/
abbrev RefSide := AList fun _ : Int => RefLevel

/-- The two sides of a book, and the next incarnation of a level. -/
structure RefBook where
  sides : Side → RefSide := fun _ => ∅
  nextGen : Nat := 1

/-- All books, as plain maps. -/
structure Reference where
  maxOrders : Nat
  maxLevels : Nat
  maxSymbols : Nat
  orders : AList (fun _ : Nat => OrderRecord) := ∅
  books : AList (fun _ : Nat => RefBook) := ∅
  bySymbol : AList (fun _ : Symbol => Nat) := ∅
  symbolOf : AList (fun _ : Nat => Symbol) := ∅
  lastTrades : AList (fun _ : Nat => Int) := ∅
  applied : Nat := 0
  overflows : Nat := 0

namespace RefSide

def worst (lv : RefSide) : Side → Option Int
  | .buy => lv.keys.min?
  | .sell => lv.keys.max?

/-- The side after an add, the incarnation that holds the order (0 for none), and whether a limit
was hit. A side holds at most `cap` levels: a price worse than all of them is refused, any other new
price takes the place of the worst. -/
def add (lv : RefSide) (cap : Nat) (s : Side) (price : Int) (qty gen : Nat) : RefSide × Nat × Bool :=
  match lv.lookup price with
  | some x =>
    if kQtyMax < x.qty + qty ∨ x.orders = kOrdersMax then (lv, 0, true)
    else (lv.insert price ⟨x.qty + qty, x.orders + 1, x.gen⟩, x.gen, false)
  | none =>
    if lv.keys.length < cap then (lv.insert price ⟨qty, 1, gen⟩, gen, false)
    else
      match lv.worst s with
      | none => (lv, 0, true)
      | some w =>
        if better s w price then (lv, 0, true)
        else ((lv.erase w).insert price ⟨qty, 1, gen⟩, gen, true)

/-- Shares leave the level at `price` if it is still the incarnation `gen`. -/
def take (lv : RefSide) (price : Int) (qty gen : Nat) (whole : Bool) : RefSide :=
  match lv.lookup price with
  | none => lv
  | some x =>
    if x.gen ≠ gen ∨ x.qty < qty then lv
    else if x.qty = qty then lv.erase price
    else lv.insert price ⟨x.qty - qty, if whole ∧ 1 < x.orders then x.orders - 1 else x.orders, x.gen⟩

/-- The levels, best price first. -/
def ladder (lv : RefSide) (s : Side) : List Level :=
  (lv.entries.map fun x => (⟨x.1, x.2.qty, x.2.orders⟩ : Level)).mergeSort fun a b => !better s b.price a.price

end RefSide

namespace Reference

def new (config : MarketBooks.Config) : Reference where
  maxOrders := config.maxOrders
  maxLevels := config.maxLevelsPerSide
  maxSymbols := min config.maxSymbols MarketBooks.kLocates

/-- The book of a locate, a new one if it has none. -/
def bookAt (r : Reference) (loc : Nat) : RefBook := (r.books.lookup loc).getD {}

/-- An order comes in, on the ladder if there is a place for it. -/
def insertOrder (r : Reference) (ref loc : Nat) (side : Side) (price : Int) (qty : Nat) : Reference × Bool :=
  let b := r.bookAt loc
  let (lv, gen, hit) := (b.sides side).add r.maxLevels side price qty b.nextGen
  -- a new level uses up one incarnation number
  let created := (b.sides side).lookup price = none ∧ lv.lookup price ≠ none
  ({ r with
      books := r.books.insert loc
        { sides := Function.update b.sides side lv
          nextGen := if created then add64 b.nextGen 1 else b.nextGen }
      overflows := if hit then r.overflows + 1 else r.overflows
      orders := r.orders.insert ref ⟨⟨loc, side, price, qty⟩, gen⟩ }, decide (gen ≠ 0))

/-- Shares of an order leave its level, if that is still the one it was added to. -/
def takeFrom (r : Reference) (o : OrderRecord) (qty : Nat) (whole : Bool) : Reference :=
  match r.books.lookup o.info.locate with
  | none => r
  | some b =>
    if o.level = 0 then r
    else
      { r with books := r.books.insert o.info.locate { b with
          sides := Function.update b.sides o.info.side
            ((b.sides o.info.side).take o.info.price qty o.level whole) } }

def dropOrder (r : Reference) (ref : Nat) (o : OrderRecord) : Reference :=
  let r := r.takeFrom o o.info.qty true
  { r with orders := r.orders.erase ref }

/-- An order loses shares, and the last of them end it. -/
def reduce (r : Reference) (ref shares : Nat) (tradePrice : Option Int) (execution : Bool) : Reference × Applied :=
  match r.orders.lookup ref with
  | none => (r, .unknownOrder)
  | some o =>
    if shares = 0 then (r, .invalid)
    else if o.info.qty < shares then (r.dropOrder ref o, .invalid)
    else
      let r :=
        if shares = o.info.qty then r.dropOrder ref o
        else
          let r := r.takeFrom o shares false
          { r with orders := r.orders.insert ref { o with info := { o.info with qty := o.info.qty - shares } } }
      let r :=
        if execution then
          { r with lastTrades := r.lastTrades.insert o.info.locate (tradePrice.getD o.info.price) }
        else r
      ({ r with applied := r.applied + 1 }, .ok)

def onStockDirectory (r : Reference) (m : Itch.StockDirectory) : Reference × Applied :=
  if m.symbol.isEmpty then (r, .invalid)
  else
    match r.bySymbol.lookup m.symbol with
    | some bound => (r, if bound = m.h.locate then .ignored else .invalid)
    | none =>
      if (r.symbolOf.lookup m.h.locate).isSome then (r, .invalid)
      else if r.maxSymbols ≤ r.bySymbol.keys.length then (r, .capacity)
      else
        ({ r with
            books := r.books.insert m.h.locate (r.bookAt m.h.locate)
            bySymbol := r.bySymbol.insert m.symbol m.h.locate
            symbolOf := r.symbolOf.insert m.h.locate m.symbol }, .ok)

/-- Adds an order the table has room for. -/
def addNew (r : Reference) (ref loc : Nat) (side : Side) (price : Int) (qty : Nat) : Reference × Applied :=
  match r.insertOrder ref loc side price qty with
  | (r, true) => ({ r with applied := r.applied + 1 }, .ok)
  | (r, false) => (r, .capacity)

def on (r : Reference) : Message → Reference × Applied
  | .stockDirectory m => r.onStockDirectory m
  | .addOrder m =>
    if m.shares = 0 then (r, .invalid)
    else if (r.orders.lookup m.ref).isSome then (r, .duplicateOrder)
    else if r.maxOrders ≤ r.orders.keys.length then (r, .capacity)
    else r.addNew m.ref m.h.locate m.side m.price m.shares
  | .orderExecuted m => r.reduce m.ref m.shares none true
  | .orderExecutedPrice m => r.reduce m.ref m.shares (some m.price) true
  | .orderCancel m => r.reduce m.ref m.shares none false
  | .orderDelete m =>
    match r.orders.lookup m.ref with
    | none => (r, .unknownOrder)
    | some o =>
      let r := r.dropOrder m.ref o
      ({ r with applied := r.applied + 1 }, .ok)
  | .orderReplace m =>
    match r.orders.lookup m.oldRef with
    | none => (r, .unknownOrder)
    | some o =>
      if m.shares = 0 then (r, .invalid)
      else if (r.orders.lookup m.newRef).isSome then (r, .duplicateOrder)
      else (r.dropOrder m.oldRef o).addNew m.newRef o.info.locate o.info.side m.price m.shares
  | .trade m => ({ r with lastTrades := r.lastTrades.insert m.h.locate m.price }, .ignored)
  | .systemEvent _ => (r, .ignored)

end Reference

/-! ## What both show -/

/-- All that can be asked about the books. -/
structure View where
  record : Nat → Option OrderRecord
  liveOrders : Nat
  /-- The ladders of a locate, best price first, if it has a book. -/
  ladders : Nat → Option (Side → List Level)
  depth : Nat → Side → Nat
  applied : Nat
  overflows : Nat
  lastTrade : Nat → Int
  symbol : Nat → Symbol
  locate : Symbol → Option Nat

def MarketBooks.view (mb : MarketBooks) : View where
  record := mb.orders.find
  liveOrders := mb.liveOrders
  ladders := fun l => (mb.book l).map OrderBook.ladder
  depth := fun l s => ((mb.book l).map fun b => b.depth s).getD 0
  applied := mb.applied
  overflows := mb.overflows
  lastTrade := mb.lastTrade
  symbol := mb.symbol
  locate := mb.locate

def Reference.view (r : Reference) : View where
  record := fun ref => r.orders.lookup ref
  liveOrders := r.orders.keys.length
  ladders := fun l => (r.books.lookup l).map fun b s => (b.sides s).ladder s
  depth := fun l s => ((r.books.lookup l).map fun b => (b.sides s).keys.length).getD 0
  applied := r.applied
  overflows := r.overflows
  lastTrade := fun l => (r.lastTrades.lookup l).getD 0
  symbol := fun l => (r.symbolOf.lookup l).getD Symbol.blank
  locate := fun s => r.bySymbol.lookup s

end OptiTrade.Book
