import OptiTrade.Book.MarketBooks
import OptiTrade.Foundations.IntrusiveList
import OptiTrade.Foundations.SlabPool
import OptiTrade.Ouch.Messages

/-! # The simulated venue

What the simulator does when a request arrives or a market message is applied. The two queues around
it are in `ExchangeSim`: here the reports of a call are only said, in `said`, oldest first; the event
clock stands still during a call.

The `prev`/`next` fields of the orders are kept beside them in `links`, the two ends of each list in
`ends`. A loop over such a list visits at most as many nodes as the pool has. -/

namespace OptiTrade.Sim
set_option autoImplicit false

open Ouch (Token Firm)
open Book (MarketBooks Level)

/-- An order of ours. -/
structure Order where
  token : Token := Token.blank
  locate : Nat := 0
  side : Side := .buy
  price : Int := 0
  leaves : Nat := 0
  /-- Executed so far, kept across replaces. -/
  filled : Nat := 0
  /-- Shares queued in front of us at our price. -/
  ahead : Nat := 0
  tif : Nat := 0
  stock : Symbol := Symbol.blank
  firm : Firm := Firm.blank
  display : Byte := ascii 'Y'
  capacity : Byte := ascii 'P'
  sweep : Byte := ascii 'N'
  minQty : Nat := 0
  cross : Byte := ascii 'N'
  ref : Nat := 0
  /-- Linked into the list of its locate and side. -/
  resting : Bool := false
  /-- History: when the requests behind the order were sent, the last one first. -/
  since : List Nat := []

instance : Inhabited Order := ⟨{}⟩

/-- A report, with the times at which the requests it is about were sent. -/
structure Said where
  msg : Ouch.Outbound
  about : List Nat

/-- The market's books, our orders, and what the exchange says. -/
structure Venue where
  books : MarketBooks
  orders : SlabPool Order
  byToken : BoundedMap Token Nat
  links : Links := .none
  /-- First and last resting order of each locate and side. -/
  ends : Nat → Ends := fun _ => ⟨none, none⟩
  clock : Nat := 0
  nextRef : Nat := 1
  matchNo : Nat := 0
  fills : Nat := 0
  said : List Said := []

namespace Venue

def new (maxOrders : Nat) (books : MarketBooks.Config) : Venue where
  books := .new books
  orders := .new maxOrders
  byToken := .empty maxOrders

def kMaxPrice : Int := 2000000000
def kRemoved : Byte := ascii 'R'
def kAdded : Byte := ascii 'A'

def order (v : Venue) (h : Nat) : Order := v.orders.values h

def setOrder (v : Venue) (h : Nat) (o : Order) : Venue := { v with orders := v.orders.set h o }

def say (v : Venue) (m : Ouch.Outbound) (about : List Nat) : Venue := { v with said := v.said ++ [⟨m, about⟩] }

/-! ## Order storage -/

def slot (loc : Nat) : Side → Nat
  | .buy => 2 * loc
  | .sell => 2 * loc + 1

/-- Visits resting orders from `start` on. -/
def visit (v : Venue) (start : Option Nat) (body : Venue → Nat → Venue) : Venue :=
  walk (fun v h => v.links.next h) body v.orders.capacity start v

/-- The order goes to the end of its list. -/
def linkTail (v : Venue) (h : Nat) : Venue :=
  let o := v.order h
  let s := slot o.locate o.side
  let r := v.links.pushBack (v.ends s) h
  { v.setOrder h { o with resting := true } with links := r.1, ends := Function.update v.ends s r.2 }

def unlink (v : Venue) (h : Nat) : Venue :=
  let o := v.order h
  let s := slot o.locate o.side
  let r := v.links.unlink (v.ends s) h
  { v.setOrder h { o with resting := false } with links := r.1, ends := Function.update v.ends s r.2 }

/-- `removed` shares of order `h` leave the queue: orders behind it at the same price have that much less
in front of them. -/
def shrinkFollowers (v : Venue) (h removed : Nat) : Venue :=
  let o := v.order h
  v.visit (v.links.next h) fun v j =>
    let f := v.order j
    if f.price = o.price then v.setOrder j { f with ahead := f.ahead - min f.ahead removed } else v

/-- Takes an order out for good. An order that finished during its own arrival was never linked. -/
def removeOrder (v : Venue) (h : Nat) : Venue :=
  let o := v.order h
  let v := if o.resting then (v.shrinkFollowers h o.leaves).unlink h else v
  { v with byToken := v.byToken.erase o.token, orders := v.orders.release h }

/-! ## Executions -/

def crosses (side : Side) (limit other : Int) : Bool :=
  match side with
  | .buy => other ≤ limit
  | .sell => limit ≤ other

/-- An execution is booked, counted and reported. -/
def execute (v : Venue) (h qty : Nat) (price : Int) (liquidity : Byte) : Venue :=
  let o := v.order h
  let v := v.setOrder h { o with leaves := o.leaves - qty, filled := o.filled + qty }
  let v := { v with fills := v.fills + 1, matchNo := v.matchNo + 1 }
  v.say (.executed ⟨v.clock, o.token, qty, price, liquidity, v.matchNo⟩) o.since

/-- A displayed order was added: our resting orders on the other side that it reaches fill at their own
limit. -/
def sweepThrough (v : Venue) (loc : Nat) (addedSide : Side) (addedPrice : Int) : Venue :=
  let side := opposite addedSide
  v.visit (v.ends (slot loc side)).head fun v h =>
    let o := v.order h
    if crosses side o.price addedPrice then (v.execute h o.leaves o.price kAdded).removeOrder h else v

/-- `shares` executed at display level `level`: each of our orders there loses them from the queue in
front of it and fills with what is left over. -/
def consume (v : Venue) (loc : Nat) (side : Side) (level execPrice : Int) (shares : Nat) : Venue :=
  v.visit (v.ends (slot loc side)).head fun v h =>
    let o := v.order h
    if o.price = level then
      if shares ≤ o.ahead then v.setOrder h { o with ahead := o.ahead - shares }
      else
        let excess := shares - o.ahead
        let px := match side with
          | .buy => min execPrice o.price
          | .sell => max execPrice o.price
        let v := (v.setOrder h { o with ahead := 0 }).execute h (min o.leaves excess) px kAdded
        if (v.order h).leaves = 0 then v.removeOrder h else v
    else v

/-! ## Market data -/

/-- A message of the market, and what it does to our orders. -/
def apply (v : Venue) (m : Itch.Message) : Venue :=
  let r := v.books.on m
  let v' := { v with books := r.1 }
  match m with
  | .addOrder m => if r.2 = .ok then v'.sweepThrough m.h.locate m.side m.price else v'
  | .orderExecuted m =>
    match v.books.order m.ref with
    | none => v'
    | some info => if r.2 = .ok then v'.consume info.locate info.side info.price info.price m.shares else v'
  | .orderExecutedPrice m =>
    match v.books.order m.ref with
    | none => v'
    | some info => if r.2 = .ok then v'.consume info.locate info.side info.price m.price m.shares else v'
  | .orderReplace m =>
    match v.books.order m.oldRef with
    | none => v'
    | some info => if r.2 = .ok then v'.sweepThrough info.locate info.side m.price else v'
  | .stockDirectory _ | .orderCancel _ | .orderDelete _ | .trade _ | .systemEvent _ => v'

/-! ## Requests -/

def isAlnum (c : Byte) : Bool := (48 ≤ c && c ≤ 57) || (65 ≤ c && c ≤ 90) || (97 ≤ c && c ≤ 122)

/-- Alphanumeric characters followed only by spaces, at least one character. -/
def validToken (t : Token) : Bool :=
  !(t.chars.takeWhile isAlnum).isEmpty && (t.chars.dropWhile isAlnum).all (· == ascii ' ')

def acceptedOf (v : Venue) (o : Order) (shares : Nat) : Ouch.Accepted :=
  { ts := v.clock, token := o.token, side := o.side, shares := shares, stock := o.stock, price := o.price
    timeInForce := o.tif, firm := o.firm, display := o.display, ref := o.ref, capacity := o.capacity
    intermarketSweep := o.sweep, minQty := o.minQty, crossType := o.cross, orderState := ascii 'L'
    bboWeight := ascii ' ' }

/-- The levels of the other side an order takes, best first. -/
def takeLevels (h : Nat) : List Level → Venue → Venue
  | [], v => v
  | lv :: ls, v =>
    let o := v.order h
    if o.leaves = 0 then v
    else if crosses o.side o.price lv.price then
      takeLevels h ls (v.execute h (min o.leaves lv.qty) lv.price kRemoved)
    else v

/-- What an order that rests now has in front of it. -/
def queueAhead (v : Venue) (o : Order) (displayed : Nat) : Nat :=
  let r := walk (fun _ j => v.links.next j) (fun (x : Nat × Nat) j =>
    let e := v.order j
    if e.price = o.price then (x.1 + e.leaves, max x.2 (e.ahead + e.leaves)) else x)
    v.orders.capacity (v.ends (slot o.locate o.side)).head (displayed, 0)
  max r.1 r.2

/-- Matches a new or replaced order against the displayed book, then finishes it or rests it at the back
of its level. -/
def work (v : Venue) (h : Nat) : Venue :=
  let bk := v.books.book (v.order h).locate
  let v := match bk with
    | some b => takeLevels h (b.ladder (opposite (v.order h).side)) v
    | none => v
  let o := v.order h
  if o.leaves = 0 then v.removeOrder h
  else if o.tif = Ouch.kTifIoc then
    (v.say (.canceled ⟨v.clock, o.token, o.leaves, ascii 'I'⟩) o.since).removeOrder h
  else
    let displayed := match bk with
      | some b => b.qtyAt o.side o.price
      | none => 0
    (v.setOrder h { o with ahead := v.queueAhead o displayed }).linkTail h

def reject (v : Venue) (token : Token) (reason : Byte) (sent : Nat) : Venue :=
  v.say (.rejected ⟨v.clock, token, reason⟩) [sent]

/-- An enter: it is checked, works against the book, and rests or is gone. -/
def onEnter (v : Venue) (r : Ouch.EnterOrder) (sent : Nat) : Venue :=
  if !validToken r.token || (v.byToken.find r.token).isSome then v.reject r.token (ascii 'O') sent
  else
    match v.books.locate r.stock with
    | none => v.reject r.token (ascii 'S') sent
    | some loc =>
      if r.shares = 0 then v.reject r.token (ascii 'O') sent
      else if kMaxOrderQty < r.shares then v.reject r.token (ascii 'Z') sent
      else if r.price ≤ 0 ∨ kMaxPrice < r.price then v.reject r.token (ascii 'X') sent
      else
        match v.orders.allocate with
        | (_, none) => v.reject r.token (ascii 'O') sent
        | (orders, some h) =>
          let ins := v.byToken.insert r.token h
          if ins.2 = false then { v with orders := orders.release h }.reject r.token (ascii 'O') sent
          else
            let o : Order :=
              { token := r.token, locate := loc, side := r.side, price := r.price, leaves := r.shares
                tif := r.timeInForce, stock := r.stock, firm := r.firm, display := r.display, capacity := r.capacity
                sweep := r.intermarketSweep, minQty := r.minQty, cross := r.crossType, ref := v.nextRef
                since := [sent] }
            let v := { v with orders := orders.set h o, byToken := ins.1, nextRef := v.nextRef + 1 }
            (v.say (.accepted (v.acceptedOf o o.leaves)) o.since).work h

/-- A cancel, down to the size that is asked for. -/
def onCancel (v : Venue) (r : Ouch.CancelOrder) (sent : Nat) : Venue :=
  match v.byToken.find r.token with
  | none => v
  | some h =>
    let o := v.order h
    -- what may stay open is what may execute in total minus what already did
    let keep := r.shares - o.filled
    if o.leaves ≤ keep then v
    else
      let removed := o.leaves - keep
      let v := v.say (.canceled ⟨v.clock, o.token, removed, ascii 'U'⟩) (sent :: o.since)
      if keep = 0 then v.removeOrder h
      else
        let v := v.shrinkFollowers h removed
        v.setOrder h { v.order h with leaves := keep }

/-- A replace: the order goes, and its replacement is worked like a new one. -/
def onReplace (v : Venue) (r : Ouch.ReplaceOrder) (sent : Nat) : Venue :=
  match v.byToken.find r.existing with
  | none => v
  | some h =>
    if !validToken r.replacement || (v.byToken.find r.replacement).isSome then v
    else
      let o := v.order h
      let valid := 0 < r.price ∧ r.price ≤ kMaxPrice ∧ o.filled < r.shares ∧ r.shares ≤ kMaxOrderQty
      if ¬valid then
        (v.say (.canceled ⟨v.clock, o.token, o.leaves, ascii 'U'⟩) (sent :: o.since)).removeOrder h
      else
        -- priority is lost: leave the queue, swap the token and re-enter as a new arrival
        let v := (v.shrinkFollowers h o.leaves).unlink h
        let o := v.order h
        let previous := o.token
        let byToken := ((v.byToken.erase previous).insert r.replacement h).1
        let o :=
          { o with
            token := r.replacement, price := r.price, leaves := r.shares - o.filled, tif := r.timeInForce
            display := r.display, sweep := r.intermarketSweep, minQty := r.minQty, ref := v.nextRef
            since := sent :: o.since }
        let v := { v.setOrder h o with byToken := byToken, nextRef := v.nextRef + 1 }
        (v.say (.replaced ⟨v.acceptedOf o o.leaves, previous⟩) o.since).work h

/-- A request reaches the venue. -/
def onRequest (v : Venue) (m : Ouch.Inbound) (sent : Nat) : Venue :=
  match m with
  | .enter r => v.onEnter r sent
  | .cancel r => v.onCancel r sent
  | .replace r => v.onReplace r sent

end Venue
end OptiTrade.Sim
