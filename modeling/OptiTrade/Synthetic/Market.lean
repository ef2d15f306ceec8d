import OptiTrade.Book.OrderBook
import OptiTrade.Core.Draws
import OptiTrade.Foundations.SwapRemoval
import OptiTrade.Itch.Encoder

/-! # The synthetic market

A generator of ITCH messages from random draws. It keeps a copy of every live order, in one array for each side
of each symbol, and aims its messages at the orders in these arrays only. An array is the list of its used
slots; `kCap` is what the generator lets into one, not a bound that the list has by itself. The three generators
that fall back on each other have the depth of their calls as an argument. -/

namespace OptiTrade.Synthetic
set_option autoImplicit false

open Book (better)
open Itch (Message Header encode)

def kMaxMessageLength : Nat := Itch.kTradeLength
/-- Orders kept per side per symbol. -/
def kCap : Nat := 128
def kPreambleLevels : Nat := 6
/-- Per symbol: 6 levels, 2 sides, 2 orders. -/
def kPreambleOrders : Nat := kPreambleLevels * 4
def kTargetPopulation : Nat := 48
def kMaxTimestamp : Nat := 281474976710655
/-- 09:30:00. -/
def kSessionStart : Nat := 34200000000000

/-- The parameters of the generator. -/
structure SyntheticConfig where
  seed : UInt64 := 1
  symbols : UInt16 := 8
  /-- Flow messages after the preamble. -/
  messages : UInt64 := 100000
  startPrice : Int := 1000000
  tick : Int := 100
  meanGapNs : Nat := 5000
  regimePeriod : Nat := 20000

/-- A live order of the market. -/
structure Live where
  ref : Nat
  price : Int
  qty : Nat
  deriving DecidableEq

/-- An instrument: its fair value and its orders. -/
structure Sym where
  name : Symbol
  fair : Int
  lo : Int
  hi : Int
  orders : Side → List Live := fun _ => []

/-- The parts of a file. -/
inductive Phase
  | opening
  | directory
  | preamble
  | flow
  | done
  deriving DecidableEq

/-- The state of the generator. -/
structure Market (σ : Type) where
  rng : σ
  symbols : Nat
  flowTotal : Nat
  tick : Int
  period : Nat
  meanGap : Nat
  syms : Nat → Sym
  phase : Phase := .opening
  cursor : Nat := 0
  flowIndex : Nat := 0
  emitted : Nat := 0
  nextRef : Nat := 1
  matchNo : Nat := 0
  eventToggle : Nat := 0
  ts : Nat := kSessionStart
  bull : Bool := true

/-- `std::clamp`. -/
def clamp (v lo hi : Int) : Int := if v < lo then lo else if hi < v then hi else v

/-- The price rounded down to a tick. -/
def roundTick (tick p : Int) : Int := p.tdiv tick * tick

/-! ## Symbols -/

/-- The decimal digits, least significant first, in at most the given number of places. -/
def digits : Nat → Nat → List Nat
  | 0, _ => []
  | places + 1, v => v % 10 :: if v / 10 = 0 then [] else digits places (v / 10)

def makeSymbol (index : Nat) : Symbol :=
  let ds := digits 5 index
  -- at least two digits, zero padded
  Symbol.ofText ([ascii 'S', ascii 'Y', ascii 'M'] ++ List.replicate (2 - ds.length) (ascii '0') ++
    ds.reverse.map fun d => UInt8.ofNat (48 + d))

/-! ## The shadow arrays -/

/-- `x` has a better price than `b`, or an older reference at the same price. -/
def before (side : Side) (x b : Live) : Bool := better side x.price b.price || (x.price == b.price && decide (x.ref < b.ref))

/-- The slot of the best order, and the order. -/
def bestOf (side : Side) (a : List Live) : Option (Nat × Live) := SwapRemoval.first (before side) a

/-- The price would trade with the other side. -/
def crosses (side : Side) (px oppositeBest : Int) : Bool :=
  match side with
  | .buy => oppositeBest ≤ px
  | .sell => px ≤ oppositeBest

/-- A slot of an array; the ones behind the used slots are not meant to be read. -/
def slot (a : List Live) (i : Nat) : Live := a[i]?.getD ⟨0, 0, 0⟩

namespace Market
variable {σ : Type} (D : Draws σ) (m : Market σ)

def new (cfg : SyntheticConfig) (r : σ) : Market σ :=
  let tick := clamp cfg.tick 1 1000000
  let start := clamp cfg.startPrice (32 * tick) 1000000000
  { rng := r
    symbols := max cfg.symbols.toNat 1
    flowTotal := cfg.messages.toNat
    tick := tick
    period := max cfg.regimePeriod 1
    meanGap := min cfg.meanGapNs 4294967296
    syms := fun i =>
      let fair := roundTick tick (start + (i % 32 : Nat) * 4 * tick)
      { name := makeSymbol i
        fair := fair
        lo := roundTick tick (fair.tdiv 2)
        hi := roundTick tick (fair + fair.tdiv 2) } }

/-- Messages before the first flow message. -/
def preambleLength : Nat := 1 + m.symbols + m.symbols * kPreambleOrders

def header (loc : Nat) : Header := ⟨loc, 0, m.ts⟩

def locateOf (s : Nat) : Nat := (s + 1) % 65536

def orders (s : Nat) (side : Side) : List Live := (m.syms s).orders side

def setOrders (s : Nat) (side : Side) (a : List Live) : Market σ :=
  { m with syms := Function.update m.syms s { m.syms s with orders := Function.update (m.syms s).orders side a } }

def population (s : Nat) : Nat := (m.orders s .buy).length + (m.orders s .sell).length

/-- The last order takes the place of the one that goes. -/
def removeAt (s : Nat) (side : Side) (i : Nat) : Market σ :=
  m.setOrders s side (SwapRemoval.removeAt (m.orders s side) i)

/-- `shares` leave the order in a slot. -/
def reduce (s : Nat) (side : Side) (i shares : Nat) : Market σ :=
  let o := slot (m.orders s side) i
  if o.qty ≤ shares then m.removeAt s side i
  else m.setOrders s side ((m.orders s side).set i { o with qty := o.qty - shares })

def push (s : Nat) (side : Side) (o : Live) : Market σ := m.setOrders s side (m.orders s side ++ [o])

/-- A price that would trade with the best order of the other side. -/
def reaches (s : Nat) (side : Side) (px : Int) : Bool :=
  match bestOf (opposite side) (m.orders s (opposite side)) with
  | some (_, o) => crosses side px o.price
  | none => false

/-! ## Draws -/

/-- `std::countl_zero` of 64 bits. -/
def countlZero (x : UInt64) : Nat := if x = 0 then 64 else 63 - x.toNat.log2

/-- The gap before a message. The product has at most 48 bits. -/
def gap (r : σ) : Nat × σ :=
  if m.meanGap = 0 then (0, r)
  else
    let x := D.next r
    let frac := D.bounded 1024 x.2
    (m.meanGap * (countlZero (x.1 ||| 1) * 1024 + frac.1) / 1536, frac.2)

/-- The clock moves on, up to the last time that fits. -/
def advanceTime : Market σ :=
  let g := m.gap D m.rng
  { m with rng := g.2, ts := if kMaxTimestamp - m.ts < g.1 then kMaxTimestamp else m.ts + g.1 }

/-- A buy in three of five in a bull market, in two of five otherwise. -/
def pickSide (r : σ) : Side × σ :=
  let buy := D.chance (if m.bull then 60 else 40) 100 r
  (if buy.1 then .buy else .sell, buy.2)

def randomQty (r : σ) : Nat × σ := (100 * (1 + (D.bounded 10 r).1), (D.bounded 10 r).2)

/-- The shares an execution or a cancel removes from an order. -/
def removalShares (qty pop : Nat) (r : σ) : Nat × σ :=
  if qty < 2 then (qty, r)
  else
    let q := clamp (750 + ((pop : Int) - kTargetPopulation) * 15) 0 1000
    let hit := D.bounded 1000 r
    if (hit.1 : Int) < q then (qty, hit.2)
    else (1 + (D.bounded (qty - 1) hit.2).1, (D.bounded (qty - 1) hit.2).2)

/-- A pick over both sides of a symbol that holds an order. -/
def pickAny (s : Nat) (r : σ) : (Side × Nat) × σ :=
  let nb := (m.orders s .buy).length
  let k := D.bounded (nb + (m.orders s .sell).length) r
  (if k.1 < nb then (.buy, k.1) else (.sell, k.1 - nb), k.2)

def passivePrice (s : Nat) (side : Side) (r : σ) : Int × σ :=
  let g := D.geometric 1 3 15 r
  let dist := (1 + (g.1 : Int)) * m.tick
  let fair := (m.syms s).fair
  (match side with
    | .buy => max m.tick (fair - dist)
    | .sell => fair + dist, g.2)

/-- The fair value takes a step, now and then. -/
def stepFair (s : Nat) : Market σ :=
  let hit := D.bounded 32 m.rng
  if hit.1 ≠ 0 then { m with rng := hit.2 }
  else
    let up := D.chance (if m.bull then 11 else 9) 20 hit.2
    let y := m.syms s
    { m with
      rng := up.2
      syms := Function.update m.syms s
        { y with fair := clamp (y.fair + if up.1 then m.tick else -m.tick) y.lo y.hi } }

/-! ## Generators -/

/-- The entry of an instrument in the stock directory. -/
def genDirectory : Message :=
  .stockDirectory
    { h := m.header (locateOf m.cursor)
      symbol := (m.syms m.cursor).name
      marketCategory := ascii 'Q'
      financialStatus := ascii 'N'
      roundLotSize := 100
      roundLotsOnly := ascii 'N'
      issueClassification := ascii 'C'
      issueSubtype := [ascii 'Z', ascii ' ']
      authenticity := ascii 'P'
      shortSaleThreshold := ascii 'N'
      ipoFlag := ascii ' '
      luldTier := ascii '1'
      etpFlag := ascii 'N'
      etpLeverage := 0
      inverse := ascii 'N' }

def emitAdd (s : Nat) (side : Side) (px : Int) (qty : Nat) (attributed : Bool) : Market σ × Message :=
  ({ m with nextRef := add64 m.nextRef 1 }.push s side ⟨m.nextRef, px, qty⟩,
    .addOrder
      { h := m.header (locateOf s)
        ref := m.nextRef
        side := side
        shares := qty
        symbol := (m.syms s).name
        price := px
        hasAttribution := attributed
        mpid := if attributed then [ascii 'S', ascii 'Y', ascii 'N', ascii 'T'] else List.replicate 4 0 })

/-- Order `cursor` of the preamble: level 1 to 6, buy then sell, two orders each. -/
def genPreamble : Market σ × Message :=
  let s := m.cursor / kPreambleOrders
  let i := m.cursor % kPreambleOrders
  let side := if i / 2 % 2 = 0 then Side.buy else .sell
  let dist := ((i / 4 + 1 : Nat) : Int) * m.tick
  let px := match side with
    | .buy => (m.syms s).fair - dist
    | .sell => (m.syms s).fair + dist
  let qty := randomQty D m.rng
  { m with rng := qty.2 }.emitAdd s side px qty.1 false

mutual

/-- A new order; where it would cross the other side is executed, and a full side loses an order. -/
def genAdd : Nat → Market σ → Nat → Option (Market σ × Message)
  | 0, _, _ => none
  | depth + 1, m, s =>
    let side := m.pickSide D m.rng
    let px := m.passivePrice D s side.1 side.2
    let qty := randomQty D px.2
    let attributed := D.chance 1 10 qty.2
    let m := { m with rng := attributed.2 }
    if m.reaches s side.1 px.1 then genExecute depth m s (opposite side.1) qty.1 false
    else if kCap ≤ (m.orders s side.1).length then genDelete depth m s
    else some (m.emitAdd s side.1 px.1 qty.1 attributed.1)

/-- A delete, or a new order when there is none. -/
def genDelete : Nat → Market σ → Nat → Option (Market σ × Message)
  | 0, _, _ => none
  | depth + 1, m, s =>
    if m.population s = 0 then genAdd depth m s
    else
      let pick := m.pickAny D s m.rng
      let o := slot (m.orders s pick.1.1) pick.1.2
      some ({ m with rng := pick.2 }.removeAt s pick.1.1 pick.1.2, .orderDelete ⟨m.header (locateOf s), o.ref⟩)

/-- An execution of the best order of a side; the population decides how much of it if `want` is 0. -/
def genExecute : Nat → Market σ → Nat → Side → Nat → Bool → Option (Market σ × Message)
  | 0, _, _, _, _, _ => none
  | depth + 1, m, s, target, want, withPrice =>
    match bestOf target (m.orders s target) with
    | none => genAdd depth m s
    | some (i, o) =>
      let shares := if want ≠ 0 then (min want o.qty, m.rng) else removalShares D o.qty (m.population s) m.rng
      let no := add64 m.matchNo 1
      if withPrice then
        let inside := D.chance 1 4 shares.2
        let improved := match target with
          | .buy => o.price - m.tick
          | .sell => o.price + m.tick
        let px := if inside.1 ∧ m.tick ≤ improved then improved else o.price
        some ({ m with rng := inside.2, matchNo := no }.reduce s target i shares.1,
          .orderExecutedPrice ⟨m.header (locateOf s), o.ref, shares.1, no, true, px⟩)
      else
        some ({ m with rng := shares.2, matchNo := no }.reduce s target i shares.1,
          .orderExecuted ⟨m.header (locateOf s), o.ref, shares.1, no⟩)

end

def genCancel (depth : Nat) (s : Nat) : Option (Market σ × Message) :=
  if m.population s = 0 then genAdd D depth m s
  else
    let pick := m.pickAny D s m.rng
    let o := slot (m.orders s pick.1.1) pick.1.2
    let shares := removalShares D o.qty (m.population s) pick.2
    some ({ m with rng := shares.2 }.reduce s pick.1.1 pick.1.2 shares.1,
      .orderCancel ⟨m.header (locateOf s), o.ref, shares.1⟩)

/-- The best order of the side that an aggressor meets is executed. -/
def genExecFlow (depth : Nat) (s : Nat) (withPrice : Bool) : Option (Market σ × Message) :=
  let aggressor := m.pickSide D m.rng
  let m := { m with rng := aggressor.2 }
  let target := if (m.orders s (opposite aggressor.1)).length = 0 then aggressor.1 else opposite aggressor.1
  if (m.orders s target).length = 0 then genAdd D depth m s
  else genExecute D depth m s target 0 withPrice

def genReplace (depth : Nat) (s : Nat) : Option (Market σ × Message) :=
  if m.population s = 0 then genAdd D depth m s
  else
    let pick := m.pickAny D s m.rng
    let side := pick.1.1
    let o := slot (m.orders s side) pick.1.2
    let px := m.passivePrice D s side pick.2
    let qty := randomQty D px.2
    -- a price that would cross is not taken
    let price := if m.reaches s side px.1 then o.price else px.1
    some ({ m with rng := qty.2, nextRef := add64 m.nextRef 1 }.setOrders s side
        ((m.orders s side).set pick.1.2 ⟨m.nextRef, price, qty.1⟩),
      .orderReplace ⟨m.header (locateOf s), o.ref, m.nextRef, qty.1, price⟩)

/-- The middle of the best prices, or the fair value where a side is empty. -/
def tradePrice (s : Nat) : Int :=
  match bestOf .buy (m.orders s .buy), bestOf .sell (m.orders s .sell) with
  | some (_, bb), some (_, ba) => roundTick m.tick ((bb.price + ba.price).tdiv 2)
  | _, _ => (m.syms s).fair

def genTrade (s : Nat) : Market σ × Message :=
  let side := m.pickSide D m.rng
  let lots := D.bounded 5 side.2
  let no := add64 m.matchNo 1
  ({ m with rng := lots.2, matchNo := no },
    .trade ⟨m.header (locateOf s), 0, side.1, 100 * (1 + lots.1), (m.syms s).name, m.tradePrice s, no⟩)

def genFlow (depth : Nat) : Option (Market σ × Message) :=
  let s := D.bounded m.symbols m.rng
  let m := { m with rng := s.2 }.stepFair D s.1
  let r := D.bounded 1000 m.rng
  let m := { m with rng := r.2 }
  if r.1 < 410 then genAdd D depth m s.1
  else if r.1 < 636 then genDelete D depth m s.1
  else if r.1 < 718 then m.genCancel D depth s.1
  else if r.1 < 862 then m.genExecFlow D depth s.1 false
  else if r.1 < 944 then m.genReplace D depth s.1
  else if r.1 < 965 then m.genExecFlow D depth s.1 true
  else if r.1 < 996 then some (m.genTrade D s.1)
  else
    some ({ m with eventToggle := add32 m.eventToggle 1 },
      .systemEvent ⟨m.header 0, if m.eventToggle % 2 = 0 then ascii 'Q' else ascii 'M'⟩)

/-! ## The stream -/

/-- The message of the current phase, and the phase after it. -/
def generate (depth : Nat) : Option (Market σ × Message) :=
  match m.phase with
  | .opening => some ({ m with phase := .directory }, .systemEvent ⟨m.header 0, ascii 'O'⟩)
  | .directory =>
    some (if m.cursor + 1 = m.symbols then { m with cursor := 0, phase := .preamble } else { m with cursor := m.cursor + 1 },
      m.genDirectory)
  | .preamble =>
    let p := m.genPreamble D
    some (if p.1.cursor + 1 = p.1.symbols * kPreambleOrders then { p.1 with cursor := p.1.cursor + 1, phase := .flow }
      else { p.1 with cursor := p.1.cursor + 1 }, p.2)
  | .flow =>
    (genFlow D { m with bull := decide (m.flowIndex / m.period % 2 = 0) } depth).map fun p =>
      ({ p.1 with flowIndex := p.1.flowIndex + 1 }, p.2)
  -- `next` has returned before
  | .done => none

theorem generate_flow {m : Market σ} (h : m.phase = .flow) (depth : Nat) :
    m.generate D depth = (genFlow D { m with bull := decide (m.flowIndex / m.period % 2 = 0) } depth).map fun p =>
      ({ p.1 with flowIndex := p.1.flowIndex + 1 }, p.2) := by
  cases m
  dsimp only at h
  subst h
  rfl

/-- What a call that returns true leaves: the buffer, the length of the message and its time. -/
structure Written where
  out : List Byte
  len : Nat
  ts : Nat
  deriving DecidableEq

/-- The market after a call, and what the call wrote if it returned true. -/
def next (depth : Nat) (out : List Byte) : Option (Market σ × Option Written) :=
  if out.length < kMaxMessageLength then some (m, none)
  else
    let m := if m.phase = .flow ∧ m.flowTotal ≤ m.flowIndex then { m with phase := .done } else m
    if m.phase = .done then some (m, none)
    else
      ((m.advanceTime D).generate D depth).map fun p =>
        let w := encode p.2 out
        ({ p.1 with emitted := add64 p.1.emitted 1 }, if w.2 ≠ 0 then some ⟨w.1, w.2, p.1.ts⟩ else none)

end Market
end OptiTrade.Synthetic
