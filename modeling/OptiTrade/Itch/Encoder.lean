import OptiTrade.Foundations.Layout
import OptiTrade.Itch.Decoder

/-! # Encoding one ITCH message

Every writer puts its fields at their offsets; a price that does not fit its four bytes and a buffer
that is too small are refused before the first byte is written. -/

namespace OptiTrade.Itch
set_option autoImplicit false

open Be (Fields store emit)

def kSystemEventLength : Nat := 12
def kStockDirectoryLength : Nat := 39
def kAddOrderLength : Nat := 36
def kAddOrderMpidLength : Nat := 40
def kOrderExecutedLength : Nat := 31
def kOrderExecutedPriceLength : Nat := 36
def kOrderCancelLength : Nat := 23
def kOrderDeleteLength : Nat := 19
def kOrderReplaceLength : Nat := 35
def kTradeLength : Nat := 44

/-- Prices are unsigned and of four bytes on the wire. -/
def fitsWirePrice (px : Int) : Bool := 0 ≤ px && px ≤ 4294967295

def putHeader (type : Byte) (h : Header) : Fields :=
  [(0, [type]), (1, store 2 h.locate), (3, store 2 h.tracking), (5, store 6 h.timestamp)]

/-- The low 32 bits of the price. -/
def putPrice (px : Int) : List Byte := store 4 (px % 4294967296).toNat

def sideChar : Side → Byte
  | .sell => ascii 'S'
  | .buy => ascii 'B'

def encodeSystemEvent (m : SystemEvent) (out : List Byte) : List Byte × Nat :=
  emit out kSystemEventLength true (putHeader (ascii 'S') m.h ++ [(11, [m.eventCode])])

def encodeStockDirectory (m : StockDirectory) (out : List Byte) : List Byte × Nat :=
  emit out kStockDirectoryLength true (putHeader (ascii 'R') m.h ++
    [(11, m.symbol.chars), (19, [m.marketCategory]), (20, [m.financialStatus]), (21, store 4 m.roundLotSize),
      (25, [m.roundLotsOnly]), (26, [m.issueClassification]), (27, [Be.byteAt m.issueSubtype 0]),
      (28, [Be.byteAt m.issueSubtype 1]), (29, [m.authenticity]), (30, [m.shortSaleThreshold]), (31, [m.ipoFlag]),
      (32, [m.luldTier]), (33, [m.etpFlag]), (34, store 4 m.etpLeverage), (38, [m.inverse])])

/-- Type `F` with an attribution, type `A` without. -/
def encodeAddOrder (m : AddOrder) (out : List Byte) : List Byte × Nat :=
  emit out (if m.hasAttribution then kAddOrderMpidLength else kAddOrderLength) (fitsWirePrice m.price)
    (putHeader (if m.hasAttribution then ascii 'F' else ascii 'A') m.h ++
      [(11, store 8 m.ref), (19, [sideChar m.side]), (20, store 4 m.shares), (24, m.symbol.chars),
        (32, putPrice m.price)] ++ if m.hasAttribution then [(36, m.mpid)] else [])

def encodeOrderExecuted (m : OrderExecuted) (out : List Byte) : List Byte × Nat :=
  emit out kOrderExecutedLength true (putHeader (ascii 'E') m.h ++
    [(11, store 8 m.ref), (19, store 4 m.shares), (23, store 8 m.matchNo)])

def encodeOrderExecutedPrice (m : OrderExecutedPrice) (out : List Byte) : List Byte × Nat :=
  emit out kOrderExecutedPriceLength (fitsWirePrice m.price) (putHeader (ascii 'C') m.h ++
    [(11, store 8 m.ref), (19, store 4 m.shares), (23, store 8 m.matchNo),
      (31, [if m.printable then ascii 'Y' else ascii 'N']), (32, putPrice m.price)])

def encodeOrderCancel (m : OrderCancel) (out : List Byte) : List Byte × Nat :=
  emit out kOrderCancelLength true (putHeader (ascii 'X') m.h ++ [(11, store 8 m.ref), (19, store 4 m.shares)])

def encodeOrderDelete (m : OrderDelete) (out : List Byte) : List Byte × Nat :=
  emit out kOrderDeleteLength true (putHeader (ascii 'D') m.h ++ [(11, store 8 m.ref)])

def encodeOrderReplace (m : OrderReplace) (out : List Byte) : List Byte × Nat :=
  emit out kOrderReplaceLength (fitsWirePrice m.price) (putHeader (ascii 'U') m.h ++
    [(11, store 8 m.oldRef), (19, store 8 m.newRef), (27, store 4 m.shares), (31, putPrice m.price)])

def encodeTrade (m : Trade) (out : List Byte) : List Byte × Nat :=
  emit out kTradeLength (fitsWirePrice m.price) (putHeader (ascii 'P') m.h ++
    [(11, store 8 m.ref), (19, [sideChar m.side]), (20, store 4 m.shares), (24, m.symbol.chars),
      (32, putPrice m.price), (36, store 8 m.matchNo)])

/-- The overload of `encode` for the type of the message. -/
def encode : Message → List Byte → List Byte × Nat
  | .systemEvent m => encodeSystemEvent m
  | .stockDirectory m => encodeStockDirectory m
  | .addOrder m => encodeAddOrder m
  | .orderExecuted m => encodeOrderExecuted m
  | .orderExecutedPrice m => encodeOrderExecutedPrice m
  | .orderCancel m => encodeOrderCancel m
  | .orderDelete m => encodeOrderDelete m
  | .orderReplace m => encodeOrderReplace m
  | .trade m => encodeTrade m

/-! ## The record of a message -/

namespace Message

/-- The length on the wire. -/
def wireLength : Message → Nat
  | .systemEvent _ => kSystemEventLength
  | .stockDirectory _ => kStockDirectoryLength
  | .addOrder m => if m.hasAttribution then kAddOrderMpidLength else kAddOrderLength
  | .orderExecuted _ => kOrderExecutedLength
  | .orderExecutedPrice _ => kOrderExecutedPriceLength
  | .orderCancel _ => kOrderCancelLength
  | .orderDelete _ => kOrderDeleteLength
  | .orderReplace _ => kOrderReplaceLength
  | .trade _ => kTradeLength

/-- The price of a message that carries one. -/
def wirePrice : Message → Option Int
  | .addOrder m => some m.price
  | .orderExecutedPrice m => some m.price
  | .orderReplace m => some m.price
  | .trade m => some m.price
  | _ => none

/-- Its price, if it has one, has a wire form. -/
def fits (m : Message) : Bool := m.wirePrice.all fitsWirePrice

/-- The header of the message. -/
def header : Message → Header
  | .systemEvent m => m.h
  | .stockDirectory m => m.h
  | .addOrder m => m.h
  | .orderExecuted m => m.h
  | .orderExecutedPrice m => m.h
  | .orderCancel m => m.h
  | .orderDelete m => m.h
  | .orderReplace m => m.h
  | .trade m => m.h

/-- The type byte. -/
def type : Message → Byte
  | .systemEvent _ => ascii 'S'
  | .stockDirectory _ => ascii 'R'
  | .addOrder m => if m.hasAttribution then ascii 'F' else ascii 'A'
  | .orderExecuted _ => ascii 'E'
  | .orderExecutedPrice _ => ascii 'C'
  | .orderCancel _ => ascii 'X'
  | .orderDelete _ => ascii 'D'
  | .orderReplace _ => ascii 'U'
  | .trade _ => ascii 'P'

/-- The fields behind the header. -/
def body : Message → Fields
  | .systemEvent m => [(11, [m.eventCode])]
  | .stockDirectory m =>
    [(11, m.symbol.chars), (19, [m.marketCategory]), (20, [m.financialStatus]), (21, store 4 m.roundLotSize),
      (25, [m.roundLotsOnly]), (26, [m.issueClassification]), (27, [Be.byteAt m.issueSubtype 0]),
      (28, [Be.byteAt m.issueSubtype 1]), (29, [m.authenticity]), (30, [m.shortSaleThreshold]), (31, [m.ipoFlag]),
      (32, [m.luldTier]), (33, [m.etpFlag]), (34, store 4 m.etpLeverage), (38, [m.inverse])]
  | .addOrder m =>
    [(11, store 8 m.ref), (19, [sideChar m.side]), (20, store 4 m.shares), (24, m.symbol.chars),
      (32, putPrice m.price)] ++ if m.hasAttribution then [(36, m.mpid)] else []
  | .orderExecuted m => [(11, store 8 m.ref), (19, store 4 m.shares), (23, store 8 m.matchNo)]
  | .orderExecutedPrice m =>
    [(11, store 8 m.ref), (19, store 4 m.shares), (23, store 8 m.matchNo),
      (31, [if m.printable then ascii 'Y' else ascii 'N']), (32, putPrice m.price)]
  | .orderCancel m => [(11, store 8 m.ref), (19, store 4 m.shares)]
  | .orderDelete m => [(11, store 8 m.ref)]
  | .orderReplace m => [(11, store 8 m.oldRef), (19, store 8 m.newRef), (27, store 4 m.shares), (31, putPrice m.price)]
  | .trade m =>
    [(11, store 8 m.ref), (19, [sideChar m.side]), (20, store 4 m.shares), (24, m.symbol.chars),
      (32, putPrice m.price), (36, store 8 m.matchNo)]

def fields (m : Message) : Fields := putHeader m.type m.header ++ m.body

end Message

theorem encode_eq_emit (m : Message) (out : List Byte) : encode m out = emit out m.wireLength m.fits m.fields := by
  cases m with
  | systemEvent m => rfl
  | stockDirectory m => rfl
  | addOrder m =>
    show encodeAddOrder m out = _
    unfold encodeAddOrder Message.fields
    rw [List.append_assoc]
    rfl
  | orderExecuted m => rfl
  | orderExecutedPrice m => rfl
  | orderCancel m => rfl
  | orderDelete m => rfl
  | orderReplace m => rfl
  | trade m => rfl

end OptiTrade.Itch
