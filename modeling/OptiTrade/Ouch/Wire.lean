import OptiTrade.Foundations.Layout
import OptiTrade.Itch.Decoder
import OptiTrade.Ouch.Codec

/-! # OUCH readers and writers

Both directions, with the offsets of the message tables. A reader runs once the length of the message
has been checked; a writer runs once there is room for the whole message. -/

namespace OptiTrade.Ouch
set_option autoImplicit false

open Be (Fields store loadAt byteAt slice)

def kEnterOrderLength : Nat := 49
def kReplaceOrderLength : Nat := 47
def kCancelOrderLength : Nat := 19
def kAcceptedLength : Nat := 66
def kReplacedLength : Nat := 80
def kCanceledLength : Nat := 28
def kExecutedLength : Nat := 40
def kRejectedLength : Nat := 24

/-- Wire length of an inbound type, 0 if unsupported. -/
def inboundLength (type : Byte) : Nat :=
  if type = ascii 'O' then kEnterOrderLength
  else if type = ascii 'U' then kReplaceOrderLength
  else if type = ascii 'X' then kCancelOrderLength
  else 0

/-- Wire length of an outbound type, 0 if unsupported. -/
def outboundLength (type : Byte) : Nat :=
  if type = ascii 'A' then kAcceptedLength
  else if type = ascii 'U' then kReplacedLength
  else if type = ascii 'C' then kCanceledLength
  else if type = ascii 'E' then kExecutedLength
  else if type = ascii 'J' then kRejectedLength
  else 0

/-- The fourteen bytes at `off`; blank only where there are no fourteen bytes to read. -/
def Token.fromWire (p : List Byte) (off : Nat) : Token :=
  if h : (slice p off 14).length = 14 then ⟨slice p off 14, h⟩ else Token.blank

/-- The four bytes at `off`. -/
def Firm.fromWire (p : List Byte) (off : Nat) : Firm :=
  if h : (slice p off 4).length = 4 then ⟨slice p off 4, h⟩ else Firm.blank

/-- Zero shares, and too many, are refused. -/
def validOrderShares (q : Nat) : Bool := 1 ≤ q && q ≤ kMaxOrderQty

/-- The side, and whether the sale is short. -/
def parseSide (c : Byte) : Option (Side × Bool) :=
  if c = ascii 'B' then some (.buy, false)
  else if c = ascii 'S' then some (.sell, false)
  else if c = ascii 'T' then some (.sell, true)
  else if c = ascii 'E' then some (.sell, true)
  else none

/-! ## Readers -/

def readPrice (p : List Byte) (off : Nat) : Int := (loadAt p off 4 : Int)

/-- Type `O`; `none` for a field that is refused. -/
def readEnterOrder (p : List Byte) : Option EnterOrder :=
  match parseSide (byteAt p 15) with
  | none => none
  | some (side, shortSell) =>
    if !validOrderShares (loadAt p 16 4) then none
    else
      some
        { token := Token.fromWire p 1
          side := side
          shortSell := shortSell
          shares := loadAt p 16 4
          stock := Symbol.fromWire p 20
          price := readPrice p 28
          timeInForce := loadAt p 32 4
          firm := Firm.fromWire p 36
          display := byteAt p 40
          capacity := byteAt p 41
          intermarketSweep := byteAt p 42
          minQty := loadAt p 43 4
          crossType := byteAt p 47
          customerType := byteAt p 48 }

def readReplaceOrder (p : List Byte) : Option ReplaceOrder :=
  if !validOrderShares (loadAt p 29 4) then none
  else
    some
      { existing := Token.fromWire p 1
        replacement := Token.fromWire p 15
        shares := loadAt p 29 4
        price := readPrice p 33
        timeInForce := loadAt p 37 4
        display := byteAt p 41
        intermarketSweep := byteAt p 42
        minQty := loadAt p 43 4 }

/-- Type `X`; every share count is right. -/
def readCancelOrder (p : List Byte) : Option CancelOrder := some { token := Token.fromWire p 1, shares := loadAt p 15 4 }

/-- Bytes 1 to 64, shared by `Accepted` and `Replaced`; `bboWeight` is left to the caller. -/
def readAcceptedCommon (p : List Byte) (bbo : Byte) : Option Accepted :=
  match parseSide (byteAt p 23) with
  | none => none
  | some (side, _) =>
    if byteAt p 64 ≠ ascii 'L' ∧ byteAt p 64 ≠ ascii 'D' then none
    else
      some
        { ts := loadAt p 1 8
          token := Token.fromWire p 9
          side := side
          shares := loadAt p 24 4
          stock := Symbol.fromWire p 28
          price := readPrice p 36
          timeInForce := loadAt p 40 4
          firm := Firm.fromWire p 44
          display := byteAt p 48
          ref := loadAt p 49 8
          capacity := byteAt p 57
          intermarketSweep := byteAt p 58
          minQty := loadAt p 59 4
          crossType := byteAt p 63
          orderState := byteAt p 64
          bboWeight := bbo }

def readAccepted (p : List Byte) : Option Accepted := readAcceptedCommon p (byteAt p 65)

def readReplaced (p : List Byte) : Option Replaced :=
  (readAcceptedCommon p (byteAt p 79)).map fun a => { a := a, previous := Token.fromWire p 65 }

def readCanceled (p : List Byte) : Option Canceled :=
  some { ts := loadAt p 1 8, token := Token.fromWire p 9, decrement := loadAt p 23 4, reason := byteAt p 27 }

def readExecuted (p : List Byte) : Option Executed :=
  some
    { ts := loadAt p 1 8
      token := Token.fromWire p 9
      shares := loadAt p 23 4
      price := readPrice p 27
      liquidity := byteAt p 31
      matchNo := loadAt p 32 8 }

def readRejected (p : List Byte) : Option Rejected :=
  some { ts := loadAt p 1 8, token := Token.fromWire p 9, reason := byteAt p 23 }

/-! ## Decoding -/

/-- The message read, or a bad field. -/
def deliver {α β : Type} (wrap : α → β) : Option α → Except DecodeError β
  | none => .error .badField
  | some m => .ok (wrap m)

/-- The reader of each type a client sends. -/
def inboundBody (type : Byte) (msg : List Byte) : Except DecodeError Inbound :=
  if type = ascii 'O' then deliver .enter (readEnterOrder msg)
  else if type = ascii 'U' then deliver .replace (readReplaceOrder msg)
  else if type = ascii 'X' then deliver .cancel (readCancelOrder msg)
  else .error .unknownType

/-- The reader of each type an exchange sends. -/
def outboundBody (type : Byte) (msg : List Byte) : Except DecodeError Outbound :=
  if type = ascii 'A' then deliver .accepted (readAccepted msg)
  else if type = ascii 'U' then deliver .replaced (readReplaced msg)
  else if type = ascii 'C' then deliver .canceled (readCanceled msg)
  else if type = ascii 'E' then deliver .executed (readExecuted msg)
  else if type = ascii 'J' then deliver .rejected (readRejected msg)
  else .error .unknownType

/-- The checks both directions make before a reader runs. -/
def decodeWith {α : Type} (length : Byte → Nat) (body : Byte → List Byte → Except DecodeError α) (msg : List Byte) :
    Except DecodeError α :=
  match msg with
  | [] => .error .truncated
  | type :: _ =>
    if length type = 0 then .error .unknownType
    else if msg.length < length type then .error .truncated
    else if length type < msg.length then .error .badLength
    else body type msg

def decodeInbound : List Byte → Except DecodeError Inbound := decodeWith inboundLength inboundBody

def decodeOutbound : List Byte → Except DecodeError Outbound := decodeWith outboundLength outboundBody

/-! ## Writers -/

/-- The low 32 bits of the price. -/
def putPrice (px : Int) : List Byte := store 4 (px % 4294967296).toNat

def writeEnterOrder (m : EnterOrder) : Fields :=
  [(0, [ascii 'O']), (1, m.token.chars), (15, [sideChar m.side m.shortSell]), (16, store 4 m.shares),
    (20, m.stock.chars), (28, putPrice m.price), (32, store 4 m.timeInForce), (36, m.firm.chars), (40, [m.display]),
    (41, [m.capacity]), (42, [m.intermarketSweep]), (43, store 4 m.minQty), (47, [m.crossType]),
    (48, [m.customerType])]

def writeReplaceOrder (m : ReplaceOrder) : Fields :=
  [(0, [ascii 'U']), (1, m.existing.chars), (15, m.replacement.chars), (29, store 4 m.shares), (33, putPrice m.price),
    (37, store 4 m.timeInForce), (41, [m.display]), (42, [m.intermarketSweep]), (43, store 4 m.minQty)]

def writeCancelOrder (m : CancelOrder) : Fields := [(0, [ascii 'X']), (1, m.token.chars), (15, store 4 m.shares)]

/-- What types `A` and `U` have in common. -/
def acceptedFields (type : Byte) (m : Accepted) : Fields :=
  [(0, [type]), (1, store 8 m.ts), (9, m.token.chars), (23, [sideChar m.side false]), (24, store 4 m.shares),
    (28, m.stock.chars), (36, putPrice m.price), (40, store 4 m.timeInForce), (44, m.firm.chars), (48, [m.display]),
    (49, store 8 m.ref), (57, [m.capacity]), (58, [m.intermarketSweep]), (59, store 4 m.minQty), (63, [m.crossType]),
    (64, [m.orderState])]

def writeAccepted (m : Accepted) : Fields := acceptedFields (ascii 'A') m ++ [(65, [m.bboWeight])]

def writeReplaced (m : Replaced) : Fields :=
  acceptedFields (ascii 'U') m.a ++ [(65, m.previous.chars), (79, [m.a.bboWeight])]

def writeCanceled (m : Canceled) : Fields :=
  [(0, [ascii 'C']), (1, store 8 m.ts), (9, m.token.chars), (23, store 4 m.decrement), (27, [m.reason])]

def writeExecuted (m : Executed) : Fields :=
  [(0, [ascii 'E']), (1, store 8 m.ts), (9, m.token.chars), (23, store 4 m.shares), (27, putPrice m.price),
    (31, [m.liquidity]), (32, store 8 m.matchNo)]

def writeRejected (m : Rejected) : Fields :=
  [(0, [ascii 'J']), (1, store 8 m.ts), (9, m.token.chars), (23, [m.reason])]

namespace Inbound

def wireLength : Inbound → Nat
  | .enter _ => kEnterOrderLength
  | .replace _ => kReplaceOrderLength
  | .cancel _ => kCancelOrderLength

/-- The price the message carries on the wire, 0 if it carries none. -/
def wirePrice : Inbound → Int
  | .enter m => m.price
  | .replace m => m.price
  | .cancel _ => 0

def fields : Inbound → Fields
  | .enter m => writeEnterOrder m
  | .replace m => writeReplaceOrder m
  | .cancel m => writeCancelOrder m

end Inbound

namespace Outbound

def wireLength : Outbound → Nat
  | .accepted _ => kAcceptedLength
  | .replaced _ => kReplacedLength
  | .canceled _ => kCanceledLength
  | .executed _ => kExecutedLength
  | .rejected _ => kRejectedLength

def fields : Outbound → Fields
  | .accepted m => writeAccepted m
  | .replaced m => writeReplaced m
  | .canceled m => writeCanceled m
  | .executed m => writeExecuted m
  | .rejected m => writeRejected m

end Outbound

/-- The buffer after `emit_framed` and what it returns: the message goes behind two bytes that then get its
length. -/
def emitFramed (out : List Byte) (length : Nat) (fits : Bool) (fs : Fields) : List Byte × Nat :=
  if out.length < length + 2 ∨ ¬fits then (out, 0)
  else (Be.put (out.take 2 ++ Be.putAll (out.drop 2) fs) 0 (store 2 length), length + 2)

/-- The length that was written, 0 if the buffer is too small or the price does not fit. -/
def encodeInbound (m : Inbound) (out : List Byte) : List Byte × Nat :=
  Be.emit out m.wireLength (fitsWirePrice m.wirePrice) m.fields

/-- The same behind a length of two bytes. -/
def encodeInboundFramed (m : Inbound) (out : List Byte) : List Byte × Nat :=
  emitFramed out m.wireLength (fitsWirePrice m.wirePrice) m.fields

def encodeOutbound (m : Outbound) (out : List Byte) : List Byte × Nat :=
  Be.emit out m.wireLength (fitsWirePrice m.wirePrice) m.fields

def encodeOutboundFramed (m : Outbound) (out : List Byte) : List Byte × Nat :=
  emitFramed out m.wireLength (fitsWirePrice m.wirePrice) m.fields

end OptiTrade.Ouch
