import OptiTrade.Foundations.Bytes
import OptiTrade.Ouch.Messages

/-! # OUCH reports on the wire

The writers of the exchange-to-client messages: every field in the order of its offset. Only a price that
does not fit its four bytes is refused. -/

namespace OptiTrade.Ouch
set_option autoImplicit false

def fitsWirePrice (p : Int) : Bool := 0 ≤ p && p ≤ 4294967295

def sideChar : Side → Bool → Byte
  | .buy, _ => ascii 'B'
  | .sell, true => ascii 'T'
  | .sell, false => ascii 'S'

/-- Bytes 0 to 64, shared by `Accepted` and `Replaced`. -/
def writeAcceptedCommon (type : Byte) (m : Accepted) : List Byte :=
  type :: Be.store 8 m.ts ++ m.token.chars ++ [sideChar m.side false] ++ Be.store 4 m.shares ++ m.stock.chars ++
    Be.store 4 m.price.toNat ++ Be.store 4 m.timeInForce ++ m.firm.chars ++ [m.display] ++ Be.store 8 m.ref ++
    [m.capacity, m.intermarketSweep] ++ Be.store 4 m.minQty ++ [m.crossType, m.orderState]

/-- The price the message carries on the wire, 0 if it carries none. -/
def Outbound.wirePrice : Outbound → Int
  | .accepted m => m.price
  | .replaced m => m.a.price
  | .executed m => m.price
  | .canceled _ | .rejected _ => 0

def write : Outbound → List Byte
  | .accepted m => writeAcceptedCommon (ascii 'A') m ++ [m.bboWeight]
  | .replaced m => writeAcceptedCommon (ascii 'U') m.a ++ m.previous.chars ++ [m.a.bboWeight]
  | .canceled m =>
    ascii 'C' :: Be.store 8 m.ts ++ m.token.chars ++ Be.store 4 m.decrement ++ [m.reason]
  | .executed m =>
    ascii 'E' :: Be.store 8 m.ts ++ m.token.chars ++ Be.store 4 m.shares ++ Be.store 4 m.price.toNat ++
      [m.liquidity] ++ Be.store 8 m.matchNo
  | .rejected m => ascii 'J' :: Be.store 8 m.ts ++ m.token.chars ++ [m.reason]

/-- `none` for a price that does not fit. -/
def encode (m : Outbound) : Option (List Byte) := if fitsWirePrice m.wirePrice then some (write m) else none

theorem length_write (m : Outbound) : (write m).length =
    match m with
    | .accepted _ => 66
    | .replaced _ => 80
    | .canceled _ => 28
    | .executed _ => 40
    | .rejected _ => 24 := by
  cases m <;> simp [write, writeAcceptedCommon, Token.size_eq, Symbol.size_eq, Firm.size_eq]

end OptiTrade.Ouch
