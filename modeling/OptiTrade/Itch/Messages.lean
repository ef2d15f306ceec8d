import OptiTrade.Core.Types

/-! # ITCH market data messages

The nine message kinds that drive an order book. A and F share `AddOrder`. -/

namespace OptiTrade.Itch
set_option autoImplicit false

/-- What all messages start with. -/
structure Header where
  locate : Nat
  tracking : Nat
  timestamp : Nat
  deriving DecidableEq

structure SystemEvent where
  h : Header
  eventCode : Byte
  deriving DecidableEq

structure StockDirectory where
  h : Header
  symbol : Symbol
  marketCategory : Byte
  financialStatus : Byte
  roundLotSize : Nat
  roundLotsOnly : Byte
  issueClassification : Byte
  issueSubtype : List Byte
  authenticity : Byte
  shortSaleThreshold : Byte
  ipoFlag : Byte
  luldTier : Byte
  etpFlag : Byte
  etpLeverage : Nat
  inverse : Byte
  deriving DecidableEq

/-- An order comes into the book. -/
structure AddOrder where
  h : Header
  ref : Nat
  side : Side
  shares : Nat
  symbol : Symbol
  price : Int
  hasAttribution : Bool
  mpid : List Byte
  deriving DecidableEq

/-- Shares of an order are executed at its price. -/
structure OrderExecuted where
  h : Header
  ref : Nat
  shares : Nat
  matchNo : Nat
  deriving DecidableEq

/-- Shares of an order are executed at another price. -/
structure OrderExecutedPrice where
  h : Header
  ref : Nat
  shares : Nat
  matchNo : Nat
  printable : Bool
  price : Int
  deriving DecidableEq

/-- Shares of an order are canceled. -/
structure OrderCancel where
  h : Header
  ref : Nat
  shares : Nat
  deriving DecidableEq

structure OrderDelete where
  h : Header
  ref : Nat
  deriving DecidableEq

/-- An order gives way to another. -/
structure OrderReplace where
  h : Header
  oldRef : Nat
  newRef : Nat
  shares : Nat
  price : Int
  deriving DecidableEq

/-- An execution against a non-displayed order. -/
structure Trade where
  h : Header
  ref : Nat
  side : Side
  shares : Nat
  symbol : Symbol
  price : Int
  matchNo : Nat
  deriving DecidableEq

/-- A decoded message. -/
inductive Message
  | systemEvent (m : SystemEvent)
  | stockDirectory (m : StockDirectory)
  | addOrder (m : AddOrder)
  | orderExecuted (m : OrderExecuted)
  | orderExecutedPrice (m : OrderExecutedPrice)
  | orderCancel (m : OrderCancel)
  | orderDelete (m : OrderDelete)
  | orderReplace (m : OrderReplace)
  | trade (m : Trade)
  deriving DecidableEq

/-- The price a message carries, if it has one that reaches a book or a print. -/
def Message.price? : Message → Option Int
  | .addOrder m => some m.price
  | .orderExecutedPrice m => some m.price
  | .orderReplace m => some m.price
  | _ => none

/-- Wire length of a type, type byte included; 0 for a type that is not decoded. -/
def messageLength (type : Byte) : Nat :=
  if type = ascii 'S' then 12
  else if type = ascii 'R' then 39
  else if type = ascii 'A' then 36
  else if type = ascii 'F' then 40
  else if type = ascii 'E' then 31
  else if type = ascii 'C' then 36
  else if type = ascii 'X' then 23
  else if type = ascii 'D' then 19
  else if type = ascii 'U' then 35
  else if type = ascii 'P' then 44
  else 0

end OptiTrade.Itch
