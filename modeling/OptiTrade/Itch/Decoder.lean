import OptiTrade.Foundations.Bytes
import OptiTrade.Itch.Messages

/-! # Decoding one ITCH message

The type byte selects the exact length; a field is read only once the length has been checked. -/

namespace OptiTrade

/-- The statuses of a message that is not delivered. -/
inductive DecodeError
  | truncated
  | unknownType
  | badLength
  | badField
  deriving DecidableEq, Repr

/-- The eight bytes at `off`; blank only where there are no eight bytes to read. -/
def Symbol.fromWire (p : List Byte) (off : Nat) : Symbol :=
  if h : (Be.slice p off 8).length = 8 then ⟨Be.slice p off 8, h⟩ else Symbol.blank

namespace Itch
set_option autoImplicit false

open Be (loadAt byteAt slice)

def readHeader (p : List Byte) : Header := ⟨loadAt p 1 2, loadAt p 3 2, loadAt p 5 6⟩

/-- Prices are unsigned 32-bit on the wire. -/
def readPrice (p : List Byte) (off : Nat) : Int := (loadAt p off 4 : Int)

def readSide (p : List Byte) (off : Nat) : Option Side :=
  if byteAt p off = ascii 'B' then some .buy
  else if byteAt p off = ascii 'S' then some .sell
  else none

def decodeSystemEvent (p : List Byte) : Except DecodeError Message :=
  .ok (.systemEvent { h := readHeader p, eventCode := byteAt p 11 })

def decodeStockDirectory (p : List Byte) : Except DecodeError Message :=
  .ok (.stockDirectory
    { h := readHeader p
      symbol := Symbol.fromWire p 11
      marketCategory := byteAt p 19
      financialStatus := byteAt p 20
      roundLotSize := loadAt p 21 4
      roundLotsOnly := byteAt p 25
      issueClassification := byteAt p 26
      issueSubtype := [byteAt p 27, byteAt p 28]
      authenticity := byteAt p 29
      shortSaleThreshold := byteAt p 30
      ipoFlag := byteAt p 31
      luldTier := byteAt p 32
      etpFlag := byteAt p 33
      etpLeverage := loadAt p 34 4
      inverse := byteAt p 38 })

/-- Types `A` and `F`; the price and the share count are checked here. -/
def decodeAddOrder (p : List Byte) (attributed : Bool) : Except DecodeError Message :=
  match readSide p 19 with
  | none => .error .badField
  | some side =>
    if loadAt p 20 4 = 0 then .error .badField
    else
      .ok (.addOrder
        { h := readHeader p
          ref := loadAt p 11 8
          side := side
          shares := loadAt p 20 4
          symbol := Symbol.fromWire p 24
          price := readPrice p 32
          hasAttribution := attributed
          mpid := if attributed then slice p 36 4 else List.replicate 4 0 })

def decodeOrderExecuted (p : List Byte) : Except DecodeError Message :=
  .ok (.orderExecuted { h := readHeader p, ref := loadAt p 11 8, shares := loadAt p 19 4, matchNo := loadAt p 23 8 })

def decodeOrderExecutedPrice (p : List Byte) : Except DecodeError Message :=
  .ok (.orderExecutedPrice
    { h := readHeader p
      ref := loadAt p 11 8
      shares := loadAt p 19 4
      matchNo := loadAt p 23 8
      printable := byteAt p 31 = ascii 'Y'
      price := readPrice p 32 })

def decodeOrderCancel (p : List Byte) : Except DecodeError Message :=
  .ok (.orderCancel { h := readHeader p, ref := loadAt p 11 8, shares := loadAt p 19 4 })

def decodeOrderDelete (p : List Byte) : Except DecodeError Message :=
  .ok (.orderDelete { h := readHeader p, ref := loadAt p 11 8 })

def decodeOrderReplace (p : List Byte) : Except DecodeError Message :=
  .ok (.orderReplace
    { h := readHeader p
      oldRef := loadAt p 11 8
      newRef := loadAt p 19 8
      shares := loadAt p 27 4
      price := readPrice p 31 })

def decodeTrade (p : List Byte) : Except DecodeError Message :=
  match readSide p 19 with
  | none => .error .badField
  | some side =>
    .ok (.trade
      { h := readHeader p
        ref := loadAt p 11 8
        side := side
        shares := loadAt p 20 4
        symbol := Symbol.fromWire p 24
        price := readPrice p 32
        matchNo := loadAt p 36 8 })

/-- The switch over the type byte, once the length is the one of the type. -/
def decodeBody (type : Byte) (msg : List Byte) : Except DecodeError Message :=
  if type = ascii 'S' then decodeSystemEvent msg
  else if type = ascii 'R' then decodeStockDirectory msg
  else if type = ascii 'A' then decodeAddOrder msg false
  else if type = ascii 'F' then decodeAddOrder msg true
  else if type = ascii 'E' then decodeOrderExecuted msg
  else if type = ascii 'C' then decodeOrderExecutedPrice msg
  else if type = ascii 'X' then decodeOrderCancel msg
  else if type = ascii 'D' then decodeOrderDelete msg
  else if type = ascii 'U' then decodeOrderReplace msg
  else if type = ascii 'P' then decodeTrade msg
  else .error .unknownType

/-- The message, or why it is not delivered. -/
def decode (msg : List Byte) : Except DecodeError Message :=
  match msg with
  | [] => .error .truncated
  | type :: _ =>
    if messageLength type = 0 then .error .unknownType
    else if msg.length < messageLength type then .error .truncated
    else if messageLength type < msg.length then .error .badLength
    else decodeBody type msg

/-! ## What a delivered message can hold -/

/-- Every field is within its width, and an add has at least one share. -/
def Message.WireSized : Message → Prop
  | .addOrder m => m.h.locate < 65536 ∧ 1 ≤ m.shares ∧ m.shares ≤ u32Max ∧ 0 ≤ m.price ∧ m.price ≤ u32Max
  | .orderExecuted m => m.shares ≤ u32Max
  | .orderExecutedPrice m => m.shares ≤ u32Max ∧ 0 ≤ m.price ∧ m.price ≤ u32Max
  | .orderReplace m => m.shares ≤ u32Max ∧ 0 ≤ m.price ∧ m.price ≤ u32Max
  | .stockDirectory m => m.h.locate < 65536
  | _ => True

theorem loadAt_le_u32 (p : List Byte) (off : Nat) : loadAt p off 4 ≤ u32Max := by
  have := Be.loadAt_lt p off 4
  unfold u32Max
  omega

theorem readHeader_locate (p : List Byte) : (readHeader p).locate < 65536 := Be.loadAt_lt p 1 2

theorem readPrice_bounds (p : List Byte) (off : Nat) : 0 ≤ readPrice p off ∧ readPrice p off ≤ u32Max := by
  have := loadAt_le_u32 p off
  unfold readPrice
  omega

theorem decodeAddOrder_wireSized {p : List Byte} {b : Bool} {m : Message} (h : decodeAddOrder p b = .ok m) :
    m.WireSized := by
  unfold decodeAddOrder at h
  split at h
  · cases h
  · split at h
    · cases h
    · rename_i h₁
      cases h
      exact ⟨readHeader_locate p, Nat.one_le_iff_ne_zero.mpr h₁, loadAt_le_u32 p 20, readPrice_bounds p 32⟩

theorem decodeBody_wireSized {type : Byte} {msg : List Byte} {m : Message} (h : decodeBody type msg = .ok m) :
    m.WireSized := by
  unfold decodeBody at h
  split_ifs at h
  · cases h
    trivial
  · cases h
    exact readHeader_locate msg
  · exact decodeAddOrder_wireSized h
  · exact decodeAddOrder_wireSized h
  · cases h
    exact loadAt_le_u32 msg 19
  · cases h
    exact ⟨loadAt_le_u32 msg 19, readPrice_bounds msg 32⟩
  · cases h
    trivial
  · cases h
    trivial
  · cases h
    exact ⟨loadAt_le_u32 msg 27, readPrice_bounds msg 31⟩
  · unfold decodeTrade at h
    split at h
    · cases h
    · cases h
      trivial

theorem decode_wireSized {msg : List Byte} {m : Message} (h : decode msg = .ok m) : m.WireSized := by
  unfold decode at h
  split at h
  · cases h
  · split_ifs at h
    exact decodeBody_wireSized h

end Itch
end OptiTrade
