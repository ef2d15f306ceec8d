import OptiTrade.Net.Packets
import OptiTrade.Net.Pipeline

/-! # The sender of the feed

The sender packs the messages of a feed into packets, skips every so many of them on purpose, and lets a
heartbeat follow every sixteenth. A message is due at its place in the feed; a packet leaves before a message
that is due too long after the first one in it.

Whether the kernel takes a datagram is asked of `net`, one answer for each call of `transmit`; when the run is
aborted is asked of `abort`, before each message. -/

namespace OptiTrade.Net
set_option autoImplicit false

open Be (store)
open Framing (frame)

def kSession : Session := ⟨"OPTITRADE ".toList.map ascii, by decide⟩

def kPacketBytes : Nat := 1200
def kHeartbeatEvery : Nat := 16
def kMaxBatchNs : Nat := 500000

/-- What the sender reads of the options. -/
structure Options where
  /-- Messages per second, 0 for as fast as possible. -/
  rate : Nat := 100000
  /-- 0 for never. -/
  dropEvery : Nat := 0

/-- The state of the sender. -/
structure Sender where
  ctl : List Byte := List.replicate kHeaderSize 0
  nextSeq : UInt64 := 1
  pb : PacketBuilder := .create (List.replicate kPacketBytes 0) kSession 1
  firstDue : Nat := 0
  sinceHeartbeat : Nat := 0
  msgsSent : Nat := 0
  packetsSent : Nat := 0
  heartbeatsSent : Nat := 0
  dataPackets : Nat := 0
  droppedPackets : Nat := 0
  droppedMsgs : Nat := 0
  sendErrors : Nat := 0
  /-- The calls of `transmit` so far. -/
  transmissions : Nat := 0
  /-- History: the datagrams the kernel has taken. -/
  wire : List (List Byte) := []

namespace Sender

/-- The kernel takes a datagram, or it does not. -/
def transmit (net : Nat → Bool) (s : Sender) (pkt : List Byte) : Sender × Bool :=
  ({ s with
      transmissions := s.transmissions + 1
      wire := if net s.transmissions then s.wire ++ [pkt] else s.wire }, net s.transmissions)

/-- Sends the control packet that has been written to `ctl`. -/
def sendControl (net : Nat → Bool) (s : Sender) (written : List Byte × Nat) (heartbeat : Bool) : Sender :=
  let (s, ok) := { s with ctl := written.1 }.transmit net (written.1.take written.2)
  if ok then
    { s with
      packetsSent := s.packetsSent + 1
      heartbeatsSent := if heartbeat then s.heartbeatsSent + 1 else s.heartbeatsSent }
  else { s with sendErrors := s.sendErrors + 1 }

/-- Skips the packet or sends it. -/
def post (o : Options) (net : Nat → Bool) (s : Sender) (pkt : List Byte) (count : Nat) : Sender :=
  if o.dropEvery ≠ 0 ∧ s.dataPackets % o.dropEvery = 0 then
    { s with droppedPackets := s.droppedPackets + 1, droppedMsgs := s.droppedMsgs + count }
  else
    let (s, ok) := s.transmit net pkt
    if ok then { s with packetsSent := s.packetsSent + 1, msgsSent := s.msgsSent + count }
    else { s with sendErrors := s.sendErrors + 1 }

/-- The next packet begins, in the same buffer. -/
def renew (s : Sender) (count : Nat) : Sender :=
  let next := s.nextSeq + UInt64.ofNat count
  { s with nextSeq := next, pb := .create s.pb.buf kSession next }

/-- A data packet has been built. -/
def beat (net : Nat → Bool) (s : Sender) : Sender :=
  let since := s.sinceHeartbeat + 1
  if kHeartbeatEvery ≤ since then
    { s with sinceHeartbeat := 0 }.sendControl net (writeHeartbeat s.ctl kSession s.nextSeq) true
  else { s with sinceHeartbeat := since }

/-- The packet that is being filled goes out. -/
def flush (o : Options) (net : Nat → Bool) (s : Sender) : Sender :=
  if s.pb.count = 0 then s
  else
    let (pb, pkt) := s.pb.finish
    (({ s with pb := pb, dataPackets := s.dataPackets + 1 }.post o net pkt pb.count).renew pb.count).beat net

/-- When message `i` of the feed is due, in nanoseconds after the start. -/
def due (o : Options) (i : Nat) : Nat := if o.rate = 0 then 0 else i * 1000000000 % 2 ^ 64 / o.rate

/-- Adds the message to the packet; an empty packet always has room for one. -/
def pack (o : Options) (net : Nat → Bool) (s : Sender) (msg : List Byte) : Sender :=
  let (pb, ok) := s.pb.add msg
  if ok then { s with pb := pb }
  else
    let s := { s with pb := pb }.flush o net
    { s with pb := (s.pb.add msg).1 }

/-- One message of the feed. -/
def offer (o : Options) (net : Nat → Bool) (s : Sender) (i : Nat) (msg : List Byte) : Sender :=
  let late := o.rate ≠ 0 ∧ s.pb.count ≠ 0 ∧ s.firstDue + kMaxBatchNs < due o i
  let s := (if late then s.flush o net else s).pack o net msg
  if s.pb.count = 1 then { s with firstDue := due o i } else s

/-- The loop, from message `i` on. -/
def loop (o : Options) (net abort : Nat → Bool) : Sender → Nat → List (List Byte) → Sender
  | s, _, [] => s
  | s, i, msg :: feed => if abort i then s else loop o net abort (s.offer o net i msg) (i + 1) feed

end Sender

/-- The whole feed, and the end of the session after it. -/
def senderMain (o : Options) (net abort : Nat → Bool) (feed : List (List Byte)) : Sender :=
  let s := (Sender.loop o net abort {} 0 feed).flush o net
  s.sendControl net (writeEndOfSession s.ctl kSession s.nextSeq) false

end OptiTrade.Net
