import OptiTrade.Foundations.Runs
import OptiTrade.Net.Mold64

/-! # The UDP pipeline

The I/O thread receives datagrams and pushes their messages into a bounded ring; the engine thread pops
them and calls the engine. The I/O thread never waits: a message it cannot push is dropped, and the
messages after it carry a higher loss epoch, which the engine thread turns into calls of `on_feed_gap`.

One step is one datagram, one message of it or its end on the I/O side, one message on the engine side;
any interleaving of the two is a run. Of the engine the calls it receives are kept. -/

namespace OptiTrade.Net
set_option autoImplicit false

def kMaxMsg : Nat := 47

/-- What travels through the ring; `seq` is history, the sequence number of the message. -/
structure Slot where
  lossEpoch : Nat
  data : List Byte
  seq : Nat

/-- The datagram the I/O thread is walking, and the messages it has not come to yet. -/
structure Walk where
  hdr : Header
  messages : List (Nat × List Byte)
  tracked : Bool := false
  skipBelow : Nat := 0

/-- What the receiving thread keeps. -/
structure Io where
  tracker : SequenceTracker := {}
  epoch : Nat := 0
  inDropRun : Bool := false
  eos : Bool := false
  walk : Option Walk := none
  done : Bool := false
  packetsReceived : Nat := 0
  msgsReceived : Nat := 0
  malformed : Nat := 0
  oversizeMsgs : Nat := 0
  endOfSession : Nat := 0
  ringPushed : Nat := 0
  ringDrops : Nat := 0
  lossEvents : Nat := 0

/-- What the engine thread calls. -/
inductive EngineCall
  | onFeedGap (now : Nat)
  | onItch (s : Slot) (now : Nat)

/-- What the engine thread keeps. -/
structure EngineThread where
  seenEpoch : Nat := 0
  now : Nat := 0
  msgsProcessed : Nat := 0
  calls : List EngineCall := []
  done : Bool := false

/-- The two threads and the ring between them. -/
structure Pipeline where
  capacity : Nat
  io : Io := {}
  ring : List Slot := []
  finalEpoch : Nat := 0
  engine : EngineThread := {}

/-- One step of either thread. -/
inductive Event
  /-- A datagram is received. -/
  | recv (pkt : List Byte)
  /-- The next message of the datagram. -/
  | deliver
  /-- The end of the datagram. -/
  | packetDone
  /-- The I/O thread leaves its loop. -/
  | ioDone
  /-- The engine thread pops a message and processes it. -/
  | pop
  /-- The engine thread finds the ring empty after the I/O thread is done. -/
  | engineDone

/-! ## The I/O thread -/

/-- A loss: the messages that follow carry the next epoch. -/
def Io.loss (io : Io) : Io := { io with lossEvents := io.lossEvents + 1, epoch := add32 io.epoch 1 }

/-- Shows the packet to the tracker, once. -/
def Io.track (io : Io) (w : Walk) : Io × Walk :=
  if w.tracked then (io, w)
  else
    let (tracker, chk) := io.tracker.onPacket w.hdr
    let io := { io with tracker := tracker }
    let w := { w with tracked := true }
    match chk.result with
    | .gap | .sessionChanged => (io.loss, w)
    | .duplicate => (io, { w with skipBelow := chk.expected })
    | .inOrder => (io, w)

namespace Pipeline

/-- A message goes into the ring, or the loss is noted. -/
def push (p : Pipeline) (seq : Nat) (msg : List Byte) : Pipeline :=
  let io := { p.io with msgsReceived := p.io.msgsReceived + 1 }
  if msg.isEmpty ∨ kMaxMsg < msg.length then
    { p with io := { io with oversizeMsgs := io.oversizeMsgs + 1 }.loss }
  else if p.ring.length < p.capacity then
    { p with
      ring := p.ring ++ [⟨io.epoch, msg, seq⟩]
      io := { io with ringPushed := io.ringPushed + 1, inDropRun := false } }
  else
    let io := { io with ringDrops := io.ringDrops + 1 }
    -- the first drop of a run is one loss event
    if io.inDropRun then { p with io := io } else { p with io := { io with inDropRun := true }.loss }

/-- The next message of the walk. -/
def deliver (p : Pipeline) (w : Walk) (seq : Nat) (msg : List Byte) (rest : List (Nat × List Byte)) : Pipeline :=
  let (io, w) := p.io.track w
  let p := { p with io := { io with walk := some { w with messages := rest } } }
  if w.skipBelow ≤ seq then p.push seq msg else p

/-- The end of the walk. -/
def packetDone (p : Pipeline) (w : Walk) : Pipeline :=
  let (io, w) := p.io.track w
  let io := { io with walk := none, packetsReceived := io.packetsReceived + 1 }
  if w.hdr.kind = .endOfSession then { p with io := { io with endOfSession := io.endOfSession + 1, eos := true } }
  else { p with io := io }

end Pipeline

/-! ## The engine thread -/

namespace EngineThread

/-- The engine is told of every loss it has not heard of. -/
def handleLosses (t : EngineThread) (epoch : Nat) : EngineThread :=
  { t with
    calls := t.calls ++ List.replicate (epoch - t.seenEpoch) (.onFeedGap t.now)
    seenEpoch := max t.seenEpoch epoch }

def process (t : EngineThread) (s : Slot) : EngineThread :=
  -- the message's own timestamp
  let t := { t with now := if 11 ≤ s.data.length then Be.loadAt s.data 5 6 else t.now }
  let t := t.handleLosses s.lossEpoch
  { t with calls := t.calls ++ [.onItch s t.now], msgsProcessed := t.msgsProcessed + 1 }

end EngineThread

/-! ## Steps -/

namespace Pipeline

def new (capacity : Nat) : Pipeline := { capacity := capacity }

/-- A step, if it is the turn of its thread. -/
def step (p : Pipeline) : Event → Option Pipeline
  | .recv pkt =>
    if p.io.done || p.io.eos || p.io.walk.isSome then none
    else
      match forEachMessage pkt with
      | .error _ => some { p with io := { p.io with malformed := p.io.malformed + 1 } }
      | .ok (hdr, messages) => some { p with io := { p.io with walk := some { hdr := hdr, messages := messages } } }
  | .deliver =>
    match p.io.walk with
    | some w =>
      match w.messages with
      | (seq, msg) :: rest => some (p.deliver w seq msg rest)
      | [] => none
    | none => none
  | .packetDone =>
    match p.io.walk with
    | some w => if w.messages.isEmpty then some (p.packetDone w) else none
    | none => none
  | .ioDone =>
    if p.io.done || p.io.walk.isSome then none
    else some { p with io := { p.io with done := true }, finalEpoch := p.io.epoch }
  | .pop =>
    match p.ring with
    | s :: ring => if p.engine.done then none else some { p with ring := ring, engine := p.engine.process s }
    | [] => none
  | .engineDone =>
    if p.engine.done || !p.io.done || !p.ring.isEmpty then none
    else some { p with engine := { p.engine.handleLosses p.finalEpoch with done := true } }

end Pipeline
end OptiTrade.Net
