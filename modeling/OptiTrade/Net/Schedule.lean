import OptiTrade.Net.Sender

/-! # The schedule of the sender

What the sender makes of a feed, as a log of datagrams and what became of each: data packets numbered one past
the messages before them, with a heartbeat after every sixteenth, every so many of them dropped on purpose. The
sender keeps such a log, and its wire and its counters are read off it. -/

namespace OptiTrade.Net
set_option autoImplicit false

open Framing (frame)

/-- What a datagram says. -/
inductive Datagram
  | data (first : Nat) (messages : List (List Byte))
  | heartbeat (next : Nat)
  | endOfSession (next : Nat)

namespace Datagram

def number : Datagram → Nat
  | data first _ => first
  | heartbeat next => next
  | endOfSession next => next

def messages : Datagram → List (List Byte)
  | data _ ms => ms
  | heartbeat _ | endOfSession _ => []

def count : Datagram → Nat
  | data _ ms => ms.length
  | heartbeat _ => 0
  | endOfSession _ => kEndOfSession

def header (d : Datagram) : Header := ⟨kSession.chars, d.number, d.count⟩

def bytes (d : Datagram) : List Byte := packetBytes kSession (UInt64.ofNat d.number) d.count d.messages

/-- One past the last message. -/
def last (d : Datagram) : Nat := d.number + d.messages.length

def isData : Datagram → Bool
  | data _ _ => true
  | heartbeat _ | endOfSession _ => false

end Datagram

/-- What became of a datagram. -/
inductive Fate
  | sent
  | dropped
  | failed
  deriving DecidableEq

/-- The datagrams in the order they were made, each with its fate. -/
abbrev Log := List (Datagram × Fate)

namespace Log

/-- The messages of the datagrams, in order. -/
def messages (log : Log) : List (List Byte) := log.flatMap fun e => e.1.messages

/-- What the next message is numbered. -/
def next (log : Log) : Nat := 1 + log.messages.length

def packets (log : Log) : Nat := log.countP fun e => e.1.isData

/-- The part of the log that met with one fate. -/
def having (log : Log) (f : Fate) : Log := log.filter fun e => e.2 = f

/-- A heartbeat is due: the last datagram is the sixteenth data packet since the last one. -/
def beatDue (log : Log) : Prop := (∃ e ∈ log.getLast?, e.1.isData = true) ∧ log.packets % kHeartbeatEvery = 0

section
variable (log : Log) (e : Datagram × Fate)

@[simp] theorem messages_nil : messages [] = [] := rfl
@[simp] theorem messages_snoc : messages (log ++ [e]) = messages log ++ e.1.messages := by
  simp [messages]

@[simp] theorem packets_nil : packets [] = 0 := rfl
@[simp] theorem packets_snoc : packets (log ++ [e]) = packets log + if e.1.isData then 1 else 0 := by
  simp [packets, List.countP_append, List.countP_singleton]

@[simp] theorem having_nil (f : Fate) : having [] f = [] := rfl
@[simp] theorem having_snoc (f : Fate) : having (log ++ [e]) f = having log f ++ if e.2 = f then [e] else [] := by
  unfold having
  rw [List.filter_append]
  congr 1
  by_cases h : e.2 = f
  · simp [h]
  · simp [h]

end

end Log

/-- The logs the sender may keep. -/
inductive Scheduled (o : Options) : Log → Prop
  | nil : Scheduled o []
  | data {log : Log} {ms : List (List Byte)} {f : Fate} : Scheduled o log → ¬Log.beatDue log → ms ≠ [] →
      (∀ m ∈ ms, m.length < 2 ^ 16) → 20 + (ms.flatMap frame).length ≤ kPacketBytes →
      (∀ j < ms.length, Sender.due o (log.messages.length + j) ≤ Sender.due o log.messages.length + kMaxBatchNs) →
      (f = .dropped ↔ o.dropEvery ≠ 0 ∧ (log.packets + 1) % o.dropEvery = 0) →
      Scheduled o (log ++ [(.data log.next ms, f)])
  | heartbeat {log : Log} {f : Fate} : Scheduled o log → Log.beatDue log → f ≠ .dropped →
      Scheduled o (log ++ [(.heartbeat log.next, f)])

/-- The report and the wire are those of the log. -/
structure Reports (s : Sender) (log : Log) : Prop where
  wire : s.wire = (log.having .sent).map fun e => e.1.bytes
  msgsSent : s.msgsSent = (log.having .sent).messages.length
  packetsSent : s.packetsSent = (log.having .sent).length
  heartbeatsSent : s.heartbeatsSent = (log.having .sent).countP fun e => e.1.count = 0
  dataPackets : s.dataPackets = log.packets
  droppedPackets : s.droppedPackets = (log.having .dropped).length
  droppedMsgs : s.droppedMsgs = (log.having .dropped).messages.length
  sendErrors : s.sendErrors = (log.having .failed).length

/-- What sending leaves alone. -/
structure Sender.Frame (s s' : Sender) : Prop where
  nextSeq : s'.nextSeq = s.nextSeq
  pb : s'.pb = s.pb
  firstDue : s'.firstDue = s.firstDue
  sinceHeartbeat : s'.sinceHeartbeat = s.sinceHeartbeat

section
variable {o : Options} {net : Nat → Bool} {s : Sender} {log : Log}

/-- The next data packet is posted. -/
theorem Reports.post (h : Reports s log) (o : Options) (net : Nat → Bool) (first : Nat) {ms : List (List Byte)} (hms : ms ≠ []) :
    ∃ f, Reports ({ s with dataPackets := s.dataPackets + 1 }.post o net (Datagram.data first ms).bytes ms.length)
        (log ++ [(.data first ms, f)]) ∧
      (f = .dropped ↔ o.dropEvery ≠ 0 ∧ (log.packets + 1) % o.dropEvery = 0) ∧
      s.Frame ({ s with dataPackets := s.dataPackets + 1 }.post o net (Datagram.data first ms).bytes ms.length) ∧
      ({ s with dataPackets := s.dataPackets + 1 }.post o net (Datagram.data first ms).bytes ms.length).ctl = s.ctl := by
  have hlen : ms.length ≠ 0 := fun h => hms (List.length_eq_zero_iff.mp h)
  unfold Sender.post
  dsimp only
  rw [h.dataPackets]
  by_cases hdrop : o.dropEvery ≠ 0 ∧ (log.packets + 1) % o.dropEvery = 0
  · rw [if_pos hdrop]
    refine ⟨.dropped, ?_, iff_of_true rfl hdrop, ⟨rfl, rfl, rfl, rfl⟩, rfl⟩
    obtain ⟨h₁, h₂, h₃, h₄, h₅, h₆, h₇, h₈⟩ := h
    constructor <;> simp_all [Datagram.messages, Datagram.isData]
  · rw [if_neg hdrop]
    unfold Sender.transmit
    dsimp only
    cases hnet : net s.transmissions with
    | true =>
      refine ⟨.sent, ?_, iff_of_false (by decide) hdrop, ⟨rfl, rfl, rfl, rfl⟩, rfl⟩
      obtain ⟨h₁, h₂, h₃, h₄, h₅, h₆, h₇, h₈⟩ := h
      constructor <;> simp_all [Datagram.messages, Datagram.isData, Datagram.count]
    | false =>
      refine ⟨.failed, ?_, iff_of_false (by decide) hdrop, ⟨rfl, rfl, rfl, rfl⟩, rfl⟩
      obtain ⟨h₁, h₂, h₃, h₄, h₅, h₆, h₇, h₈⟩ := h
      constructor <;> simp_all [Datagram.isData]

/-- A control packet is sent. -/
theorem Reports.control (h : Reports s log) (net : Nat → Bool) (beat : Bool) {d : Datagram} (hd : d.isData = false)
    (hms : d.messages = []) {written : List Byte × Nat} (hw : written.1.take written.2 = d.bytes) (hbeat : beat = true ↔ d.count = 0) :
    ∃ f, Reports (s.sendControl net written beat) (log ++ [(d, f)]) ∧ f ≠ .dropped ∧
      s.Frame (s.sendControl net written beat) ∧ (s.sendControl net written beat).ctl = written.1 := by
  unfold Sender.sendControl Sender.transmit
  dsimp only
  rw [hw]
  obtain ⟨h₁, h₂, h₃, h₄, h₅, h₆, h₇, h₈⟩ := h
  cases hnet : net s.transmissions with
  | true =>
    refine ⟨.sent, ?_, by decide, ⟨rfl, rfl, rfl, rfl⟩, rfl⟩
    by_cases hc : d.count = 0
    · have hb : beat = true := hbeat.mpr hc
      constructor <;> simp_all
    · have hb : beat = false := by simpa using mt hbeat.mp hc
      constructor <;> simp_all
  | false =>
    refine ⟨.failed, ?_, by decide, ⟨rfl, rfl, rfl, rfl⟩, rfl⟩
    constructor <;> simp_all

end

/-! ## The packet in the making -/

/-- The sender has been offered `offered`; the messages of `held` are in the packet it is filling. -/
structure Keeps (o : Options) (offered : List (List Byte)) (log : Log) (held : List (List Byte)) (s : Sender) : Prop where
  scheduled : Scheduled o log
  reports : Reports s log
  quiet : ¬log.beatDue
  messages : log.messages ++ held = offered
  packet : Built kPacketBytes kSession s.nextSeq held s.pb
  unsealed : s.pb.closed = false
  nextSeq : s.nextSeq.toNat = log.next
  since : s.sinceHeartbeat = log.packets % kHeartbeatEvery
  ctl : s.ctl.length = kHeaderSize
  started : held ≠ [] → s.firstDue = Sender.due o log.messages.length
  spread : ∀ j < held.length, Sender.due o (log.messages.length + j) ≤ Sender.due o log.messages.length + kMaxBatchNs

section
variable {o : Options} {net : Nat → Bool} {s : Sender} {log : Log} {offered held : List (List Byte)}

theorem Keeps.new (o : Options) : Keeps o [] [] [] {} := by
  refine ⟨.nil, ⟨rfl, rfl, rfl, rfl, rfl, rfl, rfl, rfl⟩, ?_, rfl, ?_, rfl, rfl, rfl, rfl, fun h => absurd rfl h, ?_⟩
  · rintro ⟨⟨e, he, -⟩, -⟩
    cases he
  · have h : (List.replicate kPacketBytes (0 : Byte)).length = kPacketBytes := List.length_replicate
    have hb := @built_create kSession 1 (List.replicate kPacketBytes 0) (by rw [h]; decide)
    rwa [h] at hb
  · intro j hj
    cases hj

theorem Keeps.flush_nothing (h : Keeps o offered log [] s) : s.flush o net = s := by
  unfold Sender.flush
  exact if_pos h.packet.count

theorem take_writeHeader {ctl : List Byte} (hctl : ctl.length = kHeaderSize) (next : UInt64) (count : Nat) :
    (writeHeader ctl kSession next count).1.take (writeHeader ctl kSession next count).2 =
        packetBytes kSession next count [] ∧
      (writeHeader ctl kSession next count).1.length = kHeaderSize := by
  have hlen := length_packetBytes kSession next count []
  rw [writeHeader_eq kSession next count hctl.ge]
  have hdrop : ctl.drop 20 = [] := List.drop_eq_nil_of_le hctl.le
  rw [hdrop, List.append_nil]
  exact ⟨List.take_of_length_le hlen.le, hlen⟩

theorem Reports.congr {s' : Sender} (h : Reports s log) (hw : s'.wire = s.wire) (h₁ : s'.msgsSent = s.msgsSent)
    (h₂ : s'.packetsSent = s.packetsSent) (h₃ : s'.heartbeatsSent = s.heartbeatsSent)
    (h₄ : s'.dataPackets = s.dataPackets) (h₅ : s'.droppedPackets = s.droppedPackets)
    (h₆ : s'.droppedMsgs = s.droppedMsgs) (h₇ : s'.sendErrors = s.sendErrors) : Reports s' log :=
  ⟨hw.trans h.wire, h₁.trans h.msgsSent, h₂.trans h.packetsSent, h₃.trans h.heartbeatsSent, h₄.trans h.dataPackets,
    h₅.trans h.droppedPackets, h₆.trans h.droppedMsgs, h₇.trans h.sendErrors⟩

/-- The last data packet has been logged and the next begun; whether a heartbeat is due is still open. -/
structure Rests (o : Options) (offered : List (List Byte)) (log : Log) (s : Sender) : Prop where
  scheduled : Scheduled o log
  reports : Reports s log
  last : ∃ e ∈ log.getLast?, e.1.isData = true
  messages : log.messages = offered
  packet : Built kPacketBytes kSession s.nextSeq [] s.pb
  unsealed : s.pb.closed = false
  nextSeq : s.nextSeq.toNat = log.next
  since : s.sinceHeartbeat = (log.packets - 1) % kHeartbeatEvery
  packets : 0 < log.packets
  ctl : s.ctl.length = kHeaderSize

theorem Rests.beat (h : Rests o offered log s) : ∃ log', Keeps o offered log' [] (s.beat net) := by
  have hpos := h.packets
  have hsince := h.since
  have hspread : ∀ log' : Log, ∀ j < ([] : List (List Byte)).length,
      Sender.due o (log'.messages.length + j) ≤ Sender.due o log'.messages.length + kMaxBatchNs := by
    intro log' j hj
    cases hj
  unfold Sender.beat writeHeartbeat
  dsimp only
  by_cases hdue : kHeartbeatEvery ≤ s.sinceHeartbeat + 1
  · rw [if_pos hdue]
    have hmod : log.packets % kHeartbeatEvery = 0 := by
      unfold kHeartbeatEvery at *
      omega
    have hr : Reports { s with sinceHeartbeat := 0 } log := h.reports.congr rfl rfl rfl rfl rfl rfl rfl rfl
    have hfirst : s.nextSeq = UInt64.ofNat log.next := by rw [← h.nextSeq, UInt64.ofNat_toNat]
    obtain ⟨hbytes, hlen⟩ := take_writeHeader h.ctl s.nextSeq 0
    obtain ⟨f, hreports, hf, hframe, hctl⟩ := hr.control net true (d := .heartbeat log.next) rfl rfl
      (by rw [hbytes, hfirst]; rfl) (iff_of_true rfl rfl)
    refine ⟨log ++ [(.heartbeat log.next, f)], .heartbeat h.scheduled ⟨h.last, hmod⟩ hf, hreports, ?_, ?_, ?_, ?_, ?_, ?_, ?_, ?_, ?_⟩
    · rintro ⟨⟨e, he, hdata⟩, -⟩
      rw [List.getLast?_concat] at he
      obtain rfl := Option.some.inj he
      cases hdata
    · rw [Log.messages_snoc, ← h.messages]
      simp [Datagram.messages]
    · rw [hframe.nextSeq, hframe.pb]
      exact h.packet
    · rw [hframe.pb]
      exact h.unsealed
    · rw [hframe.nextSeq, Log.next, Log.messages_snoc]
      simpa [Datagram.messages, Log.next] using h.nextSeq
    · rw [hframe.sinceHeartbeat, Log.packets_snoc]
      exact hmod.symm
    · rw [hctl]
      exact hlen
    · exact fun h => absurd rfl h
    · exact hspread _
  · rw [if_neg hdue]
    refine ⟨log, h.scheduled, h.reports.congr rfl rfl rfl rfl rfl rfl rfl rfl, ?_, ?_, h.packet, h.unsealed, h.nextSeq, ?_,
      h.ctl, fun h => absurd rfl h, hspread _⟩
    · rintro ⟨-, hmod⟩
      unfold kHeartbeatEvery at *
      omega
    · rw [List.append_nil]
      exact h.messages
    · show s.sinceHeartbeat + 1 = _
      unfold kHeartbeatEvery at *
      omega

/-- The packet in the making is logged. -/
theorem Keeps.post (h : Keeps o offered log held s) (net : Nat → Bool) (hheld : held ≠ []) (hfits : offered.length + 1 < 2 ^ 64) :
    ∃ f, Rests o offered (log ++ [(.data log.next held, f)])
      (({ s with pb := s.pb.finish.1, dataPackets := s.dataPackets + 1 }.post o net
        (Datagram.data log.next held).bytes held.length).renew held.length) := by
  obtain ⟨hbuilt, hclosed, hbytes⟩ := h.packet.finish
  have hlen : held.length ≠ 0 := fun h => hheld (List.length_eq_zero_iff.mp h)
  have hmsg : log.messages.length + held.length = offered.length := by rw [← h.messages, List.length_append]
  have hroom := h.packet.inside
  rw [h.packet.size] at hroom
  have hr : Reports { s with pb := s.pb.finish.1 } log := h.reports.congr rfl rfl rfl rfl rfl rfl rfl rfl
  obtain ⟨f, hposted, hf, hframe, hctl⟩ := hr.post o net log.next hheld
  have hnext : (s.nextSeq + UInt64.ofNat held.length).toNat = log.next + held.length := by
    have hn := h.nextSeq
    unfold Log.next at hn ⊢
    rw [UInt64.toNat_add, UInt64.toNat_ofNat', hn]
    omega
  have hbuf : s.pb.finish.1.buf.length = kPacketBytes := hbuilt.buffer
  have hcreate := @built_create kSession (s.nextSeq + UInt64.ofNat held.length) s.pb.finish.1.buf (by rw [hbuf]; decide)
  rw [hbuf] at hcreate
  refine ⟨f, .data h.scheduled h.quiet hheld h.packet.small hroom h.spread hf, ?_, ?_, ?_, ?_, ?_, ?_, ?_, ?_, ?_⟩
  · exact hposted.congr rfl rfl rfl rfl rfl rfl rfl rfl
  · exact ⟨_, List.getLast?_concat, rfl⟩
  · rw [Log.messages_snoc]
    exact h.messages
  · unfold Sender.renew
    dsimp only
    rw [hframe.nextSeq, hframe.pb]
    exact hcreate
  · rfl
  · unfold Sender.renew
    dsimp only
    rw [hframe.nextSeq, hnext, Log.next, Log.next, Log.messages_snoc, List.length_append]
    simp only [Datagram.messages]
    omega
  · unfold Sender.renew
    dsimp only
    rw [hframe.sinceHeartbeat, Log.packets_snoc]
    have hb := h.since
    simp only [Datagram.isData]
    simpa using hb
  · rw [Log.packets_snoc]
    simp [Datagram.isData]
  · unfold Sender.renew
    dsimp only
    rw [hctl]
    exact h.ctl

theorem Keeps.flush (h : Keeps o offered log held s) (net : Nat → Bool) (hfits : offered.length + 1 < 2 ^ 64) :
    ∃ log', Keeps o offered log' [] (s.flush o net) := by
  by_cases hheld : held = []
  · subst hheld
    rw [h.flush_nothing]
    exact ⟨log, h⟩
  · have hlen : held.length ≠ 0 := fun h => hheld (List.length_eq_zero_iff.mp h)
    obtain ⟨hbuilt, -, hbytes⟩ := h.packet.finish
    have hpkt : packetBytes kSession s.nextSeq held.length held = (Datagram.data log.next held).bytes := by
      rw [← UInt64.ofNat_toNat (x := s.nextSeq), h.nextSeq]
      rfl
    obtain ⟨f, hrests⟩ := h.post net hheld hfits
    unfold Sender.flush
    rw [if_neg (by rw [h.packet.count]; exact hlen)]
    dsimp only
    rw [hbytes, hbuilt.count, hpkt]
    exact hrests.beat

/-- A message the packet takes. -/
theorem Keeps.take (h : Keeps o offered log held s) {msg : List Byte} (ht : (s.pb.add msg).2 = true)
    (hdue : held ≠ [] → Sender.due o offered.length ≤ Sender.due o log.messages.length + kMaxBatchNs) :
    Keeps o (offered ++ [msg]) log (held ++ [msg])
      (if (s.pb.add msg).1.count = 1 then { s with pb := (s.pb.add msg).1, firstDue := Sender.due o offered.length }
        else { s with pb := (s.pb.add msg).1 }) := by
  have hadd := h.packet.add_taken ht
  have hlen : offered.length = log.messages.length + held.length := by rw [← h.messages, List.length_append]
  have hspread : ∀ j < (held ++ [msg]).length,
      Sender.due o (log.messages.length + j) ≤ Sender.due o log.messages.length + kMaxBatchNs := by
    intro j hj
    rw [List.length_append, List.length_singleton] at hj
    by_cases hlast : j < held.length
    · exact h.spread j hlast
    · obtain rfl : j = held.length := by omega
      cases held with
      | nil => exact Nat.le_add_right _ _
      | cons m ms =>
        rw [← hlen]
        exact hdue (by simp)
  rw [hadd.count, List.length_append, List.length_singleton]
  by_cases hfirst : held.length + 1 = 1
  · rw [if_pos hfirst]
    obtain rfl : held = [] := List.length_eq_zero_iff.mp (by omega)
    refine ⟨h.scheduled, h.reports.congr rfl rfl rfl rfl rfl rfl rfl rfl, h.quiet, ?_, hadd,
      (closed_add _ _).trans h.unsealed, h.nextSeq, h.since, h.ctl, fun _ => by rw [hlen]; rfl, hspread⟩
    rw [← h.messages, List.append_assoc]
  · rw [if_neg hfirst]
    refine ⟨h.scheduled, h.reports.congr rfl rfl rfl rfl rfl rfl rfl rfl, h.quiet, ?_, hadd,
      (closed_add _ _).trans h.unsealed, h.nextSeq, h.since, h.ctl, fun _ => ?_, hspread⟩
    · rw [← h.messages, List.append_assoc]
    · exact h.started fun hnil => hfirst (by rw [hnil]; rfl)

theorem Keeps.room (h : Keeps o offered log [] s) {msg : List Byte} (hmsg : msg.length ≤ kMaxMsg) :
    (s.pb.add msg).2 = true := by
  by_contra hn
  have hsize : s.pb.size = 20 := h.packet.size
  rcases (h.packet.add_refused msg).mp (by simpa using hn) with h' | h' | h' | h'
  · unfold kMaxMsg at hmsg
    omega
  · unfold kMaxMsg kPacketBytes at *
    omega
  · cases h'
  · rw [h.unsealed] at h'
    cases h'

/-- **Step lemma.** One message of the feed. -/
theorem Keeps.offer (h : Keeps o offered log held s) (net : Nat → Bool) {msg : List Byte} (hmsg : msg.length ≤ kMaxMsg)
    (hfits : offered.length + 1 < 2 ^ 64) :
    ∃ log' held', Keeps o (offered ++ [msg]) log' held' (s.offer o net offered.length msg) := by
  have hlate : ∃ log₁ held₁,
      Keeps o offered log₁ held₁ (if o.rate ≠ 0 ∧ s.pb.count ≠ 0 ∧ s.firstDue + kMaxBatchNs < Sender.due o offered.length
        then s.flush o net else s) ∧
      (held₁ ≠ [] → Sender.due o offered.length ≤ Sender.due o log₁.messages.length + kMaxBatchNs) := by
    by_cases hl : o.rate ≠ 0 ∧ s.pb.count ≠ 0 ∧ s.firstDue + kMaxBatchNs < Sender.due o offered.length
    · rw [if_pos hl]
      obtain ⟨log₁, h₁⟩ := h.flush net hfits
      exact ⟨log₁, [], h₁, fun hne => absurd rfl hne⟩
    · rw [if_neg hl]
      refine ⟨log, held, h, fun hne => ?_⟩
      rw [← h.started hne]
      by_contra hgt
      refine hl ⟨fun h₀ => ?_, ?_, not_le.mp hgt⟩
      · -- without a rate all messages are due at once
        unfold Sender.due at hgt
        rw [if_pos h₀] at hgt
        exact hgt (Nat.zero_le _)
      · rw [h.packet.count]
        exact fun h₀ => hne (List.length_eq_zero_iff.mp h₀)
  obtain ⟨log₁, held₁, h₁, hdue⟩ := hlate
  unfold Sender.offer Sender.pack
  dsimp only
  generalize (if o.rate ≠ 0 ∧ s.pb.count ≠ 0 ∧ s.firstDue + kMaxBatchNs < Sender.due o offered.length
    then s.flush o net else s) = s₁ at h₁
  cases hadd : (s₁.pb.add msg).2 with
  | true => exact ⟨log₁, held₁ ++ [msg], h₁.take hadd hdue⟩
  | false =>
    have hsame := add_refused_unchanged s₁.pb hadd
    obtain ⟨log₂, h₂⟩ := h₁.flush net hfits
    have hkept := h₂.take (h₂.room hmsg) fun hne => absurd rfl hne
    rw [hsame]
    exact ⟨log₂, [] ++ [msg], hkept⟩

/-- **Run lemma.** The loop goes as far as the abort lets it. -/
theorem Keeps.loop (h : Keeps o offered log held s) (net abort : Nat → Bool) (feed : List (List Byte))
    (hfeed : ∀ m ∈ feed, m.length ≤ kMaxMsg) (hfits : offered.length + feed.length < 2 ^ 64) :
    ∃ k log' held', k ≤ feed.length ∧ (k < feed.length → abort (offered.length + k) = true) ∧
      (∀ j < k, abort (offered.length + j) = false) ∧
      Keeps o (offered ++ feed.take k) log' held' (Sender.loop o net abort s offered.length feed) := by
  induction feed generalizing offered log held s with
  | nil => exact ⟨0, log, held, Nat.le_refl _, fun h => absurd h (by simp), by simp, by simpa [Sender.loop] using h⟩
  | cons msg feed ih =>
    rw [List.length_cons] at hfits
    unfold Sender.loop
    cases habort : abort offered.length with
    | true => exact ⟨0, log, held, Nat.zero_le _, fun _ => habort, by simp, by simpa using h⟩
    | false =>
      obtain ⟨log₁, held₁, h₁⟩ := h.offer net (hfeed msg List.mem_cons_self) (by omega)
      have hlen : (offered ++ [msg]).length = offered.length + 1 := by simp
      obtain ⟨k, log₂, held₂, hk, hstop, hgo, h₂⟩ := ih h₁ (fun m hm => hfeed m (List.mem_cons_of_mem _ hm)) (by omega)
      rw [hlen] at hstop hgo h₂
      refine ⟨k + 1, log₂, held₂, by simpa using hk, fun hlt => ?_, fun j hj => ?_, ?_⟩
      · rw [List.length_cons] at hlt
        rw [← Nat.add_assoc, Nat.add_right_comm]
        exact hstop (by omega)
      · cases j with
        | zero => exact habort
        | succ j =>
          rw [← Nat.add_assoc, Nat.add_right_comm]
          exact hgo j (by omega)
      · rw [List.take_succ_cons, List.append_cons]
        exact h₂

theorem Keeps.finish (h : Keeps o offered log [] s) (net : Nat → Bool) :
    ∃ f, f ≠ .dropped ∧ Reports (s.sendControl net (writeEndOfSession s.ctl kSession s.nextSeq) false)
      (log ++ [(.endOfSession log.next, f)]) := by
  obtain ⟨hbytes, -⟩ := take_writeHeader h.ctl s.nextSeq kEndOfSession
  have hfirst : s.nextSeq = UInt64.ofNat log.next := by rw [← h.nextSeq, UInt64.ofNat_toNat]
  obtain ⟨f, hreports, hf, -⟩ := h.reports.control net false (d := .endOfSession log.next) rfl rfl
    (by rw [hbytes, hfirst]; rfl) (by simp [Datagram.count, kEndOfSession])
  exact ⟨f, hf, hreports⟩

theorem Sender.sendControl_sendErrors (h : ∀ n, net n = true) (s : Sender) (written : List Byte × Nat) (beat : Bool) :
    (s.sendControl net written beat).sendErrors = s.sendErrors := by
  unfold Sender.sendControl Sender.transmit
  dsimp only
  rw [h, if_pos rfl]

theorem Sender.flush_sendErrors (h : ∀ n, net n = true) (s : Sender) : (s.flush o net).sendErrors = s.sendErrors := by
  have hpost : ∀ (t : Sender) (pkt : List Byte) (count : Nat), (t.post o net pkt count).sendErrors = t.sendErrors := by
    intro t pkt count
    unfold Sender.post Sender.transmit
    dsimp only
    rw [h, if_pos rfl]
    split_ifs <;> rfl
  unfold Sender.flush
  dsimp only
  split_ifs
  · rfl
  · unfold Sender.beat
    dsimp only
    split_ifs
    · rw [Sender.sendControl_sendErrors h]
      exact hpost _ _ _
    · exact hpost _ _ _

theorem Sender.loop_sendErrors (h : ∀ n, net n = true) (abort : Nat → Bool) (s : Sender) (i : Nat) (feed : List (List Byte)) :
    (Sender.loop o net abort s i feed).sendErrors = s.sendErrors := by
  induction feed generalizing s i with
  | nil => rfl
  | cons msg feed ih =>
    have hoffer : (s.offer o net i msg).sendErrors = s.sendErrors := by
      unfold Sender.offer Sender.pack
      dsimp only
      split_ifs <;> simp [Sender.flush_sendErrors h]
    unfold Sender.loop
    split_ifs
    · rfl
    · rw [ih, hoffer]

end

/-! ## Datagrams read back -/

/-- A datagram that fits a packet of the session. -/
structure Datagram.Fits (d : Datagram) : Prop where
  number : d.last < 2 ^ 64
  few : d.messages.length ≤ kMaxMessageCount
  small : ∀ m ∈ d.messages, m.length < 2 ^ 16
  room : d.bytes.length ≤ kPacketBytes
  data : d.isData = true → d.messages ≠ []

theorem Datagram.toNat_number {d : Datagram} (h : d.Fits) : (UInt64.ofNat d.number).toNat = d.number := by
  have := h.number
  unfold Datagram.last at this
  rw [UInt64.toNat_ofNat']
  omega

/-- A datagram is accepted for what it says. -/
theorem Datagram.Fits.read {d : Datagram} (h : d.Fits) :
    forEachMessage d.bytes = .ok (d.header, numbered d.number d.messages) := by
  cases d with
  | data first ms =>
    have hn : (UInt64.ofNat first).toNat = first := Datagram.toNat_number h
    have hread := forEachMessage_packetBytes kSession (UInt64.ofNat first) h.few h.small
    rw [hn] at hread
    exact hread
  | heartbeat next =>
    have hn : (UInt64.ofNat next).toNat = next := Datagram.toNat_number h
    have hread := @forEachMessage_control kSession (UInt64.ofNat next) 0 (by decide) (by decide)
    rw [hn] at hread
    exact hread
  | endOfSession next =>
    have hn : (UInt64.ofNat next).toNat = next := Datagram.toNat_number h
    have hread := @forEachMessage_control kSession (UInt64.ofNat next) kEndOfSession (by decide) (by decide)
    rw [hn] at hread
    exact hread

section
variable {o : Options} {log : Log}

theorem Datagram.fits_control {d : Datagram} (hd : d.messages = []) (hc : d.isData = false) (hn : d.number < 2 ^ 64) :
    d.Fits := by
  refine ⟨?_, ?_, ?_, ?_, ?_⟩
  · unfold Datagram.last
    rw [hd]
    exact hn
  · rw [hd]
    exact Nat.zero_le _
  · rw [hd]
    intro m hm
    cases hm
  · unfold Datagram.bytes
    rw [length_packetBytes, hd]
    decide
  · rw [hc]
    intro h
    cases h

theorem length_le_frames (ms : List (List Byte)) : ms.length ≤ (ms.flatMap frame).length := by
  induction ms with
  | nil => exact Nat.le_refl _
  | cons m ms ih =>
    rw [List.flatMap_cons, List.length_append, Framing.length_frame, List.length_cons]
    omega

/-- What is scheduled fits, and is numbered one past the messages before it. -/
theorem Scheduled.fits (h : Scheduled o log) (hn : log.messages.length + 1 < 2 ^ 64) : ∀ e ∈ log, e.1.Fits := by
  induction h with
  | nil => simp
  | @data log ms f hlog hq hms hsmall hroom hspread hf ih =>
    rw [Log.messages_snoc, List.length_append] at hn
    simp only [Datagram.messages] at hn
    intro e he
    rcases List.mem_append.mp he with he | he
    · exact ih (by omega) e he
    · obtain rfl := List.mem_singleton.mp he
      have hframes := length_le_frames ms
      refine ⟨?_, ?_, hsmall, ?_, fun _ => hms⟩
      · show 1 + log.messages.length + ms.length < 2 ^ 64
        omega
      · show ms.length ≤ 65534
        unfold kPacketBytes at hroom
        omega
      · show (packetBytes _ _ _ _).length ≤ _
        rw [length_packetBytes]
        exact hroom
  | @heartbeat log f hlog hdue hf ih =>
    rw [Log.messages_snoc, List.length_append] at hn
    intro e he
    rcases List.mem_append.mp he with he | he
    · exact ih (by omega) e he
    · obtain rfl := List.mem_singleton.mp he
      exact Datagram.fits_control rfl rfl (by show 1 + log.messages.length < 2 ^ 64; omega)

end

/-- What the sender leaves: the log of its datagrams. -/
structure Sent (o : Options) (taken : List (List Byte)) (f : Fate) (log : Log) (s : Sender) : Prop where
  scheduled : Scheduled o log
  quiet : ¬log.beatDue
  messages : log.messages = taken
  ended : f ≠ .dropped
  reports : Reports s (log ++ [(.endOfSession log.next, f)])
  fits : ∀ e ∈ log ++ [(.endOfSession log.next, f)], e.1.Fits

theorem senderMain_sent (o : Options) (net abort : Nat → Bool) {feed : List (List Byte)}
    (hfeed : ∀ m ∈ feed, m.length ≤ kMaxMsg) (hfits : feed.length + 1 < 2 ^ 64) :
    ∃ k log f, k ≤ feed.length ∧ (k < feed.length → abort k = true) ∧ (∀ j < k, abort j = false) ∧
      Sent o (feed.take k) f log (senderMain o net abort feed) := by
  obtain ⟨k, log₁, held, hk, hstop, hgo, h₁⟩ := (Keeps.new o).loop net abort feed hfeed
    (by simp only [List.length_nil]; omega)
  simp only [List.length_nil, Nat.zero_add, List.nil_append] at hstop hgo h₁
  have hlen : (feed.take k).length + 1 < 2 ^ 64 := by
    rw [List.length_take]
    omega
  obtain ⟨log, h₂⟩ := h₁.flush net hlen
  obtain ⟨f, hf, hreports⟩ := h₂.finish net
  have hmessages : log.messages = feed.take k := by simpa using h₂.messages
  rw [← hmessages] at hlen
  refine ⟨k, log, f, hk, hstop, hgo, h₂.scheduled, h₂.quiet, hmessages, hf, hreports, fun e he => ?_⟩
  rcases List.mem_append.mp he with he | he
  · exact h₂.scheduled.fits hlen e he
  · obtain rfl := List.mem_singleton.mp he
    exact Datagram.fits_control rfl rfl (by show 1 + log.messages.length < 2 ^ 64; omega)

/-- **The sender keeps to the schedule.** Whatever the kernel answers and whenever the run is aborted, the messages the
sender has come to leave it in order, in packets of at most 1200 bytes that are read back for what they say; its wire and
its report are those of the log, which ends with the end of the session. -/
theorem sender_keeps_the_schedule (o : Options) (net abort : Nat → Bool) (feed : List (List Byte))
    (hfeed : ∀ m ∈ feed, m.length ≤ kMaxMsg) (hfits : feed.length + 1 < 2 ^ 64) :
    ∃ k log f, k ≤ feed.length ∧ (k < feed.length → abort k = true) ∧ (∀ j < k, abort j = false) ∧
      Scheduled o log ∧ ¬log.beatDue ∧ log.messages = feed.take k ∧ f ≠ .dropped ∧
      Reports (senderMain o net abort feed) (log ++ [(.endOfSession log.next, f)]) ∧
      ∀ e ∈ log ++ [(.endOfSession log.next, f)], e.1.bytes.length ≤ kPacketBytes ∧
        forEachMessage e.1.bytes = .ok (e.1.header, numbered e.1.number e.1.messages) := by
  obtain ⟨k, log, f, hk, hstop, hgo, h⟩ := senderMain_sent o net abort hfeed hfits
  refine ⟨k, log, f, hk, hstop, hgo, h.scheduled, h.quiet, h.messages, h.ended, h.reports, fun e he => ?_⟩
  exact ⟨(h.fits e he).room, (h.fits e he).read⟩

/-- Three messages a millisecond apart, every second packet skipped. -/
def sparse : Options := { rate := 1000, dropEvery := 2 }

theorem sender_keeps_the_schedule_sparse :
    ∃ log : Log, Scheduled sparse log ∧ log.messages = [[1], [2], [3]] ∧
      (senderMain sparse (fun _ => true) (fun _ => false) [[1], [2], [3]]).droppedPackets = (log.having .dropped).length ∧
      (senderMain sparse (fun _ => true) (fun _ => false) [[1], [2], [3]]).droppedPackets = 1 := by
  obtain ⟨k, log, f, hk, hstop, -, hlog, -, hmsgs, hf, hr, -⟩ :=
    sender_keeps_the_schedule sparse (fun _ => true) (fun _ => false) [[1], [2], [3]] (by decide) (by decide)
  have hall : k = 3 := by
    by_contra hne
    have hk' : k ≤ 3 := hk
    have := hstop (show k < 3 by omega)
    cases this
  subst hall
  refine ⟨log, hlog, hmsgs, ?_, by decide +kernel⟩
  rw [hr.droppedPackets, Log.having_snoc, if_neg (by exact hf), List.append_nil]

end OptiTrade.Net
