import Mathlib.Data.List.Induction
import OptiTrade.Foundations.Framing
import OptiTrade.Net.Mold64

/-! # The two walks over a packet, and the packet builder

`for_each_message` walks the blocks twice, once to check them and once to deliver them, with a 16-bit
counter each time. `forEachMessage` is what the two walks compute. -/

namespace OptiTrade.Net
set_option autoImplicit false

open Be (loadAt slice store)
open Framing (frame Unfinished)

/-- What a call of `for_each_message` leaves: its status (`none` is ok), the header once it has been
read, and the calls it made. -/
structure PacketWalk where
  status : Option DecodeError
  hdr : Option Header
  calls : List (Nat × List Byte)

/-- The loop of `validate_blocks` from block `i` at `pos` on; `none` only when the fuel runs out. -/
def validateLoop (packet : List Byte) (count : UInt16) : Nat → UInt16 → Nat → Option (Option DecodeError)
  | 0, _, _ => none
  | fuel + 1, i, pos =>
    if i < count then
      if packet.length - pos < 2 then some (some .truncated)
      else if packet.length - (pos + 2) < loadAt packet pos 2 then some (some .truncated)
      else validateLoop packet count fuel (i + 1) (pos + 2 + loadAt packet pos 2)
    else some (if pos = packet.length then none else some .badLength)

/-- Whether the blocks of a packet are what its header says; `none` if the fuel runs out. -/
def validateBlocks (packet : List Byte) (h : Header) : Option (Option DecodeError) :=
  if h.kind ≠ .data then some (if packet.length = kHeaderSize then none else some .badLength)
  else validateLoop packet (UInt16.ofNat h.count) 65536 0 kHeaderSize

/-- The loop that delivers the blocks of a packet that has been validated. -/
def deliverLoop (packet : List Byte) (count : UInt16) (sequence : Nat) : Nat → UInt16 → Nat →
    Option (List (Nat × List Byte))
  | 0, _, _ => none
  | fuel + 1, i, pos =>
    if i < count then
      (deliverLoop packet count sequence fuel (i + 1) (pos + 2 + loadAt packet pos 2)).map fun calls =>
        (add64 sequence i.toNat, slice packet (pos + 2) (loadAt packet pos 2)) :: calls
    else some []

/-- A packet is parsed and, when all of it is right, its messages are handed out. -/
def walkPacket (packet : List Byte) : Option PacketWalk :=
  match parseHeader packet with
  | .error e => some ⟨some e, none, []⟩
  | .ok h =>
    match validateBlocks packet h with
    | none => none
    | some (some e) => some ⟨some e, some h, []⟩
    | some none =>
      if h.kind ≠ .data then some ⟨none, some h, []⟩
      else
        (deliverLoop packet (UInt16.ofNat h.count) h.sequence 65536 0 kHeaderSize).map fun calls =>
          ⟨none, some h, calls⟩

/-! ## The walks agree -/

/-- The status of a check. -/
def statusOf {α : Type} : Except DecodeError α → Option DecodeError
  | .ok _ => none
  | .error e => some e

section
variable {packet : List Byte} {count i : UInt16} {pos fuel n : Nat}

theorem counter_succ (h : i < count) : (i + 1).toNat = i.toNat + 1 := by
  have h₁ := UInt16.lt_iff_toNat_lt.mp h
  have h₂ := count.toNat_lt
  rw [UInt16.toNat_add]
  exact Nat.mod_eq_of_lt (by show i.toNat + 1 < 65536; omega)

theorem loadAt_drop (p : List Byte) (pos off w : Nat) : loadAt (p.drop pos) off w = loadAt p (pos + off) w := by
  simp [loadAt, slice]

theorem slice_drop (p : List Byte) (pos off w : Nat) : slice (p.drop pos) off w = slice p (pos + off) w := by
  simp [slice]

theorem blocks_succ_drop (hle : pos ≤ packet.length) :
    blocks (n + 1) (packet.drop pos) =
      if packet.length - pos < 2 then .error .truncated
      else if packet.length - (pos + 2) < loadAt packet pos 2 then .error .truncated
      else
        match blocks n (packet.drop (pos + 2 + loadAt packet pos 2)) with
        | .ok ms => .ok (slice packet (pos + 2) (loadAt packet pos 2) :: ms)
        | .error e => .error e := by
  rewrite [blocks, List.length_drop, loadAt_drop, slice_drop, List.drop_drop, Nat.add_zero, Nat.sub_sub, Nat.add_assoc]
  rfl

theorem validateLoop_eq (hn : count.toNat - i.toNat = n) (hle : pos ≤ packet.length) (hfuel : n < fuel) :
    validateLoop packet count fuel i pos = some (statusOf (blocks n (packet.drop pos))) := by
  induction n generalizing i pos fuel with
  | zero =>
    cases fuel with
    | zero => cases hfuel
    | succ fuel =>
      have hi : ¬i < count := by
        rw [UInt16.lt_iff_toNat_lt]
        omega
      have hend : (packet.drop pos).isEmpty = true ↔ pos = packet.length := by
        rw [List.isEmpty_iff, List.drop_eq_nil_iff]
        omega
      unfold validateLoop blocks
      rw [if_neg hi]
      by_cases he : pos = packet.length
      · rw [if_pos he, if_pos (hend.mpr he)]
        rfl
      · rw [if_neg he, if_neg (mt hend.mp he)]
        rfl
  | succ n ih =>
    cases fuel with
    | zero => cases hfuel
    | succ fuel =>
      have hi : i < count := by
        rw [UInt16.lt_iff_toNat_lt]
        omega
      unfold validateLoop
      rw [if_pos hi, blocks_succ_drop hle]
      by_cases h₂ : packet.length - pos < 2
      · rw [if_pos h₂, if_pos h₂]
        rfl
      by_cases hlen : packet.length - (pos + 2) < loadAt packet pos 2
      · rw [if_neg h₂, if_pos hlen, if_neg h₂, if_pos hlen]
        rfl
      rw [if_neg h₂, if_neg hlen, if_neg h₂, if_neg hlen,
        ih (by rw [counter_succ hi]; omega) (by omega) (by omega)]
      cases blocks n (packet.drop (pos + 2 + loadAt packet pos 2)) with
      | ok ms => rfl
      | error e => rfl

theorem add64_succ (seq k : Nat) : add64 (add64 seq k) 1 = add64 seq (k + 1) := by
  unfold add64
  omega

theorem deliverLoop_eq {sequence : Nat} {ms : List (List Byte)} (hn : count.toNat - i.toNat = n)
    (hle : pos ≤ packet.length) (hfuel : n < fuel) (h : blocks n (packet.drop pos) = .ok ms) :
    deliverLoop packet count sequence fuel i pos = some (numbered (add64 sequence i.toNat) ms) := by
  induction n generalizing i pos fuel ms with
  | zero =>
    cases fuel with
    | zero => cases hfuel
    | succ fuel =>
      have hi : ¬i < count := by
        rw [UInt16.lt_iff_toNat_lt]
        omega
      obtain rfl := List.eq_nil_of_length_eq_zero (length_blocks h)
      unfold deliverLoop
      rw [if_neg hi]
      rfl
  | succ n ih =>
    cases fuel with
    | zero => cases hfuel
    | succ fuel =>
      have hi : i < count := by
        rw [UInt16.lt_iff_toNat_lt]
        omega
      rw [blocks_succ_drop hle] at h
      split_ifs at h with h₂ hlen
      split at h
      · rename_i ms' hms
        obtain rfl := Except.ok.inj h
        unfold deliverLoop
        rw [if_pos hi, ih (by rw [counter_succ hi]; omega) (by omega) (by omega) hms, counter_succ hi]
        simp only [Option.map_some, numbered, add64_succ]
      · cases h

end

/-- **The two walks end, agree, and deliver nothing of a packet that is refused.** -/
theorem walkPacket_eq (p : List Byte) :
    walkPacket p = some
      (match forEachMessage p with
        | .ok (h, ms) => ⟨none, some h, ms⟩
        | .error e => ⟨some e, (parseHeader p).toOption, []⟩) := by
  unfold walkPacket forEachMessage
  cases hp : parseHeader p with
  | error e => rfl
  | ok h =>
    have hlen : kHeaderSize ≤ p.length := by
      unfold parseHeader at hp
      split_ifs at hp with hl
      exact not_lt.mp hl
    have hcount : h.count < 65536 := by
      unfold parseHeader at hp
      split_ifs at hp
      obtain rfl := Except.ok.inj hp
      exact Be.loadAt_lt p 18 2
    dsimp only
    unfold validateBlocks
    by_cases hk : h.kind = .data
    · have hc : (UInt16.ofNat h.count).toNat - (0 : UInt16).toNat = h.count := by
        rw [UInt16.toNat_ofNat']
        exact Nat.mod_eq_of_lt hcount
      have hseq : add64 h.sequence (0 : UInt16).toNat = h.sequence := by
        unfold parseHeader at hp
        split_ifs at hp
        obtain rfl := Except.ok.inj hp
        exact Nat.mod_eq_of_lt (Be.loadAt_lt p 10 8)
      rw [if_neg (not_not.mpr hk), if_neg (not_not.mpr hk), if_pos hk, validateLoop_eq hc hlen (by omega)]
      cases hb : blocks h.count (p.drop kHeaderSize) with
      | error e => rfl
      | ok ms =>
        show Option.map _ (deliverLoop p _ _ _ _ _) = _
        rw [deliverLoop_eq hc hlen (by omega) hb, hseq]
        rfl
    · rw [if_pos hk, if_pos hk, if_neg hk]
      by_cases hl : p.length = kHeaderSize
      · rw [if_pos hl, if_pos hl]
      · rw [if_neg hl, if_neg hl]
        rfl

/-! ## Which packets are accepted -/

section
variable {n : Nat} {p rest : List Byte} {ms : List (List Byte)}

theorem blocks_frame {m : List Byte} (hm : m.length < 2 ^ 16) (rest : List Byte) :
    blocks (n + 1) (frame m ++ rest) =
      match blocks n rest with
      | .ok ms => .ok (m :: ms)
      | .error e => .error e := by
  have hlen : (frame m ++ rest).length = 2 + m.length + rest.length := by rw [List.length_append, Framing.length_frame]
  rewrite [blocks, Framing.loadAt_frame hm, Framing.slice_frame, if_neg (by omega), if_neg (by omega),
    List.drop_left' (Framing.length_frame m)]
  rfl

theorem blocks_flatMap (hms : ∀ m ∈ ms, m.length < 2 ^ 16) (rest : List Byte) :
    blocks (ms.length + n) (ms.flatMap frame ++ rest) =
      match blocks n rest with
      | .ok qs => .ok (ms ++ qs)
      | .error e => .error e := by
  induction ms with
  | nil =>
    rw [List.length_nil, Nat.zero_add, List.flatMap_nil, List.nil_append]
    cases blocks n rest with
    | ok qs => rfl
    | error e => rfl
  | cons m ms ih =>
    rw [List.length_cons, Nat.add_right_comm, List.flatMap_cons, List.append_assoc,
      blocks_frame (hms m List.mem_cons_self), ih fun q hq => hms q (List.mem_cons_of_mem _ hq)]
    cases blocks n rest with
    | ok qs => rfl
    | error e => rfl

theorem blocks_zero (p : List Byte) : blocks 0 p = if p = [] then .ok [] else .error .badLength := by
  cases p with
  | nil => rfl
  | cons b p => rfl

theorem blocks_unfinished (h : Unfinished rest) : blocks (n + 1) rest = .error .truncated := by
  rw [blocks]
  rcases h with h | h
  · rw [if_pos h]
  · by_cases h₂ : rest.length < 2
    · rw [if_pos h₂]
    · rw [if_neg h₂, if_pos h]

/-- The whole blocks of the bytes, as many as the count asks for or there are, and what follows them. -/
inductive Holds (n : Nat) (p : List Byte) : Except DecodeError (List (List Byte)) → Prop
  | exact (ms : List (List Byte)) : ms.length = n → (∀ m ∈ ms, m.length < 2 ^ 16) → p = ms.flatMap frame →
      Holds n p (.ok ms)
  | short (ms : List (List Byte)) (rest : List Byte) : ms.length < n → (∀ m ∈ ms, m.length < 2 ^ 16) →
      p = ms.flatMap frame ++ rest → Unfinished rest → Holds n p (.error .truncated)
  | long (ms : List (List Byte)) (rest : List Byte) : ms.length = n → (∀ m ∈ ms, m.length < 2 ^ 16) →
      p = ms.flatMap frame ++ rest → rest ≠ [] → Holds n p (.error .badLength)

theorem holds_blocks (n : Nat) (p : List Byte) : Holds n p (blocks n p) := by
  induction n generalizing p with
  | zero =>
    rw [blocks_zero]
    by_cases hp : p = []
    · rw [if_pos hp]
      exact .exact [] rfl (fun m hm => absurd hm List.not_mem_nil) hp
    · rw [if_neg hp]
      exact .long [] p rfl (fun m hm => absurd hm List.not_mem_nil) rfl hp
  | succ n ih =>
    by_cases hu : Unfinished p
    · rw [blocks_unfinished hu]
      exact .short [] p (Nat.succ_pos n) (fun m hm => absurd hm List.not_mem_nil) rfl hu
    · have hp := Framing.frame_of_complete hu
      have hm : (slice p 2 (loadAt p 0 2)).length < 2 ^ 16 :=
        (Be.length_slice_le _ _ _).trans_lt (Be.loadAt_lt p 0 2)
      generalize slice p 2 (loadAt p 0 2) = m at hp hm
      generalize p.drop (2 + loadAt p 0 2) = q at hp
      have hcons : ∀ {ms : List (List Byte)}, (∀ m' ∈ ms, m'.length < 2 ^ 16) → ∀ m' ∈ m :: ms, m'.length < 2 ^ 16 := by
        intro ms hms m' hm'
        rcases List.mem_cons.mp hm' with rfl | hm'
        · exact hm
        · exact hms m' hm'
      have hih := ih q
      rw [hp, blocks_frame hm]
      cases hb : blocks n q with
      | ok ms =>
        rw [hb] at hih
        cases hih with
        | exact _ hlen hms hq =>
          exact .exact (m :: ms) (by rw [List.length_cons, hlen]) (hcons hms) (by rw [List.flatMap_cons, ← hq])
      | error e =>
        rw [hb] at hih
        cases hih with
        | short ms rest hlen hms hq hun =>
          exact .short (m :: ms) rest (by rw [List.length_cons]; omega) (hcons hms)
            (by rw [List.flatMap_cons, List.append_assoc, ← hq]) hun
        | long ms rest hlen hms hq hne =>
          exact .long (m :: ms) rest (by rw [List.length_cons, hlen]) (hcons hms)
            (by rw [List.flatMap_cons, List.append_assoc, ← hq]) hne

theorem blocks_eq_ok : blocks n p = .ok ms ↔ ms.length = n ∧ (∀ m ∈ ms, m.length < 2 ^ 16) ∧ p = ms.flatMap frame := by
  constructor
  · intro h
    have hh := holds_blocks n p
    rw [h] at hh
    cases hh with
    | exact _ hlen hms hp => exact ⟨hlen, hms, hp⟩
  · rintro ⟨rfl, hms, rfl⟩
    have := blocks_flatMap (n := 0) hms []
    rw [Nat.add_zero, List.append_nil, blocks_zero, if_pos rfl] at this
    exact this.trans (congrArg Except.ok (List.append_nil ms))

theorem blocks_eq_truncated : blocks n p = .error .truncated ↔
    ∃ (ms : List (List Byte)) (rest : List Byte), ms.length < n ∧ (∀ m ∈ ms, m.length < 2 ^ 16) ∧
      p = ms.flatMap frame ++ rest ∧ Unfinished rest := by
  constructor
  · intro h
    have hh := holds_blocks n p
    rw [h] at hh
    cases hh with
    | short ms rest hlen hms hp hun => exact ⟨ms, rest, hlen, hms, hp, hun⟩
  · rintro ⟨ms, rest, hlen, hms, rfl, hun⟩
    obtain ⟨k, rfl⟩ := Nat.exists_eq_add_of_lt hlen
    rw [Nat.add_assoc, blocks_flatMap hms, blocks_unfinished hun]

theorem blocks_eq_badLength : blocks n p = .error .badLength ↔
    ∃ (ms : List (List Byte)) (rest : List Byte), ms.length = n ∧ (∀ m ∈ ms, m.length < 2 ^ 16) ∧
      p = ms.flatMap frame ++ rest ∧ rest ≠ [] := by
  constructor
  · intro h
    have hh := holds_blocks n p
    rw [h] at hh
    cases hh with
    | long ms rest hlen hms hp hne => exact ⟨ms, rest, hlen, hms, hp, hne⟩
  · rintro ⟨ms, rest, rfl, hms, rfl, hne⟩
    have := blocks_flatMap (n := 0) hms rest
    rw [Nat.add_zero, blocks_zero, if_neg hne] at this
    exact this

end

/-! ## Writing packets -/

/-- A session name: ten characters, not interpreted. -/
structure Session where
  chars : List Byte
  size_eq : chars.length = 10

def kMaxMessageCount : Nat := 65534
def kMaxMessageSize : Nat := 65535

/-- The fields of a header. -/
def headerFields (session : Session) (sequence : UInt64) (count : Nat) : Be.Fields :=
  [(0, session.chars), (10, store 8 sequence.toNat), (18, store 2 count)]

/-- The buffer and the number of bytes written, 0 if there is no room. -/
def writeHeader (out : List Byte) (session : Session) (sequence : UInt64) (count : Nat) : List Byte × Nat :=
  if out.length < kHeaderSize then (out, 0) else (Be.putAll out (headerFields session sequence count), kHeaderSize)

def writeHeartbeat (out : List Byte) (session : Session) (next : UInt64) : List Byte × Nat :=
  writeHeader out session next 0

def writeEndOfSession (out : List Byte) (session : Session) (next : UInt64) : List Byte × Nat :=
  writeHeader out session next kEndOfSession

/-- A packet that is being filled. -/
structure PacketBuilder where
  buf : List Byte
  /-- Bytes the packet occupies so far; 0 for a buffer that cannot hold the header. -/
  size : Nat
  count : Nat := 0
  closed : Bool := false

namespace PacketBuilder

/-- An empty packet, if the buffer can hold the header. -/
def create (buffer : List Byte) (session : Session) (first : UInt64) : PacketBuilder :=
  let r := writeHeader buffer session first 0
  { buf := r.1, size := r.2 }

/-- The builder after `add` and whether it took the message. -/
def add (b : PacketBuilder) (message : List Byte) : PacketBuilder × Bool :=
  if b.closed ∨ b.size = 0 ∨ kMaxMessageCount ≤ b.count then (b, false)
  else if kMaxMessageSize < message.length then (b, false)
  else if b.buf.length - b.size < 2 + message.length then (b, false)
  else
    ({ b with
        buf := Be.put (Be.put b.buf b.size (store 2 message.length)) (b.size + 2) message
        size := b.size + (2 + message.length)
        count := b.count + 1 }, true)

/-- The builder after `finish` and the packet: the count goes into the header once, and no message is
taken after that. -/
def finish (b : PacketBuilder) : PacketBuilder × List Byte :=
  if b.size = 0 then (b, [])
  else if b.closed then (b, b.buf.take b.size)
  else
    let b' := { b with buf := Be.put b.buf 18 (store 2 b.count), closed := true }
    (b', b'.buf.take b'.size)

end PacketBuilder

/-- A call on a builder. -/
inductive BuilderCall
  | add (message : List Byte)
  | finish

namespace PacketBuilder

/-- The builder after a call, and the messages it took. -/
def apply (st : PacketBuilder × List (List Byte)) : BuilderCall → PacketBuilder × List (List Byte)
  | .add message =>
    let r := st.1.add message
    (r.1, if r.2 then st.2 ++ [message] else st.2)
  | .finish => (st.1.finish.1, st.2)

/-- The builder after a list of calls, and the messages it took in order. -/
def run (b : PacketBuilder) (calls : List BuilderCall) : PacketBuilder × List (List Byte) := calls.foldl apply (b, [])

end PacketBuilder

/-- The bytes of a packet. -/
def packetBytes (session : Session) (first : UInt64) (count : Nat) (ms : List (List Byte)) : List Byte :=
  session.chars ++ store 8 first.toNat ++ store 2 count ++ ms.flatMap frame

theorem length_packetBytes (session : Session) (first : UInt64) (count : Nat) (ms : List (List Byte)) :
    (packetBytes session first count ms).length = 20 + (ms.flatMap frame).length := by
  simp only [packetBytes, List.length_append, session.size_eq, Be.length_store]

theorem writeHeader_eq {out : List Byte} (session : Session) (sequence : UInt64) (count : Nat)
    (hout : kHeaderSize ≤ out.length) :
    writeHeader out session sequence count = (packetBytes session sequence count [] ++ out.drop 20, 20) := by
  have htile : Be.Tiles 0 (headerFields session sequence count) := by simp [headerFields, Be.Tiles, session.size_eq]
  have hspan : Be.span (headerFields session sequence count) = 20 := by
    simp [headerFields, Be.span, session.size_eq]
  unfold writeHeader
  rw [if_neg (not_lt.mpr hout), Be.putAll_tiles htile (by rw [hspan]; exact hout), hspan]
  simp [packetBytes, headerFields, kHeaderSize]

/-- A builder over a buffer with room for the header that took the messages `ms`. -/
structure Built (room : Nat) (session : Session) (first : UInt64) (ms : List (List Byte)) (b : PacketBuilder) : Prop where
  buffer : b.buf.length = room
  size : b.size = 20 + (ms.flatMap frame).length
  inside : b.size ≤ room
  count : b.count = ms.length
  few : ms.length ≤ kMaxMessageCount
  small : ∀ m ∈ ms, m.length < 2 ^ 16
  bytes : b.buf.take b.size = packetBytes session first (if b.closed then ms.length else 0) ms

section
variable {room : Nat} {session : Session} {first : UInt64} {ms : List (List Byte)} {b : PacketBuilder}

theorem built_create {buffer : List Byte} (h : kHeaderSize ≤ buffer.length) :
    Built buffer.length session first [] (.create buffer session first) := by
  have hw := writeHeader_eq session first 0 h
  have hlen := length_packetBytes session first 0 []
  have hroom : 20 ≤ buffer.length := h
  unfold PacketBuilder.create
  rw [hw]
  refine ⟨?_, rfl, h, rfl, Nat.zero_le _, fun m hm => absurd hm List.not_mem_nil, ?_⟩
  · show (packetBytes session first 0 [] ++ buffer.drop 20).length = buffer.length
    rw [List.length_append, hlen, List.length_drop]
    simp only [List.flatMap_nil, List.length_nil]
    omega
  · exact List.take_left' (by rw [hlen]; rfl)

theorem Built.size_pos (h : Built room session first ms b) : 0 < b.size := by
  rw [h.size]
  omega

/-- A message is refused exactly when it is too long, does not fit, or the packet is full or sealed. -/
theorem Built.add_refused (h : Built room session first ms b) (message : List Byte) :
    (b.add message).2 = false ↔
      65535 < message.length ∨ room < b.size + (2 + message.length) ∨ ms.length = 65534 ∨ b.closed = true := by
  have hpos := h.size_pos
  have hfew : ms.length ≤ 65534 := h.few
  have hin := h.inside
  unfold PacketBuilder.add kMaxMessageCount kMaxMessageSize
  rw [h.buffer, h.count]
  split_ifs with h₁ h₂ h₃
  · refine iff_of_true rfl ?_
    rcases h₁ with h₁ | h₁ | h₁
    · exact .inr (.inr (.inr h₁))
    · omega
    · exact .inr (.inr (.inl (by omega)))
  · exact iff_of_true rfl (.inl h₂)
  · exact iff_of_true rfl (.inr (.inl (by omega)))
  · refine iff_of_false (by simp) ?_
    rintro (h' | h' | h' | h')
    · omega
    · omega
    · exact h₁ (.inr (.inr (by omega)))
    · exact h₁ (.inl h')

theorem add_refused_unchanged (b : PacketBuilder) {message : List Byte} (h : (b.add message).2 = false) :
    (b.add message).1 = b := by
  unfold PacketBuilder.add at h ⊢
  split_ifs at h ⊢
  · rfl
  · rfl
  · rfl

theorem Built.add_taken (h : Built room session first ms b) {message : List Byte} (ht : (b.add message).2 = true) :
    Built room session first (ms ++ [message]) (b.add message).1 := by
  have hn := mt (h.add_refused message).mpr (by rw [ht]; exact Bool.noConfusion)
  simp only [not_or] at hn
  obtain ⟨hlong, hfit, hfull, hopen⟩ := hn
  have hopen : b.closed = false := by simpa using hopen
  have hroom := h.buffer
  have hfew : ms.length ≤ 65534 := h.few
  have hpos := h.size_pos
  have hadd : (b.add message).1 =
      { b with
        buf := Be.put (Be.put b.buf b.size (store 2 message.length)) (b.size + 2) message
        size := b.size + (2 + message.length)
        count := b.count + 1 } := by
    unfold PacketBuilder.add kMaxMessageCount kMaxMessageSize
    rw [if_neg (by rw [hopen, h.count]; simp; omega), if_neg hlong, if_neg (by omega)]
  have hput : (Be.put b.buf b.size (store 2 message.length)).length = room := by
    rw [Be.length_put (by rw [Be.length_store]; omega), hroom]
  have htake : (Be.put b.buf b.size (store 2 message.length)).take (b.size + 2) =
      b.buf.take b.size ++ store 2 message.length := by
    have := @Be.take_put b.buf b.size (store 2 message.length) (by rw [Be.length_store]; omega)
    rwa [Be.length_store] at this
  rw [hadd]
  refine ⟨?_, ?_, ?_, ?_, ?_, ?_, ?_⟩
  · show (Be.put _ (b.size + 2) message).length = room
    rw [Be.length_put (by omega), hput]
  · show b.size + (2 + message.length) = _
    rw [h.size, List.flatMap_append, List.flatMap_singleton, List.length_append, Framing.length_frame]
    omega
  · show b.size + (2 + message.length) ≤ room
    omega
  · show b.count + 1 = _
    rw [h.count, List.length_append, List.length_singleton]
  · rw [List.length_append, List.length_singleton]
    show ms.length + 1 ≤ 65534
    omega
  · intro m hm
    rcases List.mem_append.mp hm with hm | hm
    · exact h.small m hm
    · rw [List.mem_singleton.mp hm]
      omega
  · show (Be.put _ (b.size + 2) message).take (b.size + (2 + message.length)) =
      packetBytes session first (if b.closed then (ms ++ [message]).length else 0) (ms ++ [message])
    have hbytes := h.bytes
    rw [hopen, if_neg (by decide)] at hbytes ⊢
    rw [← Nat.add_assoc, Be.take_put (by omega), htake, hbytes]
    simp [packetBytes, frame]

/-- The packet that `finish` returns; it seals the builder. -/
theorem Built.finish (h : Built room session first ms b) :
    Built room session first ms b.finish.1 ∧ b.finish.1.closed = true ∧
      b.finish.2 = packetBytes session first ms.length ms := by
  have hpos := h.size_pos
  have hbytes := h.bytes
  have hin := h.inside
  have hroom := h.buffer
  unfold PacketBuilder.finish
  rw [if_neg (by omega)]
  by_cases hc : b.closed = true
  · rw [if_pos hc]
    rw [hc, if_pos rfl] at hbytes
    exact ⟨h, hc, hbytes⟩
  · rw [if_neg hc]
    rw [if_neg hc] at hbytes
    have hsize := h.size
    have hput : (Be.put b.buf 18 (store 2 b.count)).take b.size = packetBytes session first ms.length ms := by
      have hfront : b.buf.take 18 = session.chars ++ store 8 first.toNat := by
        have := congrArg (List.take 18) hbytes
        rw [List.take_take, Nat.min_eq_left (by omega)] at this
        rw [this]
        unfold packetBytes
        rw [List.append_assoc (session.chars ++ store 8 first.toNat)]
        exact List.take_left' (by simp [session.size_eq])
      have hback : (b.buf.take b.size).drop 20 = ms.flatMap frame := by
        rw [hbytes]
        unfold packetBytes
        exact List.drop_left' (by simp [session.size_eq])
      have hhead : (session.chars ++ store 8 first.toNat ++ store 2 ms.length).length = 20 := by
        simp [session.size_eq]
      unfold Be.put
      rw [hfront, h.count, Be.length_store, List.take_append, List.take_of_length_le (by omega), hhead,
        ← List.drop_take, hback]
      rfl
    refine ⟨⟨?_, h.size, h.inside, h.count, h.few, h.small, ?_⟩, rfl, hput⟩
    · show (Be.put b.buf 18 (store 2 b.count)).length = room
      rw [Be.length_put (by rw [Be.length_store]; omega), hroom]
    · exact hput

/-- Every list of calls leaves a builder that holds the messages it took. -/
theorem Built.run {buffer : List Byte} (h : kHeaderSize ≤ buffer.length) (session : Session) (first : UInt64)
    (calls : List BuilderCall) :
    Built buffer.length session first ((PacketBuilder.create buffer session first).run calls).2
      ((PacketBuilder.create buffer session first).run calls).1 := by
  induction calls using List.reverseRecOn with
  | nil => exact built_create h
  | append_singleton calls call ih =>
    unfold PacketBuilder.run at ih ⊢
    rw [List.foldl_append]
    generalize List.foldl PacketBuilder.apply (PacketBuilder.create buffer session first, []) calls = st at ih
    cases call with
    | add message =>
      show Built _ session first (if (st.1.add message).2 then st.2 ++ [message] else st.2) (st.1.add message).1
      cases ht : (st.1.add message).2 with
      | true => exact ih.add_taken ht
      | false =>
        rw [add_refused_unchanged st.1 ht]
        exact ih
    | finish => exact ih.finish.1

theorem numbered_eq_mapIdx {seq : Nat} (h : seq < 2 ^ 64) (ms : List (List Byte)) :
    numbered seq ms = ms.mapIdx fun i m => ((seq + i) % 2 ^ 64, m) := by
  induction ms generalizing seq with
  | nil => rfl
  | cons m ms ih =>
    have hnext : add64 seq 1 < 2 ^ 64 := Nat.mod_lt _ (by decide)
    rw [numbered, ih hnext, List.mapIdx_cons, Nat.add_zero, Nat.mod_eq_of_lt h]
    congr 1
    refine List.mapIdx_eq_mapIdx_iff.mpr fun i hi => ?_
    unfold add64
    congr 1
    omega

/-- A built packet is accepted, with its messages in order. -/
theorem forEachMessage_packetBytes (session : Session) (first : UInt64) {ms : List (List Byte)}
    (hfew : ms.length ≤ kMaxMessageCount) (hms : ∀ m ∈ ms, m.length < 2 ^ 16) :
    forEachMessage (packetBytes session first ms.length ms) =
      .ok (⟨session.chars, first.toNat, ms.length⟩, numbered first.toNat ms) := by
  have hfew : ms.length ≤ 65534 := hfew
  have htile : Be.Tiles 0 (headerFields session first ms.length ++ [(20, ms.flatMap frame)]) := by
    simp [headerFields, Be.Tiles, session.size_eq]
  have hbytes : Be.bytes (headerFields session first ms.length ++ [(20, ms.flatMap frame)]) =
      packetBytes session first ms.length ms := by simp [headerFields, packetBytes]
  have hparse : parseHeader (packetBytes session first ms.length ms) =
      .ok ⟨session.chars, first.toNat, ms.length⟩ := by
    have hlen := length_packetBytes session first ms.length ms
    unfold parseHeader kSessionSize
    rw [if_neg (by unfold kHeaderSize; omega), ← hbytes,
      Be.slice_field htile (by simp [headerFields]) session.size_eq,
      Be.loadAt_field htile (by simp [headerFields]) first.toNat_lt,
      Be.loadAt_field (v := ms.length) htile (by simp [headerFields]) (by omega)]
  have hdrop : (packetBytes session first ms.length ms).drop kHeaderSize = ms.flatMap frame :=
    List.drop_left' (by simp [session.size_eq, kHeaderSize])
  unfold forEachMessage
  rw [hparse]
  dsimp only
  cases ms with
  | nil =>
    have hkind : (⟨session.chars, first.toNat, ([] : List (List Byte)).length⟩ : Header).kind ≠ .data := by
      show kindOf 0 ≠ .data
      decide
    rw [if_neg hkind, if_pos (by rw [length_packetBytes]; rfl)]
    rfl
  | cons m ms =>
    have hkind : (⟨session.chars, first.toNat, (m :: ms).length⟩ : Header).kind = .data := by
      show kindOf (m :: ms).length = .data
      unfold kindOf kEndOfSession
      rw [if_neg (by simp), if_neg (by omega)]
    rw [if_pos hkind, hdrop, blocks_eq_ok.mpr ⟨rfl, hms, rfl⟩]

theorem forEachMessage_control (session : Session) (first : UInt64) {count : Nat} (hcount : count < 2 ^ 16)
    (hkind : kindOf count ≠ .data) :
    forEachMessage (packetBytes session first count []) = .ok (⟨session.chars, first.toNat, count⟩, []) := by
  have htile : Be.Tiles 0 (headerFields session first count) := by simp [headerFields, Be.Tiles, session.size_eq]
  have hbytes : Be.bytes (headerFields session first count) = packetBytes session first count [] := by
    simp [headerFields, packetBytes]
  have hlen : (packetBytes session first count []).length = kHeaderSize := length_packetBytes session first count []
  have hparse : parseHeader (packetBytes session first count []) = .ok ⟨session.chars, first.toNat, count⟩ := by
    unfold parseHeader kSessionSize
    rw [if_neg (by omega), ← hbytes, Be.slice_field htile (by simp [headerFields]) session.size_eq,
      Be.loadAt_field htile (by simp [headerFields]) first.toNat_lt,
      Be.loadAt_field htile (by simp [headerFields]) hcount]
  unfold forEachMessage
  rw [hparse]
  dsimp only
  rw [if_neg (by exact hkind), if_pos hlen]

end

/-! ## Rebuilding an accepted packet -/

theorem closed_add (b : PacketBuilder) (message : List Byte) : (b.add message).1.closed = b.closed := by
  unfold PacketBuilder.add
  split_ifs <;> rfl

/-- A builder is sealed exactly by the first `finish`. -/
theorem closed_run {buffer : List Byte} (h : kHeaderSize ≤ buffer.length) (session : Session) (first : UInt64)
    (calls : List BuilderCall) :
    ((PacketBuilder.create buffer session first).run calls).1.closed = true ↔ BuilderCall.finish ∈ calls := by
  induction calls using List.reverseRecOn with
  | nil => exact iff_of_false Bool.noConfusion List.not_mem_nil
  | append_singleton calls call ih =>
    have hb := Built.run h session first calls
    unfold PacketBuilder.run at ih hb ⊢
    rw [List.foldl_append, List.mem_append, List.mem_singleton]
    generalize List.foldl PacketBuilder.apply (PacketBuilder.create buffer session first, []) calls = st at ih hb
    cases call with
    | add message =>
      show (st.1.add message).1.closed = true ↔ _
      rw [closed_add, ih]
      simp
    | finish =>
      show st.1.finish.1.closed = true ↔ _
      exact iff_of_true hb.finish.2.1 (.inr rfl)

/-- Messages that all fit are all taken. -/
theorem Built.add_all {room : Nat} {session : Session} {first : UInt64} {ms : List (List Byte)} {b : PacketBuilder}
    (h : Built room session first ms b) (hopen : b.closed = false) (qs : List (List Byte))
    (hsmall : ∀ m ∈ qs, m.length < 2 ^ 16) (hfew : ms.length + qs.length ≤ kMaxMessageCount)
    (hroom : 20 + ((ms ++ qs).flatMap frame).length ≤ room) :
    ((qs.map BuilderCall.add).foldl PacketBuilder.apply (b, ms)).2 = ms ++ qs ∧
      Built room session first (ms ++ qs) ((qs.map BuilderCall.add).foldl PacketBuilder.apply (b, ms)).1 := by
  induction qs generalizing b ms with
  | nil =>
    rw [List.append_nil]
    exact ⟨rfl, h⟩
  | cons m qs ih =>
    have hm : m.length < 65536 := hsmall m List.mem_cons_self
    have hfew : ms.length + (qs.length + 1) ≤ 65534 := hfew
    rw [List.append_cons] at hroom ⊢
    have htaken : (b.add m).2 = true := by
      by_contra hn
      have hsize := h.size
      rcases (h.add_refused m).mp (by simpa using hn) with h' | h' | h' | h'
      · omega
      · rw [List.flatMap_append, List.flatMap_append, List.flatMap_singleton, List.length_append, List.length_append,
          Framing.length_frame] at hroom
        omega
      · omega
      · rw [hopen] at h'
        cases h'
    have hnext := h.add_taken htaken
    rw [List.map_cons, List.foldl_cons]
    have hstep : PacketBuilder.apply (b, ms) (.add m) = ((b.add m).1, ms ++ [m]) := by
      show ((b.add m).1, if (b.add m).2 then ms ++ [m] else ms) = _
      rw [htaken]
      rfl
    rw [hstep]
    exact ih hnext ((closed_add b m).trans hopen) (fun q hq => hsmall q (List.mem_cons_of_mem _ hq))
      (by rw [List.length_append, List.length_singleton]; show _ ≤ 65534; omega) hroom

theorem header_split {p : List Byte} (h : kHeaderSize ≤ p.length) :
    p = slice p 0 10 ++ store 8 (loadAt p 10 8) ++ store 2 (loadAt p 18 2) ++ p.drop 20 := by
  have h : 20 ≤ p.length := h
  rw [Be.store_loadAt (by omega), Be.store_loadAt (by omega)]
  have h₂ : slice p 18 2 ++ p.drop 20 = p.drop 18 := by
    have := List.take_append_drop 2 (p.drop 18)
    rwa [List.drop_drop] at this
  have h₁ : slice p 10 8 ++ p.drop 18 = p.drop 10 := by
    have := List.take_append_drop 8 (p.drop 10)
    rwa [List.drop_drop] at this
  rw [List.append_assoc, List.append_assoc, h₂, h₁]
  exact (List.take_append_drop 10 p).symm

/-- The session and the sequence number of a packet's header. -/
def sessionOf (p : List Byte) (h : kHeaderSize ≤ p.length) : Session :=
  ⟨slice p 0 10, Be.length_slice (by have : 20 ≤ p.length := h; omega)⟩

def sequenceOf (p : List Byte) : UInt64 := UInt64.ofNat (loadAt p 10 8)

theorem toNat_sequenceOf (p : List Byte) : (sequenceOf p).toNat = loadAt p 10 8 := by
  unfold sequenceOf
  rw [UInt64.toNat_ofNat']
  exact Nat.mod_eq_of_lt (Be.loadAt_lt p 10 8)

theorem eq_packetBytes {p : List Byte} (h : kHeaderSize ≤ p.length) {ms : List (List Byte)}
    (hms : p.drop kHeaderSize = ms.flatMap frame) :
    p = packetBytes (sessionOf p h) (sequenceOf p) (loadAt p 18 2) ms := by
  unfold packetBytes
  rw [toNat_sequenceOf, ← hms]
  exact header_split h

/-! ## The codec -/

/-- A count that announces no blocks. -/
def IsControl (count : Nat) : Prop := count = 0 ∨ count = 65535

theorem kindOf_data {count : Nat} : kindOf count = .data ↔ ¬IsControl count := by
  unfold kindOf IsControl kEndOfSession
  split_ifs with h₀ h₁
  · simp [h₀]
  · simp [h₁]
  · simp [h₀, h₁]

/-- What a call answers, in terms of the bytes of the packet. -/
structure Answers (p : List Byte) (w : PacketWalk) : Prop where
  known : w.status = none ∨ w.status = some .truncated ∨ w.status = some .badLength
  accepted : w.status = none ↔ 20 ≤ p.length ∧
    ((IsControl (loadAt p 18 2) ∧ p.length = 20) ∨
      (¬IsControl (loadAt p 18 2) ∧ ∃ ms : List (List Byte), ms.length = loadAt p 18 2 ∧
        (∀ m ∈ ms, m.length < 2 ^ 16) ∧ p.drop 20 = ms.flatMap frame))
  truncated : w.status = some .truncated ↔ p.length < 20 ∨
    (¬IsControl (loadAt p 18 2) ∧ ∃ (ms : List (List Byte)) (rest : List Byte), ms.length < loadAt p 18 2 ∧
      (∀ m ∈ ms, m.length < 2 ^ 16) ∧ p.drop 20 = ms.flatMap frame ++ rest ∧ Unfinished rest)
  badLength : w.status = some .badLength ↔ 20 ≤ p.length ∧
    ((IsControl (loadAt p 18 2) ∧ p.length ≠ 20) ∨
      (¬IsControl (loadAt p 18 2) ∧ ∃ (ms : List (List Byte)) (rest : List Byte), ms.length = loadAt p 18 2 ∧
        (∀ m ∈ ms, m.length < 2 ^ 16) ∧ p.drop 20 = ms.flatMap frame ++ rest ∧ rest ≠ []))
  silent : w.status ≠ none → w.calls = []

/-- The packet comes back from what was delivered of it. -/
def Rebuilds (p : List Byte) (h : Header) (calls : List (Nat × List Byte)) : Prop :=
  ∃ (session : Session) (first : UInt64), session.chars = h.session ∧ first.toNat = h.sequence ∧
    ∀ buffer : List Byte, p.length ≤ buffer.length →
      match h.kind with
      | .data =>
        let st := (PacketBuilder.create buffer session first).run (calls.map fun c => .add c.2)
        st.2 = calls.map Prod.snd ∧ st.1.finish.2 = p
      | .heartbeat => (writeHeartbeat buffer session first).1.take (writeHeartbeat buffer session first).2 = p
      | .endOfSession => (writeEndOfSession buffer session first).1.take (writeEndOfSession buffer session first).2 = p

theorem parseHeader_ok {p : List Byte} (h : kHeaderSize ≤ p.length) :
    parseHeader p = .ok ⟨slice p 0 kSessionSize, loadAt p 10 8, loadAt p 18 2⟩ := by
  unfold parseHeader
  rw [if_neg (not_lt.mpr h)]

/-- What `forEachMessage` answers about a packet with a header. -/
theorem forEachMessage_eq {p : List Byte} (h : kHeaderSize ≤ p.length) :
    (IsControl (loadAt p 18 2) ∧ forEachMessage p =
      if p.length = 20 then .ok (⟨slice p 0 10, loadAt p 10 8, loadAt p 18 2⟩, []) else .error .badLength) ∨
    (¬IsControl (loadAt p 18 2) ∧ forEachMessage p =
      match blocks (loadAt p 18 2) (p.drop 20) with
      | .error e => .error e
      | .ok ms => .ok (⟨slice p 0 10, loadAt p 10 8, loadAt p 18 2⟩, numbered (loadAt p 10 8) ms)) := by
  unfold forEachMessage
  rw [parseHeader_ok h]
  dsimp only
  have hkind : (⟨slice p 0 kSessionSize, loadAt p 10 8, loadAt p 18 2⟩ : Header).kind = .data ↔
      ¬IsControl (loadAt p 18 2) := kindOf_data
  by_cases hc : IsControl (loadAt p 18 2)
  · refine .inl ⟨hc, ?_⟩
    rw [if_neg fun hk => hkind.mp hk hc]
    rfl
  · refine .inr ⟨hc, ?_⟩
    rw [if_pos (hkind.mpr hc)]
    rfl

theorem statusOf_eq {α : Type} (r : Except DecodeError α) :
    (statusOf r = none ↔ ∃ a, r = .ok a) ∧ ∀ e, statusOf r = some e ↔ r = .error e := by
  cases r with
  | ok a => simp [statusOf]
  | error e => simp [statusOf]

theorem answers_walk (p : List Byte) : ∃ w, walkPacket p = some w ∧ Answers p w := by
  refine ⟨_, walkPacket_eq p, ?_⟩
  by_cases hlen : kHeaderSize ≤ p.length
  · have h20 : 20 ≤ p.length := hlen
    rcases forEachMessage_eq hlen with ⟨hc, hf⟩ | ⟨hc, hf⟩
    · rw [hf]
      by_cases hl : p.length = 20
      · rw [if_pos hl]
        exact ⟨.inl rfl, by simp [hc, hl], by simp [hc, hl], by simp [hc, hl], by simp⟩
      · rw [if_neg hl]
        exact ⟨.inr (.inr rfl), by simp [hc, hl], by simp [hc]; omega, by simp [hc, hl, h20], by simp⟩
    · have hstatus := statusOf_eq (blocks (loadAt p 18 2) (p.drop 20))
      have hholds := holds_blocks (loadAt p 18 2) (p.drop 20)
      have hshort : ¬p.length < 20 := not_lt.mpr h20
      suffices h : ∀ w : PacketWalk, w.status = statusOf (blocks (loadAt p 18 2) (p.drop 20)) →
          (w.status ≠ none → w.calls = []) → Answers p w by
        refine h _ ?_ ?_
        · rw [hf]
          cases blocks (loadAt p 18 2) (p.drop 20) with
          | ok ms => rfl
          | error e => rfl
        · rw [hf]
          cases blocks (loadAt p 18 2) (p.drop 20) with
          | ok ms => exact fun hn => absurd rfl hn
          | error e => exact fun _ => rfl
      intro w hw hsilent
      refine ⟨?_, ?_, ?_, ?_, hsilent⟩
      · rw [hw]
        generalize blocks (loadAt p 18 2) (p.drop 20) = r at hholds
        cases hholds with
        | exact ms => exact .inl rfl
        | short ms => exact .inr (.inl rfl)
        | long ms => exact .inr (.inr rfl)
      · rw [hw, hstatus.1]
        simp only [blocks_eq_ok, hc, h20, true_and, false_and, false_or, not_false_eq_true]
      · rw [hw, hstatus.2, blocks_eq_truncated]
        simp only [hc, hshort, false_or, not_false_eq_true, true_and]
      · rw [hw, hstatus.2, blocks_eq_badLength]
        simp only [hc, h20, false_and, false_or, not_false_eq_true, true_and]
  · have hshort : p.length < 20 := not_le.mp hlen
    have hn : ¬20 ≤ p.length := hlen
    have hf : forEachMessage p = .error .truncated := by
      unfold forEachMessage parseHeader
      rw [if_pos (not_le.mp hlen)]
    rw [hf]
    exact ⟨.inr (.inl rfl), by simp [hn], by simp [hshort], by simp [hn], by simp⟩

theorem rebuilds_accepted {p : List Byte} {h : Header} {calls : List (Nat × List Byte)}
    (hok : forEachMessage p = .ok (h, calls)) : Rebuilds p h calls := by
  have hlen : kHeaderSize ≤ p.length := by
    by_contra hn
    unfold forEachMessage parseHeader at hok
    rw [if_pos (not_le.mp hn)] at hok
    cases hok
  have hheader : ∀ {count : Nat} {buffer : List Byte}, p.length = 20 → loadAt p 18 2 = count →
      p.length ≤ buffer.length →
      (writeHeader buffer (sessionOf p hlen) (sequenceOf p) count).1.take
        (writeHeader buffer (sessionOf p hlen) (sequenceOf p) count).2 = p := by
    intro count buffer hl hcount hbuf
    rw [writeHeader_eq _ _ _ (hlen.trans hbuf)]
    have hnone : p.drop kHeaderSize = ([] : List (List Byte)).flatMap frame := List.drop_eq_nil_of_le hl.le
    have hp := eq_packetBytes hlen hnone
    rw [hcount] at hp
    rw [List.take_left' (by rw [length_packetBytes]; rfl)]
    exact hp.symm
  rcases forEachMessage_eq hlen with ⟨hc, hf⟩ | ⟨hc, hf⟩
  · rw [hok] at hf
    split_ifs at hf with hl
    obtain ⟨rfl, rfl⟩ := Prod.mk.inj (Except.ok.inj hf)
    refine ⟨sessionOf p hlen, sequenceOf p, rfl, toNat_sequenceOf p, fun buffer hbuf => ?_⟩
    rcases hc with hc | hc
    · have hk : (⟨slice p 0 10, loadAt p 10 8, loadAt p 18 2⟩ : Header).kind = .heartbeat := by
        show kindOf (loadAt p 18 2) = .heartbeat
        rw [hc]
        rfl
      rw [hk]
      exact hheader hl hc hbuf
    · have hk : (⟨slice p 0 10, loadAt p 10 8, loadAt p 18 2⟩ : Header).kind = .endOfSession := by
        show kindOf (loadAt p 18 2) = .endOfSession
        rw [hc]
        rfl
      rw [hk]
      exact hheader hl hc hbuf
  · rw [hok] at hf
    split at hf
    · cases hf
    · rename_i ms hb
      obtain ⟨rfl, rfl⟩ := Prod.mk.inj (Except.ok.inj hf)
      obtain ⟨hcount, hsmall, hdrop⟩ := blocks_eq_ok.mp hb
      have hp := eq_packetBytes hlen hdrop
      have hplen := congrArg List.length hp
      rw [length_packetBytes] at hplen
      have hk : (⟨slice p 0 10, loadAt p 10 8, loadAt p 18 2⟩ : Header).kind = .data := kindOf_data.mpr hc
      refine ⟨sessionOf p hlen, sequenceOf p, rfl, toNat_sequenceOf p, fun buffer hbuf => ?_⟩
      rw [hk]
      have hfew : ms.length ≤ kMaxMessageCount := by
        have hlt := Be.loadAt_lt p 18 2
        have hne : loadAt p 18 2 ≠ 65535 := fun h => hc (.inr h)
        show ms.length ≤ 65534
        omega
      have hsnd : ∀ (seq : Nat) (ms : List (List Byte)), (numbered seq ms).map Prod.snd = ms := by
        intro seq ms
        induction ms generalizing seq with
        | nil => rfl
        | cons m ms ih => rw [numbered, List.map_cons, ih]
      have hcreate : Built buffer.length (sessionOf p hlen) (sequenceOf p) []
          (.create buffer (sessionOf p hlen) (sequenceOf p)) := built_create (hlen.trans hbuf)
      obtain ⟨htaken, hbuilt⟩ := hcreate.add_all rfl ms hsmall (by rw [List.length_nil, Nat.zero_add]; exact hfew)
        (by rw [List.nil_append]; omega)
      have hcalls : ((numbered (loadAt p 10 8) ms).map fun c => BuilderCall.add c.2) = ms.map BuilderCall.add := by
        rw [← hsnd (loadAt p 10 8) ms, List.map_map, hsnd]
        rfl
      unfold PacketBuilder.run
      rw [hcalls, hsnd]
      refine ⟨htaken, ?_⟩
      rw [hbuilt.finish.2.2, List.nil_append, hcount]
      exact hp.symm

/-- **The packet codec.** Whatever is done with a builder over a buffer with room for the header, the
packet it finishes is accepted and delivers exactly the messages it took, numbered from `first` on; a
refused message leaves it unchanged, and one is refused exactly when it is too long, does not fit, or the
packet is full or sealed. Every packet that is accepted is rebuilt byte for byte from what it delivers,
and the status of every packet is a matter of its header and its blocks. -/
theorem mold64_packet_codec :
    (∀ (buffer : List Byte) (session : Session) (first : UInt64) (calls : List BuilderCall), 20 ≤ buffer.length →
      let st := (PacketBuilder.create buffer session first).run calls
      walkPacket st.1.finish.2 =
        some ⟨none, some ⟨session.chars, first.toNat, st.2.length⟩,
          st.2.mapIdx fun i m => ((first.toNat + i) % 2 ^ 64, m)⟩ ∧
      ∀ message, ((st.1.add message).2 = false → (st.1.add message).1 = st.1) ∧
        ((st.1.add message).2 = false ↔
          65535 < message.length ∨ buffer.length < st.1.finish.2.length + (2 + message.length) ∨
          st.2.length = 65534 ∨ BuilderCall.finish ∈ calls)) ∧
    (∀ p h calls, walkPacket p = some ⟨none, some h, calls⟩ → Rebuilds p h calls) ∧
    ∀ p, ∃ w, walkPacket p = some w ∧ Answers p w := by
  refine ⟨fun buffer session first calls hroom => ?_, fun p h calls hw => ?_, answers_walk⟩
  · have hb := Built.run hroom session first calls
    have hclosed := closed_run hroom session first calls
    generalize (PacketBuilder.create buffer session first).run calls = st at hb hclosed
    obtain ⟨_, _, hfin⟩ := hb.finish
    refine ⟨?_, fun message => ⟨add_refused_unchanged st.1, ?_⟩⟩
    · rw [hfin, walkPacket_eq, forEachMessage_packetBytes session first hb.few hb.small,
        numbered_eq_mapIdx first.toNat_lt]
    · rw [hb.add_refused message, hfin, length_packetBytes, ← hb.size, hclosed]
  · rw [walkPacket_eq] at hw
    split at hw
    · rename_i h' ms hf
      cases hw
      exact rebuilds_accepted hf
    · cases hw

def blankSession : Session := ⟨List.replicate 10 (ascii ' '), by simp⟩

/-- Three messages offered to a buffer of 26 bytes: the second does not fit, the last comes after `finish`. -/
def offeredCalls : List BuilderCall := [.add [1, 2], .add [3], .add [], .finish, .add []]

/-- The numbers run over the end of 64 bits. -/
theorem mold64_packet_codec_wraps :
    (walkPacket ((PacketBuilder.create (List.replicate 26 7) blankSession 18446744073709551615).run
      offeredCalls).1.finish.2).map PacketWalk.calls = some [(18446744073709551615, [1, 2]), (0, [])] := by
  rw [(mold64_packet_codec.1 (List.replicate 26 7) blankSession 18446744073709551615 offeredCalls (by decide)).1]
  rfl

end OptiTrade.Net
