import OptiTrade.Foundations.Bytes
import OptiTrade.Itch.Decoder

/-! # MoldUDP64 packets and loss detection -/

namespace OptiTrade.Net
set_option autoImplicit false

open Be (loadAt slice)

def kHeaderSize : Nat := 20
def kSessionSize : Nat := 10
def kEndOfSession : Nat := 65535

/-- What a packet is for. -/
inductive Kind
  | data
  | heartbeat
  | endOfSession
  deriving DecidableEq

def kindOf (count : Nat) : Kind :=
  if count = 0 then .heartbeat else if count = kEndOfSession then .endOfSession else .data

/-- The header of a downstream packet. -/
structure Header where
  session : List Byte
  /-- Of the first message in the packet. -/
  sequence : Nat
  count : Nat

def Header.kind (h : Header) : Kind := kindOf h.count

/-- A packet shorter than a header has none. -/
def parseHeader (p : List Byte) : Except DecodeError Header :=
  if p.length < kHeaderSize then .error .truncated
  else .ok ⟨slice p 0 kSessionSize, loadAt p 10 8, loadAt p 18 2⟩

/-- The `n` message blocks that make up the bytes. -/
def blocks : Nat → List Byte → Except DecodeError (List (List Byte))
  | 0, p => if p.isEmpty then .ok [] else .error .badLength
  | n + 1, p =>
    if p.length < 2 then .error .truncated
    else if p.length - 2 < loadAt p 0 2 then .error .truncated
    else
      match blocks n (p.drop (2 + loadAt p 0 2)) with
      | .ok ms => .ok (slice p 2 (loadAt p 0 2) :: ms)
      | .error e => .error e

/-- The messages with their sequence numbers, from `seq` on. -/
def numbered : Nat → List (List Byte) → List (Nat × List Byte)
  | _, [] => []
  | seq, m :: ms => (seq, m) :: numbered (add64 seq 1) ms

/-- The header and the messages in wire order. A packet that is not valid to its end has none. -/
def forEachMessage (p : List Byte) : Except DecodeError (Header × List (Nat × List Byte)) :=
  match parseHeader p with
  | .error e => .error e
  | .ok h =>
    if h.kind = .data then
      match blocks h.count (p.drop kHeaderSize) with
      | .error e => .error e
      | .ok ms => .ok (h, numbered h.sequence ms)
    else if p.length = kHeaderSize then .ok (h, [])
    else .error .badLength

theorem length_blocks {n : Nat} {p : List Byte} {ms : List (List Byte)} (h : blocks n p = .ok ms) : ms.length = n := by
  induction n generalizing p ms with
  | zero =>
    unfold blocks at h
    split_ifs at h
    injection h with h
    rw [← h]
    rfl
  | succ n ih =>
    unfold blocks at h
    split_ifs at h
    split at h
    · rename_i ms' hms
      injection h with h
      rw [← h, List.length_cons, ih hms]
    · cases h

theorem forEachMessage_ok {p : List Byte} {h : Header} {ms : List (Nat × List Byte)}
    (hp : forEachMessage p = .ok (h, ms)) :
    (h.kind = .data ∧ ∃ bs, bs.length = h.count ∧ ms = numbered h.sequence bs) ∨ (h.kind ≠ .data ∧ ms = []) := by
  unfold forEachMessage at hp
  split at hp
  · cases hp
  · rename_i h' _
    split_ifs at hp with hk
    · split at hp
      · cases hp
      · rename_i bs hbs
        obtain ⟨rfl, rfl⟩ := Prod.mk.inj (Except.ok.inj hp)
        exact .inl ⟨hk, bs, length_blocks hbs, rfl⟩
    · obtain ⟨rfl, rfl⟩ := Prod.mk.inj (Except.ok.inj hp)
      exact .inr ⟨hk, rfl⟩

/-! ## Loss detection -/

/-- How a packet lies to what was expected. -/
inductive SequenceResult
  | inOrder
  | gap
  | duplicate
  | sessionChanged
  deriving DecidableEq

/-- What the tracker says of a packet. -/
structure SequenceCheck where
  result : SequenceResult := .inOrder
  /-- What the tracker was waiting for. -/
  expected : Nat
  received : Nat
  missing : Nat := 0

/-- Where the receiver is in its session, and what it has missed. -/
structure SequenceTracker where
  session : List Byte := []
  expected : Nat := 0
  gaps : Nat := 0
  missing : Nat := 0
  duplicates : Nat := 0
  synced : Bool := false

namespace SequenceTracker

/-- Only real messages advance the sequence. -/
def advance (h : Header) : Nat := if h.kind = .data then h.count else 0

/-- One packet; the first one sets the session and the place in it. -/
def onPacket (t : SequenceTracker) (h : Header) : SequenceTracker × SequenceCheck :=
  let last := add64 h.sequence (advance h)
  if t.synced = false then
    ({ t with synced := true, session := h.session, expected := last }, { expected := h.sequence, received := h.sequence })
  else if h.session ≠ t.session then
    ({ t with session := h.session, expected := last },
      { result := .sessionChanged, expected := t.expected, received := h.sequence })
  else if h.sequence = t.expected then
    ({ t with expected := last }, { expected := t.expected, received := h.sequence })
  else if t.expected < h.sequence then
    let missing := h.sequence - t.expected
    ({ t with expected := last, gaps := t.gaps + 1, missing := saturatingAdd t.missing missing },
      { result := .gap, expected := t.expected, received := h.sequence, missing := missing })
  else
    ({ t with expected := if t.expected < last then last else t.expected, duplicates := t.duplicates + 1 },
      { result := .duplicate, expected := t.expected, received := h.sequence })

/-- What a packet of the session the tracker follows does: `last` is one past its last message. -/
inductive Tracks (t : SequenceTracker) (h : Header) (last : Nat) (t' : SequenceTracker) (chk : SequenceCheck) : Prop
  | first : t.synced = false → chk.result = .inOrder → t'.expected = last → Tracks t h last t' chk
  | inOrder : t.synced = true → h.sequence = t.expected → chk.result = .inOrder → t'.expected = last →
      Tracks t h last t' chk
  | gap : t.synced = true → t.expected < h.sequence → chk.result = .gap → t'.expected = last → Tracks t h last t' chk
  | duplicate : t.synced = true → h.sequence < t.expected → chk.result = .duplicate → chk.expected = t.expected →
      t'.expected = max last t.expected → Tracks t h last t' chk

theorem onPacket_tracks {t : SequenceTracker} {h : Header} (hs : t.synced = true → h.session = t.session)
    (hfits : h.sequence + advance h < 2 ^ 64) :
    (t.onPacket h).1.synced = true ∧ (t.onPacket h).1.session = h.session ∧
      Tracks t h (h.sequence + advance h) (t.onPacket h).1 (t.onPacket h).2 := by
  have hlast : add64 h.sequence (advance h) = h.sequence + advance h := add64_eq (by unfold u64Max; omega)
  unfold onPacket
  rw [hlast]
  dsimp only
  by_cases hsync : t.synced = false
  · rw [if_pos hsync]
    exact ⟨rfl, rfl, .first hsync rfl rfl⟩
  · have hsync' : t.synced = true := by simpa using hsync
    rw [if_neg hsync, if_neg (by rw [hs hsync']; simp)]
    by_cases h₁ : h.sequence = t.expected
    · rw [if_pos h₁]
      exact ⟨hsync', (hs hsync').symm, .inOrder hsync' h₁ rfl rfl⟩
    · rw [if_neg h₁]
      by_cases h₂ : t.expected < h.sequence
      · rw [if_pos h₂]
        exact ⟨hsync', (hs hsync').symm, .gap hsync' h₂ rfl rfl⟩
      · rw [if_neg h₂]
        refine ⟨hsync', (hs hsync').symm, .duplicate hsync' (by omega) rfl rfl ?_⟩
        dsimp only
        split_ifs <;> omega

end SequenceTracker
end OptiTrade.Net
