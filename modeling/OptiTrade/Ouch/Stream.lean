import Mathlib.Data.List.Basic
import OptiTrade.Itch.Stream
import OptiTrade.Ouch.RoundTrip

/-! # Streams of order-entry messages

Both directions of a session, and what holds of every stream decoder of the library. -/

namespace OptiTrade.Ouch
set_option autoImplicit false

open Be (store bytes)
open Framing (StreamResult StreamOk)

/-- The messages of a stream, each behind its length. -/
def decodeInboundStream (buf : List Byte) : Option (StreamResult Inbound DecodeError) := Framing.deframe decodeInbound buf

def decodeOutboundStream (buf : List Byte) : Option (StreamResult Outbound DecodeError) :=
  Framing.deframe decodeOutbound buf

theorem emitFramed_take {out : List Byte} {len : Nat} {fits : Bool} {fs : Be.Fields} (hlen : len + 2 ≤ out.length)
    (hfits : fits = true) (ht : Be.Tiles 0 fs) (hs : Be.span fs = len) :
    (emitFramed out len fits fs).1.take (emitFramed out len fits fs).2 = Framing.frame (bytes fs) := by
  rw [emitFramed_written hlen hfits ht hs]
  unfold Framing.frame
  rw [Be.length_bytes, hs]
  exact List.take_left' (by simp [hs, Nat.add_comm 2])

/-- A list of messages, each written into a buffer with room for its frame, comes back from the stream. -/
def Inverts {M : Type} (stream : List Byte → Option (StreamResult M DecodeError))
    (encodeFramed : M → List Byte → List Byte × Nat) (wireLength : M → Nat) (Good : M → Prop) : Prop :=
  ∀ ms : List (M × List Byte), (∀ p ∈ ms, Good p.1 ∧ wireLength p.1 + 2 ≤ p.2.length) →
    stream (ms.flatMap fun p => (encodeFramed p.1 p.2).1.take (encodeFramed p.1 p.2).2) =
      some
        { consumed := (ms.flatMap fun p => (encodeFramed p.1 p.2).1.take (encodeFramed p.1 p.2).2).length
          delivered := ms.map Prod.fst
          messages := ms.length
          skipped := 0
          lastError := none }

theorem inverts_of_frames {M : Type} {decode : List Byte → Except DecodeError M}
    {encodeFramed : M → List Byte → List Byte × Nat} {wireLength : M → Nat} {Good : M → Prop} (record : M → List Byte)
    (hbytes : ∀ m out, Good m → wireLength m + 2 ≤ out.length →
      (encodeFramed m out).1.take (encodeFramed m out).2 = Framing.frame (record m))
    (hlen : ∀ m, Good m → (record m).length < 2 ^ 16) (hdec : ∀ m, Good m → decode (record m) = .ok m) :
    Inverts (Framing.deframe decode) encodeFramed wireLength Good := by
  intro ms hms
  have hflat : (ms.flatMap fun p => (encodeFramed p.1 p.2).1.take (encodeFramed p.1 p.2).2) =
      (ms.map fun p => (p.1, record p.1)).flatMap fun p => Framing.frame p.2 := by
    rw [List.flatMap_map]
    exact List.flatMap_congr fun p hp => hbytes p.1 p.2 (hms p hp).1 (hms p hp).2
  rw [hflat, Framing.deframe_frames decode]
  · simp
  · intro p hp
    obtain ⟨q, hq, rfl⟩ := List.mem_map.mp hp
    exact hlen q.1 (hms q hq).1
  · intro p hp
    obtain ⟨q, hq, rfl⟩ := List.mem_map.mp hp
    exact hdec q.1 (hms q hq).1

/-- **Stream decoding is chunk invariant and inverts framing**, for the feed and for both directions of a
session. -/
theorem stream_decoding_inverts_framing :
    (StreamOk Itch.decode Itch.decodeStream ∧ StreamOk decodeInbound decodeInboundStream ∧
      StreamOk decodeOutbound decodeOutboundStream) ∧
    Inverts Itch.decodeStream Itch.encodeFramed Itch.Message.wireLength (fun m => m.Typed ∧ m.Encodable) ∧
    Inverts decodeInboundStream encodeInboundFramed Inbound.wireLength
      (fun m => m.Typed ∧ m.Encodable ∧ OnWire m.wirePrice) ∧
    Inverts decodeOutboundStream encodeOutboundFramed Outbound.wireLength
      (fun m => m.Typed ∧ m.Encodable ∧ OnWire m.wirePrice) := by
  refine ⟨⟨Framing.streamOk_deframe _, Framing.streamOk_deframe _, Framing.streamOk_deframe _⟩, ?_, ?_, ?_⟩
  · refine inverts_of_frames (fun m => bytes m.fields) (fun m out hg hout => Itch.take_encodeFramed hg.1 hg.2 hout)
      (fun m hg => ?_) (fun m hg => Itch.decode_fields hg.1 hg.2)
    rw [Be.length_bytes, Itch.Message.span_fields hg.1]
    exact Itch.wireLength_lt m
  · refine inverts_of_frames (fun m => bytes m.fields)
      (fun m out hg hout => emitFramed_take hout ((fitsWirePrice_iff _).mpr hg.2.2) m.tiles_fields m.span_fields)
      (fun m hg => ?_) (fun m hg => decodeInbound_fields hg.1 hg.2.1 hg.2.2)
    rw [Be.length_bytes, m.span_fields, ← m.inboundLength_type]
    unfold inboundLength
    split_ifs <;> decide
  · refine inverts_of_frames (fun m => bytes m.fields)
      (fun m out hg hout => emitFramed_take hout ((fitsWirePrice_iff _).mpr hg.2.2) m.tiles_fields m.span_fields)
      (fun m hg => ?_) (fun m hg => decodeOutbound_fields hg.1 hg.2.1 hg.2.2)
    rw [Be.length_bytes, m.span_fields, ← m.outboundLength_type]
    unfold outboundLength
    split_ifs <;> decide

/-- An unknown frame and a system event, cut inside both lengths and inside the event. -/
def cutStream : List (List Byte) :=
  [[0], [1, ascii '?', 0], [12, ascii 'S', 0, 7, 0], [], [0, 0, 0, 0, 0, 0, 9, ascii 'O', 0]]

/-- The event is delivered, the unknown frame counted and the first byte of the next length kept. -/
theorem stream_decoding_inverts_framing_cut :
    (Framing.feedAll Itch.decodeStream cutStream).map (fun st => (st.1.delivered, st.1.skipped, st.2)) =
      some ([.systemEvent { h := ⟨7, 0, 9⟩, eventCode := ascii 'O' }], 1, [0]) := by
  rw [stream_decoding_inverts_framing.1.1.chunks]
  decide +kernel

end OptiTrade.Ouch
