import OptiTrade.Foundations.Framing
import OptiTrade.Itch.RoundTrip

/-! # Streams of ITCH messages

Messages behind their lengths, as a file of the feed holds them. -/

namespace OptiTrade.Itch
set_option autoImplicit false

open Be (store bytes)
open Framing (StreamResult)

/-- Decodes every complete frame; one bad message never costs its neighbours. -/
def decodeStream (buf : List Byte) : Option (StreamResult Message DecodeError) := Framing.deframe decode buf

/-- The message behind its length; 0 and the buffer untouched on failure. -/
def encodeFramed (m : Message) (out : List Byte) : List Byte × Nat :=
  if out.length < 2 then (out, 0)
  else
    let r := encode m (out.drop 2)
    if r.2 = 0 then (out.take 2 ++ r.1, 0) else (Be.put (out.take 2 ++ r.1) 0 (store 2 r.2), 2 + r.2)

theorem wireLength_lt (m : Message) : m.wireLength < 2 ^ 16 := by
  rw [← m.messageLength_type]
  unfold messageLength
  split_ifs <;> decide

/-- The bytes that `encode_framed` reports as written are the frame of the message. -/
theorem take_encodeFramed {m : Message} {out : List Byte} (ht : m.Typed) (he : m.Encodable)
    (hout : m.wireLength + 2 ≤ out.length) :
    (encodeFramed m out).1.take (encodeFramed m out).2 = Framing.frame (bytes m.fields) := by
  have hlen : (bytes m.fields).length = m.wireLength := by rw [Be.length_bytes, Message.span_fields ht]
  have hwrite : encode m (out.drop 2) = (bytes m.fields ++ (out.drop 2).drop m.wireLength, m.wireLength) := by
    rw [encode_eq_emit]
    exact Be.emit_written (by rw [List.length_drop]; omega) (fits_of_encodable he) (Message.tiles_fields ht)
      (Message.span_fields ht)
  have hpos := m.wireLength_pos
  have htake : (out.take 2).length = 2 := by
    rw [List.length_take]
    omega
  unfold encodeFramed
  rw [if_neg (by omega), hwrite]
  dsimp only
  rw [if_neg hpos.ne']
  unfold Be.put Framing.frame
  rw [Be.length_store, List.take_zero, List.nil_append, Nat.zero_add, List.drop_left' htake, hlen, ← List.append_assoc]
  exact List.take_left' (by simp [hlen])

end OptiTrade.Itch
