import OptiTrade.Foundations.Layout

/-! # Streams of length-prefixed frames

A frame is a big-endian 16-bit length and that many bytes. `deframe` walks the complete frames of a
buffer and hands each payload to a decoder that accepts or refuses it; what is left is the start of a
frame that has not arrived yet. `Framed` says which payloads and which rest a buffer consists of, and
everything about `deframe` is read off it: the result is the `tally` of the payloads. -/

namespace OptiTrade.Framing
set_option autoImplicit false

open Be (store loadAt slice)

variable {M E : Type}

/-- What one call reports, and the messages that its handler got. -/
structure StreamResult (M E : Type) where
  /-- Bytes covered by complete frames. -/
  consumed : Nat := 0
  delivered : List M := []
  messages : Nat := 0
  /-- Complete frames that were not delivered. -/
  skipped : Nat := 0
  /-- The status of the last skipped frame; `none` is ok. -/
  lastError : Option E := none
  deriving DecidableEq

namespace StreamResult

/-- The report after one more complete frame. -/
def frame (decode : List Byte → Except E M) (r : StreamResult M E) (payload : List Byte) : StreamResult M E :=
  match decode payload with
  | .ok m =>
    { r with
      consumed := r.consumed + (2 + payload.length), delivered := r.delivered ++ [m], messages := r.messages + 1 }
  | .error e =>
    { r with consumed := r.consumed + (2 + payload.length), skipped := r.skipped + 1, lastError := some e }

/-- Two reports, one after the other. -/
def andThen (r s : StreamResult M E) : StreamResult M E :=
  { consumed := r.consumed + s.consumed
    delivered := r.delivered ++ s.delivered
    messages := r.messages + s.messages
    skipped := r.skipped + s.skipped
    lastError := s.lastError.or r.lastError }

theorem andThen_empty (r : StreamResult M E) : r.andThen {} = r := by
  unfold andThen
  simp

theorem andThen_assoc (r s t : StreamResult M E) : (r.andThen s).andThen t = r.andThen (s.andThen t) := by
  unfold andThen
  simp only [Nat.add_assoc, List.append_assoc, Option.or_assoc]

theorem frame_eq_andThen (decode : List Byte → Except E M) (r : StreamResult M E) (payload : List Byte) :
    r.frame decode payload = r.andThen (frame decode {} payload) := by
  unfold frame
  cases decode payload with
  | ok m => simp [andThen]
  | error e => simp [andThen]

@[simp] theorem frame_consumed (decode : List Byte → Except E M) (r : StreamResult M E) (payload : List Byte) :
    (r.frame decode payload).consumed = r.consumed + (2 + payload.length) := by
  unfold frame
  cases decode payload with
  | ok m => rfl
  | error e => rfl

end StreamResult

/-- The loop over the frames; `none` only when the fuel runs out. -/
def deframeFrom (decode : List Byte → Except E M) (buf : List Byte) : Nat → StreamResult M E → Option (StreamResult M E)
  | 0, _ => none
  | fuel + 1, r =>
    if buf.length - r.consumed < 2 then some r
    else if buf.length - r.consumed - 2 < loadAt buf r.consumed 2 then some r
    else deframeFrom decode buf fuel (r.frame decode (slice buf (r.consumed + 2) (loadAt buf r.consumed 2)))

/-- Every complete frame of the buffer; each covers two bytes at least. -/
def deframe (decode : List Byte → Except E M) (buf : List Byte) : Option (StreamResult M E) :=
  deframeFrom decode buf (buf.length / 2 + 1) {}

/-! ## The frames of a buffer -/

/-- A payload behind its length. -/
def frame (payload : List Byte) : List Byte := store 2 payload.length ++ payload

/-- No complete frame starts here. -/
def Unfinished (rest : List Byte) : Prop := rest.length < 2 ∨ rest.length - 2 < loadAt rest 0 2

/-- The buffer consists of the frames of these payloads and an unfinished rest. -/
structure Framed (buf : List Byte) (payloads : List (List Byte)) (rest : List Byte) : Prop where
  split : buf = payloads.flatMap frame ++ rest
  fits : ∀ p ∈ payloads, p.length < 2 ^ 16
  unfinished : Unfinished rest

theorem length_frame (payload : List Byte) : (frame payload).length = 2 + payload.length := by simp [frame]

theorem loadAt_frame {payload rest : List Byte} (h : payload.length < 2 ^ 16) :
    loadAt (frame payload ++ rest) 0 2 = payload.length := by
  unfold loadAt frame
  rw [List.append_assoc, Be.slice_append_left (Be.length_store 2 _), Be.load_store_of_lt h]

theorem slice_frame (payload rest : List Byte) : slice (frame payload ++ rest) 2 payload.length = payload := by
  unfold frame
  rw [List.append_assoc, Be.slice_append_right (Be.length_store 2 _).le, Be.length_store, Be.slice_append_left rfl]

theorem frame_of_complete {buf : List Byte} (h : ¬Unfinished buf) :
    buf = frame (slice buf 2 (loadAt buf 0 2)) ++ buf.drop (2 + loadAt buf 0 2) := by
  obtain ⟨h₂, hlen⟩ := not_or.mp h
  have hpay : (slice buf 2 (loadAt buf 0 2)).length = loadAt buf 0 2 := Be.length_slice (by omega)
  unfold frame
  rw [hpay, Be.store_loadAt (by omega)]
  unfold slice
  rw [List.drop_zero, List.append_assoc, ← List.drop_drop, List.take_append_drop, List.take_append_drop]

theorem exists_framed (buf : List Byte) : ∃ payloads rest, Framed buf payloads rest := by
  induction hn : buf.length using Nat.strongRecOn generalizing buf with
  | ind n ih =>
    by_cases h : Unfinished buf
    · exact ⟨[], buf, rfl, fun p hp => absurd hp List.not_mem_nil, h⟩
    · have hbuf := frame_of_complete h
      obtain ⟨h₂, hlen⟩ := not_or.mp h
      obtain ⟨payloads, rest, hf⟩ := ih (buf.drop (2 + loadAt buf 0 2)).length (by rw [List.length_drop]; omega) _ rfl
      refine ⟨slice buf 2 (loadAt buf 0 2) :: payloads, rest, ?_, ?_, hf.unfinished⟩
      · rw [List.flatMap_cons, List.append_assoc, ← hf.split]
        exact hbuf
      · intro p hp
        rcases List.mem_cons.mp hp with rfl | hp
        · exact (Be.length_slice_le _ _ _).trans_lt (Be.loadAt_lt buf 0 2)
        · exact hf.fits p hp

theorem Framed.length_payloads {buf rest : List Byte} {payloads : List (List Byte)} (h : Framed buf payloads rest) :
    payloads.length ≤ buf.length / 2 := by
  have hall : ∀ ps : List (List Byte), 2 * ps.length ≤ (ps.flatMap frame).length := by
    intro ps
    induction ps with
    | nil => exact Nat.le_refl 0
    | cons p ps ih =>
      rw [List.flatMap_cons, List.length_append, length_frame, List.length_cons]
      omega
  have := hall payloads
  rw [h.split, List.length_append]
  omega

theorem Framed.append {buf rest more rest' : List Byte} {payloads payloads' : List (List Byte)}
    (h : Framed buf payloads rest) (h' : Framed (rest ++ more) payloads' rest') :
    Framed (buf ++ more) (payloads ++ payloads') rest' := by
  refine ⟨?_, fun p hp => ?_, h'.unfinished⟩
  · rw [h.split, List.append_assoc, h'.split, List.flatMap_append, List.append_assoc]
  · rcases List.mem_append.mp hp with hp | hp
    · exact h.fits p hp
    · exact h'.fits p hp

/-! ## What the loop computes -/

/-- The report on a list of payloads. -/
def tally (decode : List Byte → Except E M) (payloads : List (List Byte)) : StreamResult M E :=
  payloads.foldl (StreamResult.frame decode) {}

section
variable (decode : List Byte → Except E M)

theorem foldl_frame (r : StreamResult M E) (payloads : List (List Byte)) :
    payloads.foldl (StreamResult.frame decode) r = r.andThen (tally decode payloads) := by
  induction payloads generalizing r with
  | nil => exact (r.andThen_empty).symm
  | cons p ps ih =>
    have htally : tally decode (p :: ps) = (StreamResult.frame decode {} p).andThen (tally decode ps) := ih _
    rw [List.foldl_cons, ih, htally, r.frame_eq_andThen, StreamResult.andThen_assoc]

theorem tally_cons (p : List Byte) (ps : List (List Byte)) :
    tally decode (p :: ps) = (StreamResult.frame decode {} p).andThen (tally decode ps) := foldl_frame decode _ ps

theorem tally_append (ps qs : List (List Byte)) :
    tally decode (ps ++ qs) = (tally decode ps).andThen (tally decode qs) := by
  unfold tally
  rw [List.foldl_append]
  exact foldl_frame decode _ qs

theorem tally_consumed (payloads : List (List Byte)) :
    (tally decode payloads).consumed = (payloads.flatMap frame).length := by
  induction payloads with
  | nil => rfl
  | cons p ps ih =>
    rw [tally_cons, List.flatMap_cons, List.length_append, length_frame, ← ih]
    simp [StreamResult.andThen]

theorem tally_delivered (payloads : List (List Byte)) :
    (tally decode payloads).delivered = payloads.filterMap fun p => (decode p).toOption := by
  induction payloads with
  | nil => rfl
  | cons p ps ih =>
    rw [tally_cons, List.filterMap_cons]
    cases hd : decode p with
    | ok m => simp [StreamResult.andThen, StreamResult.frame, hd, ih, Except.toOption]
    | error e => simp [StreamResult.andThen, StreamResult.frame, hd, ih, Except.toOption]

theorem deframeFrom_eq {buf : List Byte} {payloads : List (List Byte)} {rest : List Byte} {fuel : Nat}
    {r : StreamResult M E} (h : Framed (buf.drop r.consumed) payloads rest) (hr : r.consumed ≤ buf.length)
    (hfuel : payloads.length < fuel) :
    deframeFrom decode buf fuel r = some (payloads.foldl (StreamResult.frame decode) r) := by
  have hload : loadAt (buf.drop r.consumed) 0 2 = loadAt buf r.consumed 2 := by simp [loadAt, slice]
  have hslice : ∀ w, slice (buf.drop r.consumed) 2 w = slice buf (r.consumed + 2) w := by simp [slice]
  have hlen : (buf.drop r.consumed).length = buf.length - r.consumed := List.length_drop
  cases fuel with
  | zero => cases hfuel
  | succ fuel =>
    unfold deframeFrom
    cases payloads with
    | nil =>
      have hun := h.unfinished
      have hrest : buf.drop r.consumed = rest := by simpa using h.split
      rw [← hrest] at hun
      unfold Unfinished at hun
      rw [hload, hlen] at hun
      by_cases h₂ : buf.length - r.consumed < 2
      · rw [if_pos h₂]
        rfl
      · rw [if_neg h₂, if_pos (hun.resolve_left h₂)]
        rfl
    | cons p ps =>
      have hsplit : buf.drop r.consumed = frame p ++ (ps.flatMap frame ++ rest) := by
        rw [h.split, List.flatMap_cons, List.append_assoc]
      have hp : loadAt buf r.consumed 2 = p.length := by
        rw [← hload, hsplit, loadAt_frame (h.fits p List.mem_cons_self)]
      have htotal : buf.length - r.consumed = 2 + p.length + (ps.flatMap frame ++ rest).length := by
        rw [← hlen, hsplit, List.length_append, length_frame]
      rw [if_neg (by omega), hp, if_neg (by omega), ← hslice, hsplit, slice_frame]
      have hnext : buf.drop (r.frame decode p).consumed = ps.flatMap frame ++ rest := by
        rw [StreamResult.frame_consumed, ← List.drop_drop, hsplit, List.drop_left' (length_frame p)]
      refine deframeFrom_eq ⟨hnext, fun q hq => h.fits q (List.mem_cons_of_mem _ hq), h.unfinished⟩ ?_ ?_
      · rw [StreamResult.frame_consumed]
        omega
      · rw [List.length_cons] at hfuel
        omega
termination_by fuel

/-- **A call reports on exactly the complete frames of its buffer.** -/
theorem deframe_eq {buf rest : List Byte} {payloads : List (List Byte)} (h : Framed buf payloads rest) :
    deframe decode buf = some (tally decode payloads) := by
  have hlen := h.length_payloads
  exact deframeFrom_eq decode (r := {}) h (Nat.zero_le _) (by omega)

theorem Framed.drop_consumed {buf rest : List Byte} {payloads : List (List Byte)} (h : Framed buf payloads rest) :
    buf.drop (tally decode payloads).consumed = rest := by
  rw [tally_consumed, h.split, List.drop_left' rfl]

/-! ## Feeding a stream piece by piece -/

/-- One call on the bytes that the call before left and the next piece. -/
def feedPiece (stream : List Byte → Option (StreamResult M E)) (st : StreamResult M E × List Byte)
    (piece : List Byte) : Option (StreamResult M E × List Byte) :=
  (stream (st.2 ++ piece)).map fun r => (st.1.andThen r, (st.2 ++ piece).drop r.consumed)

/-- The totals over all calls and the bytes still unconsumed. -/
def feedAll (stream : List Byte → Option (StreamResult M E)) (pieces : List (List Byte)) :
    Option (StreamResult M E × List Byte) := pieces.foldlM (feedPiece stream) ({}, [])

theorem foldlM_feedPiece {buf rest : List Byte} {payloads : List (List Byte)} (pieces : List (List Byte))
    (h : Framed buf payloads rest) {payloads' : List (List Byte)} {rest' : List Byte}
    (h' : Framed (buf ++ pieces.flatten) payloads' rest') :
    pieces.foldlM (feedPiece (deframe decode)) (tally decode payloads, rest) =
      some (tally decode payloads', rest') := by
  induction pieces generalizing buf rest payloads with
  | nil =>
    rw [List.flatten_nil, List.append_nil] at h'
    have htally : tally decode payloads = tally decode payloads' :=
      Option.some.inj ((deframe_eq decode h).symm.trans (deframe_eq decode h'))
    have hrest : rest = rest' := by
      rw [← h.drop_consumed decode, ← h'.drop_consumed decode, htally]
    rw [htally, hrest]
    rfl
  | cons piece pieces ih =>
    obtain ⟨qs, t, hq⟩ := exists_framed (rest ++ piece)
    have hnext := h.append hq
    rw [List.flatten_cons, ← List.append_assoc] at h'
    have hfeed : feedPiece (deframe decode) (tally decode payloads, rest) piece =
        some (tally decode (payloads ++ qs), t) := by
      unfold feedPiece
      rw [deframe_eq decode hq, Option.map_some, hq.drop_consumed, tally_append]
    rw [List.foldlM_cons, hfeed]
    exact ih hnext h'

/-- **However a stream is cut, its calls report what one call on the whole reports.** -/
theorem feedAll_eq (pieces : List (List Byte)) :
    feedAll (deframe decode) pieces =
      (deframe decode pieces.flatten).map fun r => (r, pieces.flatten.drop r.consumed) := by
  obtain ⟨ps, rest, h⟩ := exists_framed pieces.flatten
  have hnil : Framed [] [] [] := ⟨rfl, fun p hp => absurd hp List.not_mem_nil, .inl (by decide)⟩
  have hrun := foldlM_feedPiece decode pieces hnil (by rw [List.nil_append]; exact h)
  rw [deframe_eq decode h, Option.map_some, h.drop_consumed]
  exact hrun

end

/-! ## What holds of a stream decoder -/

/-- What makes a decoder of streams right, for any decoder of single messages. -/
structure StreamOk (decode : List Byte → Except E M) (stream : List Byte → Option (StreamResult M E)) : Prop where
  /-- A call ends at a frame boundary, behind every complete frame. -/
  boundary : ∀ buf, ∃ r, ∃ payloads : List (List Byte), stream buf = some r ∧ (∀ p ∈ payloads, p.length < 2 ^ 16) ∧
    buf = payloads.flatMap frame ++ buf.drop r.consumed ∧ r.consumed = (payloads.flatMap frame).length ∧
    Unfinished (buf.drop r.consumed)
  /-- Any way to cut the stream gives the reports of one call. -/
  chunks : ∀ pieces, feedAll stream pieces = (stream pieces.flatten).map fun r => (r, pieces.flatten.drop r.consumed)
  /-- A frame that is refused costs its neighbours nothing. -/
  malformed : ∀ (payloads : List (List Byte)) (bad rest : List Byte) (e : E), (∀ p ∈ payloads, p.length < 2 ^ 16) →
    bad.length < 2 ^ 16 → decode bad = .error e →
    ∃ r r', stream (payloads.flatMap frame ++ frame bad ++ rest) = some r ∧
      stream (payloads.flatMap frame ++ rest) = some r' ∧
      r.delivered = r'.delivered ∧ r.messages = r'.messages ∧ r.skipped = r'.skipped + 1 ∧
      (payloads.flatMap frame ++ frame bad ++ rest).drop r.consumed = (payloads.flatMap frame ++ rest).drop r'.consumed

theorem framed_prefix {payloads qs : List (List Byte)} {buf rest : List Byte} (hp : ∀ p ∈ payloads, p.length < 2 ^ 16)
    (h : Framed buf qs rest) : Framed (payloads.flatMap frame ++ buf) (payloads ++ qs) rest := by
  refine ⟨?_, fun p hm => ?_, h.unfinished⟩
  · rw [List.flatMap_append, List.append_assoc, ← h.split]
  · rcases List.mem_append.mp hm with hm | hm
    · exact hp p hm
    · exact h.fits p hm

theorem streamOk_deframe (decode : List Byte → Except E M) : StreamOk decode (deframe decode) := by
  refine ⟨fun buf => ?_, feedAll_eq decode, fun payloads bad rest e hp hbad he => ?_⟩
  · obtain ⟨ps, rest, h⟩ := exists_framed buf
    refine ⟨tally decode ps, ps, deframe_eq decode h, h.fits, ?_, tally_consumed decode ps, ?_⟩
    · rw [h.drop_consumed]
      exact h.split
    · rw [h.drop_consumed]
      exact h.unfinished
  · obtain ⟨qs, t, h⟩ := exists_framed rest
    have hwith : Framed (payloads.flatMap frame ++ frame bad ++ rest) (payloads ++ [bad] ++ qs) t := by
      have hall : ∀ p ∈ payloads ++ [bad], p.length < 2 ^ 16 := by
        intro p hm
        rcases List.mem_append.mp hm with hm | hm
        · exact hp p hm
        · rw [List.mem_singleton.mp hm]
          exact hbad
      have := framed_prefix hall h
      rwa [List.flatMap_append, List.flatMap_singleton] at this
    have hwithout := framed_prefix hp h
    have hone : tally decode [bad] =
        { consumed := 2 + bad.length, delivered := [], messages := 0, skipped := 1, lastError := some e } := by
      simp [tally, StreamResult.frame, he]
    refine ⟨_, _, deframe_eq decode hwith, deframe_eq decode hwithout, ?_, ?_, ?_, ?_⟩
    · simp only [tally_append, hone, StreamResult.andThen, List.append_nil]
    · simp only [tally_append, hone, StreamResult.andThen, Nat.add_zero]
    · simp only [tally_append, hone, StreamResult.andThen]
      omega
    · rw [hwith.drop_consumed, hwithout.drop_consumed]

/-- The frames of messages that all decode deliver these messages. -/
theorem deframe_frames (decode : List Byte → Except E M) {ms : List (M × List Byte)}
    (hfits : ∀ p ∈ ms, p.2.length < 2 ^ 16) (hdec : ∀ p ∈ ms, decode p.2 = .ok p.1) :
    deframe decode (ms.flatMap fun p => frame p.2) =
      some
        { consumed := (ms.flatMap fun p => frame p.2).length, delivered := ms.map Prod.fst, messages := ms.length,
          skipped := 0, lastError := none } := by
  have hflat : (ms.flatMap fun p => frame p.2) = (ms.map Prod.snd).flatMap frame := by rw [List.flatMap_map]
  have hframed : Framed (ms.flatMap fun p => frame p.2) (ms.map Prod.snd) [] := by
    refine ⟨by rw [hflat, List.append_nil], fun p hp => ?_, .inl (by decide)⟩
    obtain ⟨q, hq, rfl⟩ := List.mem_map.mp hp
    exact hfits q hq
  have htally : ∀ qs : List (M × List Byte), (∀ p ∈ qs, decode p.2 = .ok p.1) →
      tally decode (qs.map Prod.snd) =
        { consumed := ((qs.map Prod.snd).flatMap frame).length, delivered := qs.map Prod.fst, messages := qs.length,
          skipped := 0, lastError := none } := by
    intro qs
    induction qs with
    | nil => exact fun _ => rfl
    | cons q qs ih =>
      intro hq
      have hone : StreamResult.frame decode {} q.2 =
          { consumed := 2 + q.2.length, delivered := [q.1], messages := 1, skipped := 0, lastError := none } := by
        unfold StreamResult.frame
        rw [hq q List.mem_cons_self]
        simp
      rw [List.map_cons, tally_cons, ih fun p hp => hq p (List.mem_cons_of_mem _ hp), hone]
      simp [StreamResult.andThen, length_frame, Nat.add_comm 1]
  rw [deframe_eq decode hframed, htally ms hdec, hflat]

end OptiTrade.Framing
