import OptiTrade.Itch.Stream
import OptiTrade.Replay.Capture

/-! # Files of framed ITCH messages

`ItchFileReader` pulls one frame after the other out of a file, `decode_stream` walks the frames of a
buffer. Both see the same frames of the same bytes, the reader less the empty ones, which carry nothing. -/

namespace OptiTrade.Replay
set_option autoImplicit false

open Stdio
open Framing (Framed Unfinished frame)

/-- A file of framed messages that is being read. -/
structure ItchFileReader where
  /-- The file could be opened (`file_ != nullptr`). -/
  opened : Bool
  file : InFile Byte
  /-- `none` is ok. -/
  error : Option DecodeError := none
  records : Nat := 0
  lastTs : Nat := 0

namespace ItchFileReader

/-- The constructor on the contents of the file, or on a file that cannot be opened. -/
def new : Option (List Byte) → ItchFileReader
  | none => { opened := false, file := ⟨[], false⟩, error := some .truncated }
  | some contents => { opened := true, file := ⟨contents, false⟩ }

/-- The reading ends in the middle of a frame. -/
def fail (r : ItchFileReader) : Option Record × ItchFileReader := (none, { r with error := some .truncated })

/-- The loop over the frames; empty ones are passed over. -/
def scan (r : ItchFileReader) : Option Record × ItchFileReader :=
  let hdr := r.file.fread 2
  if hdr.1.length = 0 && hdr.2.eof then (none, { r with file := hdr.2 })
  else if hdr.1.length ≠ 2 then fail { r with file := hdr.2 }
  else
    let len := Be.load hdr.1
    if len = 0 then scan { r with file := hdr.2 }
    else
      let got := hdr.2.fread len
      if got.1.length ≠ len then fail { r with file := got.2 }
      else
        let lastTs := if 11 ≤ len then Be.loadAt got.1 5 6 else r.lastTs
        (some ⟨lastTs, got.1⟩, { r with file := got.2, lastTs := lastTs, records := add64 r.records 1 })
termination_by r.file.rest.length
decreasing_by
  rename_i hlen _
  exact fread_shrinks (by decide) (not_not.mp hlen)

/-- The next record, `none` at the end of the file or at an error. -/
def next (r : ItchFileReader) : Option Record × ItchFileReader :=
  if !r.opened || r.error ≠ none then (none, r) else r.scan

/-! ## One pull -/

variable {r : ItchFileReader} {p rest more : List Byte}

/-- The file is open and nothing has gone wrong; `bs` is left to read. -/
structure Ready (r : ItchFileReader) (bs : List Byte) : Prop where
  opened : r.opened = true
  error : r.error = none
  rest : r.file.rest = bs

theorem Ready.next_eq {bs : List Byte} (h : Ready r bs) : r.next = r.scan := by
  unfold next
  rw [if_neg (by simp [h.opened, h.error])]

theorem Ready.fread_append {bs : List Byte} {n : Nat} (h : Ready r (bs ++ more)) (hn : bs.length = n) :
    r.file.fread n = (bs, ⟨more, r.file.eof⟩) := by
  have hfile : r.file = ⟨bs ++ more, r.file.eof⟩ := by rw [← h.rest]
  rw [hfile]
  exact Stdio.fread_append hn _

theorem Ready.fread_short {bs : List Byte} {n : Nat} (h : Ready r bs) (hn : bs.length < n) :
    r.file.fread n = (bs, ⟨[], true⟩) := by
  have hfile : r.file = ⟨bs, r.file.eof⟩ := by rw [← h.rest]
  rw [hfile]
  exact Stdio.fread_short hn _

/-- Behind the length of a frame. -/
theorem Ready.scan_header {hdr : List Byte} (h : Ready r (hdr ++ more)) (hlen : hdr.length = 2) :
    r.scan =
      if Be.load hdr = 0 then scan { r with file := ⟨more, r.file.eof⟩ }
      else if more.length < Be.load hdr then
        (none, { r with file := ⟨[], true⟩, error := some .truncated })
      else
        (some ⟨if 11 ≤ Be.load hdr then Be.loadAt (more.take (Be.load hdr)) 5 6 else r.lastTs, more.take (Be.load hdr)⟩,
          { r with
            file := ⟨more.drop (Be.load hdr), r.file.eof⟩
            lastTs := if 11 ≤ Be.load hdr then Be.loadAt (more.take (Be.load hdr)) 5 6 else r.lastTs
            records := add64 r.records 1 }) := by
  rw [scan, h.fread_append hlen]
  dsimp only
  rw [if_neg (by simp [hlen]), if_neg (not_not.mpr hlen)]
  generalize Be.load hdr = len
  by_cases hz : len = 0
  · rw [if_pos hz, if_pos hz]
  · rw [if_neg hz, if_neg hz]
    unfold InFile.fread
    dsimp only
    by_cases hshort : more.length < len
    · rw [if_pos hshort, if_neg (Nat.not_le.mpr hshort), if_pos hshort.ne]
      rfl
    · rw [if_neg hshort, if_pos (Nat.not_lt.mp hshort), if_neg (by simp [Nat.not_lt.mp hshort])]

theorem Ready.next_empty (h : Ready r (frame [] ++ more)) :
    r.next = next { r with file := ⟨more, r.file.eof⟩ } := by
  have hready : Ready { r with file := ⟨more, r.file.eof⟩ } more := ⟨h.opened, h.error, rfl⟩
  rw [h.next_eq, hready.next_eq, h.scan_header (by decide), if_pos (by decide)]

/-- The timestamp of a record whose frame is `p`. -/
def stamp (lastTs : Nat) (p : List Byte) : Nat := if 11 ≤ p.length then Be.loadAt p 5 6 else lastTs

theorem Ready.next_frame (h : Ready r (frame p ++ more)) (hne : p ≠ []) (hp : p.length < 2 ^ 16) :
    r.next = (some ⟨stamp r.lastTs p, p⟩,
      { r with file := ⟨more, r.file.eof⟩, lastTs := stamp r.lastTs p, records := add64 r.records 1 }) := by
  have hready : Ready r (Be.store 2 p.length ++ (p ++ more)) := by
    rw [← List.append_assoc]
    exact h
  have hpos := List.length_pos_iff.mpr hne
  have hload : Be.load (Be.store 2 p.length) = p.length := Be.load_store_of_lt (hp.trans_eq (by norm_num))
  rw [h.next_eq, hready.scan_header (by simp), hload, if_neg (by omega), if_neg (by simp), List.take_left' rfl,
    List.drop_left' rfl]
  rfl

theorem Ready.next_end (h : Ready r []) : r.next = (none, { r with file := ⟨[], true⟩ }) := by
  rw [h.next_eq, scan, h.fread_short (by decide)]
  rfl

theorem Ready.next_unfinished (h : Ready r rest) (hne : rest ≠ []) (hu : Unfinished rest) :
    r.next = (none, { r with file := ⟨[], true⟩, error := some .truncated }) := by
  rw [h.next_eq]
  by_cases hlen : rest.length < 2
  · rw [scan, h.fread_short hlen]
    dsimp only
    rw [if_neg (by simp [hne]), if_pos hlen.ne]
    rfl
  · have hcut := hu.resolve_left hlen
    have hload : Be.load (rest.take 2) = Be.loadAt rest 0 2 := rfl
    have hready : Ready r (rest.take 2 ++ rest.drop 2) := by rwa [List.take_append_drop]
    rw [hready.scan_header (by simp; omega), hload, if_neg (by omega), if_pos (by rw [List.length_drop]; exact hcut)]

/-! ## A whole file -/

/-- The records of the frames `ps`, the latest timestamp so far being `lastTs`. -/
def stamped (lastTs : Nat) : List (List Byte) → List Record
  | [] => []
  | p :: ps => ⟨stamp lastTs p, p⟩ :: stamped (stamp lastTs p) ps

theorem stamped_payloads (lastTs : Nat) (ps : List (List Byte)) : (stamped lastTs ps).map Record.payload = ps := by
  induction ps generalizing lastTs with
  | nil => rfl
  | cons p ps ih => rw [stamped, List.map_cons, ih]

/-- The field of the latest of these frames that is long enough to have one. -/
def latestTs (lastTs : Nat) (ps : List (List Byte)) : Nat :=
  ((ps.reverse.find? fun p => 11 ≤ p.length).map fun p => Be.loadAt p 5 6).getD lastTs

theorem latestTs_cons (lastTs : Nat) (p : List Byte) (ps : List (List Byte)) :
    latestTs lastTs (p :: ps) = latestTs (stamp lastTs p) ps := by
  unfold latestTs stamp
  rw [List.reverse_cons, List.find?_append]
  cases ps.reverse.find? fun p => 11 ≤ p.length with
  | some q => rfl
  | none =>
    by_cases hp : 11 ≤ p.length
    · simp [hp]
    · simp [hp]

theorem stamped_ts (lastTs : Nat) (ps : List (List Byte)) {i : Nat} {x : Record} (h : (stamped lastTs ps)[i]? = some x) :
    x.ts = latestTs lastTs (ps.take (i + 1)) := by
  induction ps generalizing lastTs i with
  | nil => cases h
  | cons p ps ih =>
    rw [List.take_succ_cons, latestTs_cons]
    cases i with
    | zero =>
      obtain rfl : _ = x := Option.some.inj h
      rfl
    | succ i => exact ih _ h

/-- The reader yields the frames that are not empty, and stops at the unfinished rest. -/
theorem pulls_frames (payloads : List (List Byte)) (hfits : ∀ p ∈ payloads, p.length < 2 ^ 16)
    (h : Ready r (payloads.flatMap frame ++ rest)) (hu : Unfinished rest) :
    ∃ r', Pulls next payloads.length r (stamped r.lastTs (payloads.filter (· ≠ []))) r' ∧
      r'.error = if rest = [] then none else some .truncated := by
  induction payloads generalizing r with
  | nil =>
    rw [List.flatMap_nil, List.nil_append] at h
    by_cases hrest : rest = []
    · rw [if_pos hrest]
      exact ⟨_, .done (Ready.next_end (hrest ▸ h)), h.error⟩
    · rw [if_neg hrest]
      exact ⟨_, .done (h.next_unfinished hrest hu), rfl⟩
  | cons p ps ih =>
    rw [List.flatMap_cons, List.append_assoc] at h
    have hps : ∀ q ∈ ps, q.length < 2 ^ 16 := fun q hq => hfits q (List.mem_cons_of_mem p hq)
    by_cases hp : p = []
    · subst hp
      obtain ⟨r', hpulls, he⟩ := ih (r := { r with file := ⟨ps.flatMap frame ++ rest, r.file.eof⟩ }) hps
        ⟨h.opened, h.error, rfl⟩
      exact ⟨r', (hpulls.congr h.next_empty).mono (Nat.le_succ _), he⟩
    · rw [List.filter_cons_of_pos (by simp [hp])]
      obtain ⟨r', hpulls, he⟩ := ih (r := { r with
          file := ⟨ps.flatMap frame ++ rest, r.file.eof⟩, lastTs := stamp r.lastTs p,
          records := add64 r.records 1 }) hps ⟨h.opened, h.error, rfl⟩
      exact ⟨r', .more (h.next_frame hp (hfits p List.mem_cons_self)) hpulls, he⟩

/-- Reads a file to its end. -/
def readAll (fuel : Nat) (contents : List Byte) : Option (List Record × ItchFileReader) :=
  pullAll next fuel (new (some contents))

/-- The payloads that `decode_stream` hands to its decoder: its loop with a decoder that keeps them. -/
def walked (buf : List Byte) : Option (List (List Byte)) :=
  (Framing.deframe (fun p => (.ok p : Except DecodeError (List Byte))) buf).map Framing.StreamResult.delivered

/-- **The file reader and the stream decoder agree.** On any bytes the reader comes to its end; it yields
the frames that `decode_stream` walks, less the empty ones, so that decoding them gives the same messages;
it ends with `truncated` exactly if `decode_stream` leaves bytes unconsumed; and each record has the
timestamp of the latest frame so far that is long enough to have one. -/
theorem file_reader_agrees_with_decode_stream (contents : List Byte) :
    ∃ frames result xs r', walked contents = some frames ∧ Itch.decodeStream contents = some result ∧
      (∀ fuel > contents.length, readAll fuel contents = some (xs, r')) ∧
      xs.map Record.payload = frames.filter (· ≠ []) ∧
      xs.filterMap (fun x => (Itch.decode x.payload).toOption) = result.delivered ∧
      r'.error = (if result.consumed < contents.length then some .truncated else none) ∧
      ∀ i x, xs[i]? = some x → x.ts = latestTs 0 ((xs.take (i + 1)).map Record.payload) := by
  obtain ⟨payloads, rest, h⟩ := Framing.exists_framed contents
  obtain ⟨r', hpulls, he⟩ := pulls_frames (r := new (some contents)) payloads h.fits ⟨rfl, rfl, h.split⟩ h.unfinished
  have hwalked : walked contents = some payloads := by
    unfold walked
    rw [Framing.deframe_eq _ h, Option.map_some, Framing.tally_delivered]
    simp [Except.toOption]
  have hpayloads := stamped_payloads 0 (payloads.filter (· ≠ []))
  refine ⟨payloads, _, stamped 0 (payloads.filter (· ≠ [])), r', hwalked, Framing.deframe_eq Itch.decode h, ?_,
    hpayloads, ?_, ?_, fun i x hx => ?_⟩
  · exact hpulls.mono (h.length_payloads.trans (Nat.div_le_self _ _))
  · have hmap : ∀ xs : List Record, xs.filterMap (fun x => (Itch.decode x.payload).toOption) =
        (xs.map Record.payload).filterMap fun p => (Itch.decode p).toOption := by
      intro xs
      rw [List.filterMap_map]
      rfl
    rw [Framing.tally_delivered, hmap, hpayloads, List.filterMap_filter]
    congr 1
    funext p
    -- an empty frame is no message
    by_cases hp : p = []
    · subst hp
      rfl
    · simp [hp]
  · have hlen : contents.length = (Framing.tally Itch.decode payloads).consumed + rest.length := by
      rw [Framing.tally_consumed, ← List.length_append, ← h.split]
    rw [he]
    by_cases hrest : rest = []
    · rw [if_pos hrest, if_neg]
      rw [hlen, hrest, List.length_nil]
      omega
    · have := List.length_pos_iff.mpr hrest
      rw [if_neg hrest, if_pos (by omega)]
  · rw [List.map_take, hpayloads]
    exact stamped_ts 0 _ hx

end ItchFileReader
end OptiTrade.Replay
