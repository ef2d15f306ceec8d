import OptiTrade.Foundations.Layout
import OptiTrade.Foundations.Stdio
import OptiTrade.Itch.Decoder

/-! # Capture files

A capture file is a header and timestamped payloads behind their lengths, little endian. The writer
refuses a payload that is empty or too long; the reader stops at the end of the file and at the first
thing that is not a record, and then stays stopped. -/

namespace OptiTrade.Replay
set_option autoImplicit false

open Stdio

/-- A record: its time and its bytes. -/
structure Record where
  ts : Nat
  payload : List Byte
  deriving DecidableEq

def kCaptureHeaderSize : Nat := 16
def kCaptureRecordHeaderSize : Nat := 10
def kCaptureMaxPayload : Nat := 4096
def kCaptureVersion : Nat := 1
def kCaptureMagic : List Byte := "OTCAP001".toList.map ascii

/-! ## The writer -/

/-- A file that is being written. -/
structure CaptureWriter where
  /-- The stream is open (`file_ != nullptr`). -/
  opened : Bool
  /-- What the file holds once the stream is flushed. -/
  contents : List Byte := []
  ok_ : Bool := false
  records : Nat := 0

namespace CaptureWriter

def captureHeader : List Byte :=
  Be.put (Be.put (List.replicate kCaptureHeaderSize 0) 0 kCaptureMagic) 8 (Le.store 4 kCaptureVersion)

/-- The constructor; `opens` says whether `fopen` succeeds. -/
def new (opens : Bool) : CaptureWriter :=
  if !opens then { opened := false }
  else
    let out := fwrite [] captureHeader
    { opened := true, contents := out.1, ok_ := out.2 = captureHeader.length }

def ok (w : CaptureWriter) : Bool := w.opened && w.ok_

def recordHeader (ts len : Nat) : List Byte :=
  Be.put (Be.put (List.replicate kCaptureRecordHeaderSize 0) 0 (Le.store 8 ts)) 8 (Le.store 2 len)

/-- A record that is empty or too long is refused. -/
def write (w : CaptureWriter) (ts : Nat) (payload : List Byte) : Bool × CaptureWriter :=
  if !w.ok || payload.isEmpty || payload.length > kCaptureMaxPayload then (false, w)
  else
    let hdr := recordHeader ts payload.length
    let out := fwrite w.contents hdr
    if out.2 ≠ hdr.length then (false, { w with contents := out.1, ok_ := false })
    else
      let out := fwrite out.1 payload
      if out.2 ≠ payload.length then (false, { w with contents := out.1, ok_ := false })
      else (true, { w with contents := out.1, records := add64 w.records 1 })

/-- Flushing and closing succeed, as the rest of the stream does. -/
def close (w : CaptureWriter) : Bool × CaptureWriter := (w.ok_, { w with opened := false })

/-- The answers to a sequence of writes, and the writer after them. -/
def writeAll (w : CaptureWriter) : List Record → List Bool × CaptureWriter
  | [] => ([], w)
  | x :: xs =>
    let out := w.write x.ts x.payload
    let rest := out.2.writeAll xs
    (out.1 :: rest.1, rest.2)

end CaptureWriter

/-! ## The reader -/

/-- A file that is being read. -/
structure CaptureReader where
  file : InFile Byte
  headerOk : Bool := false
  /-- `none` is ok. -/
  error : Option DecodeError := none
  records : Nat := 0

namespace CaptureReader

/-- The constructor on the contents of the file, or on a file that cannot be opened. -/
def new : Option (List Byte) → CaptureReader
  | none => { file := ⟨[], false⟩, error := some .truncated }
  | some contents =>
    let got := (InFile.mk contents false).fread kCaptureHeaderSize
    if got.1.length ≠ kCaptureHeaderSize then { file := got.2, error := some .truncated }
    else if Be.slice got.1 0 kCaptureMagic.length ≠ kCaptureMagic then { file := got.2, error := some .unknownType }
    else if Le.load (Be.slice got.1 8 4) ≠ kCaptureVersion then { file := got.2, error := some .badField }
    else { file := got.2, headerOk := true }

def fail (r : CaptureReader) (e : DecodeError) : Option Record × CaptureReader := (none, { r with error := some e })

/-- The next record, or none at the end of the file or on the first error. -/
def next (r : CaptureReader) : Option Record × CaptureReader :=
  if !r.headerOk || r.error ≠ none then (none, r)
  else
    let hdr := r.file.fread kCaptureRecordHeaderSize
    let r := { r with file := hdr.2 }
    if hdr.1.length = 0 && hdr.2.eof then (none, r)
    else if hdr.1.length ≠ kCaptureRecordHeaderSize then r.fail .truncated
    else
      let len := Le.load (Be.slice hdr.1 8 2)
      if len = 0 || len > kCaptureMaxPayload then r.fail .badLength
      else
        let got := hdr.2.fread len
        let r := { r with file := got.2 }
        if got.1.length ≠ len then r.fail .truncated
        else (some ⟨Le.load (Be.slice hdr.1 0 8), got.1⟩, { r with records := add64 r.records 1 })

end CaptureReader

/-! ## What the writer leaves -/

/-- A payload the format takes. -/
def Record.Fits (x : Record) : Prop := 1 ≤ x.payload.length ∧ x.payload.length ≤ kCaptureMaxPayload

instance (x : Record) : Decidable x.Fits := inferInstanceAs (Decidable (_ ∧ _))

/-- A record as it is in the file. -/
def Record.bytes (x : Record) : List Byte := Le.store 8 x.ts ++ Le.store 2 x.payload.length ++ x.payload

theorem Record.length_bytes (x : Record) : x.bytes.length = 10 + x.payload.length := by
  simp [bytes]
  omega

namespace CaptureWriter

theorem recordHeader_eq (ts len : Nat) : recordHeader ts len = Le.store 8 ts ++ Le.store 2 len := by
  simp [recordHeader, Be.put, kCaptureRecordHeaderSize]

theorem write_eq {w : CaptureWriter} (hw : w.ok = true) (x : Record) :
    w.write x.ts x.payload =
      if x.Fits then (true, { w with contents := w.contents ++ x.bytes, records := add64 w.records 1 })
      else (false, w) := by
  unfold write
  by_cases hx : x.Fits
  · have hne : x.payload ≠ [] := by
      rintro h
      rw [Record.Fits, h] at hx
      exact absurd hx.1 (by decide)
    rw [if_pos hx, if_neg (by simp [hw, hne, hx.2])]
    simp [fwrite, recordHeader_eq, Record.bytes, List.append_assoc]
  · rw [if_neg hx, if_pos]
    by_cases hne : x.payload = []
    · simp [hne]
    · have hpos := List.length_pos_iff.mpr hne
      have hlong : kCaptureMaxPayload < x.payload.length := by
        by_contra hle
        exact hx ⟨hpos, Nat.not_lt.mp hle⟩
      simp [hlong]

theorem writeAll_eq {w : CaptureWriter} (hw : w.ok = true) (xs : List Record) :
    (w.writeAll xs).1 = xs.map (fun x => decide x.Fits) ∧
      (w.writeAll xs).2.contents = w.contents ++ (xs.filter fun x => x.Fits).flatMap Record.bytes := by
  induction xs generalizing w with
  | nil => simp [writeAll]
  | cons x xs ih =>
    rw [writeAll, write_eq hw]
    by_cases hx : x.Fits
    · rw [if_pos hx]
      obtain ⟨h₁, h₂⟩ := ih (w := { w with contents := w.contents ++ x.bytes, records := add64 w.records 1 }) hw
      simp only [h₁, h₂]
      simp [hx]
    · rw [if_neg hx]
      obtain ⟨h₁, h₂⟩ := ih hw
      simp only [h₁, h₂]
      simp [hx]

/-- The records of a sequence of writes that the format takes. -/
def accepted (xs : List Record) : List Record := xs.filter fun x => x.Fits

/-- The file that a sequence of writes leaves when it is closed. -/
def captured (xs : List Record) : List Byte := ((new true).writeAll xs).2.close.2.contents

theorem captured_eq (xs : List Record) :
    captured xs = captureHeader ++ (accepted xs).flatMap Record.bytes :=
  (writeAll_eq (by decide) xs).2

end CaptureWriter

/-! ## What the reader yields -/

namespace CaptureReader
open CaptureWriter (captureHeader accepted captured captured_eq)

variable {r : CaptureReader} {x : Record} {bs more : List Byte}

theorem captureHeader_length : captureHeader.length = kCaptureHeaderSize := by decide

theorem new_captured (bs : List Byte) :
    new (some (captureHeader ++ bs)) = { file := ⟨bs, false⟩, headerOk := true } := by
  unfold new
  dsimp only
  rw [fread_append captureHeader_length]
  dsimp only
  rw [if_neg (by decide), if_neg (by decide), if_neg (by decide)]

theorem new_short (h : bs.length < kCaptureHeaderSize) :
    new (some bs) = { file := ⟨[], true⟩, error := some .truncated } := by
  unfold new
  dsimp only
  rw [fread_short h]
  dsimp only
  rw [if_pos h.ne]

/-- The header has been read and nothing has gone wrong; `bs` is left to read. -/
structure Ready (r : CaptureReader) (bs : List Byte) : Prop where
  header : r.headerOk = true
  error : r.error = none
  rest : r.file.rest = bs

theorem Ready.live (h : Ready r bs) : ¬(!r.headerOk || decide (r.error ≠ none)) = true := by
  simp [h.header, h.error]

theorem next_of_error (h : r.error ≠ none) : r.next = (none, r) := by
  unfold next
  rw [if_pos (by simp [h])]

theorem next_end (h : Ready r []) : r.next = (none, { r with file := ⟨[], true⟩ }) := by
  have hread : r.file.fread kCaptureRecordHeaderSize = ([], ⟨[], true⟩) := by
    have hfile : r.file = ⟨[], r.file.eof⟩ := by rw [← h.rest]
    rw [hfile]
    exact fread_short (by decide) _
  unfold next
  rw [if_neg h.live, hread]
  rfl

theorem next_cut_header (h : Ready r bs) (hne : bs ≠ []) (hlen : bs.length < kCaptureRecordHeaderSize) :
    r.next = (none, { r with file := ⟨[], true⟩, error := some .truncated }) := by
  have hread : r.file.fread kCaptureRecordHeaderSize = (bs, ⟨[], true⟩) := by
    have hfile : r.file = ⟨bs, r.file.eof⟩ := by rw [← h.rest]
    rw [hfile]
    exact fread_short hlen _
  unfold next
  rw [if_neg h.live, hread]
  dsimp only
  rw [if_neg (by simp [hne]), if_pos hlen.ne]
  rfl

/-- Behind a complete record header. -/
theorem next_header {hdr : List Byte} (h : Ready r (hdr ++ more)) (hlen : hdr.length = kCaptureRecordHeaderSize) :
    r.next =
      if Le.load (Be.slice hdr 8 2) = 0 ∨ kCaptureMaxPayload < Le.load (Be.slice hdr 8 2) then
        (none, { r with file := ⟨more, r.file.eof⟩, error := some .badLength })
      else if more.length < Le.load (Be.slice hdr 8 2) then
        (none, { r with file := ⟨[], true⟩, error := some .truncated })
      else
        (some ⟨Le.load (Be.slice hdr 0 8), more.take (Le.load (Be.slice hdr 8 2))⟩,
          { r with file := ⟨more.drop (Le.load (Be.slice hdr 8 2)), r.file.eof⟩, records := add64 r.records 1 }) := by
  have hread : r.file.fread kCaptureRecordHeaderSize = (hdr, ⟨more, r.file.eof⟩) := by
    have hfile : r.file = ⟨hdr ++ more, r.file.eof⟩ := by rw [← h.rest]
    rw [hfile]
    exact fread_append hlen _
  unfold next
  rw [if_neg h.live, hread]
  dsimp only
  rw [if_neg (by simp [hlen, kCaptureRecordHeaderSize]), if_neg (not_not.mpr hlen)]
  generalize Le.load (Be.slice hdr 8 2) = len
  by_cases hbad : len = 0 ∨ kCaptureMaxPayload < len
  · rw [if_pos hbad, if_pos (by simpa using hbad)]
    rfl
  · rw [if_neg hbad, if_neg (by simpa using hbad)]
    unfold InFile.fread
    by_cases hshort : more.length < len
    · dsimp only
      rw [if_pos hshort, if_neg (Nat.not_le.mpr hshort), if_pos hshort.ne]
      rfl
    · dsimp only
      rw [if_neg hshort, if_pos (Nat.not_lt.mp hshort), if_neg (by simp [Nat.not_lt.mp hshort])]

theorem load_length {hdr : List Byte} (hhdr : hdr = Le.store 8 x.ts ++ Le.store 2 x.payload.length) (hx : x.Fits) :
    Le.load (Be.slice hdr 8 2) = x.payload.length := by
  rw [hhdr, Be.slice_append_right (by simp), Le.length_store, Be.slice_self (by simp)]
  exact Le.load_store_of_lt (hx.2.trans_lt (by decide))

theorem load_ts {hdr : List Byte} (hhdr : hdr = Le.store 8 x.ts ++ Le.store 2 x.payload.length) (hts : x.ts < 2 ^ 64) :
    Le.load (Be.slice hdr 0 8) = x.ts := by
  rw [hhdr, Be.slice_append_left (by simp)]
  exact Le.load_store_of_lt (hts.trans_eq (by norm_num))

theorem next_record (h : Ready r (x.bytes ++ more)) (hx : x.Fits) (hts : x.ts < 2 ^ 64) :
    r.next = (some x, { r with file := ⟨more, r.file.eof⟩, records := add64 r.records 1 }) := by
  have hready : Ready r ((Le.store 8 x.ts ++ Le.store 2 x.payload.length) ++ (x.payload ++ more)) := by
    rw [← List.append_assoc]
    exact h
  rw [next_header hready (by simp [kCaptureRecordHeaderSize]), load_length rfl hx, load_ts rfl hts]
  have hpos := hx.1
  have hle := hx.2
  rw [if_neg (by omega), if_neg (by simp), List.take_left' rfl, List.drop_left' rfl]

/-- A record that is cut short is not. -/
theorem next_cut {n : Nat} (h : Ready r (x.bytes.take n)) (hx : x.Fits) (hpos : 0 < n) (hn : n < x.bytes.length) :
    ∃ r', r.next = (none, r') ∧ r'.error = some .truncated := by
  by_cases hhdr : n < kCaptureRecordHeaderSize
  · refine ⟨_, next_cut_header h ?_ ?_, rfl⟩
    · rw [← List.length_pos_iff]
      simp
      omega
    · simp
      omega
  · -- the header is complete, the payload is not
    unfold kCaptureRecordHeaderSize at hhdr
    have hsplit : x.bytes.take n =
        (Le.store 8 x.ts ++ Le.store 2 x.payload.length) ++ x.payload.take (n - 10) := by
      have hlen : (Le.store 8 x.ts ++ Le.store 2 x.payload.length).length = 10 := by simp
      rw [Record.bytes, List.take_append, hlen, List.take_of_length_le (by omega)]
    rw [hsplit] at h
    have hle := hx.2
    have hge := hx.1
    rw [Record.length_bytes] at hn
    refine ⟨{ r with file := ⟨[], true⟩, error := some .truncated }, ?_, rfl⟩
    rw [next_header h (by simp [kCaptureRecordHeaderSize]), load_length rfl hx, if_neg (by omega), if_pos (by simp; omega)]

/-! ## Whole files -/

/-- Where the `j`th record of a file ends. -/
def boundary (xs : List Record) (j : Nat) : Nat :=
  kCaptureHeaderSize + ((xs.take j).map fun x => kCaptureRecordHeaderSize + x.payload.length).sum

theorem boundary_zero (xs : List Record) : boundary xs 0 = kCaptureHeaderSize := by simp [boundary]

theorem boundary_cons (x : Record) (xs : List Record) (j : Nat) :
    boundary (x :: xs) (j + 1) = x.bytes.length + boundary xs j := by
  simp [boundary, Record.length_bytes, kCaptureRecordHeaderSize]
  omega

theorem boundary_ge (xs : List Record) (j : Nat) : kCaptureHeaderSize ≤ boundary xs j := Nat.le_add_right _ _

theorem boundary_length (xs : List Record) :
    boundary xs xs.length = kCaptureHeaderSize + (xs.flatMap Record.bytes).length := by
  induction xs with
  | nil => rfl
  | cons x xs ih =>
    rw [List.length_cons, boundary_cons, ih, List.flatMap_cons, List.length_append]
    omega

/-- The first `n` bytes behind the header hold the first `k` records, and end where one of them does or not. -/
theorem pulls_prefix (xs : List Record) (hxs : ∀ x ∈ xs, x.Fits ∧ x.ts < 2 ^ 64) (n : Nat)
    (h : Ready r ((xs.flatMap Record.bytes).take n)) (hn : n ≤ (xs.flatMap Record.bytes).length) :
    ∃ k ≤ xs.length, ∃ r', Pulls next k r (xs.take k) r' ∧
      (∀ j < xs.length, boundary xs (j + 1) ≤ kCaptureHeaderSize + n ↔ j < k) ∧
      r'.error = if ∃ j ≤ xs.length, kCaptureHeaderSize + n = boundary xs j then none else some .truncated := by
  induction xs generalizing n r with
  | nil =>
    refine ⟨0, le_rfl, _, .done (next_end (by simpa using h)), by simp, ?_⟩
    have hz : n = 0 := by simpa using hn
    rw [if_pos ⟨0, le_rfl, by simp [hz, boundary]⟩]
    exact h.error
  | cons x xs ih =>
    obtain ⟨hx, hts⟩ := hxs x List.mem_cons_self
    rw [List.flatMap_cons] at h hn
    by_cases hwhole : x.bytes.length ≤ n
    · -- the first record is there
      have hready : Ready r (x.bytes ++ (xs.flatMap Record.bytes).take (n - x.bytes.length)) := by
        rw [List.take_append, List.take_of_length_le hwhole] at h
        exact h
      rw [List.length_append] at hn
      obtain ⟨k, hle, r', hp, hk, he⟩ := ih (r := { r with file := ⟨_, r.file.eof⟩, records := add64 r.records 1 })
        (fun y hy => hxs y (List.mem_cons_of_mem x hy)) (n - x.bytes.length) ⟨h.header, h.error, rfl⟩ (by omega)
      refine ⟨k + 1, Nat.succ_le_succ hle, r', .more (next_record hready hx hts) hp, fun j hj => ?_, ?_⟩
      · cases j with
        | zero =>
          rw [boundary_cons, boundary_zero]
          omega
        | succ j =>
          have := hk j (by simpa using hj)
          rw [boundary_cons]
          omega
      · have hpos := hx.1
        have hsize := x.length_bytes
        rw [he]
        congr 1
        refine propext ⟨?_, ?_⟩
        · rintro ⟨j, hj, hb⟩
          exact ⟨j + 1, by simpa using hj, by rw [boundary_cons]; omega⟩
        · rintro ⟨_ | j, hj, hb⟩
          · rw [boundary_zero] at hb
            omega
          · rw [boundary_cons] at hb
            exact ⟨j, by simpa using hj, by omega⟩
    · -- it is cut, or there is nothing of it
      rw [List.take_append_of_le_length (by omega)] at h
      have hnone : ∀ j < (x :: xs).length, boundary (x :: xs) (j + 1) ≤ kCaptureHeaderSize + n ↔ j < 0 := by
        intro j _
        have := boundary_ge xs j
        rw [boundary_cons]
        omega
      by_cases hz : n = 0
      · subst hz
        refine ⟨0, Nat.zero_le _, _, .done (next_end (by simpa using h)), hnone, ?_⟩
        rw [if_pos ⟨0, Nat.zero_le _, by rw [boundary_zero]; rfl⟩]
        exact h.error
      · obtain ⟨r', hr', he⟩ := next_cut h hx (by omega) (by omega)
        refine ⟨0, Nat.zero_le _, r', .done hr', hnone, ?_⟩
        rw [he, if_neg]
        rintro ⟨_ | j, hj, hb⟩
        · rw [boundary_zero] at hb
          omega
        · have := boundary_ge xs j
          rw [boundary_cons] at hb
          omega

/-- Every record the reader yields has a payload the format takes, and uses up some of the file. -/
theorem next_yields {r' : CaptureReader} (h : r.next = (some x, r')) :
    x.Fits ∧ r'.file.rest.length < r.file.rest.length := by
  by_cases hlive : (!r.headerOk || decide (r.error ≠ none)) = true
  · rw [next, if_pos hlive] at h
    cases h
  · obtain ⟨hhdr, herr⟩ : r.headerOk = true ∧ r.error = none := by simpa using hlive
    rcases fread_cases r.file kCaptureRecordHeaderSize with ⟨hdr, hlen, hrest, _⟩ | ⟨hshort, _⟩
    · rw [next_header ⟨hhdr, herr, hrest⟩ hlen] at h
      generalize hmore : (r.file.fread kCaptureRecordHeaderSize).2.rest = more at h hrest
      generalize Le.load (Be.slice hdr 8 2) = len at h
      by_cases hbad : len = 0 ∨ kCaptureMaxPayload < len
      · rw [if_pos hbad] at h
        cases h
      rw [if_neg hbad] at h
      by_cases hcut : more.length < len
      · rw [if_pos hcut] at h
        cases h
      rw [if_neg hcut] at h
      have hx := Option.some.inj (congrArg Prod.fst h)
      have hr' : _ = r' := congrArg Prod.snd h
      rw [← hx, ← hr', hrest]
      unfold Record.Fits
      simp only [List.length_take, List.length_append, List.length_drop]
      unfold kCaptureMaxPayload at *
      omega
    · by_cases hne : r.file.rest = []
      · rw [next_end ⟨hhdr, herr, hne⟩] at h
        cases h
      · rw [next_cut_header ⟨hhdr, herr, rfl⟩ hne hshort] at h
        cases h

/-- Reads a file to its end. -/
def readAll (fuel : Nat) (contents : List Byte) : Option (List Record × CaptureReader) :=
  pullAll next fuel (new (some contents))

/-- The first `n` bytes of a captured file. -/
theorem pulls_captured {ws : List Record} (hts : ∀ x ∈ ws, x.ts < 2 ^ 64) {n : Nat} (hn : n ≤ (captured ws).length) :
    ∃ k ≤ (accepted ws).length, ∃ r', Pulls next k (new (some ((captured ws).take n))) ((accepted ws).take k) r' ∧
      (∀ j < (accepted ws).length, boundary (accepted ws) (j + 1) ≤ n ↔ j < k) ∧
      r'.error = if ∃ j ≤ (accepted ws).length, n = boundary (accepted ws) j then none else some .truncated := by
  have hxs : ∀ x ∈ accepted ws, x.Fits ∧ x.ts < 2 ^ 64 := by
    intro x hx
    obtain ⟨hmem, hfits⟩ := List.mem_filter.mp hx
    exact ⟨of_decide_eq_true hfits, hts x hmem⟩
  rw [captured_eq] at hn ⊢
  generalize accepted ws = xs at hxs hn ⊢
  rw [List.length_append, captureHeader_length] at hn
  by_cases hhdr : n < kCaptureHeaderSize
  · have hshort : ((captureHeader ++ xs.flatMap Record.bytes).take n).length < kCaptureHeaderSize := by
      rw [List.length_take]
      omega
    rw [new_short hshort]
    refine ⟨0, Nat.zero_le _, _, .done (next_of_error (by simp)), fun j _ => ?_, ?_⟩
    · have := boundary_ge xs (j + 1)
      omega
    · rw [if_neg]
      rintro ⟨j, _, hj⟩
      have := boundary_ge xs j
      omega
  · obtain ⟨d, rfl⟩ := Nat.exists_eq_add_of_le (Nat.not_lt.mp hhdr)
    rw [List.take_append, captureHeader_length, List.take_of_length_le (by rw [captureHeader_length]; omega),
      Nat.add_sub_cancel_left, new_captured]
    exact pulls_prefix xs hxs d ⟨rfl, rfl, rfl⟩ (by omega)

theorem length_captured (ws : List Record) :
    (captured ws).length = boundary (accepted ws) (accepted ws).length := by
  rw [captured_eq, List.length_append, captureHeader_length, boundary_length]

theorem new_rest_le (contents : List Byte) : (new (some contents)).file.rest.length ≤ contents.length := by
  have hread : ((InFile.mk contents false).fread kCaptureHeaderSize).2.rest.length ≤ contents.length := by
    unfold InFile.fread
    split_ifs <;> simp
  unfold new
  dsimp only
  split_ifs <;> exact hread

/-- **Capture files round trip and fail cleanly.** A write is taken exactly if its payload has 1 to 4096
bytes; reading the closed file gives the records taken and no error; a prefix of the file gives the
records wholly in it, and no error exactly if it ends where the header or one of the records does; after
an error there is nothing more; and whatever the bytes, the reader comes to an end and yields no payload
that the format does not take. -/
theorem capture_files_round_trip (ws : List Record) (hts : ∀ x ∈ ws, x.ts < 2 ^ 64) :
    ((CaptureWriter.new true).writeAll ws).1 =
        ws.map (fun x => decide (1 ≤ x.payload.length ∧ x.payload.length ≤ 4096)) ∧
    (∃ r', (∀ fuel > (accepted ws).length, readAll fuel (captured ws) = some (accepted ws, r')) ∧
      r'.error = none) ∧
    (∀ n ≤ (captured ws).length, ∃ k ≤ (accepted ws).length, ∃ r',
      (∀ fuel > k, readAll fuel ((captured ws).take n) = some ((accepted ws).take k, r')) ∧
      (∀ j < (accepted ws).length, boundary (accepted ws) (j + 1) ≤ n ↔ j < k) ∧
      r'.error = if ∃ j ≤ (accepted ws).length, n = boundary (accepted ws) j then none else some .truncated) ∧
    (∀ r : CaptureReader, r.error ≠ none → r.next = (none, r)) ∧
    ∀ contents : List Byte, ∃ xs r', (∀ fuel > contents.length, readAll fuel contents = some (xs, r')) ∧
      ∀ x ∈ xs, 1 ≤ x.payload.length ∧ x.payload.length ≤ 4096 := by
  refine ⟨(CaptureWriter.writeAll_eq (by decide) ws).1, ?_, fun n hn => pulls_captured hts hn,
    fun r => next_of_error, fun contents => ?_⟩
  · -- the whole file is a prefix that ends at the last boundary
    obtain ⟨k, hle, r', hp, hk, he⟩ := pulls_captured hts (le_refl (captured ws).length)
    rw [List.take_length, length_captured] at *
    rw [if_pos ⟨_, le_rfl, rfl⟩] at he
    have hall : (accepted ws).length ≤ k := by
      cases hlen : (accepted ws).length with
      | zero => exact Nat.zero_le k
      | succ j =>
        rw [hlen] at hk
        exact (hk j (Nat.lt_succ_self j)).mp le_rfl
    rw [List.take_of_length_le hall] at hp
    exact ⟨r', hp.mono hle, he⟩
  · obtain ⟨xs, r', hp, hall⟩ := exists_pulls (P := Record.Fits) (μ := fun r : CaptureReader => r.file.rest.length)
      (fun r x r' h => next_yields h) (new (some contents))
    exact ⟨xs, r', hp.mono (new_rest_le contents), hall⟩

/-- Two writes of which the second is refused, and the file cut inside the first payload. -/
theorem capture_files_round_trip_one_refused :
    ((CaptureWriter.new true).writeAll [⟨7, [1, 2]⟩, ⟨8, []⟩]).1 = [true, false] ∧
      ∃ r', readAll 1 ((captured [⟨7, [1, 2]⟩, ⟨8, []⟩]).take 27) = some ([], r') ∧ r'.error = some .truncated := by
  have h := capture_files_round_trip [⟨7, [1, 2]⟩, ⟨8, []⟩] (by decide)
  refine ⟨h.1, ?_⟩
  obtain ⟨k, _, r', hread, hk, he⟩ := h.2.2.1 27 (by decide)
  have hk₀ : k = 0 := Nat.eq_zero_of_not_pos fun hpos => absurd ((hk 0 (by decide)).mpr hpos) (by decide)
  subst hk₀
  rw [if_neg (by decide)] at he
  exact ⟨r', hread 1 (by decide), he⟩

end CaptureReader
end OptiTrade.Replay
