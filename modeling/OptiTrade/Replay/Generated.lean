import OptiTrade.Core.Digest
import OptiTrade.Engine.MarketData
import OptiTrade.Replay.Capture
import OptiTrade.Synthetic.Stream

/-! # A market in a file

The generator tool writes a synthetic market to a capture file, one record a message, all from one buffer that each call
of `next` uses again. What it prints is what a reader of the file finds, and books that hear the file take all of it. -/

namespace OptiTrade.Replay
set_option autoImplicit false

open Book (MarketBooks Applied)
open Itch (Message decode)
open Stdio
open Synthetic (Market SyntheticConfig kMaxMessageLength kCap)

/-- The tool between opening the file and closing it. -/
structure Gen (σ : Type) where
  market : Market σ
  writer : CaptureWriter
  digest : Digest := {}
  /-- What the buffer on the stack holds; nothing initialises it. -/
  buf : List Byte

/-- What the tool prints, less the arguments it was given. -/
structure Printed where
  records : Nat
  bytes : Nat
  digest : UInt64

/-- How the tool can fail. -/
inductive GenError
  | cannotCreate
  | writeFailed (records : Nat)
  | closeFailed

/-- A record goes into the digest: its timestamp, then its payload. -/
def digested (d : Digest) (x : Record) : Digest := (d.updateWord (.ofNat x.ts)).update x.payload

namespace Gen
variable {σ : Type}

/-- The loop of `main`, and whether every write went well; `none` only when the fuel runs out. -/
def loop (D : Draws σ) (depth : Nat) : Nat → Gen σ → Option (Gen σ × Bool)
  | 0, _ => none
  | fuel + 1, g =>
    match g.market.next D depth g.buf with
    | none => none
    | some (m, none) => some ({ g with market := m }, true)
    | some (m, some w) =>
      let x : Record := ⟨w.ts, w.out.take w.len⟩
      let wrote := g.writer.write x.ts x.payload
      let g := { g with market := m, writer := wrote.2, buf := w.out }
      if !wrote.1 then some (g, false) else loop D depth fuel { g with digest := digested g.digest x }

/-- `main` after its arguments: what it prints or says, and what the file holds. `opens` says whether the file can be
created; its size can always be asked for. -/
def main (D : Draws σ) (depth fuel : Nat) (cfg : SyntheticConfig) (r : σ) (buf : List Byte) (opens : Bool) :
    Option (Except GenError Printed × List Byte) :=
  let writer := CaptureWriter.new opens
  if !writer.ok then some (.error .cannotCreate, writer.contents)
  else
    (loop D depth fuel { market := .new cfg r, writer := writer, buf := buf }).map fun out =>
      let g := out.1
      if !out.2 then (.error (.writeFailed g.writer.records), g.writer.contents)
      else
        let closed := g.writer.close
        (if !closed.1 then .error .closeFailed else .ok ⟨closed.2.records, closed.2.contents.length, g.digest.value⟩,
          closed.2.contents)

end Gen

/-! ## One call of `next` -/

/-- A message is written inside the buffer, and the buffer keeps its length. -/
theorem next_room {σ : Type} {lim cap c : Nat} {m m' : Market σ} {mb : MarketBooks} {out : List Byte} {w : Market.Written}
    (h : Synthetic.Linked lim cap c m mb) (hmore : m.sent < m.total) (hlim : 256 * m.symbols ≤ lim) (hcap : kCap ≤ cap)
    (hc64 : c < 2 ^ 64) (D : Draws σ) (hout : kMaxMessageLength ≤ out.length)
    (hrun : ∀ d, m.next D (d + 3) out = some (m', some w)) :
    w.out.length = out.length ∧ 1 ≤ w.len ∧ w.len ≤ kMaxMessageLength := by
  obtain ⟨hnot, hgoing⟩ := h.not_over hmore
  obtain ⟨hadv, -⟩ := h.advanceTime D
  obtain ⟨p, hgen, hp⟩ := hadv.generate hmore hlim hcap hc64 D
  have hnext := (Market.next_some (hgen 0) hnot hgoing hp.wired hadv.sane.ts hout).1
  have hroom := (Synthetic.wireLength_le p.2).trans hout
  obtain ⟨hlen, hbytes, hdrop⟩ := Itch.encode_written hp.wired.typed
    (Itch.fits_of_encodable (hp.wired.encodable hadv.sane.ts)) hroom
  rw [hrun 0, Option.some.injEq, Prod.mk.injEq, Option.some.injEq] at hnext
  rw [hnext.2]
  have hhead := congrArg List.length hbytes
  have htail := congrArg List.length hdrop
  rw [List.length_take, Be.length_bytes, Message.span_fields hp.wired.typed] at hhead
  rw [List.length_drop, List.length_drop] at htail
  have hpos := p.2.wireLength_pos
  have hmax := Synthetic.wireLength_le p.2
  refine ⟨?_, ?_, ?_⟩
  · show (Itch.encode p.2 out).1.length = out.length
    omega
  · show 1 ≤ (Itch.encode p.2 out).2
    omega
  · show (Itch.encode p.2 out).2 ≤ kMaxMessageLength
    omega

/-! ## The loop -/

/-- Books take every record of a list: each is a message, and the answer is the one a message like it should get. -/
def Taken : MarketBooks → List Record → Prop
  | _, [] => True
  | mb, x :: xs => ∃ msg, decode x.payload = .ok msg ∧ (mb.on msg).2 = Synthetic.accepted msg ∧ Taken (mb.on msg).1 xs

namespace Gen
variable {σ : Type} {lim cap c : Nat} {g : Gen σ} {mb : MarketBooks}

/-- The loop has written the records `xs` and come to the end of the market. -/
structure Wrote (g g' : Gen σ) (xs : List Record) : Prop where
  fits : ∀ x ∈ xs, x.Fits ∧ g.market.ts ≤ x.ts ∧ x.ts < 2 ^ 48
  ordered : xs.Pairwise fun x y => x.ts ≤ y.ts
  ok : g'.writer.ok = true
  contents : g'.writer.contents = g.writer.contents ++ xs.flatMap Record.bytes
  records : g'.writer.records = (g.writer.records + xs.length) % 2 ^ 64
  digest : g'.digest = xs.foldl digested g.digest

/-- **The loop writes every message.** Each turn writes the next message of the market, and the end of the market ends the
loop. -/
theorem loop_wrote (D : Draws σ) (n : Nat) (h : Synthetic.Linked lim cap c g.market mb) (hn : g.market.sent + n = g.market.total)
    (horders : 256 * g.market.symbols ≤ lim) (hlevels : kCap ≤ cap) (hrefs : g.market.total ≤ 1 + g.market.symbols + 2 ^ 64)
    (hok : g.writer.ok = true) (hrec : g.writer.records < 2 ^ 64) (hbuf : kMaxMessageLength ≤ g.buf.length) :
    ∃ xs g', (∀ d, ∀ fuel > n, loop D (d + 3) fuel g = some (g', true)) ∧ xs.length = n ∧ Taken mb xs ∧ Wrote g g' xs := by
  induction n generalizing c g mb with
  | zero =>
    obtain ⟨m', hrun, -⟩ := h.next_end hn D hbuf
    refine ⟨[], { g with market := m' }, fun d fuel hf => ?_, rfl, trivial, ?_⟩
    · cases fuel with
      | zero => cases hf
      | succ fuel => rw [loop, hrun (d + 3)]
    · exact ⟨fun x hx => absurd hx List.not_mem_nil, .nil, hok, by simp, (Nat.mod_eq_of_lt hrec).symm, rfl⟩
  | succ n ih =>
    have hmore : g.market.sent < g.market.total := by omega
    have hc := h.stage.refs_le
    have hc64 : c < 2 ^ 64 := by omega
    obtain ⟨m', w, msg, hrun, hs⟩ := h.next hmore horders hlevels hc64 D hbuf
    obtain ⟨hlen, hpos, hmax⟩ := next_room h hmore horders hlevels hc64 D hbuf hrun
    let x : Record := ⟨w.ts, w.out.take w.len⟩
    have hbound : kMaxMessageLength ≤ w.out.length := hlen ▸ hbuf
    have hsize : x.payload.length = w.len := by
      rw [List.length_take]
      omega
    have hx : x.Fits := by
      unfold Record.Fits
      rw [hsize]
      exact ⟨hpos, hmax.trans (by decide)⟩
    have hts : w.ts = m'.ts := hs.ts
    have htop := hs.linked.sane.ts
    unfold Synthetic.kMaxTimestamp at htop
    have hwrite := CaptureWriter.write_eq hok x
    rw [if_pos hx] at hwrite
    let writer : CaptureWriter := { g.writer with contents := g.writer.contents ++ x.bytes, records := add64 g.writer.records 1 }
    let g₁ : Gen σ := { market := m', writer := writer, digest := digested g.digest x, buf := w.out }
    have hsent : m'.sent + n = m'.total := by
      rw [hs.sent, hs.total]
      omega
    obtain ⟨xs, g', hloop, hcount, htaken, hw⟩ := ih (g := g₁) hs.linked hsent (by rw [hs.symbols]; exact horders)
      (by rw [hs.total, hs.symbols]; exact hrefs) hok (Nat.mod_lt _ (by decide)) hbound
    refine ⟨x :: xs, g', fun d fuel hf => ?_, by rw [List.length_cons, hcount], ⟨msg, hs.decoded, hs.taken, htaken⟩, ?_⟩
    · cases fuel with
      | zero => cases hf
      | succ fuel =>
        rw [loop, hrun d]
        dsimp only
        rw [hwrite]
        exact hloop d fuel (by omega)
    · refine ⟨fun y hy => ?_, ?_, hw.ok, ?_, ?_, hw.digest⟩
      · rcases List.mem_cons.mp hy with rfl | hy
        · refine ⟨hx, hs.later.trans hts.ge, ?_⟩
          show w.ts < 2 ^ 48
          omega
        · obtain ⟨hfit, hlater, hlt⟩ := hw.fits y hy
          exact ⟨hfit, hs.later.trans hlater, hlt⟩
      · refine List.pairwise_cons.mpr ⟨fun y hy => ?_, hw.ordered⟩
        show w.ts ≤ y.ts
        rw [hts]
        exact (hw.fits y hy).2.1
      · rw [hw.contents, List.flatMap_cons, ← List.append_assoc]
      · rw [hw.records, List.length_cons]
        show (add64 g.writer.records 1 + xs.length) % 2 ^ 64 = _
        unfold add64
        omega

/-! ## The file -/

/-- The tool from start to end, with books that hear the file. -/
theorem main_wrote (D : Draws σ) (cfg : SyntheticConfig) (r : σ) {buf : List Byte} (hbuf : kMaxMessageLength ≤ buf.length)
    (hrefs : 24 * max cfg.symbols.toNat 1 + cfg.messages.toNat ≤ 2 ^ 64) (bc : MarketBooks.Config)
    (horders : 256 * max cfg.symbols.toNat 1 ≤ bc.maxOrders) (hlevels : kCap ≤ bc.maxLevelsPerSide)
    (hsymbols : max cfg.symbols.toNat 1 ≤ bc.maxSymbols) :
    ∃ xs contents, (∀ d, ∀ fuel > xs.length, main D (d + 3) fuel cfg r buf true =
        some (.ok ⟨xs.length % 2 ^ 64, contents.length, (xs.foldl digested {}).value⟩, contents)) ∧
      contents = CaptureWriter.captureHeader ++ xs.flatMap Record.bytes ∧
      xs.length = 1 + 25 * max cfg.symbols.toNat 1 + cfg.messages.toNat ∧ Taken (.new bc) xs ∧
      (∀ x ∈ xs, x.Fits ∧ x.ts < 2 ^ 48) ∧ xs.Pairwise fun x y => x.ts ≤ y.ts := by
  let writer := CaptureWriter.new true
  have hok : writer.ok = true := by decide
  let g : Gen σ := { market := .new cfg r, writer := writer, buf := buf }
  have htotal : g.market.total = 1 + 25 * max cfg.symbols.toNat 1 + cfg.messages.toNat := by
    show 1 + max cfg.symbols.toNat 1 + max cfg.symbols.toNat 1 * 24 + cfg.messages.toNat = _
    omega
  have hnew : Synthetic.Linked bc.maxOrders bc.maxLevelsPerSide 0 g.market (.new bc) := .new cfg r bc hsymbols
  have hlim : g.market.total ≤ 1 + g.market.symbols + 2 ^ 64 := by
    rw [htotal]
    show _ ≤ 1 + max cfg.symbols.toNat 1 + 2 ^ 64
    omega
  have hsent : g.market.sent + g.market.total = g.market.total := Nat.zero_add _
  have hrec : g.writer.records < 2 ^ 64 := show 0 < 2 ^ 64 by decide
  obtain ⟨xs, g', hloop, hlen, htaken, hw⟩ := loop_wrote D _ hnew hsent horders hlevels hlim hok hrec hbuf
  have hcontents : g'.writer.contents = CaptureWriter.captureHeader ++ xs.flatMap Record.bytes := hw.contents
  have hrecords : g'.writer.records = xs.length % 2 ^ 64 := by
    rw [hw.records]
    show (0 + xs.length) % 2 ^ 64 = _
    rw [Nat.zero_add]
  refine ⟨xs, g'.writer.contents, fun d fuel hf => ?_, hcontents, hlen.trans htotal, htaken, fun x hx => ?_, hw.ordered⟩
  · have hrun := hloop d fuel (hlen ▸ hf)
    have hclosed : g'.writer.close.1 = true := by
      have hopen := hw.ok
      rw [CaptureWriter.ok, Bool.and_eq_true] at hopen
      exact hopen.2
    unfold main
    dsimp only
    rw [if_neg (by decide), hrun, Option.map_some]
    dsimp only
    rw [if_neg (by decide), if_neg (by rw [hclosed]; decide)]
    show some (Except.ok (Printed.mk g'.writer.records g'.writer.contents.length g'.digest.value), g'.writer.contents) = _
    rw [hrecords, hw.digest]
  · obtain ⟨hfits, -, hlt⟩ := hw.fits x hx
    exact ⟨hfits, hlt⟩

end Gen

/-- A file of records that fit is read back whole. -/
theorem reads_back {xs : List Record} (hxs : ∀ x ∈ xs, x.Fits ∧ x.ts < 2 ^ 48) :
    ∃ r', (∀ fuel > xs.length, CaptureReader.readAll fuel (CaptureWriter.captureHeader ++ xs.flatMap Record.bytes) =
      some (xs, r')) ∧ r'.error = none := by
  have hall : CaptureWriter.accepted xs = xs :=
    List.filter_eq_self.mpr fun x hx => decide_eq_true (hxs x hx).1
  have hfile := CaptureWriter.captured_eq xs
  have hlen := CaptureReader.length_captured xs
  have htimes : ∀ x ∈ xs, x.ts < 2 ^ 64 := fun x hx => (hxs x hx).2.trans (by decide)
  obtain ⟨k, hle, r', hp, hk, he⟩ := CaptureReader.pulls_captured htimes le_rfl
  rw [hall] at hfile hlen hle hp hk he
  rw [List.take_length] at hp
  have hwhole : xs.length ≤ k := by
    cases hcount : xs.length with
    | zero => exact Nat.zero_le k
    | succ j =>
      have hlast := hk j (by omega)
      rw [hlen, hcount] at hlast
      exact hlast.mp le_rfl
  rw [List.take_of_length_le hwhole, hfile] at hp
  rw [if_pos ⟨_, le_rfl, hlen⟩] at he
  exact ⟨r', hp.mono hle, he⟩

/-- The messages of records, as decoded. -/
def messages (xs : List Record) : List (Option Message) := xs.map fun x => (decode x.payload).toOption

theorem Taken.replay {mb : MarketBooks} {xs : List Record} (h : Taken mb xs) :
    (Engine.replay mb (messages xs)).2.length = xs.length ∧
      ∀ a ∈ (Engine.replay mb (messages xs)).2, a.2 = Synthetic.accepted a.1 := by
  have hfold : ∀ (seen : List (Message × Applied)) (mb : MarketBooks), Taken mb xs → ∃ told,
      ((messages xs).foldl Engine.hear (mb, seen)).2 = seen ++ told ∧ told.length = xs.length ∧
        ∀ a ∈ told, a.2 = Synthetic.accepted a.1 := by
    clear h
    induction xs with
    | nil => exact fun seen mb _ => ⟨[], (List.append_nil seen).symm, rfl, fun a ha => absurd ha List.not_mem_nil⟩
    | cons x xs ih =>
      rintro seen mb ⟨msg, hmsg, hans, hrest⟩
      obtain ⟨told, htold, hlen, hall⟩ := ih (seen ++ [(msg, (mb.on msg).2)]) (mb.on msg).1 hrest
      refine ⟨(msg, (mb.on msg).2) :: told, ?_, by rw [List.length_cons, List.length_cons, hlen], fun a ha => ?_⟩
      · rw [messages, List.map_cons, List.foldl_cons, hmsg, List.append_cons]
        exact htold
      · rcases List.mem_cons.mp ha with rfl | ha
        · exact hans
        · exact hall a ha
  obtain ⟨told, htold, hlen, hall⟩ := hfold [] mb h
  rw [List.nil_append] at htold
  unfold Engine.replay
  rw [htold]
  exact ⟨hlen, hall⟩

/-- **A generated file is the market it was generated from.** Whatever is drawn and whatever the buffer held, the tool ends
without an error. A reader of its file finds no error and one record for each message of the market, in the order of time;
the count it printed is theirs, up to 64 bits, the size is that of the file, and the digest is that of the records found. And
books with room for the market that hear the file skip nothing and refuse nothing. -/
theorem generated_file_is_the_market {σ : Type} (D : Draws σ) (cfg : SyntheticConfig) (r : σ) (buf : List Byte)
    (hbuf : buf.length = kMaxMessageLength) (hrefs : 24 * max cfg.symbols.toNat 1 + cfg.messages.toNat ≤ 2 ^ 64) :
    ∃ xs p contents, (∀ depth ≥ 3, ∀ fuel > xs.length, Gen.main D depth fuel cfg r buf true = some (.ok p, contents)) ∧
      (∃ r', (∀ fuel > xs.length, CaptureReader.readAll fuel contents = some (xs, r')) ∧ r'.error = none) ∧
      xs.length = 1 + 25 * max cfg.symbols.toNat 1 + cfg.messages.toNat ∧ (xs.Pairwise fun x y => x.ts ≤ y.ts) ∧
      p.records = xs.length % 2 ^ 64 ∧ p.bytes = contents.length ∧ p.digest = (xs.foldl digested {}).value ∧
      ∀ bc : MarketBooks.Config, 256 * max cfg.symbols.toNat 1 ≤ bc.maxOrders → kCap ≤ bc.maxLevelsPerSide →
        max cfg.symbols.toNat 1 ≤ bc.maxSymbols →
        (Engine.replay (.new bc) (messages xs)).2.length = xs.length ∧
          ∀ a ∈ (Engine.replay (.new bc) (messages xs)).2, a.2 = Synthetic.accepted a.1 := by
  let room : MarketBooks.Config := ⟨256 * max cfg.symbols.toNat 1, kCap, max cfg.symbols.toNat 1⟩
  obtain ⟨xs, contents, hmain, hfile, hlen, -, hfits, hordered⟩ :=
    Gen.main_wrote D cfg r hbuf.ge hrefs room le_rfl le_rfl le_rfl
  obtain ⟨r', hread, herr⟩ := reads_back hfits
  refine ⟨xs, ⟨_, _, _⟩, contents, fun depth hdepth fuel hf => ?_, ⟨r', hfile ▸ hread, herr⟩, hlen, hordered, rfl, rfl, rfl,
    fun bc horders hlevels hsymbols => ?_⟩
  · obtain ⟨d, rfl⟩ := Nat.exists_eq_add_of_le' hdepth
    exact hmain d fuel hf
  · -- the file is the same whatever books hear it, and so are its records
    obtain ⟨ys, contents', hmain', hfile', hlen', htaken, hfits', -⟩ :=
      Gen.main_wrote D cfg r hbuf.ge hrefs bc horders hlevels hsymbols
    obtain ⟨_, hread', -⟩ := reads_back hfits'
    have hsame := (hmain 0 (xs.length + 1) (Nat.lt_succ_self _)).symm.trans
      (hmain' 0 (xs.length + 1) (by rw [hlen, ← hlen']; exact Nat.lt_succ_self _))
    rw [Option.some.injEq, Prod.mk.injEq] at hsame
    have hreads := hread (xs.length + 1) (Nat.lt_succ_self _)
    rw [← hfile, hsame.2, hfile', hread' (xs.length + 1) (by rw [hlen, ← hlen']; exact Nat.lt_succ_self _),
      Option.some.injEq, Prod.mk.injEq] at hreads
    rw [← hreads.1]
    exact htaken.replay

/-- The tool without arguments but the file, and books of the usual size. -/
theorem generated_file_is_the_market_by_default : ∃ xs p contents,
    Gen.main Rng.source 3 100202 {} (Rng.new 1) (List.replicate 44 0) true = some (.ok p, contents) ∧
      (∃ r', CaptureReader.readAll 100202 contents = some (xs, r')) ∧ xs.length = 100201 ∧ p.records = 100201 ∧
      ∀ a ∈ (Engine.replay (.new {}) (messages xs)).2, a.2 = Synthetic.accepted a.1 := by
  obtain ⟨xs, p, contents, hmain, ⟨r', hread, -⟩, hlen, -, hrecords, -, -, hbooks⟩ :=
    generated_file_is_the_market Rng.source {} (Rng.new 1) (List.replicate 44 0) rfl (by decide)
  have hcount : xs.length = 100201 := hlen
  have hfuel : 100202 > xs.length := by omega
  refine ⟨xs, p, contents, hmain 3 le_rfl _ hfuel, ⟨r', hread _ hfuel⟩, hcount, ?_,
    (hbooks {} (by decide) (by decide) (by decide)).2⟩
  rw [hrecords, hcount]
  rfl

end OptiTrade.Replay
