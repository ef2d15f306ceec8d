import OptiTrade.Synthetic.Stages

/-! # A consumer of the synthetic market

Each call of `next` gets a buffer; what it writes there is decoded and put into the books. The stream is clean up
to its end, whatever is drawn and whatever buffers it gets. -/

namespace OptiTrade.Synthetic
set_option autoImplicit false

open Book (MarketBooks Holds Applied OrderInfo)
open Itch (Message decode encode)

/-- A message as the consumer saw it, and the books it was applied to. -/
structure Seen where
  written : Market.Written
  message : Message
  applied : Applied
  books : MarketBooks

/-- The generator, the books that hear it, and all that was heard. -/
structure Feeder (σ : Type) where
  gen : Market σ
  books : MarketBooks
  seen : List Seen := []
  decodeErrors : Nat := 0

namespace Feeder
variable {σ : Type}

def new (cfg : SyntheticConfig) (r : σ) (bc : MarketBooks.Config) : Feeder σ := { gen := .new cfg r, books := .new bc }

/-- A call with a buffer. -/
def call (D : Draws σ) (depth : Nat) (f : Feeder σ) (out : List Byte) : Option (Feeder σ) :=
  (f.gen.next D depth out).map fun p =>
    match p.2 with
    | none => { f with gen := p.1 }
    | some w =>
      match decode (w.out.take w.len) with
      | .ok msg =>
        { f with gen := p.1, books := (f.books.on msg).1, seen := f.seen ++ [⟨w, msg, (f.books.on msg).2, f.books⟩] }
      | .error _ => { f with gen := p.1, decodeErrors := f.decodeErrors + 1 }

def calls (D : Draws σ) (depth : Nat) (f : Feeder σ) (bufs : List (List Byte)) : Option (Feeder σ) :=
  bufs.foldlM (call D depth) f

theorem calls_append (D : Draws σ) (depth : Nat) (f : Feeder σ) (bufs bufs' : List (List Byte)) :
    f.calls D depth (bufs ++ bufs') = (f.calls D depth bufs).bind fun f => f.calls D depth bufs' := List.foldlM_append

theorem call_short (D : Draws σ) (depth : Nat) (f : Feeder σ) {out : List Byte} (hout : ¬kMaxMessageLength ≤ out.length) :
    f.call D depth out = some f := by
  unfold call Market.next
  dsimp only
  rw [if_pos (Nat.lt_of_not_le hout), Option.map_some]

end Feeder

/-! ## One call -/

theorem wireLength_le (msg : Message) : msg.wireLength ≤ kMaxMessageLength := by
  unfold Message.wireLength
  split
  · decide
  · decide
  · split_ifs <;> decide
  · decide
  · decide
  · decide
  · decide
  · decide
  · decide

theorem Stage.retime {σ : Type} {c : Nat} {m : Market σ} (h : Stage c m) (r : σ) (ts emitted : Nat) :
    Stage c { m with rng := r, ts := ts, emitted := emitted } := by
  cases h with
  | opening h₁ h₂ h₃ h₄ h₅ => exact .opening h₁ h₂ h₃ h₄ h₅
  | directory h₁ h₂ h₃ h₄ h₅ => exact .directory h₁ h₂ h₃ h₄ h₅
  | preamble h₁ h₂ h₃ h₄ h₅ => exact .preamble h₁ h₂ h₃ h₄ ⟨h₅.population, h₅.around, h₅.first, h₅.second⟩
  | flow h₁ h₂ h₃ h₄ h₅ =>
    exact .flow h₁ h₂ h₃ h₄ fun h0 =>
      ⟨(h₅ h0).1, (h₅ h0).2.population, (h₅ h0).2.around, (h₅ h0).2.first, (h₅ h0).2.second⟩
  | done h₁ h₂ h₃ => exact .done h₁ h₂ h₃

namespace Linked
variable {σ : Type} {lim cap c : Nat} {m : Market σ} {mb : MarketBooks}

theorem retime (h : Linked lim cap c m mb) (r : σ) {ts : Nat} (hts : ts ≤ kMaxTimestamp) (emitted : Nat) :
    Linked lim cap c { m with rng := r, ts := ts, emitted := emitted } mb where
  sane := h.sane.same rfl rfl rfl rfl hts h.sane.matchNo
  holds := by
    have hlive : ({ m with rng := r, ts := ts, emitted := emitted } : Market σ).live = m.live :=
      Market.live_congr rfl fun _ _ => rfl
    rw [hlive]
    exact h.holds
  stage := h.stage.retime r ts emitted
  listed := fun hp => ⟨(h.listed hp).unnamed, (h.listed hp).unbound, (h.listed hp).size, (h.listed hp).limit⟩

theorem advanceTime (h : Linked lim cap c m mb) (D : Draws σ) :
    Linked lim cap c (m.advanceTime D) mb ∧ m.ts ≤ (m.advanceTime D).ts := by
  have hts := h.sane.ts
  have hbounds : m.ts ≤ (m.advanceTime D).ts ∧ (m.advanceTime D).ts ≤ kMaxTimestamp := by
    unfold Market.advanceTime
    dsimp only
    split_ifs <;> omega
  exact ⟨h.retime _ hbounds.2 m.emitted, hbounds.1⟩

theorem finish (h : Linked lim cap c m mb) (hphase : m.phase = .flow) (hend : m.flowTotal ≤ m.flowIndex) :
    Linked lim cap c { m with phase := .done } mb := by
  refine ⟨h.sane.same rfl rfl rfl rfl h.sane.ts h.sane.matchNo, ?_, ?_, fun hp => ?_⟩
  · have hlive : ({ m with phase := .done } : Market σ).live = m.live := Market.live_congr rfl fun _ _ => rfl
    rw [hlive]
    exact h.holds
  · cases h.stage with
    | flow _ _ hmax hflow => exact .done rfl hmax (Nat.le_antisymm hflow hend)
    | opening hp => exact absurd (hphase.symm.trans hp) (by decide)
    | directory hp => exact absurd (hphase.symm.trans hp) (by decide)
    | preamble hp => exact absurd (hphase.symm.trans hp) (by decide)
    | done hp => exact absurd (hphase.symm.trans hp) (by decide)
  · rcases hp with hp | hp <;> cases hp

end Linked

theorem Market.next_some {σ : Type} {m : Market σ} {D : Draws σ} {depth : Nat} {p : Market σ × Message} {out : List Byte}
    (hrun : (m.advanceTime D).generate D depth = some p) (hnot : ¬(m.phase = .flow ∧ m.flowTotal ≤ m.flowIndex))
    (hgoing : m.phase ≠ .done) (hwired : Wired (m.advanceTime D).ts p.2) (hts : (m.advanceTime D).ts ≤ kMaxTimestamp)
    (hout : kMaxMessageLength ≤ out.length) :
    m.next D depth out =
        some ({ p.1 with emitted := add64 p.1.emitted 1 }, some ⟨(encode p.2 out).1, (encode p.2 out).2, p.1.ts⟩) ∧
      decode ((encode p.2 out).1.take (encode p.2 out).2) = .ok p.2 := by
  obtain ⟨hlen, hbytes, -⟩ := Itch.encode_written hwired.typed (Itch.fits_of_encodable (hwired.encodable hts))
    ((wireLength_le p.2).trans hout)
  have hpos := p.2.wireLength_pos
  constructor
  · unfold Market.next
    dsimp only
    rw [if_neg (Nat.not_lt.mpr hout), if_neg hnot, if_neg hgoing, hrun, Option.map_some, if_pos (by rw [hlen]; omega)]
  · rw [hlen, hbytes]
    exact Itch.decode_fields hwired.typed (hwired.encodable hts)

/-- What a call has written, and what comes of it. -/
structure Served {σ : Type} (lim cap c : Nat) (m : Market σ) (mb : MarketBooks) (m' : Market σ) (w : Market.Written)
    (msg : Message) : Prop where
  decoded : decode (w.out.take w.len) = .ok msg
  ts : w.ts = m'.ts
  later : m.ts ≤ m'.ts
  wired : Wired w.ts msg
  taken : (mb.on msg).2 = accepted msg
  linked : Linked lim cap (c + issues msg) m' (mb.on msg).1
  foremost : ∀ ref, executes msg = some ref → Foremost mb ref
  sent : m'.sent = m.sent + 1
  symbols : m'.symbols = m.symbols
  total : m'.total = m.total

namespace Linked
variable {σ : Type} {lim cap c : Nat} {m : Market σ} {mb : MarketBooks} {out : List Byte}

theorem not_over (h : Linked lim cap c m mb) (hmore : m.sent < m.total) :
    ¬(m.phase = .flow ∧ m.flowTotal ≤ m.flowIndex) ∧ m.phase ≠ .done := by
  constructor
  · rintro ⟨hphase, hend⟩
    rw [Market.sent_flow hphase] at hmore
    exact absurd (Nat.lt_of_add_lt_add_left hmore) (Nat.not_lt.mpr hend)
  · intro hphase
    cases h.stage with
    | done _ _ hflow =>
      rw [Market.sent_done hphase, hflow] at hmore
      exact absurd hmore (lt_irrefl _)
    | opening hp => exact absurd (hphase.symm.trans hp) (by decide)
    | directory hp => exact absurd (hphase.symm.trans hp) (by decide)
    | preamble hp => exact absurd (hphase.symm.trans hp) (by decide)
    | flow hp => exact absurd (hphase.symm.trans hp) (by decide)

/-- **A call writes the next message.** -/
theorem next (h : Linked lim cap c m mb) (hmore : m.sent < m.total) (hlim : 256 * m.symbols ≤ lim) (hcap : kCap ≤ cap)
    (hc64 : c < 2 ^ 64) (D : Draws σ) (hout : kMaxMessageLength ≤ out.length) :
    ∃ m' w msg, (∀ d, m.next D (d + 3) out = some (m', some w)) ∧ Served lim cap c m mb m' w msg := by
  obtain ⟨hnot, hgoing⟩ := h.not_over hmore
  obtain ⟨hadv, hlater⟩ := h.advanceTime D
  obtain ⟨p, hrun, hp⟩ := hadv.generate hmore hlim hcap hc64 D
  have hnext : ∀ d, _ := fun d => Market.next_some (hrun d) hnot hgoing hp.wired hadv.sane.ts hout
  refine ⟨_, _, p.2, fun d => (hnext d).1, (hnext 0).2, rfl, ?_, ?_, hp.taken, hp.linked.retime p.1.rng hp.linked.sane.ts _,
    hp.foremost, hp.sent, hp.symbols, hp.total⟩
  · show m.ts ≤ p.1.ts
    rw [hp.ts]
    exact hlater
  · show Wired p.1.ts p.2
    rw [hp.ts]
    exact hp.wired

/-- A finished stream writes nothing. -/
theorem next_end (h : Linked lim cap c m mb) (hend : m.sent = m.total) (D : Draws σ) (hout : kMaxMessageLength ≤ out.length) :
    ∃ m', (∀ d, m.next D d out = some (m', none)) ∧ Linked lim cap c m' mb ∧ m'.sent = m.sent ∧ m'.symbols = m.symbols ∧
      m'.total = m.total ∧ m'.ts = m.ts := by
  have hpos := h.sane.symbols_pos
  have hplaces : 0 < m.symbols * kPreambleOrders := Nat.mul_pos hpos (by decide)
  unfold Market.total Market.preambleLength at hend
  cases h.stage with
  | opening hp =>
    unfold Market.sent at hend
    rw [hp] at hend
    dsimp only at hend
    omega
  | directory hp hcursor =>
    rw [Market.sent_directory hp] at hend
    omega
  | preamble hp hcursor =>
    rw [Market.sent_preamble hp] at hend
    omega
  | flow hp hmin hmax hflow =>
    have hover : m.flowTotal ≤ m.flowIndex := by
      rw [Market.sent_flow hp] at hend
      unfold Market.preambleLength at hend
      omega
    refine ⟨{ m with phase := .done }, fun d => ?_, h.finish hp hover, (Market.sent_flow hp).symm, rfl, rfl, rfl⟩
    have hm : (if m.phase = .flow ∧ m.flowTotal ≤ m.flowIndex then { m with phase := .done } else m) = { m with phase := .done } :=
      if_pos ⟨hp, hover⟩
    unfold Market.next
    dsimp only
    rw [if_neg (Nat.not_lt.mpr hout), hm, if_pos rfl]
  | done hp hmax hflow =>
    refine ⟨m, fun d => ?_, h, rfl, rfl, rfl, rfl⟩
    have hm : (if m.phase = .flow ∧ m.flowTotal ≤ m.flowIndex then { m with phase := .done } else m) = m :=
      if_neg fun hf => absurd (hp.symm.trans hf.1) (by decide)
    unfold Market.next
    dsimp only
    rw [if_neg (Nat.not_lt.mpr hout), hm, if_pos hp]

end Linked

/-! ## Every call -/

/-- What a consumer has seen of one message. -/
structure Seen.Ok (e : Seen) : Prop where
  applied : e.applied = (e.books.on e.message).2 ∧ e.applied = accepted e.message
  timed : e.message.header.timestamp = e.written.ts ∧ e.written.ts < 2 ^ 48
  priced : Priced e.message
  foremost : ∀ ref, executes e.message = some ref → Foremost e.books ref

/-- A consumer after `n` calls whose buffers were large enough. -/
structure Fed {σ : Type} (lim cap n : Nat) (f : Feeder σ) : Prop where
  linked : ∃ c, Linked lim cap c f.gen f.books
  orders : 256 * f.gen.symbols ≤ lim
  levels : kCap ≤ cap
  decoded : f.decodeErrors = 0
  sent : f.seen.length = f.gen.sent ∧ f.gen.sent = min n f.gen.total
  seen : ∀ e ∈ f.seen, e.Ok ∧ e.written.ts ≤ f.gen.ts
  ordered : f.seen.Pairwise fun e e' => e.written.ts ≤ e'.written.ts

namespace Fed
variable {σ : Type} {lim cap n : Nat} {f : Feeder σ}

theorem new (cfg : SyntheticConfig) (r : σ) (bc : MarketBooks.Config) (horders : 256 * max cfg.symbols.toNat 1 ≤ bc.maxOrders)
    (hlevels : kCap ≤ bc.maxLevelsPerSide) (hsymbols : max cfg.symbols.toNat 1 ≤ bc.maxSymbols) :
    Fed bc.maxOrders bc.maxLevelsPerSide 0 (Feeder.new cfg r bc) where
  linked := ⟨0, .new cfg r bc hsymbols⟩
  orders := horders
  levels := hlevels
  decoded := rfl
  sent := ⟨rfl, (Nat.zero_min _).symm⟩
  seen := fun _ he => absurd he List.not_mem_nil
  ordered := List.Pairwise.nil

/-- **One call**, as long as the counter of the references has not come round. -/
theorem call (h : Fed lim cap n f) (hrefs : f.gen.sent < f.gen.total → f.gen.sent < 1 + f.gen.symbols + 2 ^ 64) (D : Draws σ)
    (out : List Byte) : ∃ f', (∀ d, f.call D (d + 3) out = some f') ∧
    Fed lim cap (n + if kMaxMessageLength ≤ out.length then 1 else 0) f' ∧ f'.gen.total = f.gen.total ∧
    f'.gen.symbols = f.gen.symbols := by
  obtain ⟨⟨c, hl⟩, horders, hlevels, hdecoded, ⟨hlen, hsent⟩, hseen, hordered⟩ := h
  by_cases hout : kMaxMessageLength ≤ out.length
  · rw [if_pos hout]
    by_cases hmore : f.gen.sent < f.gen.total
    · have hc := hl.stage.refs_le
      have hrefs := hrefs hmore
      obtain ⟨m', w, msg, hrun, hs⟩ := hl.next hmore horders hlevels (by omega) D hout
      refine ⟨{ f with gen := m', books := (f.books.on msg).1, seen := f.seen ++ [⟨w, msg, (f.books.on msg).2, f.books⟩] },
        fun d => ?_, ⟨⟨_, hs.linked⟩, ?_, hlevels, hdecoded, ⟨?_, ?_⟩, fun e he => ?_, ?_⟩, hs.total, hs.symbols⟩
      · unfold Feeder.call
        rw [hrun, Option.map_some]
        dsimp only
        rw [hs.decoded]
      · show 256 * m'.symbols ≤ lim
        rw [hs.symbols]
        exact horders
      · rw [List.length_append, hlen]
        exact hs.sent.symm
      · show m'.sent = min (n + 1) m'.total
        rw [hs.sent, hs.total]
        omega
      · have hm' := hs.linked.sane.ts
        have hts : w.ts ≤ kMaxTimestamp := hs.ts ▸ hm'
        rcases List.mem_append.mp he with he | he
        · obtain ⟨hok, hle⟩ := hseen e he
          exact ⟨hok, hle.trans hs.later⟩
        · rw [List.mem_singleton.mp he]
          refine ⟨⟨⟨rfl, hs.taken⟩, ⟨hs.wired.time, ?_⟩, hs.wired.priced, hs.foremost⟩, hs.ts.le⟩
          show w.ts < 2 ^ 48
          unfold kMaxTimestamp at hts
          omega
      · refine List.pairwise_append.mpr ⟨hordered, List.pairwise_singleton _ _, fun e he e' he' => ?_⟩
        rw [List.mem_singleton.mp he']
        show e.written.ts ≤ w.ts
        rw [hs.ts]
        exact (hseen e he).2.trans hs.later
    · have hend : f.gen.sent = f.gen.total := Nat.le_antisymm hl.stage.sent_le (Nat.not_lt.mp hmore)
      obtain ⟨m', hrun, hl', hsent', hsymbols', htotal', hts'⟩ := hl.next_end hend D hout
      refine ⟨{ f with gen := m' }, fun d => ?_, ⟨⟨c, hl'⟩, ?_, hlevels, hdecoded, ⟨?_, ?_⟩, fun e he => ?_, hordered⟩,
        htotal', hsymbols'⟩
      · unfold Feeder.call
        rw [hrun, Option.map_some]
      · show 256 * m'.symbols ≤ lim
        rw [hsymbols']
        exact horders
      · show f.seen.length = m'.sent
        rw [hsent', hlen]
      · show m'.sent = min (n + 1) m'.total
        rw [hsent', htotal']
        omega
      · show e.Ok ∧ e.written.ts ≤ m'.ts
        rw [hts']
        exact hseen e he
  · rw [if_neg hout]
    exact ⟨f, fun d => f.call_short D (d + 3) hout, ⟨⟨c, hl⟩, horders, hlevels, hdecoded, ⟨hlen, hsent⟩, hseen, hordered⟩,
      rfl, rfl⟩

theorem calls (h : Fed lim cap n f) (D : Draws σ) (bufs : List (List Byte))
    (hrefs : min (n + bufs.countP fun out => kMaxMessageLength ≤ out.length) f.gen.total ≤ 1 + f.gen.symbols + 2 ^ 64) :
    ∃ f', (∀ d, f.calls D (d + 3) bufs = some f') ∧
      Fed lim cap (n + bufs.countP fun out => kMaxMessageLength ≤ out.length) f' ∧ f'.gen.total = f.gen.total ∧
      f'.gen.symbols = f.gen.symbols := by
  induction bufs generalizing n f with
  | nil => exact ⟨f, fun _ => rfl, h, rfl, rfl⟩
  | cons out bufs ih =>
    rw [List.countP_cons] at hrefs ⊢
    simp only [decide_eq_true_eq] at hrefs ⊢
    rw [Nat.add_comm (List.countP _ _), ← Nat.add_assoc] at hrefs ⊢
    have hsent := h.sent.2
    by_cases hout : kMaxMessageLength ≤ out.length
    · obtain ⟨f₁, hrun₁, h₁, htotal₁, hsymbols₁⟩ := h.call (fun hmore => by rw [if_pos hout] at hrefs; omega) D out
      obtain ⟨f₂, hrun₂, h₂, htotal₂, hsymbols₂⟩ := ih h₁ (by rw [htotal₁, hsymbols₁]; exact hrefs)
      refine ⟨f₂, fun d => ?_, h₂, htotal₂.trans htotal₁, hsymbols₂.trans hsymbols₁⟩
      show ((f.call D (d + 3) out).bind fun f => bufs.foldlM (Feeder.call D (d + 3)) f) = some f₂
      rw [hrun₁]
      exact hrun₂ d
    · -- a buffer that is too small leaves everything as it is
      rw [if_neg hout] at hrefs ⊢
      obtain ⟨f₂, hrun₂, h₂, htotal₂, hsymbols₂⟩ := ih h hrefs
      refine ⟨f₂, fun d => ?_, h₂, htotal₂, hsymbols₂⟩
      show ((f.call D (d + 3) out).bind fun f => bufs.foldlM (Feeder.call D (d + 3)) f) = some f₂
      rw [f.call_short D (d + 3) hout]
      exact hrun₂ d

end Fed
end OptiTrade.Synthetic
