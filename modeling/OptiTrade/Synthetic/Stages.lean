import OptiTrade.Synthetic.Messages
import OptiTrade.Synthetic.Names

/-! # From one message to the next

The stream opens with an event, lists the symbols, fills every book with six levels a side, and then flows. `Linked`
is the state of a market and of the books that were fed all of its messages; one call of a generator keeps it. -/

namespace OptiTrade.Synthetic
set_option autoImplicit false

open Book (MarketBooks Holds Applied)
open Itch (Message)

/-! ## The first state -/

/-- The walls around a fair value leave room for a passive price. -/
theorem Sym.Ok.walls {tick : Int} (base : Int) (htick : 1 ≤ tick) (htick' : tick ≤ 1000000) (hlow : 32 * tick ≤ base)
    (hhigh : base ≤ 1124000000) (name : Symbol) :
    Sym.Ok tick
      { name := name
        fair := roundTick tick base
        lo := roundTick tick ((roundTick tick base).tdiv 2)
        hi := roundTick tick (roundTick tick base + (roundTick tick base).tdiv 2) } := by
  have hfair := le_roundTick htick (by omega) hlow
  have hfair' := roundTick_le (p := base) htick (by omega)
  have hgrid : base.tdiv tick * tick = roundTick tick base := rfl
  generalize roundTick tick base = fair at hfair hfair' hgrid
  have hhalf : fair.tdiv 2 = fair / 2 := Int.tdiv_eq_ediv_of_nonneg (by omega)
  rw [hhalf]
  refine ⟨le_roundTick htick (by omega) (by omega), ?_, ?_, ?_⟩
  · have := roundTick_le (p := fair / 2) htick (by omega)
    show roundTick tick (fair / 2) ≤ fair
    omega
  · -- the fair value is on the grid
    show fair ≤ roundTick tick (fair + fair / 2)
    rw [← hgrid]
    exact le_roundTick htick (by omega) (by omega)
  · have := roundTick_le (p := fair + fair / 2) htick (by omega)
    show roundTick tick (fair + fair / 2) ≤ 1686000000
    omega

theorem Sane.new {σ : Type} (cfg : SyntheticConfig) (r : σ) : Sane 0 (Market.new cfg r) := by
  have htick : 1 ≤ clamp cfg.tick 1 1000000 ∧ clamp cfg.tick 1 1000000 ≤ 1000000 := clamp_bounds (by decide)
  obtain ⟨htick, htick'⟩ := htick
  have hsymbols := cfg.symbols.toNat_lt
  refine ⟨Nat.le_max_right _ _, ?_, htick, htick', fun s => ?_, fun _ => rfl, fun _ _ => Nat.zero_le _, ?_, ?_, rfl,
    show kSessionStart ≤ kMaxTimestamp by decide, show 0 < 2 ^ 64 by decide⟩
  · show max cfg.symbols.toNat 1 ≤ 65535
    omega
  · generalize hk : clamp cfg.tick 1 1000000 = tick at htick htick'
    have hstart : 32 * tick ≤ clamp cfg.startPrice (32 * tick) 1000000000 ∧ clamp cfg.startPrice (32 * tick) 1000000000 ≤ 1000000000 :=
      clamp_bounds (by omega)
    obtain ⟨hstart, hstart'⟩ := hstart
    generalize hs : clamp cfg.startPrice (32 * tick) 1000000000 = start at hstart hstart'
    have hi : (s % 32 : Nat) < 32 := Nat.mod_lt _ (by decide)
    have hspread : 0 ≤ (s % 32 : Nat) * 4 * tick ∧ (s % 32 : Nat) * 4 * tick ≤ 31 * 4 * 1000000 := by
      constructor
      · positivity
      · have hi' : ((s % 32 : Nat) : Int) ≤ 31 := by omega
        nlinarith
    have hwalls := Sym.Ok.walls (start + (s % 32 : Nat) * 4 * tick) htick htick' (by omega) (by omega) (makeSymbol s)
    subst hk hs
    exact hwalls
  · exact fun s side o ho => absurd ho List.not_mem_nil
  · exact fun s side o ho => absurd ho List.not_mem_nil

/-! ## What is not emitted -/

namespace Market
variable {σ : Type} {m m' : Market σ} {s : Nat} {r : σ} {fair : Int} {p : Market σ × Message}

theorem live_congr (hsymbols : m'.symbols = m.symbols) (horders : ∀ s side, m'.orders s side = m.orders s side) :
    m'.live = m.live := by
  unfold live places
  rw [hsymbols]
  exact List.flatMap_congr fun p _ => by rw [horders]

theorem orders_fairStep (m : Market σ) (s : Nat) (r : σ) (fair : Int) (s' : Nat) (side : Side) :
    (m.fairStep s r fair).orders s' side = m.orders s' side := by
  unfold fairStep orders
  dsimp only
  by_cases hs : s' = s
  · subst hs
    rw [Function.update_self]
  · rw [Function.update_of_ne hs]

/-- A generator leaves the stage of the stream to its caller. -/
structure Frame (m m' : Market σ) : Prop where
  symbols : m'.symbols = m.symbols
  flowTotal : m'.flowTotal = m.flowTotal
  phase : m'.phase = m.phase
  cursor : m'.cursor = m.cursor
  flowIndex : m'.flowIndex = m.flowIndex
  ts : m'.ts = m.ts

theorem Frame.reduce (m : Market σ) (s : Nat) (side : Side) (i shares : Nat) : Frame m (m.reduce s side i shares) := by
  unfold Market.reduce
  dsimp only
  split_ifs <;> exact ⟨rfl, rfl, rfl, rfl, rfl, rfl⟩

theorem Emitted.frame (he : Emitted m s p) : Frame m p.1 := by
  cases he with
  | added attributed r hclear hroom hpx hqty => exact ⟨rfl, rfl, rfl, rfl, rfl, rfl⟩
  | deleted r ho => exact ⟨rfl, rfl, rfl, rfl, rfl, rfl⟩
  | @cancelled side i shares o r ho hcut =>
    obtain ⟨h₁, h₂, h₃, h₄, h₅, h₆⟩ := Frame.reduce { m with rng := r } s side i shares
    exact ⟨h₁, h₂, h₃, h₄, h₅, h₆⟩
  | @executed target i shares o r hbest hcut =>
    obtain ⟨h₁, h₂, h₃, h₄, h₅, h₆⟩ := Frame.reduce { m with rng := r, matchNo := add64 m.matchNo 1 } s target i shares
    exact ⟨h₁, h₂, h₃, h₄, h₅, h₆⟩
  | @printed target i shares o px r hbest hcut hpx =>
    obtain ⟨h₁, h₂, h₃, h₄, h₅, h₆⟩ := Frame.reduce { m with rng := r, matchNo := add64 m.matchNo 1 } s target i shares
    exact ⟨h₁, h₂, h₃, h₄, h₅, h₆⟩
  | replaced r ho hpx hqty => exact ⟨rfl, rfl, rfl, rfl, rfl, rfl⟩
  | traded side r hlots => exact ⟨rfl, rfl, rfl, rfl, rfl, rfl⟩
  | event code r => exact ⟨rfl, rfl, rfl, rfl, rfl, rfl⟩

theorem issues_le (msg : Message) : issues msg ≤ 1 := by
  unfold issues
  split <;> omega

end Market

/-- The fair value stays between its walls. -/
theorem Sane.fairStep {σ : Type} {c s : Nat} {m : Market σ} (h : Sane c m) (r : σ) {fair : Int}
    (hfair : fair = (m.syms s).fair ∨ fair = clamp ((m.syms s).fair + m.tick) (m.syms s).lo (m.syms s).hi ∨
      fair = clamp ((m.syms s).fair + -m.tick) (m.syms s).lo (m.syms s).hi) : Sane c (m.fairStep s r fair) := by
  have horders := m.orders_fairStep s r fair
  obtain ⟨h₁, h₂, h₃, h₄⟩ := h.syms s
  have hwalls : (m.syms s).lo ≤ fair ∧ fair ≤ (m.syms s).hi := by
    rcases hfair with rfl | rfl | rfl
    · exact ⟨h₂, h₃⟩
    · exact clamp_bounds (by omega)
    · exact clamp_bounds (by omega)
  refine ⟨h.symbols_pos, h.symbols_le, h.tick_pos, h.tick_le, fun s' => ?_, fun s' => ?_, ?_, ?_, ?_, h.nextRef, h.ts, h.matchNo⟩
  · show (Function.update m.syms s _ s').Ok m.tick
    by_cases hs : s' = s
    · subst hs
      rw [Function.update_self]
      exact ⟨h₁, hwalls.1, hwalls.2, h₄⟩
    · rw [Function.update_of_ne hs]
      exact h.syms s'
  · show (Function.update m.syms s _ s').name = makeSymbol s'
    by_cases hs : s' = s
    · subst hs
      rw [Function.update_self]
      exact h.names s'
    · rw [Function.update_of_ne hs]
      exact h.names s'
  · intro s' side
    rw [horders]
    exact h.room s' side
  · intro s' side
    rw [horders]
    exact h.orders s' side
  · intro s' side
    rw [horders, horders]
    exact h.clear s' side

/-! ## The stages -/

/-- A price on the passive side of the fair value. -/
def Beside (fair : Int) : Side → Int → Prop
  | .buy, px => px < fair
  | .sell, px => fair < px

/-- The books while they are being filled: `cursor` orders have been placed, symbol by symbol. -/
structure Seeded {σ : Type} (m : Market σ) : Prop where
  population : ∀ s, m.population s = min kPreambleOrders (m.cursor - kPreambleOrders * s)
  around : ∀ s side, ∀ o ∈ m.orders s side, Beside (m.syms s).fair side o.price
  /-- The second order joins the level of the first. -/
  first : 1 ≤ m.cursor → ∃ o, (m.orders 0 .buy)[0]? = some o ∧ o.ref = 1 ∧ o.price = (m.syms 0).fair - m.tick
  second : 2 ≤ m.cursor → 2 ≤ (m.orders 0 .buy).length

/-- Where a stream can be when `c` references have been issued. -/
inductive Stage {σ : Type} (c : Nat) (m : Market σ) : Prop
  | opening (hphase : m.phase = .opening) (hcursor : m.cursor = 0) (hc : c = 0) (hflow : m.flowIndex = 0)
      (hempty : ∀ s side, m.orders s side = [])
  | directory (hphase : m.phase = .directory) (hcursor : m.cursor < m.symbols) (hc : c = 0) (hflow : m.flowIndex = 0)
      (hempty : ∀ s side, m.orders s side = [])
  | preamble (hphase : m.phase = .preamble) (hcursor : m.cursor < m.symbols * kPreambleOrders) (hc : c = m.cursor)
      (hflow : m.flowIndex = 0) (hseeded : Seeded m)
  | flow (hphase : m.phase = .flow) (hmin : m.symbols * kPreambleOrders ≤ c)
      (hmax : c ≤ m.symbols * kPreambleOrders + m.flowIndex) (hflow : m.flowIndex ≤ m.flowTotal)
      (hstart : m.flowIndex = 0 → m.cursor = m.symbols * kPreambleOrders ∧ Seeded m)
  | done (hphase : m.phase = .done) (hmax : c ≤ m.symbols * kPreambleOrders + m.flowIndex) (hflow : m.flowIndex = m.flowTotal)

/-- The symbols that the stream has still to list are not known to the books. -/
structure Listed {σ : Type} (m : Market σ) (mb : MarketBooks) : Prop where
  unnamed : ∀ s, m.cursor ≤ s → s < m.symbols → mb.bySymbol.find (makeSymbol s) = none
  unbound : ∀ s, m.cursor ≤ s → s < m.symbols → (mb.slots (s + 1)).symbol.isEmpty = true
  size : mb.bySymbol.size = m.cursor
  limit : m.symbols ≤ mb.bySymbol.limit

/-- The market and the books that were fed its messages. `c` references were issued, and as two orders share the
first level, fewer levels were created from the second order on. -/
structure Linked {σ : Type} (lim cap c : Nat) (m : Market σ) (mb : MarketBooks) : Prop where
  sane : Sane c m
  holds : ∃ n, Holds lim cap n m.live mb ∧ n ≤ c ∧ (2 ≤ c → n < c)
  stage : Stage c m
  listed : m.phase = .opening ∨ m.phase = .directory → Listed m mb

namespace Market
variable {σ : Type} {m : Market σ}

/-- The messages sent. -/
def sent (m : Market σ) : Nat :=
  match m.phase with
  | .opening => 0
  | .directory => 1 + m.cursor
  | .preamble => 1 + m.symbols + m.cursor
  | .flow => m.preambleLength + m.flowIndex
  | .done => m.preambleLength + m.flowIndex

theorem sent_directory (h : m.phase = .directory) : m.sent = 1 + m.cursor := by
  unfold sent
  rw [h]

theorem sent_preamble (h : m.phase = .preamble) : m.sent = 1 + m.symbols + m.cursor := by
  unfold sent
  rw [h]

theorem sent_flow (h : m.phase = .flow) : m.sent = m.preambleLength + m.flowIndex := by
  unfold sent
  rw [h]

theorem sent_done (h : m.phase = .done) : m.sent = m.preambleLength + m.flowIndex := by
  unfold sent
  rw [h]

/-- All messages of the stream. -/
def total (m : Market σ) : Nat := m.preambleLength + m.flowTotal

end Market

theorem Stage.sent_le {σ : Type} {c : Nat} {m : Market σ} (h : Stage c m) : m.sent ≤ m.total := by
  unfold Market.total Market.preambleLength
  cases h with
  | opening hphase =>
    unfold Market.sent
    rw [hphase]
    exact Nat.zero_le _
  | directory hphase hcursor =>
    rw [Market.sent_directory hphase]
    omega
  | preamble hphase hcursor =>
    rw [Market.sent_preamble hphase]
    omega
  | flow hphase hmin hmax hflow =>
    rw [Market.sent_flow hphase]
    exact Nat.add_le_add_left hflow _
  | done hphase hmax hflow =>
    rw [Market.sent_done hphase]
    exact Nat.add_le_add_left hflow.le _

theorem Stage.refs_le {σ : Type} {c : Nat} {m : Market σ} (h : Stage c m) : c ≤ m.sent - (1 + m.symbols) := by
  cases h with
  | opening hphase hcursor hc => omega
  | directory hphase hcursor hc => omega
  | preamble hphase hcursor hc =>
    rw [Market.sent_preamble hphase]
    omega
  | flow hphase hmin hmax =>
    rw [Market.sent_flow hphase]
    unfold Market.preambleLength
    omega
  | done hphase hmax =>
    rw [Market.sent_done hphase]
    unfold Market.preambleLength
    omega

/-- What a generator hands on. -/
structure Handed {σ : Type} (lim cap c : Nat) (m : Market σ) (mb : MarketBooks) (p : Market σ × Message) : Prop where
  wired : Wired m.ts p.2
  taken : (mb.on p.2).2 = accepted p.2
  linked : Linked lim cap (c + issues p.2) p.1 (mb.on p.2).1
  foremost : ∀ ref, executes p.2 = some ref → Foremost mb ref
  sent : p.1.sent = m.sent + 1
  symbols : p.1.symbols = m.symbols
  total : p.1.total = m.total
  ts : p.1.ts = m.ts

/-! ## The opening and the list of symbols -/

namespace Linked
variable {σ : Type} {lim cap c : Nat} {m : Market σ} {mb : MarketBooks}

theorem new (cfg : SyntheticConfig) (r : σ) (bc : MarketBooks.Config) (hsymbols : max cfg.symbols.toNat 1 ≤ bc.maxSymbols) :
    Linked bc.maxOrders bc.maxLevelsPerSide 0 (Market.new cfg r) (.new bc) where
  sane := .new cfg r
  holds := by
    have hempty : (Market.new cfg r).live = [] := by
      unfold Market.live
      exact List.flatMap_eq_nil_iff.mpr fun p _ => rfl
    rw [hempty]
    exact ⟨0, .new bc, le_refl 0, fun h => absurd h (by decide)⟩
  stage := .opening rfl rfl rfl rfl fun _ _ => rfl
  listed := fun _ => by
    have hle := (Sane.new cfg r).symbols_le
    refine ⟨fun _ _ _ => rfl, fun _ _ _ => show Symbol.blank.isEmpty = true by decide, rfl, ?_⟩
    show max cfg.symbols.toNat 1 ≤ min bc.maxSymbols 65536
    exact le_min hsymbols (hle.trans (by decide))

/-- The first message. -/
theorem opening (h : Linked lim cap c m mb) (hphase : m.phase = .opening) :
    Handed lim cap c m mb ({ m with phase := .directory }, .systemEvent ⟨m.header 0, ascii 'O'⟩) := by
  obtain ⟨hs, hb, hst, hl⟩ := h
  have hlisted := hl (.inl hphase)
  cases hst with
  | opening _ hcursor hc hflow hempty =>
    have hpos := hs.symbols_pos
    have hsent : m.sent = 0 := by
      unfold Market.sent
      rw [hphase]
    refine ⟨.unpriced ⟨hs.header_typed 0 (Nat.two_pow_pos 16), trivial⟩ rfl rfl fun a ha => Message.noConfusion ha, rfl,
      ⟨hs.same rfl rfl rfl rfl hs.ts hs.matchNo, hb, ?_, fun _ => ?_⟩, fun ref he => ?_, ?_, rfl, rfl, rfl⟩
    · exact .directory rfl (show m.cursor < m.symbols by omega) hc hflow hempty
    · exact ⟨hlisted.unnamed, hlisted.unbound, hlisted.size, hlisted.limit⟩
    · cases he
    · rw [hsent]
      show 1 + m.cursor = 0 + 1
      omega
  | directory hp => exact absurd (hphase.symm.trans hp) (by decide)
  | preamble hp => exact absurd (hphase.symm.trans hp) (by decide)
  | flow hp => exact absurd (hphase.symm.trans hp) (by decide)
  | done hp => exact absurd (hphase.symm.trans hp) (by decide)

/-- The next symbol and its locate are new. -/
theorem directory (h : Linked lim cap c m mb) (hphase : m.phase = .directory) :
    Handed lim cap c m mb
      (if m.cursor + 1 = m.symbols then { m with cursor := 0, phase := .preamble } else { m with cursor := m.cursor + 1 },
        m.genDirectory) := by
  obtain ⟨hs, ⟨n, hb, hn⟩, hst, hl⟩ := h
  have hlisted := hl (.inr hphase)
  cases hst with
  | directory _ hcursor hc hflow hempty =>
    have hle := hs.symbols_le
    have hloc := hs.locateOf_eq hcursor
    have hname := hs.names m.cursor
    have hsent := Market.sent_directory hphase
    let d : Itch.StockDirectory := ⟨m.header (Market.locateOf m.cursor), (m.syms m.cursor).name, ascii 'Q', ascii 'N', 100, ascii 'N',
      ascii 'C', [ascii 'Z', ascii ' '], ascii 'P', ascii 'N', ascii ' ', ascii '1', ascii 'N', 0, ascii 'N'⟩
    have hd : m.genDirectory = .stockDirectory d := rfl
    obtain ⟨hok, hholds, hins, hslots⟩ := hb.onStockDirectory d
      (by rw [show d.symbol = _ from hname]; exact makeSymbol_isEmpty _)
      (by rw [show d.symbol = _ from hname]; exact hlisted.unnamed m.cursor (le_refl _) hcursor)
      (by rw [show d.h.locate = _ from hloc]; exact hlisted.unbound m.cursor (le_refl _) hcursor)
      (by rw [hlisted.size]; exact lt_of_lt_of_le hcursor hlisted.limit)
    rw [hd]
    have hwired : Wired m.ts (.stockDirectory d) :=
      .unpriced ⟨hs.header_typed _ (Sane.locateOf_lt m.cursor), show 100 < 2 ^ 32 by decide, rfl, show 0 < 2 ^ 32 by decide⟩ rfl rfl fun a ha => Message.noConfusion ha
    by_cases hlast : m.cursor + 1 = m.symbols
    · rw [if_pos hlast]
      refine ⟨hwired, hok, ⟨hs.same rfl rfl rfl rfl hs.ts hs.matchNo, ⟨n, hholds, hn⟩, ?_, fun hp => ?_⟩,
        fun ref he => (by cases he), ?_, rfl, rfl, rfl⟩
      · refine .preamble rfl ?_ hc hflow ⟨fun s => ?_, fun s side o ho => ?_, fun h0 => ?_, fun h0 => ?_⟩
        · show 0 < m.symbols * kPreambleOrders
          unfold kPreambleOrders kPreambleLevels
          omega
        · show (m.orders s .buy).length + (m.orders s .sell).length = min kPreambleOrders (0 - kPreambleOrders * s)
          rw [hempty, hempty, Nat.zero_sub]
          rfl
        · have ho : o ∈ m.orders s side := ho
          rw [hempty] at ho
          cases ho
        · exact absurd h0 (show ¬1 ≤ 0 by decide)
        · exact absurd h0 (show ¬2 ≤ 0 by decide)
      · rcases hp with hp | hp <;> cases hp
      · rw [hsent]
        show 1 + m.symbols + 0 = 1 + m.cursor + 1
        omega
    · rw [if_neg hlast]
      refine ⟨hwired, hok, ⟨hs.same rfl rfl rfl rfl hs.ts hs.matchNo, ⟨n, hholds, hn⟩, ?_, fun _ => ?_⟩,
        fun ref he => (by cases he), ?_, rfl, rfl, rfl⟩
      · exact .directory hphase (show m.cursor + 1 < m.symbols by omega) hc hflow hempty
      · refine ⟨fun s hcur hlt => ?_, fun s hcur hlt => ?_, ?_, ?_⟩
        · have hcur : m.cursor + 1 ≤ s := hcur
          have hlt : s < m.symbols := hlt
          have hne : makeSymbol s ≠ d.symbol := by
            rw [show d.symbol = _ from hname]
            intro he
            have := makeSymbol_injective (by omega) (by omega) he
            omega
          show (mb.onStockDirectory d).1.bySymbol.find (makeSymbol s) = none
          rw [BoundedMap.find_insert_true hins, if_neg hne]
          exact hlisted.unnamed s (by omega) hlt
        · have hcur : m.cursor + 1 ≤ s := hcur
          show ((mb.onStockDirectory d).1.slots (s + 1)).symbol.isEmpty = true
          rw [hslots (s + 1) (by rw [show d.h.locate = _ from hloc]; omega)]
          exact hlisted.unbound s (by omega) hlt
        · show (mb.onStockDirectory d).1.bySymbol.size = m.cursor + 1
          rw [BoundedMap.size_insert_true hins, hlisted.size]
        · show m.symbols ≤ (mb.onStockDirectory d).1.bySymbol.limit
          rw [BoundedMap.limit_insert hins]
          exact hlisted.limit
      · rw [hsent]
        exact (Market.sent_directory (m := { m with cursor := m.cursor + 1 }) hphase).trans (Nat.add_assoc 1 m.cursor 1).symm
  | opening hp => exact absurd (hphase.symm.trans hp) (by decide)
  | preamble hp => exact absurd (hphase.symm.trans hp) (by decide)
  | flow hp => exact absurd (hphase.symm.trans hp) (by decide)
  | done hp => exact absurd (hphase.symm.trans hp) (by decide)

/-! ## The depth of every book -/

theorem reaches_of_clear {s : Nat} {side : Side} {px : Int}
    (h : ∀ x ∈ m.orders s (opposite side), crosses side px x.price = false) : m.reaches s side px = false := by
  unfold Market.reaches
  cases hbest : bestOf (opposite side) (m.orders s (opposite side)) with
  | none => rfl
  | some p => exact h p.2 (List.mem_of_getElem? (bestOf_some hbest).1)

theorem population_push (m : Market σ) (s : Nat) (side : Side) (o : Live) (s' : Nat) :
    (m.push s side o).population s' = m.population s' + if s' = s then 1 else 0 := by
  unfold Market.population Market.push
  rw [Market.orders_setOrders, Market.orders_setOrders]
  by_cases hs : s' = s
  · subst hs
    cases side
    · rw [if_pos ⟨rfl, rfl⟩, if_neg fun h => Side.noConfusion h.2, if_pos rfl, List.length_append]
      show (m.orders s' .buy).length + 1 + _ = _
      omega
    · rw [if_neg fun h => Side.noConfusion h.2, if_pos ⟨rfl, rfl⟩, if_pos rfl, List.length_append]
      rfl
  · rw [if_neg fun h => hs h.1, if_neg fun h => hs h.1, if_neg hs]
    rfl

/-- The order that comes next in the preamble. -/
structure Seed (m : Market σ) (s : Nat) (side : Side) (px : Int) : Prop where
  symbol : s = m.cursor / kPreambleOrders
  turn : side = if m.cursor % kPreambleOrders / 2 % 2 = 0 then Side.buy else .sell
  passive : m.Passive s side px
  beside : Beside (m.syms s).fair side px
  first : m.cursor < 4 → side = .buy → px = (m.syms s).fair - m.tick

/-- **The order of the preamble.** It is a passive add on its side of the fair value. -/
theorem genPreamble_seed (D : Draws σ) (hs : Sane c m) : ∃ s side px qty r, Seed m s side px ∧ (1 ≤ qty ∧ qty ≤ 1000) ∧
    m.genPreamble D = { m with rng := r }.emitAdd s side px qty false := by
  have hlt : m.cursor % kPreambleOrders < 24 := Nat.mod_lt _ (by decide)
  have hfirst : m.cursor < 4 → m.cursor % kPreambleOrders / 4 = 0 := by
    intro h4
    have : m.cursor % kPreambleOrders = m.cursor := Nat.mod_eq_of_lt (lt_trans h4 (by decide))
    omega
  obtain ⟨k, hk, hk'⟩ : ∃ k, k = m.cursor % kPreambleOrders / 4 ∧ k ≤ 5 := ⟨_, rfl, by omega⟩
  obtain ⟨h₁, h₂, h₃, h₄⟩ := hs.syms (m.cursor / kPreambleOrders)
  have htick := hs.tick_pos
  have hdist : m.tick ≤ ((k + 1 : Nat) : Int) * m.tick ∧ ((k + 1 : Nat) : Int) * m.tick ≤ 6 * m.tick := by
    have : (k : Int) ≤ 5 := by omega
    push_cast
    constructor <;> nlinarith
  have hone : k = 0 → ((k + 1 : Nat) : Int) * m.tick = m.tick := by
    rintro rfl
    exact one_mul _
  have hcast : (1 + (k : Int)) * m.tick = ((k + 1 : Nat) : Int) * m.tick := by
    push_cast
    ring
  have hbounds := Market.randomQty_bounds D m.rng
  by_cases hturn : m.cursor % kPreambleOrders / 2 % 2 = 0
  · refine ⟨m.cursor / kPreambleOrders, .buy, (m.syms (m.cursor / kPreambleOrders)).fair - ((k + 1 : Nat) : Int) * m.tick, (Market.randomQty D m.rng).1,
      (Market.randomQty D m.rng).2,
      ⟨rfl, (if_pos hturn).symm, ⟨k, by omega, ?_⟩, ?_, fun hc _ => ?_⟩, hbounds, ?_⟩
    · rw [hcast]
      exact (max_eq_right (by omega)).symm
    · show _ < (m.syms (m.cursor / kPreambleOrders)).fair
      omega
    · rw [hone (hk.trans (hfirst hc))]
    · unfold Market.genPreamble
      dsimp only
      rw [if_pos hturn, ← hk]
  · refine ⟨m.cursor / kPreambleOrders, .sell, (m.syms (m.cursor / kPreambleOrders)).fair + ((k + 1 : Nat) : Int) * m.tick, (Market.randomQty D m.rng).1,
      (Market.randomQty D m.rng).2,
      ⟨rfl, (if_neg hturn).symm, ⟨k, by omega, ?_⟩, ?_, fun _ hside => by cases hside⟩, hbounds, ?_⟩
    · rw [hcast]
    · show (m.syms (m.cursor / kPreambleOrders)).fair < _
      omega
    · unfold Market.genPreamble
      dsimp only
      rw [if_neg hturn, ← hk]

/-- The depth grows by the order that was placed. -/
theorem Seeded.emitAdd {s : Nat} (qty : Nat) {side : Side} {px : Int} (h : Seeded m) (hs : Sane c m) (hc : c = m.cursor) (r : σ)
    (hseed : Seed m s side px) :
    Seeded { ({ m with rng := r }.emitAdd s side px qty false).1 with cursor := m.cursor + 1 } := by
  obtain ⟨rfl, hturn, -, hbeside, hfirst⟩ := hseed
  let o : Live := ⟨m.nextRef, px, qty⟩
  let pushed := { m with rng := r, nextRef := add64 m.nextRef 1 }.push (m.cursor / kPreambleOrders) side o
  have horders : ∀ s side', pushed.orders s side' =
      if s = m.cursor / kPreambleOrders ∧ side' = side then m.orders (m.cursor / kPreambleOrders) side ++ [o]
      else m.orders s side' := fun s side' => Market.orders_setOrders _ _ _ _ s side'
  have hfair : ∀ s, (pushed.syms s).fair = (m.syms s).fair := fun s => (Market.setOrders_sym _ _ _ _ s).2.1
  refine ⟨fun s => ?_, fun s side' x hx => ?_, fun _ => ?_, fun h2 => ?_⟩
  · have hpop := population_push { m with rng := r, nextRef := add64 m.nextRef 1 } (m.cursor / kPreambleOrders) side o s
    have hm : Market.population { m with rng := r, nextRef := add64 m.nextRef 1 } s = m.population s := rfl
    rw [hm, h.population s] at hpop
    show pushed.population s = min kPreambleOrders (m.cursor + 1 - kPreambleOrders * s)
    rw [hpop]
    unfold kPreambleOrders kPreambleLevels
    split_ifs <;> omega
  · have hin : x ∈ pushed.orders s side' := hx
    show Beside (pushed.syms s).fair side' x.price
    rw [hfair]
    rw [horders] at hin
    split_ifs at hin with hthis
    · obtain ⟨rfl, rfl⟩ := hthis
      rcases List.mem_append.mp hin with hin | hin
      · exact h.around _ _ x hin
      · rw [List.mem_singleton.mp hin]
        exact hbeside
    · exact h.around s side' x hin
  · show ∃ x, (pushed.orders 0 .buy)[0]? = some x ∧ x.ref = 1 ∧ x.price = (pushed.syms 0).fair - m.tick
    rw [hfair, horders]
    by_cases h0 : m.cursor = 0
    · -- the first order of all
      have hempty : m.orders 0 .buy = [] := by
        have := h.population 0
        unfold Market.population at this
        exact List.length_eq_zero_iff.mp (by omega)
      have hbuy : side = .buy := by
        rw [hturn, h0]
        rfl
      have hzero : m.cursor / kPreambleOrders = 0 := by rw [h0]; rfl
      rw [hzero] at hfirst ⊢
      refine ⟨o, ?_, ?_, hfirst (by omega) hbuy⟩
      · rw [if_pos ⟨rfl, hbuy.symm⟩, hbuy, hempty]
        rfl
      · show m.nextRef = 1
        rw [hs.nextRef, hc, h0]
        rfl
    · obtain ⟨x, hx, href, hpx⟩ := h.first (by omega)
      refine ⟨x, ?_, href, hpx⟩
      split_ifs with hthis
      · obtain ⟨h1, h2⟩ := hthis
        rw [← h1, ← h2, List.getElem?_append_left (List.getElem?_eq_some_iff.mp hx).1]
        exact hx
      · exact hx
  · have h2 : 2 ≤ m.cursor + 1 := h2
    show 2 ≤ (pushed.orders 0 .buy).length
    rw [horders]
    by_cases h1 : m.cursor = 1
    · have hbuy : side = .buy := by
        rw [hturn, h1]
        rfl
      have hzero : m.cursor / kPreambleOrders = 0 := by rw [h1]; rfl
      obtain ⟨x, hx, -⟩ := h.first (by omega)
      have hpos := (List.getElem?_eq_some_iff.mp hx).1
      rw [hzero, hbuy, if_pos ⟨rfl, rfl⟩, List.length_append]
      show 2 ≤ (m.orders 0 .buy).length + 1
      omega
    · have hold := h.second (by omega)
      split_ifs with hthis
      · obtain ⟨h1, h2⟩ := hthis
        rw [← h1, ← h2, List.length_append]
        omega
      · exact hold

theorem preamble (h : Linked lim cap c m mb) (hphase : m.phase = .preamble) (hlim : 256 * m.symbols ≤ lim) (hcap : kCap ≤ cap)
    (hc64 : c < 2 ^ 64) (D : Draws σ) :
    Handed lim cap c m mb
      (if (m.genPreamble D).1.cursor + 1 = (m.genPreamble D).1.symbols * kPreambleOrders then
        { (m.genPreamble D).1 with cursor := (m.genPreamble D).1.cursor + 1, phase := .flow }
      else { (m.genPreamble D).1 with cursor := (m.genPreamble D).1.cursor + 1 }, (m.genPreamble D).2) := by
  obtain ⟨hs, ⟨n, hb, hn, hn'⟩, hst, hl⟩ := h
  cases hst with
  | preamble _ hcursor hc hflow hseeded =>
    obtain ⟨s, side, px, qty, r, hseed, hqty, hgen⟩ := genPreamble_seed D hs
    rw [hgen]
    have hsymbol : s < m.symbols := by
      rw [hseed.symbol]
      exact Nat.div_lt_of_lt_mul (by rw [Nat.mul_comm]; exact hcursor)
    have hroom : (m.orders s side).length < kCap := by
      have hpop := hseeded.population s
      have hle : (m.orders s side).length ≤ m.population s := by
        unfold Market.population
        cases side
        · exact Nat.le_add_right _ _
        · exact Nat.le_add_left _ _
      unfold kPreambleOrders kPreambleLevels at hpop
      unfold kCap
      omega
    have hclear : m.reaches s side px = false := by
      refine reaches_of_clear fun x hx => ?_
      have hx' := hseeded.around s _ x hx
      have hbeside := hseed.beside
      cases side
      · exact decide_eq_false (by dsimp only [opposite, Beside] at hx' hbeside; omega)
      · exact decide_eq_false (by dsimp only [opposite, Beside] at hx' hbeside; omega)
    have he : Market.Emitted m s ({ m with rng := r }.emitAdd s side px qty false) :=
      .added false r hclear hroom hseed.passive hqty
    have hsane := he.sane hs
    have hwired := he.wired hs
    obtain ⟨hok, hholds⟩ := hs.add_books hsymbol hb hlim hcap hc64 (by omega) false r hroom hqty hsane.room
    have hnext := Seeded.emitAdd qty hseeded hs hc r hseed
    -- the second order finds the level of the first
    have hlevels : n + (if m.live.At (s + 1) side px then 0 else 1) ≤ c + 1 ∧
        (2 ≤ c + 1 → n + (if m.live.At (s + 1) side px then 0 else 1) < c + 1) := by
      by_cases h1 : c = 1
      · have hat : m.live.At (s + 1) side px := by
          have hcur : m.cursor = 1 := hc.symm.trans h1
          have hbuy : side = .buy := by
            rw [hseed.turn, hcur]
            rfl
          have hzero : s = 0 := by rw [hseed.symbol, hcur]; rfl
          obtain ⟨x, hx, -, hpx⟩ := hseeded.first (by omega)
          have hprice := hseed.first (by omega) hbuy
          refine ⟨_, Market.mem_live.mpr ⟨s, side, hsymbol, x, ?_, rfl⟩, ⟨rfl, rfl⟩, ?_⟩
          · rw [hzero, hbuy]
            exact List.mem_of_getElem? hx
          · rw [hprice, hzero]
            exact hpx
        rw [if_pos hat]
        omega
      · split_ifs <;> omega
    have hsent := Market.sent_preamble hphase
    by_cases hlast : (({ m with rng := r } : Market σ).emitAdd s side px qty false).1.cursor + 1 =
        (({ m with rng := r } : Market σ).emitAdd s side px qty false).1.symbols * kPreambleOrders
    · rw [if_pos hlast]
      have hlast : m.cursor + 1 = m.symbols * kPreambleOrders := hlast
      refine ⟨hwired, hok, ⟨hsane.same rfl rfl rfl rfl hsane.ts hsane.matchNo, ⟨_, hholds, hlevels⟩, ?_, fun hp => ?_⟩,
        fun ref hx => (by cases hx), ?_, rfl, rfl, rfl⟩
      · refine .flow rfl ?_ ?_ ?_ fun _ => ⟨hlast, hnext.population, hnext.around, hnext.first, hnext.second⟩
        · show m.symbols * kPreambleOrders ≤ c + 1
          omega
        · show c + 1 ≤ m.symbols * kPreambleOrders + m.flowIndex
          omega
        · show m.flowIndex ≤ m.flowTotal
          omega
      · rcases hp with hp | hp <;> cases hp
      · rw [hsent]
        show 1 + m.symbols + m.symbols * kPreambleOrders + m.flowIndex = _
        omega
    · rw [if_neg hlast]
      have hlast : ¬m.cursor + 1 = m.symbols * kPreambleOrders := hlast
      refine ⟨hwired, hok, ⟨hsane.same rfl rfl rfl rfl hsane.ts hsane.matchNo, ⟨_, hholds, hlevels⟩, ?_, fun hp => ?_⟩,
        fun ref hx => (by cases hx), ?_, rfl, rfl, rfl⟩
      · refine .preamble hphase ?_ ?_ hflow hnext
        · show m.cursor + 1 < m.symbols * kPreambleOrders
          omega
        · show c + 1 = m.cursor + 1
          omega
      · have hp : m.phase = .opening ∨ m.phase = .directory := hp
        rw [hphase] at hp
        rcases hp with hp | hp <;> cases hp
      · rw [hsent]
        refine (Market.sent_preamble ?_).trans ?_
        · exact hphase
        · exact (Nat.add_assoc (1 + m.symbols) m.cursor 1).symm
  | opening hp => exact absurd (hphase.symm.trans hp) (by decide)
  | directory hp => exact absurd (hphase.symm.trans hp) (by decide)
  | flow hp => exact absurd (hphase.symm.trans hp) (by decide)
  | done hp => exact absurd (hphase.symm.trans hp) (by decide)

/-! ## The flow -/

theorem flow (h : Linked lim cap c m mb) (hphase : m.phase = .flow) (hmore : m.flowIndex < m.flowTotal)
    (hlim : 256 * m.symbols ≤ lim) (hcap : kCap ≤ cap) (hc64 : c < 2 ^ 64) (D : Draws σ) (bull : Bool) :
    ∃ p, (∀ d, Market.genFlow D { m with bull := bull } (d + 3) = some p) ∧
      Handed lim cap c m mb ({ p.1 with flowIndex := p.1.flowIndex + 1 }, p.2) := by
  obtain ⟨hs, ⟨n, hb, hn, hn'⟩, hst, hl⟩ := h
  cases hst with
  | flow _ hmin hmax hflow =>
    have hsbull : Sane c { m with bull := bull } := hs.same rfl rfl rfl rfl hs.ts hs.matchNo
    obtain ⟨s, p, r, fair, hlt, hfair, he, hrun⟩ := Market.genFlow_emits D { m with bull := bull } hs.symbols_pos
    refine ⟨p, hrun, ?_⟩
    have hsfair := hsbull.fairStep r hfair
    have hlive : ({ m with bull := bull }.fairStep s r fair).live = m.live :=
      Market.live_congr rfl fun s' side => Market.orders_fairStep _ s r fair s' side
    have hbfair : Holds lim cap n ({ m with bull := bull }.fairStep s r fair).live mb := by
      rw [hlive]
      exact hb
    have hsane := he.sane hsfair
    obtain ⟨hok, hholds⟩ := he.books hsfair hlt hbfair hlim hcap hc64 (by omega)
    obtain ⟨hsymbols, htotal, hph, -, hindex, hts⟩ := he.frame
    have hone := Market.issues_le p.2
    have hsymbols' : p.1.symbols = m.symbols := hsymbols
    have hindex' : p.1.flowIndex = m.flowIndex := hindex
    have htotal' : p.1.flowTotal = m.flowTotal := htotal
    have hphase' : p.1.phase = .flow := hph.trans hphase
    -- the preamble has issued two references at least
    have hpos := hs.symbols_pos
    have htwo : 2 ≤ c := by
      unfold kPreambleOrders kPreambleLevels at hmin
      omega
    refine ⟨he.wired hsfair, hok, ⟨hsane.same rfl rfl rfl rfl hsane.ts hsane.matchNo, ⟨_, hholds, Nat.add_le_add_right hn _,
      fun _ => Nat.add_lt_add_right (hn' htwo) _⟩, .flow hphase' ?_ ?_ ?_ fun h0 => absurd h0 (Nat.succ_ne_zero _), fun hp => ?_⟩, fun ref hx => he.foremost hlt hbfair hx, ?_, hsymbols', ?_, hts⟩
    · show p.1.symbols * kPreambleOrders ≤ c + issues p.2
      rw [hsymbols']
      omega
    · show c + issues p.2 ≤ p.1.symbols * kPreambleOrders + (p.1.flowIndex + 1)
      rw [hsymbols', hindex']
      omega
    · show p.1.flowIndex + 1 ≤ p.1.flowTotal
      rw [hindex', htotal']
      exact hmore
    · have hp : p.1.phase = .opening ∨ p.1.phase = .directory := hp
      rw [hphase'] at hp
      rcases hp with hp | hp <;> cases hp
    · rw [Market.sent_flow hphase]
      refine (Market.sent_flow ?_).trans ?_
      · exact hphase'
      · unfold Market.preambleLength
        show 1 + p.1.symbols + p.1.symbols * kPreambleOrders + (p.1.flowIndex + 1) = _
        rw [hsymbols', hindex']
        rfl
    · show 1 + p.1.symbols + p.1.symbols * kPreambleOrders + p.1.flowTotal = m.total
      rw [hsymbols', htotal']
      rfl
  | opening hp => exact absurd (hphase.symm.trans hp) (by decide)
  | directory hp => exact absurd (hphase.symm.trans hp) (by decide)
  | preamble hp => exact absurd (hphase.symm.trans hp) (by decide)
  | done hp => exact absurd (hphase.symm.trans hp) (by decide)

/-- **One message.** A call of `generate` ends, and the books take what it returns. -/
theorem generate (h : Linked lim cap c m mb) (hmore : m.sent < m.total) (hlim : 256 * m.symbols ≤ lim) (hcap : kCap ≤ cap)
    (hc64 : c < 2 ^ 64) (D : Draws σ) : ∃ p, (∀ d, m.generate D (d + 3) = some p) ∧ Handed lim cap c m mb p := by
  unfold Market.generate
  cases hphase : m.phase with
  | opening => exact ⟨_, fun _ => rfl, h.opening hphase⟩
  | directory =>
    have hd := h.directory hphase
    rw [hphase] at hd
    exact ⟨_, fun _ => rfl, hd⟩
  | preamble => exact ⟨_, fun _ => rfl, h.preamble hphase hlim hcap hc64 D⟩
  | flow =>
    rw [Market.sent_flow hphase] at hmore
    obtain ⟨p, hrun, hp⟩ := h.flow hphase (Nat.lt_of_add_lt_add_left hmore) hlim hcap hc64 D (decide (m.flowIndex / m.period % 2 = 0))
    rw [hphase] at hrun
    refine ⟨_, fun d => ?_, hp⟩
    dsimp only
    rw [hrun, Option.map_some]
  | done =>
    cases h.stage with
    | done _ hmax hflow =>
      rw [Market.sent_done hphase, hflow] at hmore
      exact absurd hmore (lt_irrefl _)
    | opening hp => exact absurd (hphase.symm.trans hp) (by decide)
    | directory hp => exact absurd (hphase.symm.trans hp) (by decide)
    | preamble hp => exact absurd (hphase.symm.trans hp) (by decide)
    | flow hp => exact absurd (hphase.symm.trans hp) (by decide)

end Linked
end OptiTrade.Synthetic
