import OptiTrade.Synthetic.Stream

/-! # The stream is clean

For every configuration, every source of draws and every list of buffers, as long as the counter of the references
does not come round to a live one. -/

namespace OptiTrade.Synthetic
set_option autoImplicit false

open Book (MarketBooks Holds Applied OrderInfo)
open Itch (Message)

/-- What a consumer finds after `n` calls with a buffer that is large enough. -/
structure Clean {σ : Type} (cfg : SyntheticConfig) (n : Nat) (f : Feeder σ) : Prop where
  decoded : f.decodeErrors = 0
  symbols : f.gen.symbols = max cfg.symbols.toNat 1
  sent : f.seen.length = min n (f.gen.preambleLength + cfg.messages.toNat)
  seen : ∀ e ∈ f.seen, e.Ok
  ordered : f.seen.Pairwise fun e e' => e.written.ts ≤ e'.written.ts
  uncrossed : ∀ l b, f.books.book l = some b → b.crossed = false
  /-- The live orders are those of the shadow arrays. -/
  shadow : ∀ ref i, f.books.order ref = some i ↔
    ∃ s side o, s < f.gen.symbols ∧ o ∈ f.gen.orders s side ∧ ref = o.ref ∧ i = ⟨s + 1, side, o.price, o.qty⟩
  distinct : (f.gen.live.map Prod.fst).Nodup ∧ f.books.liveOrders = f.gen.live.length
  room : ∀ s side, (f.gen.orders s side).length ≤ 128
  priced : ∀ s side, ∀ o ∈ f.gen.orders s side, 1 ≤ o.price ∧ o.price ≤ 2 ^ 32 - 1

theorem Fed.clean {σ : Type} {lim cap n : Nat} {f : Feeder σ} {cfg : SyntheticConfig} {r : σ} (h : Fed lim cap n f)
    (hsymbols : f.gen.symbols = (Market.new cfg r).symbols) (htotal : f.gen.total = (Market.new cfg r).total) :
    Clean cfg n f := by
  obtain ⟨c, hl⟩ := h.linked
  obtain ⟨m, hb, -⟩ := hl.holds
  have hpre : f.gen.preambleLength = (Market.new cfg r).preambleLength := by
    unfold Market.preambleLength
    rw [hsymbols]
  refine ⟨h.decoded, hsymbols, ?_, fun e he => (h.seen e he).1, h.ordered, fun l b hbook => ?_, fun ref i => ?_,
    ⟨hb.nodup, hb.size⟩, hl.sane.room, fun s side o ho => ?_⟩
  · rw [h.sent.1, h.sent.2, htotal, hpre]
    rfl
  · refine hb.not_crossed (fun x hx y hy hloc hbuy hsell => ?_) hbook
    obtain ⟨s, side, -, o, ho, rfl⟩ := Market.mem_live.mp hx
    obtain ⟨s', side', -, o', ho', rfl⟩ := Market.mem_live.mp hy
    obtain rfl : s = s' := Nat.succ_injective hloc
    obtain rfl : side = .buy := hbuy
    obtain rfl : side' = .sell := hsell
    have hclear := hl.sane.clear s .buy o ho o' ho'
    exact Int.not_le.mp (of_decide_eq_false hclear)
  · rw [hb.order_iff, Market.mem_live]
    constructor
    · rintro ⟨s, side, hs, o, ho, he⟩
      cases he
      exact ⟨s, side, o, hs, ho, rfl, rfl⟩
    · rintro ⟨s, side, o, hs, ho, rfl, rfl⟩
      exact ⟨s, side, hs, o, ho, rfl⟩
  · obtain ⟨⟨-, -, h₁, h₂⟩, -⟩ := hl.sane.orders s side o ho
    have := hl.sane.tick_pos
    unfold kMaxPrice at h₂
    omega

/-- **The synthetic market emits a clean stream.** -/
theorem synthetic_market_is_clean {σ : Type} (D : Draws σ) (cfg : SyntheticConfig) (r : σ) (bc : MarketBooks.Config)
    (horders : 256 * max cfg.symbols.toNat 1 ≤ bc.maxOrders) (hlevels : 128 ≤ bc.maxLevelsPerSide)
    (hsymbols : max cfg.symbols.toNat 1 ≤ bc.maxSymbols)
    (hrefs : 24 * max cfg.symbols.toNat 1 + cfg.messages.toNat ≤ 2 ^ 64) :
    (∀ bufs : List (List Byte), ∃ f : Feeder σ, (∀ depth, 3 ≤ depth → Feeder.calls D depth (.new cfg r bc) bufs = some f) ∧
      Clean cfg (bufs.countP fun out => 44 ≤ out.length) f) ∧
    ∀ (m : Market σ) (s : Nat) (target : Side) (want : Nat) (withPrice : Bool),
      (∃ p, ∀ depth, 3 ≤ depth → Market.genAdd D depth m s = some p) ∧
      (∃ p, ∀ depth, 3 ≤ depth → Market.genDelete D depth m s = some p) ∧
      ∃ p, ∀ depth, 3 ≤ depth → Market.genExecute D depth m s target want withPrice = some p := by
  have hdeep : ∀ {α : Type} {g : Nat → Option α} {p : α}, (∀ d, g (d + 3) = some p) → ∀ depth, 3 ≤ depth → g depth = some p := by
    intro α g p h depth hd
    obtain ⟨d, rfl⟩ := Nat.exists_eq_add_of_le' hd
    exact h d
  refine ⟨fun bufs => ?_, fun m s target want withPrice => ⟨?_, ?_, ?_⟩⟩
  · have htotal : (Feeder.new cfg r bc).gen.total ≤ 1 + (Feeder.new cfg r bc).gen.symbols + 2 ^ 64 := by
      show 1 + max cfg.symbols.toNat 1 + max cfg.symbols.toNat 1 * 24 + cfg.messages.toNat ≤ 1 + max cfg.symbols.toNat 1 + 2 ^ 64
      omega
    obtain ⟨f, hrun, hf, ht, hs⟩ := (Fed.new cfg r bc horders hlevels hsymbols).calls D bufs ((Nat.min_le_right _ _).trans htotal)
    rw [Nat.zero_add] at hf
    exact ⟨f, hdeep hrun, hf.clean hs ht⟩
  · obtain ⟨p, -, hp⟩ := Market.genAdd_ends D m s
    exact ⟨p, hdeep hp⟩
  · obtain ⟨p, -, hp⟩ := Market.genDelete_ends D m s
    exact ⟨p, hdeep hp⟩
  · obtain ⟨p, -, hp⟩ := Market.genExecute_ends D m s target want withPrice
    exact ⟨p, hdeep hp⟩

/-- The default configuration and its own generator: a thousand messages, all of them taken. -/
theorem synthetic_market_is_clean_thousand :
    ∃ f : Feeder Rng, (∀ depth, 3 ≤ depth →
        Feeder.calls Rng.source depth (.new {} (Rng.new 1) {}) (List.replicate 1000 (List.replicate 44 0)) = some f) ∧
      f.seen.length = 1000 ∧ (∀ e ∈ f.seen, e.applied = accepted e.message) ∧
      ∀ l b, f.books.book l = some b → b.crossed = false := by
  obtain ⟨f, hrun, hf⟩ := (synthetic_market_is_clean Rng.source {} (Rng.new 1) {} (by decide) (by decide) (by decide)
    (by decide)).1 (List.replicate 1000 (List.replicate 44 0))
  refine ⟨f, hrun, ?_, fun e he => (hf.seen e he).applied.2, hf.uncrossed⟩
  have hpre : f.gen.preambleLength = 201 := by
    unfold Market.preambleLength
    rw [hf.symbols]
    rfl
  have hlong : (44 : Nat) ≤ (List.replicate 44 (0 : Byte)).length := by decide
  rw [hf.sent, hpre, List.countP_replicate, if_pos (decide_eq_true hlong)]
  rfl

/-! ## The counter comes round

`2 ^ 64` references after the first order, the counter is back at the reference of that order. Draws that leave the
order alone all the time make the generator issue the reference a second time. -/

/-- Draws that make every message of the flow replace the second bid. -/
def replacing : Draws Unit where
  next _ := (0, ())
  bounded n _ := (if n = 1000 then 900 else if n = 32 then 1 else if n = 24 then 1 else 0, ())
  bounded_lt := by
    intro n _ hn
    dsimp only
    split_ifs <;> omega

/-- The market after `k` replacements of the second bid. -/
structure Replacing (k : Nat) (m : Market Unit) : Prop where
  phase : m.phase = .flow
  index : m.flowIndex = k
  symbols : m.symbols = 1
  nextRef : m.nextRef = refAt (24 + k)
  population : m.population 0 = 24
  first : ∃ o, (m.orders 0 .buy)[0]? = some o ∧ o.ref = 1
  second : 2 ≤ (m.orders 0 .buy).length

theorem genFlow_replacing {m : Market Unit} (h : m.symbols = 1) (d : Nat) :
    Market.genFlow replacing m d = m.genReplace replacing d 0 := by
  have hpick : replacing.bounded m.symbols m.rng = (0, ()) := by
    rw [h]
    rfl
  unfold Market.genFlow
  dsimp only
  rw [hpick]
  rfl

namespace Replacing
variable {k : Nat} {m : Market Unit} {out : List Byte}

theorem pickAny (h : Replacing k m) : m.pickAny replacing 0 m.rng = ((.buy, 1), ()) := by
  have hpop : (m.orders 0 .buy).length + (m.orders 0 .sell).length = 24 := h.population
  have hsecond := h.second
  unfold Market.pickAny
  dsimp only
  rw [hpop, show replacing.bounded 24 m.rng = (1, ()) from rfl, if_pos (show 1 < (m.orders 0 .buy).length by omega)]

/-- **One replacement.** -/
theorem genReplace (h : Replacing k m) : ∃ o px qty, (m.orders 0 .buy)[1]? = some o ∧ 1 ≤ qty ∧ ∀ d,
    m.genReplace replacing d 0 =
      some ({ m with nextRef := add64 m.nextRef 1 }.setOrders 0 .buy ((m.orders 0 .buy).set 1 ⟨m.nextRef, px, qty⟩),
        .orderReplace ⟨m.header (Market.locateOf 0), o.ref, m.nextRef, qty, px⟩) := by
  have hsecond := h.second
  have ho : (m.orders 0 .buy)[1]? = some (m.orders 0 .buy)[1] := List.getElem?_eq_getElem (by omega)
  have hpop : ¬m.population 0 = 0 := by
    rw [h.population]
    decide
  let px := m.passivePrice replacing 0 .buy ()
  refine ⟨_, if m.reaches 0 .buy px.1 then (m.orders 0 .buy)[1].price else px.1, _, ho,
    (Market.randomQty_bounds replacing px.2).1, fun d => ?_⟩
  unfold Market.genReplace
  rw [if_neg hpop, h.pickAny]
  dsimp only
  rw [slot_eq ho]

theorem set (h : Replacing k m) (px : Int) (qty : Nat) :
    Replacing (k + 1) { ({ m with nextRef := add64 m.nextRef 1 }.setOrders 0 .buy
      ((m.orders 0 .buy).set 1 ⟨m.nextRef, px, qty⟩)) with flowIndex := m.flowIndex + 1 } := by
  let m' := ({ m with nextRef := add64 m.nextRef 1 } : Market Unit).setOrders 0 .buy ((m.orders 0 .buy).set 1 ⟨m.nextRef, px, qty⟩)
  have hbuy : m'.orders 0 .buy = (m.orders 0 .buy).set 1 ⟨m.nextRef, px, qty⟩ := Market.orders_setOrders_self _ _ _ _
  have hsell : m'.orders 0 .sell = m.orders 0 .sell := by
    refine (Market.orders_setOrders _ _ _ _ _ _).trans ?_
    rw [if_neg fun he => Side.noConfusion he.2]
    rfl
  obtain ⟨o, ho, href⟩ := h.first
  refine ⟨h.phase, congrArg (· + 1) h.index, h.symbols, ?_, ?_, ⟨o, ?_, href⟩, ?_⟩
  · show add64 m.nextRef 1 = refAt (24 + (k + 1))
    rw [h.nextRef, add64_refAt]
    rfl
  · show (m'.orders 0 .buy).length + (m'.orders 0 .sell).length = 24
    rw [hbuy, hsell, List.length_set]
    exact h.population
  · show (m'.orders 0 .buy)[0]? = some o
    rw [hbuy, List.getElem?_set_ne (by decide)]
    exact ho
  · show 2 ≤ (m'.orders 0 .buy).length
    rw [hbuy, List.length_set]
    exact h.second

theorem congr {m' : Market Unit} (h : Replacing k m) (hphase : m'.phase = m.phase) (hindex : m'.flowIndex = m.flowIndex)
    (hsymbols : m'.symbols = m.symbols) (hnext : m'.nextRef = m.nextRef) (hsyms : m'.syms = m.syms) : Replacing k m' := by
  have horders : ∀ side, m'.orders 0 side = m.orders 0 side := by
    intro side
    unfold Market.orders
    rw [hsyms]
  refine ⟨hphase.trans h.phase, hindex.trans h.index, hsymbols.trans h.symbols, hnext.trans h.nextRef, ?_, ?_, ?_⟩
  · unfold Market.population
    rw [horders, horders]
    exact h.population
  · rw [horders]
    exact h.first
  · rw [horders]
    exact h.second

theorem generate (h : Replacing k m) : ∃ m' o px qty, (m.orders 0 .buy)[1]? = some o ∧ 1 ≤ qty ∧ Replacing (k + 1) m' ∧
    m'.flowTotal = m.flowTotal ∧ ∀ d, m.generate replacing d =
      some (m', .orderReplace ⟨m.header (Market.locateOf 0), o.ref, m.nextRef, qty, px⟩) := by
  have hb : Replacing k { m with bull := decide (m.flowIndex / m.period % 2 = 0) } := h.congr rfl rfl rfl rfl rfl
  obtain ⟨o, px, qty, ho, hqty, hrun⟩ := hb.genReplace
  refine ⟨_, o, px, qty, ho, hqty, hb.set px qty, rfl, fun d => ?_⟩
  rw [Market.generate_flow replacing h.phase, genFlow_replacing hb.symbols, hrun]
  rfl

theorem next (h : Replacing k m) (hmore : k < m.flowTotal) (hout : kMaxMessageLength ≤ out.length) (d : Nat) :
    ∃ m' w, m.next replacing d out = some (m', w) ∧ Replacing (k + 1) m' ∧ m'.flowTotal = m.flowTotal := by
  have hadv : Replacing k (m.advanceTime replacing) := h.congr rfl rfl rfl rfl rfl
  obtain ⟨m', o, px, qty, -, -, hm', htotal, hrun⟩ := hadv.generate
  have hnot : ¬(m.phase = .flow ∧ m.flowTotal ≤ m.flowIndex) := fun he => absurd (h.index ▸ he.2) (Nat.not_le.mpr hmore)
  have hgoing : m.phase ≠ .done := fun he => absurd (h.phase.symm.trans he) (by decide)
  have hnext : ∃ w, m.next replacing d out = some ({ m' with emitted := add64 m'.emitted 1 }, w) := by
    unfold Market.next
    dsimp only
    rw [if_neg (Nat.not_lt.mpr hout), if_neg hnot, if_neg hgoing, hrun, Option.map_some]
    exact ⟨_, rfl⟩
  obtain ⟨w, hnext⟩ := hnext
  exact ⟨_, w, hnext, hm'.congr rfl rfl rfl rfl rfl, htotal⟩

theorem call {f : Feeder Unit} (h : Replacing k f.gen) (hmore : k < f.gen.flowTotal) (hout : kMaxMessageLength ≤ out.length)
    {d : Nat} {f' : Feeder Unit} (hrun : f.call replacing d out = some f') :
    Replacing (k + 1) f'.gen ∧ f'.gen.flowTotal = f.gen.flowTotal := by
  obtain ⟨m', w, hnext, hm', htotal⟩ := h.next hmore hout d
  unfold Feeder.call at hrun
  rw [hnext, Option.map_some] at hrun
  have hgen : f'.gen = m' := by
    cases Option.some.inj hrun
    split
    · rfl
    · split <;> rfl
  rw [hgen]
  exact ⟨hm', htotal⟩

theorem calls {f : Feeder Unit} (h : Replacing k f.gen) {n : Nat} (hmore : k + n ≤ f.gen.flowTotal)
    (hout : kMaxMessageLength ≤ out.length) {d : Nat} {f' : Feeder Unit}
    (hrun : f.calls replacing d (List.replicate n out) = some f') :
    Replacing (k + n) f'.gen ∧ f'.gen.flowTotal = f.gen.flowTotal := by
  induction n generalizing k f with
  | zero =>
    cases hrun
    exact ⟨h, rfl⟩
  | succ n ih =>
    obtain ⟨f₁, hcall, hrest⟩ := Option.bind_eq_some_iff.mp hrun
    obtain ⟨h₁, htotal⟩ := h.call (by omega) hout hcall
    obtain ⟨h₂, htotal'⟩ := ih h₁ (by omega) hrest
    rw [Nat.add_assoc, Nat.add_comm 1] at h₂
    exact ⟨h₂, htotal'.trans htotal⟩

/-- The flow begins with the books that the preamble left. -/
theorem start {lim cap : Nat} {f : Feeder Unit} (h : Fed lim cap 26 f) (hsymbols : f.gen.symbols = 1)
    (hmore : 0 < f.gen.flowTotal) : Replacing 0 f.gen := by
  obtain ⟨c, hl⟩ := h.linked
  have hsent := h.sent.2
  unfold Market.total Market.preambleLength at hsent
  rw [hsymbols] at hsent
  have hsent : f.gen.sent = 26 := by
    rw [hsent]
    unfold kPreambleOrders kPreambleLevels
    omega
  cases hl.stage with
  | opening hp =>
    unfold Market.sent at hsent
    rw [hp] at hsent
    cases hsent
  | directory hp hcursor =>
    rw [Market.sent_directory hp] at hsent
    omega
  | preamble hp hcursor =>
    rw [Market.sent_preamble hp] at hsent
    unfold kPreambleOrders kPreambleLevels at hcursor
    omega
  | done hp hmax hflow =>
    rw [Market.sent_done hp] at hsent
    unfold Market.preambleLength kPreambleOrders kPreambleLevels at hsent
    omega
  | flow hp hmin hmax hflow hstart =>
    rw [Market.sent_flow hp] at hsent
    unfold Market.preambleLength at hsent
    unfold kPreambleOrders kPreambleLevels at hsent hmin hmax
    have hzero : f.gen.flowIndex = 0 := by omega
    obtain ⟨hcursor, hseeded⟩ := hstart hzero
    have hpop := hseeded.population 0
    unfold kPreambleOrders kPreambleLevels at hcursor hpop
    obtain ⟨o, ho, href, -⟩ := hseeded.first (by omega)
    refine ⟨hp, hzero, hsymbols, ?_, by omega, ⟨o, ho, href⟩, hseeded.second (by omega)⟩
    rw [hl.sane.nextRef, show c = 24 + 0 by omega]

end Replacing
theorem Sane.flow_wired {σ : Type} {c depth : Nat} {m : Market σ} {D : Draws σ} {p : Market σ × Message} (h : Sane c m)
    (hphase : m.phase = .flow) (hrun : m.generate D (depth + 3) = some p) : Wired m.ts p.2 := by
  have hbull : Sane c { m with bull := decide (m.flowIndex / m.period % 2 = 0) } := h.same rfl rfl rfl rfl h.ts h.matchNo
  obtain ⟨s, q, r, fair, -, hfair, he, hq⟩ := Market.genFlow_emits D { m with bull := decide (m.flowIndex / m.period % 2 = 0) }
    h.symbols_pos
  rw [Market.generate_flow D hphase, hq, Option.map_some] at hrun
  cases hrun
  exact he.wired (hbull.fairStep r hfair)

/-- **The reference of a live order is issued again.** -/
theorem Replacing.lap {lim cap n : Nat} {f : Feeder Unit} {out : List Byte} (h : Fed lim cap n f)
    (hr : Replacing 18446744073709551592 f.gen) (hmore : 18446744073709551592 < f.gen.flowTotal)
    (hout : kMaxMessageLength ≤ out.length) :
    ∃ f' e, (∀ d, f.call replacing (d + 3) out = some f') ∧ e ∈ f'.seen ∧ e.applied = .duplicateOrder ∧
      accepted e.message = .ok := by
  obtain ⟨c, hl⟩ := h.linked
  obtain ⟨n, hb, -⟩ := hl.holds
  obtain ⟨hadv, -⟩ := hl.advanceTime replacing
  have hradv : Replacing 18446744073709551592 (f.gen.advanceTime replacing) := hr.congr rfl rfl rfl rfl rfl
  obtain ⟨m', o, px, qty, ho, hqty, -, -, hrun⟩ := hradv.generate
  have hnot : ¬(f.gen.phase = .flow ∧ f.gen.flowTotal ≤ f.gen.flowIndex) := fun he =>
    absurd (hr.index ▸ he.2) (Nat.not_le.mpr hmore)
  have hgoing : f.gen.phase ≠ .done := fun he => absurd (hr.phase.symm.trans he) (by decide)
  have hwired := hadv.sane.flow_wired hradv.phase (hrun (0 + 3))
  let msg : Itch.OrderReplace := ⟨(f.gen.advanceTime replacing).header (Market.locateOf 0), o.ref, f.gen.nextRef, qty, px⟩
  have hnext : ∃ g w, ∀ d, f.gen.next replacing (d + 3) out = some (g, some w) ∧
      Itch.decode (w.out.take w.len) = .ok (.orderReplace msg) :=
    ⟨_, _, fun d => Market.next_some (hrun (d + 3)) hnot hgoing hwired hadv.sane.ts hout⟩
  obtain ⟨g, w, hnext⟩ := hnext
  have hnew : f.gen.nextRef = 1 := hr.nextRef
  have hzero : 0 < f.gen.symbols := by
    rw [hr.symbols]
    decide
  obtain ⟨o₁, ho₁, href₁⟩ := hr.first
  obtain ⟨x₁, hx₁, -⟩ := hb.find (Market.mem_live.mpr ⟨0, .buy, hzero, o₁, List.mem_of_getElem? ho₁, rfl⟩)
  obtain ⟨x, hx, -⟩ := hb.find (Market.mem_live.mpr ⟨0, .buy, hzero, o, List.mem_of_getElem? ho, rfl⟩)
  have hdup : (f.books.on (.orderReplace msg)).2 = .duplicateOrder := by
    show (f.books.onOrderReplace msg).2 = .duplicateOrder
    unfold MarketBooks.onOrderReplace
    rw [hx]
    dsimp only
    rw [if_neg (Nat.pos_iff_ne_zero.mp hqty), show msg.newRef = o₁.ref from hnew.trans href₁.symm, hx₁]
    rfl
  let e : Seen := ⟨w, .orderReplace msg, (f.books.on (.orderReplace msg)).2, f.books⟩
  refine ⟨{ f with gen := g, books := (f.books.on (.orderReplace msg)).1, seen := f.seen ++ [e] }, e, fun d => ?_,
    List.mem_append_right _ (List.mem_singleton.mpr rfl), hdup, rfl⟩
  unfold Feeder.call
  rw [(hnext d).1, Option.map_some]
  dsimp only
  rw [(hnext d).2]

/-- One symbol, and messages enough to issue the first reference twice. -/
def lapping : SyntheticConfig := { symbols := 1, messages := 18446744073709551593 }

def buffers (n : Nat) : List (List Byte) := List.replicate n (List.replicate 44 0)

theorem countP_buffers (n : Nat) : ((buffers n).countP fun out => kMaxMessageLength ≤ out.length) = n := by
  have hlong : kMaxMessageLength ≤ (List.replicate 44 (0 : Byte)).length := by decide
  unfold buffers
  rw [List.countP_replicate, if_pos (decide_eq_true hlong)]

theorem buffers_add (n k : Nat) : buffers (n + k) = buffers n ++ buffers k := List.replicate_append_replicate.symm

/-- The run up to the reference that is issued again. -/
theorem lapping_run {n : Nat} (hn : n = 18446744073709551592) : ∃ f e,
    (∀ d, Feeder.calls replacing (d + 3) (.new lapping () {}) (buffers (26 + (n + 1))) = some f) ∧ e ∈ f.seen ∧
      e.applied = .duplicateOrder ∧ accepted e.message = .ok := by
  have hlong : kMaxMessageLength ≤ (List.replicate 44 (0 : Byte)).length := by decide
  have h₀ : Fed 1048576 256 0 (Feeder.new lapping () {}) := .new lapping () {} (by decide) (by decide) (by decide)
  have hsymbols₀ : (Feeder.new lapping () {}).gen.symbols = 1 := rfl
  obtain ⟨f₁, hrun₁, h₁, htotal₁, hsymbols₁⟩ := h₀.calls replacing (buffers 26) (by
    rw [countP_buffers]
    exact (Nat.min_le_left _ _).trans (by omega))
  rw [countP_buffers, Nat.zero_add] at h₁
  have hone : f₁.gen.symbols = 1 := hsymbols₁.trans hsymbols₀
  have hflow : f₁.gen.flowTotal = 18446744073709551593 := by
    have hnew : (Feeder.new lapping () {}).gen.total = 26 + 18446744073709551593 := rfl
    rw [hnew] at htotal₁
    unfold Market.total Market.preambleLength kPreambleOrders kPreambleLevels at htotal₁
    omega
  have hr₁ := Replacing.start h₁ hone (by omega)
  obtain ⟨f₂, hrun₂, h₂, -, -⟩ := h₁.calls replacing (buffers n) (by
    rw [countP_buffers, hone]
    exact (Nat.min_le_left _ _).trans (by omega))
  rw [countP_buffers] at h₂
  obtain ⟨hr₂, hflow₂⟩ := hr₁.calls (by omega) hlong (hrun₂ 0)
  rw [Nat.zero_add, hn] at hr₂
  obtain ⟨f, e, hrun, he⟩ := Replacing.lap h₂ hr₂ (by omega) hlong
  refine ⟨f, e, fun d => ?_, he⟩
  rw [buffers_add, Feeder.calls_append, hrun₁, Option.bind_some, buffers_add, Feeder.calls_append, hrun₂, Option.bind_some]
  show (f₂.call replacing (d + 3) _).bind some = some f
  rw [hrun]
  rfl

/-- **The last of the messages is refused.** The books are as large as the market asks for, but the reference of the
replacement is that of a live order. -/
theorem reference_counter_comes_round :
    256 * max lapping.symbols.toNat 1 ≤ MarketBooks.Config.maxOrders {} ∧ 128 ≤ MarketBooks.Config.maxLevelsPerSide {} ∧
    max lapping.symbols.toNat 1 ≤ MarketBooks.Config.maxSymbols {} ∧
    ∃ f e, (∀ depth, 3 ≤ depth →
        Feeder.calls replacing depth (.new lapping () {}) (List.replicate 18446744073709551619 (List.replicate 44 0)) = some f) ∧
      e ∈ f.seen ∧ e.applied = .duplicateOrder ∧ accepted e.message = .ok := by
  refine ⟨by decide, by decide, by decide, ?_⟩
  obtain ⟨f, e, hrun, he⟩ := lapping_run rfl
  refine ⟨f, e, fun depth hd => ?_, he⟩
  obtain ⟨d, rfl⟩ := Nat.exists_eq_add_of_le' hd
  exact hrun d

end OptiTrade.Synthetic
