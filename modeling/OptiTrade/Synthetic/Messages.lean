import OptiTrade.Itch.RoundTrip
import OptiTrade.Synthetic.Invariant

/-! # One message on its way to the books

A message of a sane market fits the wire, and books that hold the shadow arrays take it and hold the arrays
after it. -/

namespace OptiTrade.Synthetic
set_option autoImplicit false

open Book (better MarketBooks Holds Orders Applied)
open Itch (Message)

/-- What the books answer: nothing to apply in an event or a print, and no trouble with anything else. -/
def accepted : Message → Applied
  | .systemEvent _ => .ignored
  | .trade _ => .ignored
  | _ => .ok

/-- The order a message executes. -/
def executes : Message → Option Nat
  | .orderExecuted m => some m.ref
  | .orderExecutedPrice m => some m.ref
  | _ => none

/-- A live order that no order of its side is executed before: none has a better price, none an earlier
reference at its price. -/
def Foremost (mb : MarketBooks) (ref : Nat) : Prop :=
  ∃ i, mb.order ref = some i ∧ ∀ ref' i', mb.order ref' = some i' → i'.locate = i.locate → i'.side = i.side →
    better i.side i'.price i.price = false ∧ (i'.price = i.price → ref ≤ ref')

/-- The price of a message, if it has one, is between 1 and the largest of the wire. -/
def Priced (msg : Message) : Prop := ∀ px, msg.wirePrice = some px → 1 ≤ px ∧ px ≤ 2 ^ 32 - 1

theorem Priced.of_eq {msg : Message} (px : Int) (hp : msg.wirePrice = some px) (h₁ : 1 ≤ px) (h₂ : px ≤ 2 ^ 32 - 1) :
    Priced msg := by
  intro px' hpx'
  obtain rfl : px' = px := Option.some.inj (hpx'.symm.trans hp)
  exact ⟨h₁, h₂⟩

/-- A message that fits the wire, of time `ts`. -/
structure Wired (ts : Nat) (msg : Message) : Prop where
  typed : msg.Typed
  time : msg.header.timestamp = ts
  priced : Priced msg
  add : ∀ a, msg = .addOrder a → 1 ≤ a.shares ∧ (a.hasAttribution = false → a.mpid = List.replicate 4 0)

theorem Wired.encodable {ts : Nat} {msg : Message} (h : Wired ts msg) (hts : ts ≤ kMaxTimestamp) : msg.Encodable := by
  refine ⟨?_, fun px hpx => ?_, h.add⟩
  · rw [h.time]
    unfold kMaxTimestamp at hts
    omega
  · have := h.priced px hpx
    omega

theorem Wired.unpriced {ts : Nat} {msg : Message} (ht : msg.Typed) (hts : msg.header.timestamp = ts)
    (hp : msg.wirePrice = none) (ha : ∀ a, msg ≠ .addOrder a) : Wired ts msg :=
  ⟨ht, hts, fun px hpx => absurd (hp.symm.trans hpx) (Option.some_ne_none px).symm, fun a he => absurd he (ha a)⟩

/-! ## Arithmetic of prices -/

theorem clamp_bounds {v lo hi : Int} (h : lo ≤ hi) : lo ≤ clamp v lo hi ∧ clamp v lo hi ≤ hi := by
  unfold clamp
  split_ifs <;> omega

theorem roundTick_le {tick p : Int} (htick : 1 ≤ tick) (hp : 0 ≤ p) : roundTick tick p ≤ p := by
  unfold roundTick
  rw [Int.tdiv_eq_ediv_of_nonneg hp]
  exact Int.ediv_mul_le p (by omega)

theorem le_roundTick {tick p k : Int} (htick : 1 ≤ tick) (hp : 0 ≤ p) (hk : k * tick ≤ p) : k * tick ≤ roundTick tick p := by
  unfold roundTick
  rw [Int.tdiv_eq_ediv_of_nonneg hp]
  exact Int.mul_le_mul_of_nonneg_right ((Int.le_ediv_iff_mul_le (by omega)).mpr hk) (by omega)

namespace Sane
variable {σ : Type} {c s n lim cap : Nat} {m : Market σ} {side : Side} {mb : MarketBooks}

theorem locateOf_eq (h : Sane c m) (hs : s < m.symbols) : Market.locateOf s = s + 1 := by
  have := h.symbols_le
  unfold Market.locateOf
  omega

theorem header_typed (h : Sane c m) (loc : Nat) (hloc : loc < 2 ^ 16) : (m.header loc).Typed := by
  have := h.ts
  unfold kMaxTimestamp at this
  refine ⟨hloc, Nat.two_pow_pos 16, ?_⟩
  show m.ts < 2 ^ 64
  omega

theorem locateOf_lt (s : Nat) : Market.locateOf s < 2 ^ 16 := Nat.mod_lt _ (by decide)

theorem nextRef_lt (h : Sane c m) : m.nextRef < 2 ^ 64 := h.nextRef ▸ refAt_lt c

theorem ref_lt (h : Sane c m) {o : Live} (ho : o ∈ m.orders s side) : o.ref < 2 ^ 64 := by
  obtain ⟨k, -, hk⟩ := (h.orders s side o ho).2
  rw [hk]
  exact refAt_lt k

theorem fair_bounds (h : Sane c m) (s : Nat) : 1 ≤ (m.syms s).fair ∧ (m.syms s).fair ≤ kMaxPrice := by
  obtain ⟨h₁, h₂, h₃, h₄⟩ := h.syms s
  have := h.tick_pos
  unfold kMaxPrice
  omega

theorem tradePrice_bounds (h : Sane c m) (s : Nat) : 1 ≤ m.tradePrice s ∧ m.tradePrice s ≤ kMaxPrice := by
  unfold Market.tradePrice
  split
  · rename_i i bb j ba hbb hba
    obtain ⟨⟨-, -, h₁, h₂⟩, -⟩ := h.orders s .buy bb (List.mem_of_getElem? (bestOf_some hbb).1)
    obtain ⟨⟨-, -, h₃, h₄⟩, -⟩ := h.orders s .sell ba (List.mem_of_getElem? (bestOf_some hba).1)
    have htick := h.tick_pos
    have hsum : 0 ≤ bb.price + ba.price := by omega
    have hhalf : (bb.price + ba.price).tdiv 2 = (bb.price + ba.price) / 2 := Int.tdiv_eq_ediv_of_nonneg hsum
    rw [hhalf]
    have hle : roundTick m.tick ((bb.price + ba.price) / 2) ≤ (bb.price + ba.price) / 2 := roundTick_le htick (by omega)
    have hge : 1 * m.tick ≤ roundTick m.tick ((bb.price + ba.price) / 2) := le_roundTick htick (by omega) (by omega)
    omega
  · exact h.fair_bounds s

theorem free (h : Sane c m) (hc : c < 2 ^ 64) : m.live.Free m.nextRef := by
  intro x hx
  obtain ⟨s, side, -, o, ho, rfl⟩ := Market.mem_live.mp hx
  rw [h.nextRef]
  exact (h.orders s side o ho).2.ne hc

theorem emitAdd_message (m : Market σ) (s : Nat) (side : Side) (px : Int) (qty : Nat) (attributed : Bool) :
    ∃ a, (m.emitAdd s side px qty attributed).2 = .addOrder a ∧ a.h.locate = Market.locateOf s ∧ a.ref = m.nextRef ∧
      a.side = side ∧ a.price = px ∧ a.shares = qty :=
  ⟨_, rfl, rfl, rfl, rfl, rfl, rfl⟩

/-- **Books take an add.** -/
theorem add_books (h : Sane c m) (hs : s < m.symbols) (hb : Holds lim cap n m.live mb) (hlim : 256 * m.symbols ≤ lim)
    (hcap : kCap ≤ cap) (hc : c < 2 ^ 64) (hn : n + 1 < 2 ^ 64) {px : Int} {qty : Nat} (attributed : Bool) (r : σ)
    (hroom : (m.orders s side).length < kCap) (hqty : 1 ≤ qty ∧ qty ≤ 1000)
    (hafter : ∀ s' side', (({ m with rng := r }.emitAdd s side px qty attributed).1.orders s' side').length ≤ kCap) :
    (mb.on ({ m with rng := r }.emitAdd s side px qty attributed).2).2 = .ok ∧
      Holds lim cap (n + if m.live.At (s + 1) side px then 0 else 1) ({ m with rng := r }.emitAdd s side px qty attributed).1.live
        (mb.on ({ m with rng := r }.emitAdd s side px qty attributed).2).1 := by
  have hpush : ({ m with rng := r }.emitAdd s side px qty attributed).1.live.Perm
      (Market.entry s side ⟨m.nextRef, px, qty⟩ :: m.live) :=
    Market.live_push (m := { m with rng := r, nextRef := add64 m.nextRef 1 }) hs side ⟨m.nextRef, px, qty⟩
  have hlen := Market.length_live_le hafter
  have hsymbols : ({ m with rng := r }.emitAdd s side px qty attributed).1.symbols = m.symbols := rfl
  rw [hpush.length_eq, List.length_cons, hsymbols] at hlen
  have hcount := Market.count_live hs side
  have hshares := Market.shares_live hs side
  have hle := h.shares_le s side
  obtain ⟨a, ha, hloc, href, rfl, rfl, rfl⟩ := emitAdd_message { m with rng := r } s side px qty attributed
  rw [h.locateOf_eq hs] at hloc
  have hnew : Market.entry s a.side ⟨m.nextRef, a.price, a.shares⟩ = (a.ref, ⟨a.h.locate, a.side, a.price, a.shares⟩) := by
    rw [hloc, href]
    rfl
  rw [hnew] at hpush
  rw [← hloc] at hcount hshares
  rw [ha, ← hloc]
  have hadd := hb.onAddOrder a (by rw [href]; exact h.free hc) (by omega) hqty.1 (by omega)
    (by unfold Book.kQtyMax u32Max; omega) hn
  exact ⟨hadd.1, hadd.2.perm hpush.symm⟩

end Sane
namespace Market.Emitted
variable {σ : Type} {c s n lim cap : Nat} {m : Market σ} {p : Market σ × Message} {mb : MarketBooks}

theorem emitAdd_wired (h : Sane c m) (s : Nat) (side : Side) {px : Int} {qty : Nat} (attributed : Bool)
    (hpx : 1 ≤ px ∧ px ≤ kMaxPrice) (hqty : 1 ≤ qty ∧ qty ≤ 1000) : Wired m.ts (m.emitAdd s side px qty attributed).2 := by
  unfold kMaxPrice at hpx
  refine ⟨⟨h.header_typed _ (Sane.locateOf_lt s), h.nextRef_lt, ?_, ?_⟩, rfl,
    .of_eq px rfl hpx.1 (by omega), fun a ha => ?_⟩
  · show qty < 2 ^ 32
    omega
  · cases attributed <;> rfl
  · cases ha
    refine ⟨hqty.1, fun hno => ?_⟩
    show (if attributed then _ else _) = _
    rw [if_neg (by rw [show attributed = false from hno]; exact Bool.false_ne_true)]

theorem cut_bounds (h : Sane c m) {side : Side} {o : Live} (ho : o ∈ m.orders s side) {shares : Nat} (hcut : Cut o shares) :
    1 ≤ shares ∧ shares ≤ o.qty ∧ shares < 2 ^ 32 := by
  have hok := (h.orders s side o ho).1
  have h₁ := hok.qty_pos
  have h₂ := hok.qty_le
  unfold Cut at hcut
  omega

/-- **The message fits the wire.** -/
theorem wired (he : Emitted m s p) (h : Sane c m) : Wired m.ts p.2 := by
  have hloc := Sane.locateOf_lt s
  have hh := h.header_typed _ hloc
  have hmatch : add64 m.matchNo 1 < 2 ^ 64 := add64_lt _ _
  cases he with
  | added attributed r hclear hroom hpx hqty =>
    have hpx := h.passive hpx
    have := h.tick_pos
    exact emitAdd_wired (m := { m with rng := r }) (h.same rfl rfl rfl rfl h.ts h.matchNo) s _ attributed
      ⟨by omega, hpx.2⟩ hqty
  | deleted r ho => exact .unpriced ⟨hh, h.ref_lt (List.mem_of_getElem? ho)⟩ rfl rfl fun a ha => Message.noConfusion ha
  | cancelled r ho hcut =>
    have hmem := List.mem_of_getElem? ho
    exact .unpriced ⟨hh, h.ref_lt hmem, (cut_bounds h hmem hcut).2.2⟩ rfl rfl fun a ha => Message.noConfusion ha
  | executed r hbest hcut =>
    have hmem := List.mem_of_getElem? (bestOf_some hbest).1
    exact .unpriced ⟨hh, h.ref_lt hmem, (cut_bounds h hmem hcut).2.2, hmatch⟩ rfl rfl fun a ha => Message.noConfusion ha
  | @printed target i shares o px r hbest hcut hpx =>
    have hmem := List.mem_of_getElem? (bestOf_some hbest).1
    obtain ⟨⟨-, -, h₁, h₂⟩, -⟩ := h.orders s _ o hmem
    have h₃ := h.tick_pos
    have h₄ := h.tick_le
    rw [abs_of_nonneg (by omega : 0 ≤ m.tick)] at hpx
    unfold kMaxPrice at h₂
    exact ⟨⟨hh, h.ref_lt hmem, (cut_bounds h hmem hcut).2.2, hmatch⟩, rfl,
      .of_eq px rfl (by omega) (by omega), fun a ha => Message.noConfusion ha⟩
  | @replaced side i qty o px r ho hpx hqty =>
    have hmem := List.mem_of_getElem? ho
    obtain ⟨⟨-, -, h₁, h₂⟩, -⟩ := h.orders s _ o hmem
    have h₃ := h.tick_pos
    have hbounds : 1 ≤ px ∧ px ≤ 2 ^ 32 - 1 := by
      unfold kMaxPrice at h₂
      rcases hpx with rfl | ⟨-, hpassive⟩
      · omega
      · have h₄ := h.passive hpassive
        unfold kMaxPrice at h₄
        omega
    refine ⟨⟨hh, h.ref_lt hmem, h.nextRef_lt, ?_⟩, rfl, .of_eq px rfl hbounds.1 hbounds.2, fun a ha => Message.noConfusion ha⟩
    show qty < 2 ^ 32
    omega
  | @traded lots side r hlots =>
    have h₁ := h.tradePrice_bounds s
    unfold kMaxPrice at h₁
    refine ⟨⟨hh, Nat.two_pow_pos 64, ?_, hmatch⟩, rfl, .of_eq (m.tradePrice s) rfl h₁.1 (by omega),
      fun a ha => Message.noConfusion ha⟩
    show 100 * (1 + lots) < 2 ^ 32
    omega
  | event code r =>
    exact .unpriced ⟨h.header_typed 0 (Nat.two_pow_pos 16), trivial⟩ rfl rfl fun a ha => Message.noConfusion ha

/-- **The books take the message** and hold the arrays after it. -/
theorem books (he : Emitted m s p) (h : Sane c m) (hs : s < m.symbols) (hb : Holds lim cap n m.live mb)
    (hlim : 256 * m.symbols ≤ lim) (hcap : kCap ≤ cap) (hc : c < 2 ^ 64) (hn : n + 1 < 2 ^ 64) :
    (mb.on p.2).2 = accepted p.2 ∧ Holds lim cap (n + issues p.2) p.1.live (mb.on p.2).1 := by
  have hsane := he.sane h
  cases he with
  | @added side px qty attributed r hclear hroom hpx hqty =>
    obtain ⟨hok, hholds⟩ := h.add_books hs hb hlim hcap hc hn attributed r hroom hqty hsane.room
    refine ⟨hok, hholds.mono (Nat.add_le_add_left ?_ n)⟩
    show _ ≤ 1
    split_ifs <;> omega
  | @deleted side i o r ho => exact hb.onOrderDelete _ (live_removeAt hs ho)
  | @cancelled side i shares o r ho hcut =>
    obtain ⟨hpos, hle, -⟩ := cut_bounds h (List.mem_of_getElem? ho) hcut
    obtain ⟨rest, hlive, hleft⟩ := live_reduce (m := { m with rng := r }) hs ho hle
    obtain ⟨hok, hholds⟩ := hb.reduce hlive hpos hle none false
    exact ⟨hok, hholds.perm hleft⟩
  | @executed target i shares o r hbest hcut =>
    have ho := (bestOf_some hbest).1
    obtain ⟨hpos, hle, -⟩ := cut_bounds h (List.mem_of_getElem? ho) hcut
    obtain ⟨rest, hlive, hleft⟩ := live_reduce (m := { m with rng := r, matchNo := add64 m.matchNo 1 }) hs ho hle
    obtain ⟨hok, hholds⟩ := hb.reduce hlive hpos hle none true
    exact ⟨hok, hholds.perm hleft⟩
  | @printed target i shares o px r hbest hcut hpx =>
    have ho := (bestOf_some hbest).1
    obtain ⟨hpos, hle, -⟩ := cut_bounds h (List.mem_of_getElem? ho) hcut
    obtain ⟨rest, hlive, hleft⟩ := live_reduce (m := { m with rng := r, matchNo := add64 m.matchNo 1 }) hs ho hle
    obtain ⟨hok, hholds⟩ := hb.reduce hlive hpos hle (some px) true
    exact ⟨hok, hholds.perm hleft⟩
  | @replaced side i qty o px r ho hpx hqty =>
    obtain ⟨rest, hlive, hset⟩ := live_set hs ho
    have hcount := count_live hs side
    have hshares := shares_live hs side
    have hle := h.shares_le s side
    have hroom := h.room s side
    have hlen := length_live_le h.room
    have hrest : Orders.shares rest (s + 1) side ≤ m.live.shares (s + 1) side := by
      unfold Orders.shares
      rw [(hlive.map _).sum_eq, List.map_cons, List.sum_cons]
      exact Nat.le_add_left _ _
    obtain ⟨hok, hholds⟩ := hb.onOrderReplace ⟨m.header (locateOf s), o.ref, m.nextRef, qty, px⟩ hlive (h.free hc) (by omega)
      hqty.1 (hcount.le.trans (hroom.trans hcap)) (by
        show rest.shares (s + 1) side + qty ≤ Book.kQtyMax
        unfold Book.kQtyMax u32Max
        omega) hn
    refine ⟨hok, (hholds.perm (hset ⟨m.nextRef, px, qty⟩).symm).mono (Nat.add_le_add_left ?_ n)⟩
    show _ ≤ 1
    split_ifs <;> omega
  | traded side r hlots => exact ⟨rfl, hb.onTrade _⟩
  | event code r => exact ⟨rfl, hb⟩

/-- **An execution is of the foremost order.** -/
theorem foremost (he : Emitted m s p) (hs : s < m.symbols) (hb : Holds lim cap n m.live mb) {ref : Nat}
    (hx : executes p.2 = some ref) : Foremost mb ref := by
  have hbest : ∀ {target : Side} {i : Nat} {o : Live}, bestOf target (m.orders s target) = some (i, o) → Foremost mb o.ref := by
    intro target i o hbest
    obtain ⟨ho, hfirst⟩ := bestOf_some hbest
    refine ⟨_, hb.order_iff.mpr (mem_live.mpr ⟨s, target, hs, o, List.mem_of_getElem? ho, rfl⟩), fun ref' i' hi' hl hside => ?_⟩
    obtain ⟨s', side', -, o', ho', he'⟩ := mem_live.mp (hb.order_iff.mp hi')
    cases he'
    obtain rfl : s' = s := Nat.succ_injective hl
    obtain rfl : side' = target := hside
    have hno := hfirst o' ho'
    unfold Before at hno
    refine ⟨Bool.eq_false_iff.mpr fun hbetter => hno (.inl hbetter), fun hp => ?_⟩
    by_contra hlt
    exact hno (.inr ⟨hp, Nat.lt_of_not_le hlt⟩)
  cases he with
  | executed r h hcut =>
    cases hx
    exact hbest h
  | printed r h hcut hpx =>
    cases hx
    exact hbest h
  | added attributed r hclear hroom hpx hqty => cases hx
  | deleted r h => cases hx
  | cancelled r h hcut => cases hx
  | replaced r h hpx hqty => cases hx
  | traded side r hlots => cases hx
  | event code r => cases hx

end Market.Emitted
end OptiTrade.Synthetic
