import OptiTrade.Strategy.Quoting
import OptiTrade.Strategy.Reading

/-! # The arithmetic of the market maker

Every signed operation of an update stays within 64 bits. The product of `requote_ticks` and `tick` does so only
because it is not reached before a quote is live: a quote is a positive multiple of the tick, a tick away from the
other side of the book, and its price has passed the order manager. -/

namespace OptiTrade.Strategy
set_option autoImplicit false

open Oms (OrderManager OrderInfo OrderRequest SubmitResult isTerminal kMaxWirePrice)
open Book (MarketBooks)
open Runs

/-- The price a request offers. -/
def Request.price : Request → Option Int
  | .submit req => some req.price
  | .cancel _ => none
  | .replace _ price _ => some price

theorem touch_bounds {mb : MarketBooks} {n : Nat} (h : mb.Fed n) {l : Nat} {t : Touch} (ht : touchOf (mb.book l) = some t) :
    0 < t.bid ∧ t.bid < t.ask ∧ t.ask ≤ 4294967295 ∧ 0 < t.bidQty ∧ t.bidQty ≤ 4294967295 ∧ 0 < t.askQty ∧
      t.askQty ≤ 4294967295 := by
  obtain ⟨b, bid, ask, hb, hbid, hask, rfl, h₁, h₂, h₃, h₄⟩ := touchOf_some ht
  obtain ⟨-, -, h₅⟩ := h.best hb hbid
  obtain ⟨-, h₆, h₇⟩ := h.best hb hask
  exact ⟨h₁, h₂, h₆, h₃, h₅, h₄, h₇⟩

namespace MicropriceMaker
variable {q : MicropriceMaker} {c : MicropriceMakerConfig}

/-! ## The operations -/

/-- The results of the signed operations of `microprice`. -/
def micropriceOperations (bid ask : Int) (bidQty askQty : Nat) : List Int :=
  let total : Int := bidQty + askQty
  [total, ask - bid, (ask - bid) * bidQty, ((ask - bid) * bidQty).tdiv total, bid + ((ask - bid) * bidQty).tdiv total]

/-- The results of the signed operations from the fair value and the inventory to the quotes. -/
def quoteOperations (c : MicropriceMakerConfig) (touch : Touch) (fair inv : Int) : List Int :=
  let skew := c.skewPerShare * inv
  let bidRaw := min (fair - c.halfSpread - skew) (touch.ask - c.tick)
  let askRaw := max (fair + c.halfSpread - skew) (touch.bid + c.tick)
  [-c.maxInventory, skew, fair - c.halfSpread, fair - c.halfSpread - skew, touch.ask - c.tick,
      fair + c.halfSpread, fair + c.halfSpread - skew, touch.bid + c.tick, c.maxInventory - inv, c.maxInventory + inv] ++
    (if 0 < bidRaw then [bidRaw % c.tick, bidRaw - bidRaw % c.tick] else []) ++
    if 0 < askRaw then
      [askRaw + c.tick, askRaw + c.tick - 1, (askRaw + c.tick - 1) / c.tick, (askRaw + c.tick - 1) / c.tick * c.tick]
    else []

/-- The results of the signed operations of `on_book_update`. -/
def operations (q : MicropriceMaker) (l : Nat) (ctx : Context) : List Int :=
  if q.cfg.maxLocates ≤ l then []
  else
    match touchOf (ctx.books.book l) with
    | none => []
    | some touch =>
      (touch.ask - touch.bid) ::
        if q.cfg.maxSpread < touch.ask - touch.bid then []
        else
          micropriceOperations touch.bid touch.ask touch.bidQty touch.askQty ++
            quoteOperations q.cfg touch (microprice touch.bid touch.ask touch.bidQty touch.askQty)
              (clamp (positionOf ctx.orders l) (-q.cfg.maxInventory) q.cfg.maxInventory)

/-- What `on_book_update` narrows to a quantity. -/
def narrowed (q : MicropriceMaker) (l : Nat) (ctx : Context) : List Int :=
  let inv := clamp (positionOf ctx.orders l) (-q.cfg.maxInventory) q.cfg.maxInventory
  [min q.cfg.quoteQty (q.cfg.maxInventory - inv), min q.cfg.quoteQty (q.cfg.maxInventory + inv)]

/-- The results of the signed operations of a job. -/
def jobOperations (q : MicropriceMaker) (j : Job) (ctx : Context) : List Int :=
  match j with
  | .pull _ _ => []
  | .manage l s target room =>
    if target ≤ 0 ∨ room = 0 then []
    else
      match (q.tracked l s ctx.orders).2 with
      | none => []
      | some o =>
        if o.status ≠ .live then []
        else
          [if o.req.price < target then target - o.req.price else o.req.price - target,
            q.cfg.requoteTicks * q.cfg.tick]

/-! ## The fair value -/

theorem microprice_floor {bid ask : Int} (bidQty askQty : Nat) (h : bid < ask) :
    microprice bid ask bidQty askQty = bid + (ask - bid) * bidQty / (bidQty + askQty : Nat) := by
  have hnum : 0 ≤ (ask - bid) * bidQty := Int.mul_nonneg (by omega) (Int.natCast_nonneg _)
  rw [microprice, Int.tdiv_eq_ediv_of_nonneg hnum]

theorem microprice_between {bid ask : Int} (bidQty : Nat) {askQty : Nat} (h : bid < ask) (ha : 0 < askQty) :
    bid ≤ microprice bid ask bidQty askQty ∧ microprice bid ask bidQty askQty < ask := by
  have hspread : 0 < ask - bid := by omega
  have hq : (0 : Int) ≤ bidQty := Int.natCast_nonneg _
  have htotal : (bidQty : Int) < (bidQty + askQty : Nat) := by omega
  have hpos : (0 : Int) < (bidQty + askQty : Nat) := by omega
  have hlow : 0 ≤ (ask - bid) * bidQty / (bidQty + askQty : Nat) :=
    Int.ediv_nonneg (Int.mul_nonneg hspread.le hq) hpos.le
  have hhigh : (ask - bid) * bidQty / (bidQty + askQty : Nat) < ask - bid :=
    Int.ediv_lt_of_lt_mul hpos (Int.mul_lt_mul_of_pos_left htotal hspread)
  rw [microprice_floor bidQty askQty h]
  omega

theorem microprice_eq {bid ask : Int} (h : bid < ask) {bidQty askQty : Nat} (ha : 0 < askQty) :
    microprice bid ask bidQty askQty = (bid * askQty + ask * bidQty) / (bidQty + askQty) := by
  have hne : ((bidQty + askQty : Nat) : Int) ≠ 0 := by omega
  have hsum : bid * askQty + ask * bidQty = (ask - bid) * bidQty + bid * (bidQty + askQty : Nat) := by
    push_cast
    ring
  have hcast : (bidQty : Int) + askQty = (bidQty + askQty : Nat) := by push_cast; rfl
  rw [hsum, hcast, Int.add_mul_ediv_right _ _ hne, microprice_floor bidQty askQty h]
  omega

/-! ## Targets -/

/-- The ranges that `sanitize` leaves. -/
structure InRange (c : MicropriceMakerConfig) : Prop where
  half : 1 ≤ c.halfSpread ∧ c.halfSpread ≤ 1099511627776
  tick : 1 ≤ c.tick ∧ c.tick ≤ 1099511627776
  skew : 0 ≤ c.skewPerShare ∧ c.skewPerShare ≤ 1000000
  qty : c.quoteQty ≤ kMaxOrderQty
  inventory : 0 ≤ c.maxInventory ∧ c.maxInventory ≤ 1000000000
  spread : c.maxSpread ≤ 2147483648

theorem sanitize_inRange (c : MicropriceMakerConfig) : InRange (sanitize c) where
  half := ⟨le_clamp (by decide) _, clamp_le (by decide) _⟩
  tick := ⟨le_clamp (by decide) _, clamp_le (by decide) _⟩
  skew := ⟨le_clamp (by decide) _, clamp_le (by decide) _⟩
  qty := sanitize_quoteQty c
  inventory := sanitize_inventory c
  spread := clamp_le (by decide) _

theorem InRange.shift (h : InRange c) {inv : Int} (hlo : -c.maxInventory ≤ inv) (hhi : inv ≤ c.maxInventory) :
    -1000000000000000 ≤ c.skewPerShare * inv ∧ c.skewPerShare * inv ≤ 1000000000000000 := by
  obtain ⟨hs₀, hs₁⟩ := h.skew
  obtain ⟨hi₀, hi₁⟩ := h.inventory
  have hmax : c.skewPerShare * c.maxInventory ≤ 1000000 * 1000000000 := Int.mul_le_mul hs₁ hi₁ hi₀ (by decide)
  have hup : c.skewPerShare * inv ≤ c.skewPerShare * c.maxInventory := Int.mul_le_mul_of_nonneg_left hhi hs₀
  have hdown : c.skewPerShare * -c.maxInventory ≤ c.skewPerShare * inv := Int.mul_le_mul_of_nonneg_left hlo hs₀
  rw [Int.mul_neg] at hdown
  omega

/-- A price that may be quoted: on the grid, and a tick from the other side of the touch. -/
structure Quotable (tick : Int) (t : Touch) (s : Side) (p : Int) : Prop where
  pos : 0 < p
  grid : tick ∣ p
  buy : s = .buy → p ≤ t.ask - tick
  sell : s = .sell → t.bid + tick ≤ p

theorem quotable_bid {tick raw : Int} {t : Touch} (ht : 1 ≤ tick) (h : raw ≤ t.ask - tick)
    (hp : 0 < raw - raw % tick) : Quotable tick t .buy (raw - raw % tick) where
  pos := hp
  grid := Int.dvd_self_sub_emod
  buy := fun _ => by
    have := Int.emod_nonneg raw (show tick ≠ 0 by omega)
    omega
  sell := fun h => by cases h

theorem ceil_between {tick : Int} (raw : Int) (ht : 1 ≤ tick) :
    raw ≤ (raw + tick - 1) / tick * tick ∧ (raw + tick - 1) / tick * tick ≤ raw + tick - 1 := by
  have hdiv := Int.mul_ediv_add_emod (raw + tick - 1) tick
  have h₀ := Int.emod_nonneg (raw + tick - 1) (show tick ≠ 0 by omega)
  have h₁ := Int.emod_lt_of_pos (raw + tick - 1) (show 0 < tick by omega)
  rw [Int.mul_comm] at hdiv
  omega

theorem quotable_ask {tick raw : Int} {t : Touch} (ht : 1 ≤ tick) (h : t.bid + tick ≤ raw) (hraw : 0 < raw) :
    Quotable tick t .sell ((raw + tick - 1) / tick * tick) where
  pos := hraw.trans_le (ceil_between _ ht).1
  grid := Int.dvd_mul_left _ _
  buy := fun h => by cases h
  sell := fun _ => h.trans (ceil_between _ ht).1

/-- A quote shows that two ticks fit between the prices of the wire. -/
theorem Quotable.ticks {tick p : Int} {t : Touch} {s : Side} (h : Quotable tick t s p) (ht : 1 ≤ tick) (hbid : 0 < t.bid)
    (hask : t.ask ≤ 4294967295) (hp : p ≤ 4294967295) : 2 * tick ≤ 4294967295 := by
  obtain ⟨k, hk⟩ := h.grid
  have hkpos : 0 < k := by
    by_contra hle
    have hprod := Int.mul_le_mul_of_nonneg_left (show k ≤ 0 by omega) (show 0 ≤ tick by omega)
    rw [Int.mul_zero] at hprod
    have := h.pos
    omega
  cases s with
  | buy =>
    -- one tick below the bid, one above it
    have hbuy := h.buy rfl
    have : tick * 1 ≤ tick * k := Int.mul_le_mul_of_nonneg_left hkpos (by omega)
    omega
  | sell =>
    have hsell := h.sell rfl
    have htwo : 2 ≤ k := by
      by_contra hlt
      obtain rfl : k = 1 := by omega
      omega
    have : tick * 2 ≤ tick * k := Int.mul_le_mul_of_nonneg_left htwo (by omega)
    omega

/-- What a job that waits was given. -/
def Aims (c : MicropriceMakerConfig) (mb : MarketBooks) : Job → Prop
  | .pull _ _ => True
  | .manage l s target room =>
    (0 < target → ∃ t, touchOf (mb.book l) = some t ∧ Quotable (sanitize c).tick t s target) ∧
      target ≤ 4503599627370496 ∧ room ≤ kMaxOrderQty

/-- A bid and an offer of one update. -/
def Uncrossed : Job → Job → Prop
  | .manage _ .buy bid _, .manage _ .sell ask _ => 0 < bid → bid < ask
  | _, _ => True

/-- The jobs of an update. -/
def Waits (c : MicropriceMakerConfig) (mb : MarketBooks) (js : List Job) : Prop :=
  (∀ j ∈ js, Aims c mb j) ∧ js.Pairwise Uncrossed

theorem InRange.clamped (h : InRange c) (pos : Int) :
    -c.maxInventory ≤ clamp pos (-c.maxInventory) c.maxInventory ∧ clamp pos (-c.maxInventory) c.maxInventory ≤ c.maxInventory := by
  have hlim : -c.maxInventory ≤ c.maxInventory := by
    have := h.inventory
    omega
  exact ⟨le_clamp hlim pos, clamp_le hlim pos⟩

/-- Both sides of an update, `fair` being between the touch. -/
theorem aims_both {mb : MarketBooks} {l : Nat} {t : Touch} (hr : InRange (sanitize c)) (ht : touchOf (mb.book l) = some t)
    {fair skew inv : Int} (hask : t.ask ≤ 4294967295) (hbid : 0 < t.bid) (hlow : t.bid ≤ fair) (hhigh : fair < t.ask)
    (hskew : -1000000000000000 ≤ skew ∧ skew ≤ 1000000000000000)
    (hinv : -(sanitize c).maxInventory ≤ inv ∧ inv ≤ (sanitize c).maxInventory) :
    let bidRaw := min (fair - (sanitize c).halfSpread - skew) (t.ask - (sanitize c).tick)
    let askRaw := max (fair + (sanitize c).halfSpread - skew) (t.bid + (sanitize c).tick)
    Waits c mb [
      .manage l .buy (if 0 < bidRaw then bidRaw - bidRaw % (sanitize c).tick else 0)
        (toQty (min (sanitize c).quoteQty ((sanitize c).maxInventory - inv))),
      .manage l .sell (if 0 < askRaw then (askRaw + (sanitize c).tick - 1) / (sanitize c).tick * (sanitize c).tick else 0)
        (toQty (min (sanitize c).quoteQty ((sanitize c).maxInventory + inv)))] := by
  intro bidRaw askRaw
  obtain ⟨hh₀, hh₁⟩ := hr.half
  obtain ⟨ht₀, ht₁⟩ := hr.tick
  have hqty := hr.qty
  have hroom : ∀ v : Int, 0 ≤ v → toQty (min (sanitize c).quoteQty v) ≤ kMaxOrderQty := by
    intro v hv
    have := toQty_eq (v := min (sanitize c).quoteQty v) (by omega) (by omega)
    omega
  have hbidRaw : bidRaw ≤ t.ask - (sanitize c).tick := min_le_right _ _
  have haskRaw : t.bid + (sanitize c).tick ≤ askRaw := le_max_right _ _
  have hapart : bidRaw < askRaw := by omega
  have hwide : askRaw ≤ 4503599627370496 - 1099511627776 := by omega
  have hpos : 0 < askRaw := by omega
  have hceil := ceil_between askRaw ht₀
  have hmod := Int.emod_nonneg bidRaw (show (sanitize c).tick ≠ 0 by omega)
  rw [if_pos hpos]
  refine ⟨fun j hj => ?_, List.pairwise_pair.mpr fun hb => ?_⟩
  · rcases List.mem_pair.mp hj with rfl | rfl
    · refine ⟨fun h₀ => ⟨t, ht, ?_⟩, ?_, hroom _ (by omega)⟩
      · split_ifs at h₀ ⊢ with hb
        · exact quotable_bid ht₀ hbidRaw h₀
        · exact absurd h₀ (Int.lt_irrefl 0)
      · split_ifs
        · omega
        · decide
    · exact ⟨fun _ => ⟨t, ht, quotable_ask ht₀ haskRaw hpos⟩, by omega, hroom _ (by omega)⟩
  · split_ifs at hb ⊢ with h₀
    · omega
    · exact absurd hb (Int.lt_irrefl 0)

/-- **An update** waits with prices that may be quoted. -/
theorem onBookUpdate_waits {n : Nat} (hq : q.cfg = sanitize c) (l : Nat) {ctx : Context} (hfed : ctx.books.Fed n) :
    (q.onBookUpdate l ctx).1 = q ∧ Waits c ctx.books (q.onBookUpdate l ctx).2 := by
  have hpull : Waits c ctx.books [.pull l .buy, .pull l .sell] := by
    refine ⟨fun j hj => ?_, List.pairwise_pair.mpr trivial⟩
    rcases List.mem_pair.mp hj with rfl | rfl <;> exact trivial
  unfold onBookUpdate
  split_ifs
  · exact ⟨rfl, fun j hj => (by cases hj), .nil⟩
  · cases ht : touchOf (ctx.books.book l) with
    | none => exact ⟨rfl, hpull⟩
    | some touch =>
      dsimp only
      by_cases hspread : q.cfg.maxSpread < touch.ask - touch.bid
      · rw [if_pos hspread]
        exact ⟨rfl, hpull⟩
      · rw [if_neg hspread]
        refine ⟨rfl, ?_⟩
        rw [hq]
        have hr := sanitize_inRange c
        obtain ⟨hbid, htouch, hask, -, -, hqty, -⟩ := touch_bounds hfed ht
        obtain ⟨hlow, hhigh⟩ := microprice_between touch.bidQty htouch hqty
        have hinv := hr.clamped (positionOf ctx.orders l)
        exact aims_both hr ht hask hbid hlow hhigh (hr.shift hinv.1 hinv.2) hinv

/-! ## Requests -/

theorem tracked_some {l : Nat} {s : Side} {m : OrderManager} {o : OrderInfo} (h : (q.tracked l s m).2 = some o) :
    (q.tracked l s m).1 = q ∧ q.id l s ≠ 0 ∧ m.find (q.id l s) = some o := by
  unfold tracked at h ⊢
  by_cases h₀ : q.id l s = 0
  · rw [if_pos h₀] at h
    cases h
  · rw [if_neg h₀] at h ⊢
    cases hf : m.find (q.id l s) with
    | none =>
      rw [hf] at h
      cases h
    | some o' =>
      rw [hf] at h
      dsimp only at h ⊢
      split_ifs at h ⊢
      cases h
      exact ⟨rfl, h₀, rfl⟩

theorem pull_price (q : MicropriceMaker) (l : Nat) (s : Side) (ctx : Context) {r : Request} (h : (q.pull l s ctx).2 = some r) :
    r.price = none := by
  unfold pull at h
  cases ht : q.tracked l s ctx.orders with
  | mk q' o =>
    rw [ht] at h
    cases o with
    | none => cases h
    | some o =>
      dsimp only at h
      split_ifs at h
      cases h
      rfl

/-- **What a job offers** is its target, and a total that is still a quantity. -/
theorem ask_price {j : Job} {ctx : Context} {r : Request} {p : Int} (h : (q.ask j ctx).2 = some r) (hp : r.price = some p) :
    0 < p ∧ ∃ l s room, j = .manage l s p room ∧
      (r = .submit ⟨l, s, p, room, .day⟩ ∨
        ∃ o, ctx.orders.find (q.id l s) = some o ∧ r = .replace (q.id l s) p (o.cumQty + room) ∧
          o.cumQty + room ≤ kMaxOrderQty) := by
  have hpull : ∀ l s, (q.pull l s ctx).2 ≠ some r := by
    intro l s hr
    rw [q.pull_price l s ctx hr] at hp
    cases hp
  cases j with
  | pull l s => exact absurd h (hpull l s)
  | manage l s target room =>
    replace h : (q.manage l s target room ctx).2 = some r := h
    unfold manage at h
    by_cases h₀ : target ≤ 0 ∨ room = 0
    · rw [if_pos h₀] at h
      exact absurd h (hpull l s)
    · rw [if_neg h₀] at h
      have hpos : 0 < target := by omega
      cases ht : q.tracked l s ctx.orders with
      | mk q' o =>
        rw [ht] at h
        cases o with
        | none =>
          cases h
          cases hp
          exact ⟨hpos, l, s, room, rfl, .inl rfl⟩
        | some o =>
          obtain ⟨hq, hid, hf⟩ := tracked_some (q := q) (l := l) (s := s) (m := ctx.orders) (o := o) (by rw [ht])
          rw [ht] at hq
          dsimp only at h hq
          subst hq
          generalize (if o.req.price < target then target - o.req.price else o.req.price - target) = moved at h
          split_ifs at h with h₁ h₂ h₃
          · exact absurd h (hpull l s)
          · cases h
            cases hp
            exact ⟨hpos, l, s, room, rfl, .inr ⟨o, hf, rfl, by omega⟩⟩

/-! ## The invariant -/

/-- Two ticks fit below the highest price, if the maker has a quote. -/
structure Scaled (c : MicropriceMakerConfig) (q : MicropriceMaker) : Prop where
  cfg : q.cfg = sanitize c
  ticks : ∀ l s, q.id l s ≠ 0 → 2 * (sanitize c).tick ≤ 4294967295

theorem Scaled.setId (h : Scaled c q) {l : Nat} {s : Side} {id : Nat}
    (hid : id ≠ 0 → 2 * (sanitize c).tick ≤ 4294967295) : Scaled c (q.setId l s id) := by
  refine ⟨h.cfg, fun l' s' hne => ?_⟩
  by_cases hk : l' = l ∧ s' = s
  · rw [hk.1, hk.2, setId_self] at hne
    exact hid hne
  · rw [setId_ne _ _ hk] at hne
    exact h.ticks l' s' hne

theorem Scaled.forgot (h : Scaled c q) {m : OrderManager} {q' : MicropriceMaker} (hf : Forgot m q q') : Scaled c q' := by
  refine ⟨hf.1.trans h.cfg, fun l s hne => ?_⟩
  rcases hf.2 l s with heq | ⟨hz, -⟩
  · rw [heq] at hne
    exact h.ticks l s hne
  · exact absurd hz hne

theorem Scaled.onOrderUpdate (h : Scaled c q) (o : OrderInfo) : Scaled c (q.onOrderUpdate o) := by
  unfold MicropriceMaker.onOrderUpdate
  split_ifs
  · exact h
  · refine ⟨h.cfg, fun l s hne => h.ticks l s fun h₀ => hne ?_⟩
    show Function.update q.id o.req.locate _ l s = 0
    by_cases hl : l = o.req.locate
    · subst hl
      rw [Function.update_self]
      split_ifs
      · rfl
      · exact h₀
    · rw [Function.update_of_ne hl]
      exact h₀

/-- **The maker reads the books.** -/
theorem reads (c : MicropriceMakerConfig) (n : Nat) : Reads callbacks (Scaled c) n (Waits c) where
  nil := fun mb => ⟨fun j hj => (by cases hj), .nil⟩
  tail := fun mb j js h => ⟨fun x hx => h.1 x (List.mem_cons_of_mem _ hx), (List.pairwise_cons.mp h.2).2⟩
  update := fun q info h => h.onOrderUpdate info
  book := fun q l ctx hfed h => by
    obtain ⟨heq, hw⟩ := onBookUpdate_waits h.cfg l hfed
    exact ⟨heq.symm ▸ h, hw⟩
  ask := fun q j ctx hinv h => h.forgot (q.ask_asked j ctx hinv).1
  answer := fun q q' j js ctx req r hfed h hw hask hr => by
    obtain ⟨hpos, l, s, room, rfl, hreq⟩ := ask_price (p := req.price) hask rfl
    show Scaled c (if r.status = .ok then q.setId l s r.id else q)
    split_ifs with hok
    · refine h.setId fun _ => ?_
      obtain ⟨t, ht, hquote⟩ := (hw.1 _ List.mem_cons_self).1 hpos
      obtain ⟨hbid, -, hask, -⟩ := touch_bounds hfed ht
      exact hquote.ticks (sanitize_inRange c).tick.1 hbid hask (hr hok)
    · exact h

/-! ## The widths -/

theorem micropriceOperations_fit {bid ask : Int} {bidQty askQty : Nat} (hbid : 0 < bid) (h : bid < ask) (hask : ask ≤ 4294967295)
    (hspread : ask - bid ≤ 2147483648) (hb : bidQty ≤ 4294967295) (ha : 0 < askQty ∧ askQty ≤ 4294967295) :
    ∀ v ∈ micropriceOperations bid ask bidQty askQty, -2 ^ 63 ≤ v ∧ v < 2 ^ 63 := by
  have hprod₀ : 0 ≤ (ask - bid) * bidQty := Int.mul_nonneg (by omega) (Int.natCast_nonneg _)
  have hprod₁ : (ask - bid) * bidQty ≤ 2147483648 * 4294967295 := Int.mul_le_mul hspread (by omega) (by omega) (by decide)
  have hmid := microprice_between bidQty h ha.1
  unfold microprice at hmid
  rw [Int.natCast_add] at hmid
  intro v hv
  simp only [micropriceOperations, List.mem_cons, List.not_mem_nil, or_false] at hv
  rcases hv with rfl | rfl | rfl | rfl | rfl <;> omega

theorem quoteOperations_fit (hr : InRange c) {t : Touch} {fair inv : Int} (hask : t.ask ≤ 4294967295) (hbid : 0 < t.bid)
    (hlow : t.bid ≤ fair) (hhigh : fair < t.ask) (hinv : -c.maxInventory ≤ inv ∧ inv ≤ c.maxInventory) :
    ∀ v ∈ quoteOperations c t fair inv, -2 ^ 63 ≤ v ∧ v < 2 ^ 63 := by
  have hskew := hr.shift hinv.1 hinv.2
  obtain ⟨hh₀, hh₁⟩ := hr.half
  obtain ⟨ht₀, ht₁⟩ := hr.tick
  obtain ⟨hm₀, hm₁⟩ := hr.inventory
  intro v hv
  unfold quoteOperations at hv
  dsimp only at hv
  generalize c.skewPerShare * inv = skew at hskew hv
  rcases List.mem_append.mp hv with hv | hv
  · rcases List.mem_append.mp hv with hv | hv
    · simp only [List.mem_cons, List.not_mem_nil, or_false] at hv
      omega
    · split_ifs at hv with hpos
      · have hlt : min (fair - c.halfSpread - skew) (t.ask - c.tick) < 4294967295 := by omega
        generalize min (fair - c.halfSpread - skew) (t.ask - c.tick) = raw at hpos hlt hv
        have hmod₀ := Int.emod_nonneg raw (show c.tick ≠ 0 by omega)
        have hmod₁ := Int.emod_lt_of_pos raw (show 0 < c.tick by omega)
        rcases List.mem_pair.mp hv with rfl | rfl <;> omega
      · exact absurd hv List.not_mem_nil
  · split_ifs at hv with hpos
    · have hlt : max (fair + c.halfSpread - skew) (t.bid + c.tick) < 4503599627370496 := by omega
      generalize max (fair + c.halfSpread - skew) (t.bid + c.tick) = raw at hpos hlt hv
      have hceil := ceil_between raw ht₀
      have hquot₀ : 0 ≤ (raw + c.tick - 1) / c.tick := Int.ediv_nonneg (by omega) (by omega)
      have hquot₁ : (raw + c.tick - 1) / c.tick ≤ raw + c.tick - 1 := Int.ediv_le_self _ (by omega)
      simp only [List.mem_cons, List.not_mem_nil, or_false] at hv
      rcases hv with rfl | rfl | rfl | rfl <;> omega
    · exact absurd hv List.not_mem_nil

/-- **The operations of an update** stay within 64 bits. -/
theorem operations_fit {n : Nat} (hq : q.cfg = sanitize c) (l : Nat) {ctx : Context} (hfed : ctx.books.Fed n) :
    ∀ v ∈ q.operations l ctx, -2 ^ 63 ≤ v ∧ v < 2 ^ 63 := by
  unfold operations
  split_ifs
  · exact fun v hv => absurd hv List.not_mem_nil
  · cases ht : touchOf (ctx.books.book l) with
    | none => exact fun v hv => absurd hv List.not_mem_nil
    | some touch =>
      have hr := sanitize_inRange c
      obtain ⟨hbid, htouch, hask, -, hbq, haq⟩ := touch_bounds hfed ht
      have hmid := microprice_between touch.bidQty htouch haq.1
      dsimp only
      rw [hq]
      intro v hv
      rcases List.mem_cons.mp hv with rfl | hv
      · omega
      · split_ifs at hv with hspread
        · exact absurd hv List.not_mem_nil
        · have hmax := hr.spread
          rcases List.mem_append.mp hv with hv | hv
          · exact micropriceOperations_fit hbid htouch hask (by omega) hbq haq v hv
          · exact quoteOperations_fit hr hask hbid hmid.1 hmid.2 (hr.clamped _) v hv

theorem narrowed_fits (hq : q.cfg = sanitize c) (l : Nat) (ctx : Context) : ∀ v ∈ q.narrowed l ctx, (toQty v : Int) = v := by
  have hr := sanitize_inRange c
  have hqty := hr.qty
  have hinv := hr.clamped (positionOf ctx.orders l)
  intro v hv
  unfold narrowed at hv
  rw [hq] at hv
  rcases List.mem_pair.mp hv with rfl | rfl
  · exact toQty_eq (by omega) (by omega)
  · exact toQty_eq (by omega) (by omega)

/-- **The operations of a job** stay within 64 bits: a quote that is live bounds the tick. -/
theorem jobOperations_fit (h : Scaled c q) (hticks : c.requoteTicks ≤ u32Max) {ctx : Context} (hinv : ctx.orders.Inv) {j : Job}
    (hj : Aims c ctx.books j) : ∀ v ∈ q.jobOperations j ctx, -2 ^ 63 ≤ v ∧ v < 2 ^ 63 := by
  cases j with
  | pull l s => exact fun v hv => absurd hv List.not_mem_nil
  | manage l s target room =>
    unfold jobOperations
    dsimp only
    split_ifs with h₀
    · exact fun v hv => absurd hv List.not_mem_nil
    · cases ht : (q.tracked l s ctx.orders).2 with
      | none => exact fun v hv => absurd hv List.not_mem_nil
      | some o =>
        obtain ⟨-, hid, hf⟩ := tracked_some ht
        obtain ⟨i, hi, -, rfl⟩ := hinv.find_some.mp hf
        have hprice := (hinv.entries i hi).sizes
        have hlow := hprice.price_pos
        have hhigh := hprice.price_le
        have htarget := hj.2.1
        have htwo := h.ticks l s hid
        have htick := (sanitize_inRange c).tick.1
        have hreq : ((sanitize c).requoteTicks : Int) ≤ 4294967295 := by
          have : (sanitize c).requoteTicks = max c.requoteTicks 1 := rfl
          unfold u32Max at hticks
          omega
        have hprod₀ : 0 ≤ ((sanitize c).requoteTicks : Int) * (sanitize c).tick :=
          Int.mul_nonneg (Int.natCast_nonneg _) (by omega)
        have hprod₁ : ((sanitize c).requoteTicks : Int) * (sanitize c).tick ≤ 4294967295 * 2147483647 :=
          Int.mul_le_mul hreq (by omega) (by omega) (by decide)
        unfold kMaxWirePrice at hhigh
        dsimp only
        rw [h.cfg]
        intro v hv
        split_ifs at hv
        · exact absurd hv List.not_mem_nil
        · rcases List.mem_pair.mp hv with rfl | rfl <;> omega
        · rcases List.mem_pair.mp hv with rfl | rfl <;> omega

/-! ## Runs -/

/-- The arithmetic of the maker in a state of its desk. -/
structure Exact (c : MicropriceMakerConfig) (d : Desk MicropriceMaker Job) : Prop where
  updates : ∀ l now, ∀ v ∈ d.strategy.operations l (d.context now), -2 ^ 63 ≤ v ∧ v < 2 ^ 63
  jobs : ∀ j js now, d.jobs = j :: js → ∀ v ∈ d.strategy.jobOperations j (d.context now), -2 ^ 63 ≤ v ∧ v < 2 ^ 63
  rooms : ∀ l now, ∀ v ∈ d.strategy.narrowed l (d.context now), (toQty v : Int) = v
  totals : ∀ j js now id price total, d.jobs = j :: js →
    (d.strategy.ask j (d.context now)).2 = some (.replace id price total) → toQty total = total
  fair : ∀ l t, touchOf (d.engine.books.book l) = some t → t.ask - t.bid ≤ (sanitize c).maxSpread →
    t.bid ≤ microprice t.bid t.ask t.bidQty t.askQty ∧ microprice t.bid t.ask t.bidQty t.askQty < t.ask ∧
      microprice t.bid t.ask t.bidQty t.askQty = (t.bid * t.askQty + t.ask * t.bidQty) / (t.bidQty + t.askQty)
  /-- Every price that is submitted or replaced. -/
  quotes : ∀ j js now r p, d.jobs = j :: js → (d.strategy.ask j (d.context now)).2 = some r → r.price = some p →
    ∃ l s room t, j = .manage l s p room ∧
      (r = .submit ⟨l, s, p, room, .day⟩ ∨ ∃ total, r = .replace (d.strategy.id l s) p total) ∧
      touchOf (d.engine.books.book l) = some t ∧ Quotable (sanitize c).tick t s p
  /-- The bid and the offer of one update. -/
  uncrossed : ∀ l bid ask bidRoom askRoom js, d.jobs = .manage l .buy bid bidRoom :: js →
    .manage l .sell ask askRoom ∈ js → 0 < bid → bid < ask

/-- **The arithmetic of the maker is exact.** In every state that an engine with this strategy can reach on messages
of the decoder, whatever the gateway and the exchange do. -/
theorem maker_arithmetic_is_exact (config : Engine.Config) (c : MicropriceMakerConfig) (hticks : c.requoteTicks ≤ u32Max)
    (is : List Input) (hdec : ∀ i ∈ is, Decoded i) (d : Desk MicropriceMaker Job)
    (hr : run (Desk.step callbacks) (Desk.new config (new c)) is = some d) : Exact c d := by
  have h := Desk.run_reading config (reads c _) (s := new c) ⟨rfl, fun l s hne => absurd rfl hne⟩ hr hdec
  have hinv : ∀ now, (d.context now).orders.Inv := fun _ => h.ok.session.inv
  refine ⟨fun l now => operations_fit h.holds.cfg l h.books, fun j js now hj => ?_,
    fun l now => narrowed_fits h.holds.cfg l _, fun j js now id price total hj hask => ?_, fun l t ht _ => ?_,
    fun j js now r p hj hask hp => ?_, fun l bid ask bidRoom askRoom js hj hmem hpos => ?_⟩
  · have hw : Waits c d.engine.books (j :: js) := hj ▸ h.jobs
    exact jobOperations_fit h.holds hticks (hinv now) (hw.1 j List.mem_cons_self)
  · obtain ⟨-, l, s, room, -, hreq | ⟨o, -, hreq, hle⟩⟩ := ask_price hask rfl
    · cases hreq
    · cases hreq
      have := toQty_eq (v := ((o.cumQty + room : Nat) : Int)) (by omega) (by omega)
      omega
  · obtain ⟨-, htouch, -, -, -, hqty, -⟩ := touch_bounds h.books ht
    obtain ⟨hlow, hhigh⟩ := microprice_between t.bidQty htouch hqty
    exact ⟨hlow, hhigh, microprice_eq htouch hqty⟩
  · obtain ⟨hpos, l, s, room, rfl, hreq⟩ := ask_price hask hp
    have hw : Waits c d.engine.books (.manage l s p room :: js) := hj ▸ h.jobs
    obtain ⟨t, ht, hquote⟩ := (hw.1 _ List.mem_cons_self).1 hpos
    exact ⟨l, s, room, t, rfl, hreq.imp_right fun ⟨o, _, ho, _⟩ => ⟨_, ho⟩, ht, hquote⟩
  · have hw : Waits c d.engine.books (.manage l .buy bid bidRoom :: js) := hj ▸ h.jobs
    exact (List.pairwise_cons.mp hw.2).1 _ hmem hpos

/-- An order of the feed. -/
def added (ref : Nat) (side : Side) (shares : Nat) (price : Int) (now : Nat) : Input :=
  .itch (some (.addOrder ⟨⟨1, 0, 0⟩, ref, side, shares, .ofText [65, 66, 67, 68], price, false, [0, 0, 0, 0]⟩)) now

/-- The maker quotes both sides, its bid is accepted, and a better bid moves the fair value. -/
def requote : List Input :=
  [.itch (some (.stockDirectory ⟨⟨1, 0, 0⟩, .ofText [65, 66, 67, 68], 0, 0, 100, 0, 0, [0, 0], 0, 0, 0, 0, 0, 0, 0⟩)) 1,
    takeAll, added 1 .buy 100 10000 2, takeAll, takeAll, takeAll, takeAll,
    added 2 .sell 100 10200 3, takeAll, takeAll, takeAll, takeAll, takeAll, takeAll,
    .ouch (some (.accepted { token := Ouch.Token.fromId 1, side := .buy, shares := 100, price := 10000, ref := 7 })) 4,
    takeAll, takeAll, added 3 .buy 200 10190 5]

theorem requote_decoded : ∀ i ∈ requote, Decoded i := by
  have hgo : Decoded takeAll := trivial
  have hbid : Decoded (added 1 .buy 100 10000 2) :=
    ⟨[65, 0, 1, 0, 0, 0, 0, 0, 0, 0, 0, 0, 0, 0, 0, 0, 0, 0, 1, 66, 0, 0, 0, 100, 65, 66, 67, 68, 32, 32, 32, 32, 0, 0, 39, 16],
      by decide +kernel⟩
  have hask : Decoded (added 2 .sell 100 10200 3) :=
    ⟨[65, 0, 1, 0, 0, 0, 0, 0, 0, 0, 0, 0, 0, 0, 0, 0, 0, 0, 2, 83, 0, 0, 0, 100, 65, 66, 67, 68, 32, 32, 32, 32, 0, 0, 39, 216],
      by decide +kernel⟩
  have hbetter : Decoded (added 3 .buy 200 10190 5) :=
    ⟨[65, 0, 1, 0, 0, 0, 0, 0, 0, 0, 0, 0, 0, 0, 0, 0, 0, 0, 3, 66, 0, 0, 0, 200, 65, 66, 67, 68, 32, 32, 32, 32, 0, 0, 39, 206],
      by decide +kernel⟩
  have hlisting : Decoded (requote.head (List.cons_ne_nil _ _)) :=
    ⟨[82, 0, 1, 0, 0, 0, 0, 0, 0, 0, 0, 65, 66, 67, 68, 32, 32, 32, 32, 0, 0, 0, 0, 0, 100, 0, 0, 0, 0, 0, 0, 0, 0,
      0, 0, 0, 0, 0, 0], rfl⟩
  unfold requote
  simp only [List.forall_mem_cons, List.not_mem_nil, false_implies, implies_true, and_true]
  exact ⟨hlisting, hgo, hbid, hgo, hgo, hgo, hgo, hask, hgo, hgo, hgo, hgo, hgo, hgo, trivial, hgo, hgo, hbetter⟩

theorem maker_arithmetic_of_a_requote :
    ∃ d j js, run (Desk.step callbacks) (Desk.new {} (new { halfSpread := 100, tick := 10 })) requote = some d ∧
      d.jobs = j :: js ∧ d.strategy.jobOperations j (d.context 5) = [90, 20] ∧
      ∃ r, (d.strategy.ask j (d.context 5)).2 = some r ∧ r.price = some 10090 ∧
        ∃ l s t, touchOf (d.engine.books.book l) = some t ∧ Quotable 10 t s 10090 := by
  have hview : (run (Desk.step callbacks) (Desk.new {} (new { halfSpread := 100, tick := 10 })) requote).map (fun d =>
      d.jobs.head?.map fun j => (d.strategy.jobOperations j (d.context 5),
        (d.strategy.ask j (d.context 5)).2.bind Request.price)) = some (some ([90, 20], some 10090)) := by
    decide +kernel
  obtain ⟨d, hr, hd⟩ := Option.map_eq_some_iff.mp hview
  obtain ⟨j, hj, hv⟩ := Option.map_eq_some_iff.mp hd
  obtain ⟨js, hjs⟩ := List.head?_eq_some_iff.mp hj
  obtain ⟨hops, hprice⟩ := Prod.mk.inj hv
  obtain ⟨r, hask, hp⟩ := Option.bind_eq_some_iff.mp hprice
  have h := maker_arithmetic_is_exact {} { halfSpread := 100, tick := 10 } (by decide) requote requote_decoded d hr
  obtain ⟨l, s, room, t, -, -, ht, hquote⟩ := h.quotes j js 5 r 10090 hjs hask hp
  exact ⟨d, j, js, hr, hjs, hops, r, hask, hp, l, s, t, ht, hquote⟩

end MicropriceMaker
end OptiTrade.Strategy
