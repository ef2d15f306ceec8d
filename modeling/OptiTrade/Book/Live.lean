import Mathlib.Data.List.Perm.Subperm
import OptiTrade.Book.Aggregation
import OptiTrade.Book.Prices

/-! # Books that hold a list of orders

What a feed does to the books when each of its messages makes sense, said of the list of live orders: an add puts
an order in front, a reduction changes one, a delete takes one out. `Holds` is that the table is the list, up to
its order, and that no order has been lost from the ladders. -/

namespace OptiTrade.Book
set_option autoImplicit false

open Itch (Message)

/-- Live orders by reference. -/
abbrev Orders := List (Nat × OrderInfo)

namespace Orders

/-- An order of one side of `l`. -/
def On (l : Nat) (s : Side) (x : Nat × OrderInfo) : Prop := x.2.locate = l ∧ x.2.side = s

instance (l : Nat) (s : Side) (x : Nat × OrderInfo) : Decidable (On l s x) := inferInstanceAs (Decidable (_ ∧ _))

/-- How many orders a side has. -/
def count (live : Orders) (l : Nat) (s : Side) : Nat := live.countP fun x => On l s x

/-- The shares of the orders of a side. -/
def shares (live : Orders) (l : Nat) (s : Side) : Nat := (live.map fun x => if On l s x then x.2.qty else 0).sum

/-- An order at a price. -/
def At (live : Orders) (l : Nat) (s : Side) (price : Int) : Prop := ∃ x ∈ live, On l s x ∧ x.2.price = price

instance (live : Orders) (l : Nat) (s : Side) (price : Int) : Decidable (live.At l s price) :=
  inferInstanceAs (Decidable (∃ x ∈ live, _))

/-- No order is still there with a reference. -/
def Free (live : Orders) (ref : Nat) : Prop := ∀ x ∈ live, x.1 ≠ ref

variable {live live' : Orders} {l : Nat} {s : Side}

theorem count_perm (h : live.Perm live') : count live l s = count live' l s := h.countP_eq _

theorem count_cons (x : Nat × OrderInfo) (live : Orders) :
    count (x :: live) l s = count live l s + if On l s x then 1 else 0 := by
  unfold count
  rw [List.countP_cons]
  simp only [decide_eq_true_eq]

end Orders

/-- The books hold the orders `live` and show all of them; at most `n` levels were created, the table has room
for `lim` orders and a side for `cap` levels. -/
structure Holds (lim cap n : Nat) (live : Orders) (mb : MarketBooks) : Prop where
  aggregates : Aggregates mb n
  whole : mb.overflows = 0
  orders : (mb.orders.items OrderRecord.info).Perm live
  limit : mb.orders.limit = lim
  priced : mb.Priced (fun _ _ => True) cap

variable {os : BoundedMap Nat OrderRecord} {l k n n' lim cap ref : Nat} {s side : Side} {b : OrderBook} {live rest : Orders}
  {mb mb' : MarketBooks} {i : OrderInfo}

/-! ## Sides -/

theorem Sound.depth_le (h : Sound os l k b) (s : Side) :
    b.depth s ≤ (os.items OrderRecord.info).countP fun x => Orders.On l s x := by
  have hsub : (b.sides s).e.map Entry.id ⊆
      (os.entries.entries.filter fun x => Orders.On l s (x.1, x.2.info)).map fun x => x.2.level := by
    intro id hid
    obtain ⟨x, hx, rfl⟩ := List.mem_map.mp hid
    obtain ⟨r, o, hf, hl, hlev⟩ := (h.level s x hx).exists_order
    have hs := ((h.level s x hx).members r o hf hl hlev).1
    refine List.mem_map.mpr ⟨⟨r, o⟩, List.mem_filter.mpr ⟨(BoundedMap.mem_entries_iff os r o).mpr hf, ?_⟩, hlev⟩
    exact decide_eq_true ⟨hl, hs⟩
  have hle := (List.subperm_of_subset (h.nodup_ids s) hsub).length_le
  rw [List.length_map, List.length_map] at hle
  refine hle.trans_eq ?_
  unfold BoundedMap.items
  rw [List.countP_map, List.countP_eq_length_filter]
  rfl

theorem Sound.level_le (h : Sound os l k b) {x : Entry} (hx : x ∈ (b.sides s).e) : x.lv.qty ≤ os.total (qtyAt l s) := by
  rw [(h.level s x hx).qty]
  refine os.total_mono fun r o hf => ?_
  unfold qtyOn
  split_ifs with hon
  · have hm := (h.level s x hx).members r o hf hon.1 hon.2
    exact (if_pos ⟨hon.1, hm.1⟩ : qtyAt l s o = o.info.qty).ge
  · exact Nat.zero_le _

theorem Covered.orders_le {x : Entry} (h : Covered os l k s x) (hpos : ∀ r o, os.find r = some o → 1 ≤ o.info.qty) :
    x.lv.orders ≤ x.lv.qty := by
  rw [h.qty, h.count]
  refine os.total_mono fun r o hf => ?_
  unfold countOn qtyOn
  split_ifs
  · exact hpos r o hf
  · exact le_refl 0

namespace Holds

theorem new (config : MarketBooks.Config) : Holds config.maxOrders config.maxLevelsPerSide 0 [] (.new config) where
  aggregates := Aggregates.new config
  whole := rfl
  orders := List.Perm.nil
  limit := rfl
  priced := .new config

theorem mono (h : Holds lim cap n live mb) (hn : n ≤ n') : Holds lim cap n' live mb where
  aggregates := h.aggregates.mono hn
  whole := h.whole
  orders := h.orders
  limit := h.limit
  priced := h.priced

theorem perm (h : Holds lim cap n live mb) (hp : live.Perm rest) : Holds lim cap n rest mb :=
  { h with orders := h.orders.trans hp }

theorem same (h : Holds lim cap n live mb) (ho : mb'.orders = mb.orders) (hb : ∀ l, mb'.book l = mb.book l)
    (hov : mb'.overflows = mb.overflows) (hc : mb'.config = mb.config) : Holds lim cap n live mb' where
  aggregates := h.aggregates.same ho hb hov
  whole := hov.trans h.whole
  orders := by rw [ho]; exact h.orders
  limit := by rw [ho]; exact h.limit
  priced := h.priced.same hc hb ho

theorem order_iff (h : Holds lim cap n live mb) : mb.order ref = some i ↔ (ref, i) ∈ live :=
  BoundedMap.mem_items.symm.trans h.orders.mem_iff

theorem size (h : Holds lim cap n live mb) : mb.orders.size = live.length :=
  (BoundedMap.length_items mb.orders OrderRecord.info).symm.trans h.orders.length_eq

theorem nodup (h : Holds lim cap n live mb) : (live.map Prod.fst).Nodup :=
  (h.orders.map Prod.fst).nodup_iff.mp (BoundedMap.nodup_items _ _)

theorem find (h : Holds lim cap n live mb) (hm : (ref, i) ∈ live) : ∃ o, mb.orders.find ref = some o ∧ o.info = i :=
  Option.map_eq_some_iff.mp (h.order_iff.mpr hm)

theorem find_none (h : Holds lim cap n live mb) (hfree : live.Free ref) : mb.orders.find ref = none := by
  cases hf : mb.orders.find ref with
  | none => rfl
  | some o => exact absurd rfl (hfree (ref, o.info) (h.order_iff.mp (by unfold MarketBooks.order; rw [hf]; rfl)))

theorem count_le (h : Holds lim cap n live mb) {s : Side} (hb : Sound mb.orders l k b) : b.depth s ≤ live.count l s :=
  (hb.depth_le s).trans_eq (h.orders.countP_eq _)

theorem shares_eq (h : Holds lim cap n live mb) (l : Nat) (s : Side) : mb.orders.total (qtyAt l s) = live.shares l s := by
  have ht := BoundedMap.total_items mb.orders OrderRecord.info
    (fun i => if i.locate = l ∧ i.side = s then i.qty else 0)
  exact ht.trans (h.orders.map _).sum_eq

/-! ## An order that comes in -/

/-- The ladder takes an order for which its side has room. -/
theorem added (h : Holds lim cap n live mb) {loc : Nat} (side : Side) (price : Int) {qty : Nat} (hq : 1 ≤ qty)
    (hroom : live.count loc side < cap) (hshares : live.shares loc side + qty ≤ kQtyMax) (hn : n + 1 < 2 ^ 64) :
    let bk := mb.ensureBook (mb.slots loc)
    let out := bk.addOrder side price qty
    out.2 ≠ kNoLevel ∧ out.1.overflows = bk.overflows ∧ (live.At loc side price → out.1.nextId = bk.nextId) := by
  dsimp only
  obtain ⟨⟨k, hk, hs⟩, hp⟩ := h.aggregates.ensureBook loc
  have hcap := (h.priced.ensureBook loc).capacity side
  have hdepth : ((mb.ensureBook (mb.slots loc)).sides side).e.length < cap := lt_of_le_of_lt (h.count_le hs) hroom
  have hadd := OrderBook.addOrder_cases (hs.sorted side) price qty
  generalize (mb.ensureBook (mb.slots loc)).addOrder side price qty = out at hadd ⊢
  cases hadd with
  | nothing h0 => omega
  | full ws bs x _ he _ hfull =>
    -- all shares of the side together leave room on the level
    have hx : x ∈ ((mb.ensureBook (mb.slots loc)).sides side).e := by rw [he]; simp
    have hle := hs.level_le hx
    rw [h.shares_eq] at hle
    have horders := (hs.level side x hx).orders_le h.aggregates.positive
    unfold OrderBook.Full kOrdersMax at hfull
    unfold kQtyMax at *
    omega
  | joined ws bs x _ he _ _ => exact ⟨(hs.level side x (by rw [he]; simp)).id_pos, rfl, fun _ => rfl⟩
  | refused _ hfull _ => omega
  | evicted x ws bs _ _ hfull _ => omega
  | inserted ws bs _ he _ hb =>
    refine ⟨?_, rfl, fun hat => ?_⟩
    · show (mb.ensureBook (mb.slots loc)).nextId ≠ 0
      rw [hs.nextId, Nat.mod_eq_of_lt (by omega)]
      omega
    · -- a live price has a level
      obtain ⟨⟨r, i⟩, hmem, ⟨hl, hside⟩, hpx⟩ := hat
      obtain ⟨o, hf, rfl⟩ := h.find hmem
      obtain ⟨x, hx, hid⟩ := hp h.whole r o hf hl
      have hm := ((hs.level _ x hx).members r o hf hl hid.symm).2
      rw [show o.info.side = side from hside, he] at hx
      exact absurd (hm.symm.trans hpx) (hb.ne x hx)

theorem insertOrder (h : Holds lim cap n live mb) {loc : Nat} (side : Side) (price : Int) {qty : Nat} (hfree : live.Free ref)
    (hlim : live.length < lim) (hq : 1 ≤ qty) (hroom : live.count loc side < cap)
    (hshares : live.shares loc side + qty ≤ kQtyMax) (hn : n + 1 < 2 ^ 64) :
    (mb.insertOrder ref loc side price qty).2 = true ∧
      Holds lim cap (n + if live.At loc side price then 0 else 1) ((ref, ⟨loc, side, price, qty⟩) :: live)
        (mb.insertOrder ref loc side price qty).1 := by
  obtain ⟨hid, hover, hlevel⟩ := h.added side price hq hroom hshares hn
  have hfind := h.find_none hfree
  have hsize : mb.orders.size < mb.orders.limit := by
    rw [h.size, h.limit]
    exact hlim
  obtain ⟨os, hins⟩ : ∃ os, mb.orders.insert ref
      ⟨⟨loc, side, price, qty⟩, ((mb.ensureBook (mb.slots loc)).addOrder side price qty).2⟩ = (os, true) :=
    ⟨_, BoundedMap.insert_fresh _ hfind hsize⟩
  have hcounter : (mb.insertOrder ref loc side price qty).1.idCounter loc =
      ((mb.ensureBook (mb.slots loc)).addOrder side price qty).1.nextId := by
    unfold MarketBooks.idCounter
    simp [MarketBooks.insertOrder, MarketBooks.ensureBook, MarketBooks.setSlot]
  have hle : (if (mb.insertOrder ref loc side price qty).1.idCounter loc = mb.idCounter loc then 0 else 1) ≤
      if live.At loc side price then 0 else 1 := by
    by_cases hat : live.At loc side price
    · have hstay : (mb.insertOrder ref loc side price qty).1.idCounter loc = mb.idCounter loc := hcounter.trans (hlevel hat)
      rw [if_pos hstay]
      exact Nat.zero_le _
    · rw [if_neg hat]
      split_ifs <;> omega
  have hagg := h.aggregates.insertOrder ref loc side price hfind hsize hq (by split_ifs <;> omega)
  have horders : (mb.insertOrder ref loc side price qty).1.orders = os := congrArg Prod.fst hins
  refine ⟨decide_eq_true hid, hagg.mono (Nat.add_le_add_left hle n), ?_, ?_, ?_,
    h.priced.insertOrder trivial ref loc (by unfold kQtyMax at *; omega)⟩
  · show mb.overflows + (((mb.ensureBook (mb.slots loc)).addOrder side price qty).1.overflows -
        (mb.ensureBook (mb.slots loc)).overflows) = 0
    rw [hover, h.whole, Nat.sub_self]
  · rw [horders, BoundedMap.items_insert_true hins]
    exact h.orders.cons _
  · rw [horders, BoundedMap.limit_insert hins]
    exact h.limit

theorem counted (h : Holds lim cap n live mb) {loc : Nat} (side : Side) (price : Int) {qty : Nat} (hfree : live.Free ref)
    (hlim : live.length < lim) (hq : 1 ≤ qty) (hroom : live.count loc side < cap)
    (hshares : live.shares loc side + qty ≤ kQtyMax) (hn : n + 1 < 2 ^ 64) {out : MarketBooks × Applied}
    (hout : out = match mb.insertOrder ref loc side price qty with
      | (mb, true) => (({ mb with applied := mb.applied + 1 } : MarketBooks), Applied.ok)
      | (mb, false) => (mb, .capacity)) :
    out.2 = .ok ∧
      Holds lim cap (n + if live.At loc side price then 0 else 1) ((ref, ⟨loc, side, price, qty⟩) :: live) out.1 := by
  obtain ⟨htrue, hins⟩ := h.insertOrder side price hfree hlim hq hroom hshares hn
  subst hout
  rcases hmb : mb.insertOrder ref loc side price qty with ⟨mb', _ | _⟩
  · rw [hmb] at htrue
    cases htrue
  · rw [hmb] at hins
    exact ⟨rfl, hins.same rfl (fun _ => rfl) rfl rfl⟩

theorem onAddOrder (h : Holds lim cap n live mb) (m : Itch.AddOrder) (hfree : live.Free m.ref) (hlim : live.length < lim)
    (hq : 1 ≤ m.shares) (hroom : live.count m.h.locate m.side < cap)
    (hshares : live.shares m.h.locate m.side + m.shares ≤ kQtyMax) (hn : n + 1 < 2 ^ 64) :
    (mb.onAddOrder m).2 = .ok ∧
      Holds lim cap (n + if live.At m.h.locate m.side m.price then 0 else 1)
        ((m.ref, ⟨m.h.locate, m.side, m.price, m.shares⟩) :: live) (mb.onAddOrder m).1 := by
  have hfind := h.find_none hfree
  have hsize := h.size
  have hlimit := h.limit
  refine h.counted m.side m.price hfree hlim hq hroom hshares hn ?_
  unfold MarketBooks.onAddOrder
  rewrite [if_neg (by omega), if_neg (by rw [hfind]; exact Bool.false_ne_true), if_neg (by omega)]
  rfl

/-! ## An order that changes or goes -/

theorem drop (h : Holds lim cap n live mb) (hp : live.Perm ((ref, i) :: rest)) : Holds lim cap n rest (mb.drop ref) := by
  obtain ⟨o, hf, rfl⟩ := h.find (hp.mem_iff.mpr List.mem_cons_self)
  obtain ⟨horders, hover, -, -⟩ := Aggregates.drop_slots hf
  refine ⟨h.aggregates.drop hf, hover.trans h.whole, ?_, ?_, h.priced.drop ref⟩
  · rw [horders]
    exact ((BoundedMap.items_erase hf OrderRecord.info).symm.trans (h.orders.trans hp)).cons_inv
  · rw [horders, BoundedMap.limit_erase]
    exact h.limit

/-- The order that is left of `i`, if one is. -/
def left (ref shares : Nat) (i : OrderInfo) (rest : Orders) : Orders :=
  if shares = i.qty then rest else (ref, { i with qty := i.qty - shares }) :: rest

/-- What becomes of the table when a live order is reduced by no more than it has. -/
theorem reduce_orders {o : OrderRecord} (hf : mb.orders.find ref = some o) {shares : Nat} (hpos : 1 ≤ shares)
    (hle : shares ≤ o.info.qty) (tradePrice : Option Int) (execution : Bool) :
    (mb.reduce ref shares tradePrice execution).2 = .ok ∧
      (mb.reduce ref shares tradePrice execution).1.overflows = mb.overflows ∧
      (mb.reduce ref shares tradePrice execution).1.orders =
        if shares = o.info.qty then mb.orders.erase ref
        else mb.orders.set ref { o with info := { o.info with qty := o.info.qty - shares } } := by
  obtain ⟨horders, hover, -, -⟩ := Aggregates.drop_slots hf
  unfold MarketBooks.reduce
  rw [hf]
  dsimp only
  rw [if_neg (by omega), if_neg (by omega)]
  refine ⟨rfl, ?_⟩
  by_cases he : shares = o.info.qty
  · rw [if_pos he, if_pos he]
    cases execution with
    | true => exact ⟨hover, horders⟩
    | false => exact ⟨hover, horders⟩
  · rw [if_neg he, if_neg he]
    by_cases hlev : o.level ≠ kNoLevel
    · rw [if_pos hlev]
      cases execution with
      | true => exact ⟨rfl, rfl⟩
      | false => exact ⟨rfl, rfl⟩
    · rw [if_neg hlev]
      cases execution with
      | true => exact ⟨rfl, rfl⟩
      | false => exact ⟨rfl, rfl⟩

theorem reduce (h : Holds lim cap n live mb) (hp : live.Perm ((ref, i) :: rest)) {shares : Nat} (hpos : 1 ≤ shares)
    (hle : shares ≤ i.qty) (tradePrice : Option Int) (execution : Bool) :
    (mb.reduce ref shares tradePrice execution).2 = .ok ∧
      Holds lim cap n (left ref shares i rest) (mb.reduce ref shares tradePrice execution).1 := by
  obtain ⟨o, hf, rfl⟩ := h.find (hp.mem_iff.mpr List.mem_cons_self)
  obtain ⟨hok, hover, horders⟩ := reduce_orders hf hpos hle tradePrice execution
  have herase := ((BoundedMap.items_erase hf OrderRecord.info).symm.trans (h.orders.trans hp)).cons_inv
  refine ⟨hok, h.aggregates.reduce ref shares tradePrice execution, hover.trans h.whole, ?_, ?_,
    h.priced.reduce ref shares tradePrice execution⟩
  · rw [horders]
    unfold left
    split_ifs
    · exact herase
    · rw [BoundedMap.items_set]
      exact herase.cons _
  · rw [horders]
    split_ifs <;> exact h.limit

theorem onOrderDelete (h : Holds lim cap n live mb) (m : Itch.OrderDelete) (hp : live.Perm ((m.ref, i) :: rest)) :
    (mb.onOrderDelete m).2 = .ok ∧ Holds lim cap n rest (mb.onOrderDelete m).1 := by
  obtain ⟨o, hf, -⟩ := h.find (hp.mem_iff.mpr List.mem_cons_self)
  unfold MarketBooks.onOrderDelete
  rw [hf]
  exact ⟨rfl, (h.drop hp).same rfl (fun _ => rfl) rfl rfl⟩

/-- The old order makes room for the new one. -/
theorem onOrderReplace (h : Holds lim cap n live mb) (m : Itch.OrderReplace) (hp : live.Perm ((m.oldRef, i) :: rest))
    (hfree : live.Free m.newRef) (hlim : live.length ≤ lim) (hq : 1 ≤ m.shares) (hroom : live.count i.locate i.side ≤ cap)
    (hshares : rest.shares i.locate i.side + m.shares ≤ kQtyMax) (hn : n + 1 < 2 ^ 64) :
    (mb.onOrderReplace m).2 = .ok ∧
      Holds lim cap (n + if rest.At i.locate i.side m.price then 0 else 1)
        ((m.newRef, ⟨i.locate, i.side, m.price, m.shares⟩) :: rest) (mb.onOrderReplace m).1 := by
  obtain ⟨o, hf, rfl⟩ := h.find (hp.mem_iff.mpr List.mem_cons_self)
  have hfind := h.find_none hfree
  have hlen := hp.length_eq
  rw [List.length_cons] at hlen
  have hcount : live.count o.info.locate o.info.side = rest.count o.info.locate o.info.side + 1 := by
    rw [Orders.count_perm hp, Orders.count_cons, if_pos ⟨rfl, rfl⟩]
  refine (h.drop hp).counted o.info.side m.price (fun x hx => hfree x (hp.mem_iff.mpr (List.mem_cons_of_mem _ hx)))
    (by omega) hq (by omega) hshares hn ?_
  unfold MarketBooks.onOrderReplace
  rw [hf]
  dsimp only
  rewrite [if_neg (by omega), if_neg (by rw [hfind]; exact Bool.false_ne_true)]
  rfl

theorem onTrade (h : Holds lim cap n live mb) (m : Itch.Trade) : Holds lim cap n live (mb.onTrade m).1 := by
  refine h.same rfl (fun l => ?_) rfl rfl
  by_cases hl : l = m.h.locate
  · subst hl
    simp [MarketBooks.onTrade, MarketBooks.book, MarketBooks.setSlot]
  · simp [MarketBooks.onTrade, MarketBooks.book, MarketBooks.setSlot, hl]

/-! ## Instruments -/

/-- A symbol and a locate that are both new are bound to each other. -/
theorem onStockDirectory (h : Holds lim cap n live mb) (m : Itch.StockDirectory) (hname : m.symbol.isEmpty = false)
    (hfind : mb.bySymbol.find m.symbol = none) (hslot : (mb.slots m.h.locate).symbol.isEmpty = true)
    (hroom : mb.bySymbol.size < mb.bySymbol.limit) :
    (mb.onStockDirectory m).2 = .ok ∧ Holds lim cap n live (mb.onStockDirectory m).1 ∧
      mb.bySymbol.insert m.symbol m.h.locate = ((mb.onStockDirectory m).1.bySymbol, true) ∧
      ∀ l, l ≠ m.h.locate → (mb.onStockDirectory m).1.slots l = mb.slots l := by
  have hagg := h.aggregates.onStockDirectory m
  have hpriced := h.priced.onStockDirectory m
  have hins := BoundedMap.insert_fresh (m := mb.bySymbol) m.h.locate hfind hroom
  have hempty : ¬(mb.slots m.h.locate).symbol.isEmpty = false := by
    rw [hslot]
    exact Bool.noConfusion
  unfold MarketBooks.onStockDirectory at hagg hpriced ⊢
  dsimp only at hagg hpriced ⊢
  rw [if_neg (by rw [hname]; exact Bool.false_ne_true), hfind] at hagg hpriced ⊢
  dsimp only at hagg hpriced ⊢
  rw [if_neg hempty, if_neg (by omega)] at hagg hpriced ⊢
  refine ⟨rfl, ⟨hagg, h.whole, h.orders, h.limit, hpriced⟩, ?_, fun l hl => ?_⟩
  · rw [hins]
  · simp [MarketBooks.setSlot, hl]

/-! ## What is shown -/

/-- **No book is crossed** as long as no two orders of it cross. -/
theorem not_crossed (h : Holds lim cap n live mb)
    (hx : ∀ x ∈ live, ∀ y ∈ live, x.2.locate = y.2.locate → x.2.side = .buy → y.2.side = .sell → x.2.price < y.2.price)
    {l : Nat} {b : OrderBook} (hb : mb.book l = some b) : b.crossed = false := by
  obtain ⟨k, -, hs⟩ := h.aggregates.sound l b hb
  have hlive : ∀ s lv, b.best s = some lv → ∃ ref i, (ref, i) ∈ live ∧ i.locate = l ∧ i.side = s ∧ i.price = lv.price := by
    intro s lv hbest
    obtain ⟨x, hx, rfl⟩ := Option.map_eq_some_iff.mp hbest
    obtain ⟨ref, o, hf, h₁, h₂, h₃⟩ :=
      (hs.prices (h.aggregates.posted h.whole l b hb) s x.lv.price).mp ⟨x, List.mem_of_getLast? hx, rfl⟩
    exact ⟨ref, o.info, h.order_iff.mp (by unfold MarketBooks.order; rw [hf]; rfl), h₁, h₂, h₃⟩
  unfold OrderBook.crossed
  cases hbid : b.best .buy with
  | none => rfl
  | some bid =>
    cases hask : b.best .sell with
    | none => rfl
    | some ask =>
      obtain ⟨r₁, i₁, hm₁, hl₁, hs₁, hp₁⟩ := hlive .buy bid hbid
      obtain ⟨r₂, i₂, hm₂, hl₂, hs₂, hp₂⟩ := hlive .sell ask hask
      have hlt := hx _ hm₁ _ hm₂ (hl₁.trans hl₂.symm) hs₁ hs₂
      rw [hp₁, hp₂] at hlt
      exact decide_eq_false (by omega)

end Holds
end OptiTrade.Book
