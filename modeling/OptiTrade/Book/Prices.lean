import OptiTrade.Book.MarketBooks
import OptiTrade.Itch.Decoder

/-! # Which prices and sizes the books hold

Every price of a book entered it with an add or a replace, no level outgrows its counter, and no side grows
beyond its capacity. -/

namespace OptiTrade.Book
set_option autoImplicit false

open Itch (Message)

variable {P : Side → Int → Prop}

/-- The levels of the book have prices that `P` allows and sizes from 1 to `kQtyMax`, and there are at most
`cap` on a side. -/
structure OrderBook.Priced (P : Side → Int → Prop) (cap : Nat) (b : OrderBook) : Prop where
  levels : ∀ s, ∀ x ∈ (b.sides s).e, P s x.lv.price ∧ 1 ≤ x.lv.qty ∧ x.lv.qty ≤ kQtyMax
  depth : ∀ s, (b.sides s).e.length ≤ cap
  capacity : ∀ s, (b.sides s).capacity = cap

namespace OrderBook.Priced
variable {cap : Nat} {b b' : OrderBook}

theorem new (cap : Nat) : (OrderBook.new cap).Priced P cap :=
  ⟨fun _ _ hx => absurd hx List.not_mem_nil, fun _ => Nat.zero_le _, fun _ => rfl⟩

theorem setSide (h : b.Priced P cap) {s : Side} {e : List Entry} (hb : b'.sides = (b.setSide s e).sides)
    (he : ∀ x ∈ e, P s x.lv.price ∧ 1 ≤ x.lv.qty ∧ x.lv.qty ≤ kQtyMax) (hlen : e.length ≤ cap) : b'.Priced P cap := by
  refine ⟨fun s' x hx => ?_, fun s' => ?_, fun s' => ?_⟩
  · rw [hb] at hx
    by_cases hs : s' = s
    · subst hs
      rw [setSide_self] at hx
      exact he x hx
    · rw [setSide_ne b hs] at hx
      exact h.levels s' x hx
  · rw [hb]
    by_cases hs : s' = s
    · subst hs
      rw [setSide_self]
      exact hlen
    · rw [setSide_ne b hs]
      exact h.depth s'
  · rw [hb, setSide_capacity]
    exact h.capacity s'

theorem findLevel_mem {sb : SideBook} {s : Side} {price : Int} {pos : Nat} {x : Entry}
    (h : findLevel sb s price = some (pos, x)) : x ∈ sb.e := by
  unfold findLevel at h
  split at h
  · rename_i y hy
    split_ifs at h
    cases h
    exact List.mem_of_getElem? hy
  · cases h

theorem set (h : b.Priced P cap) {s : Side} {pos : Nat} {x y : Entry} (hx : x ∈ (b.sides s).e)
    (hp : y.lv.price = x.lv.price) (hq : 1 ≤ y.lv.qty ∧ y.lv.qty ≤ kQtyMax)
    (hb : b'.sides = (b.setSide s ((b.sides s).e.set pos y)).sides) : b'.Priced P cap := by
  refine h.setSide hb (fun z hz => ?_) (by rw [List.length_set]; exact h.depth s)
  rcases List.mem_or_eq_of_mem_set hz with hz | rfl
  · exact h.levels s z hz
  · rw [hp]
    exact ⟨(h.levels s x hx).1, hq⟩

theorem place (h : b.Priced P cap) {s : Side} {price : Int} (hp : P s price) {ws bs : List Entry} {qty : Nat}
    (hq : 1 ≤ qty ∧ qty ≤ kQtyMax) (hsub : ∀ x ∈ ws ++ bs, x ∈ (b.sides s).e) (hlen : (ws ++ bs).length < cap) : (b.place s ws bs price qty).1.Priced P cap := by
  refine h.setSide (s := s) (e := ws ++ ⟨⟨price, qty, 1⟩, b.nextId⟩ :: bs) rfl (fun x hx => ?_) ?_
  · rcases List.mem_append.mp hx with hx | hx
    · exact h.levels s x (hsub x (List.mem_append_left _ hx))
    · rcases List.mem_cons.mp hx with rfl | hx
      · exact ⟨hp, hq⟩
      · exact h.levels s x (hsub x (List.mem_append_right _ hx))
  · simp only [List.length_append, List.length_cons] at hlen ⊢
    omega

theorem addOrder (h : b.Priced P cap) {s : Side} {price : Int} (hp : P s price) {qty : Nat} (hqty : qty ≤ kQtyMax) :
    (b.addOrder s price qty).1.Priced P cap := by
  have hcount : ∀ n, ({ b with overflows := n } : OrderBook).Priced P cap := fun n => ⟨h.levels, h.depth, h.capacity⟩
  have hdepth := h.depth s
  have hcap := h.capacity s
  unfold OrderBook.addOrder
  split_ifs with hz
  · exact h
  · have hq : 1 ≤ qty ∧ qty ≤ kQtyMax := ⟨Nat.pos_of_ne_zero hz, hqty⟩
    dsimp only
    split
    · rename_i pos x hf
      split_ifs with hfull
      · exact hcount _
      · exact h.set (y := { x with lv := { x.lv with qty := x.lv.qty + qty, orders := x.lv.orders + 1 } })
          (findLevel_mem hf) rfl (by dsimp only; omega) rfl
    · split_ifs with hfull hpos
      · exact hcount _
      · refine (hcount _).place hp hq (fun x hx => ?_) ?_
        · rcases List.mem_append.mp hx with hx | hx
          · exact List.mem_of_mem_take (List.mem_of_mem_drop hx)
          · exact List.mem_of_mem_drop hx
        · have hne : (b.sides s).e.length ≠ 0 := by
            intro h₀
            refine hpos ?_
            unfold findPos
            rw [List.eq_nil_of_length_eq_zero h₀]
            simp [PartitionPoint.search, PartitionPoint.scanBack]
          simp only [List.length_append, List.length_drop, List.length_take]
          omega
      · refine h.place hp hq (fun x hx => ?_) ?_
        · rwa [List.take_append_drop] at hx
        · rw [List.take_append_drop]
          omega

theorem take (h : b.Priced P cap) (s : Side) (price : Int) (qty id : Nat) (whole : Bool) :
    (b.take s price qty id whole).1.Priced P cap := by
  unfold OrderBook.take
  split_ifs
  · exact h
  · dsimp only
    split
    · exact h
    · rename_i pos x hf
      have hx := findLevel_mem hf
      have hsize := (h.levels s x hx).2.2
      split_ifs with _ _ hleft
      · exact h
      · exact h
      · refine h.setSide (s := s) (e := (b.sides s).e.take pos ++ (b.sides s).e.drop (pos + 1)) rfl (fun y hy => ?_) ?_
        · rcases List.mem_append.mp hy with hy | hy
          · exact h.levels s y (List.mem_of_mem_take hy)
          · exact h.levels s y (List.mem_of_mem_drop hy)
        · have := h.depth s
          simp only [List.length_append, List.length_take, List.length_drop]
          omega
      · exact h.set (y := { x with lv := { x.lv with qty := x.lv.qty - qty, orders := x.lv.orders - 1 } }) hx rfl
          ⟨Nat.pos_of_ne_zero hleft, (Nat.sub_le _ _).trans hsize⟩ rfl
      · exact h.set (y := { x with lv := { x.lv with qty := x.lv.qty - qty } }) hx rfl
          ⟨Nat.pos_of_ne_zero hleft, (Nat.sub_le _ _).trans hsize⟩ rfl

end OrderBook.Priced

namespace MarketBooks

/-- The side, the price and the size with which a message puts an order into the books. -/
def enters (mb : MarketBooks) : Message → Option (Side × Int × Nat)
  | .addOrder m => some (m.side, m.price, m.shares)
  | .orderReplace m => (mb.order m.oldRef).map fun i => (i.side, m.price, m.shares)
  | _ => none

/-- The prices and sizes of books with at most `n` levels on a side. -/
structure Priced (P : Side → Int → Prop) (n : Nat) (mb : MarketBooks) : Prop where
  levels : mb.config.maxLevelsPerSide = n
  books : ∀ l b, mb.book l = some b → b.Priced P n
  orders : ∀ ref o, mb.orders.find ref = some o → P o.info.side o.info.price

end MarketBooks

namespace MarketBooks.Priced
variable {mb : MarketBooks} {n : Nat}

theorem new (config : MarketBooks.Config) : (MarketBooks.new config).Priced P config.maxLevelsPerSide where
  levels := rfl
  books := fun _ _ h => by cases h
  orders := fun _ _ h => by cases h

theorem ensureBook (h : mb.Priced P n) (l : Nat) : (mb.ensureBook (mb.slots l)).Priced P n := by
  unfold MarketBooks.ensureBook
  cases hb : (mb.slots l).book with
  | none =>
    rw [h.levels]
    exact .new _
  | some b => exact h.books l b hb

theorem change {mb' : MarketBooks} (h : mb.Priced P n) {l : Nat} (hc : mb'.config = mb.config)
    (hbook : ∀ b, mb'.book l = some b → b.Priced P n)
    (hother : ∀ l', l' ≠ l → mb'.book l' = mb.book l')
    (hord : ∀ ref o, mb'.orders.find ref = some o → P o.info.side o.info.price) : mb'.Priced P n := by
  refine ⟨by rw [hc]; exact h.levels, fun l' b hb => ?_, hord⟩
  by_cases hl : l' = l
  · subst hl
    exact hbook b hb
  · rw [hother l' hl] at hb
    exact h.books l' b hb

theorem insertOrder (h : mb.Priced P n) {side : Side} {price : Int} (hp : P side price) (ref loc : Nat) {qty : Nat}
    (hq : qty ≤ kQtyMax) : (mb.insertOrder ref loc side price qty).1.Priced P n := by
  unfold MarketBooks.insertOrder
  refine h.change (l := loc) rfl (fun b hb => ?_) (fun l' hl => ?_) (fun ref' o ho => ?_)
  · have : ((mb.ensureBook (mb.slots loc)).addOrder side price qty).1 = b := by
      simpa [MarketBooks.book, MarketBooks.setSlot] using hb
    rw [← this]
    exact (h.ensureBook loc).addOrder hp hq
  · simp [MarketBooks.book, MarketBooks.setSlot, hl]
  · cases hins : mb.orders.insert ref ⟨⟨loc, side, price, qty⟩,
        ((mb.ensureBook (mb.slots loc)).addOrder side price qty).2⟩ with
    | mk m' ok =>
      have ho : m'.find ref' = some o := by
        rw [← ho]
        show _ = (mb.orders.insert ref _).1.find ref'
        rw [hins]
      cases ok with
      | true =>
        rw [BoundedMap.find_insert_true hins] at ho
        split_ifs at ho
        · cases ho
          exact hp
        · exact h.orders ref' o ho
      | false =>
        rw [BoundedMap.insert_false hins] at ho
        exact h.orders ref' o ho

theorem withBook (h : mb.Priced P n) (loc : Nat) {f : OrderBook → OrderBook}
    (hf : ∀ b, b.Priced P n → (f b).Priced P n) :
    (mb.withBook loc f).Priced P n := by
  refine h.change (l := loc) rfl (fun b hb => ?_) (fun l' hl => ?_) h.orders
  · have hb : (mb.slots loc).book.map f = some b := by
      simpa [MarketBooks.withBook, MarketBooks.book, MarketBooks.setSlot] using hb
    obtain ⟨b', hb', rfl⟩ := Option.map_eq_some_iff.mp hb
    exact hf b' (h.books loc b' hb')
  · simp [MarketBooks.withBook, MarketBooks.book, MarketBooks.setSlot, hl]

theorem same {mb' : MarketBooks} (h : mb.Priced P n) (hc : mb'.config = mb.config) (hb : ∀ l, mb'.book l = mb.book l)
    (ho : mb'.orders = mb.orders) : mb'.Priced P n :=
  ⟨by rw [hc]; exact h.levels, fun l b hl => h.books l b (by rw [← hb l]; exact hl), by rw [ho]; exact h.orders⟩

theorem drop (h : mb.Priced P n) (ref : Nat) : (mb.drop ref).Priced P n := by
  unfold MarketBooks.drop
  split
  · exact h
  · rename_i rec hf
    have herase : ∀ mb' : MarketBooks, mb'.Priced P n → ({ mb' with orders := mb'.orders.erase ref } : MarketBooks).Priced P n := by
      intro mb' h'
      refine ⟨h'.levels, h'.books, fun ref' o ho => ?_⟩
      rw [BoundedMap.find_erase] at ho
      split_ifs at ho
      exact h'.orders ref' o ho
    refine herase _ ?_
    split_ifs
    · refine h.withBook _ fun b hb => ?_
      unfold OrderBook.removeOrder
      split_ifs
      exact hb.take _ _ _ _ _
    · exact h

theorem reduce (h : mb.Priced P n) (ref shares : Nat) (tradePrice : Option Int) (execution : Bool) :
    (mb.reduce ref shares tradePrice execution).1.Priced P n := by
  have hlast : ∀ mb' : MarketBooks, mb'.Priced P n → ∀ (loc : Nat) (px : Int) (k : Nat),
      ({ (if execution then mb'.setSlot loc { mb'.slots loc with lastTrade := px } else mb') with applied := k } :
        MarketBooks).Priced P n := by
    intro mb' h' loc px k
    split_ifs
    · refine h'.same rfl (fun l => ?_) rfl
      by_cases hl : l = loc
      · subst hl
        simp [MarketBooks.book, MarketBooks.setSlot]
      · simp [MarketBooks.book, MarketBooks.setSlot, hl]
    · exact h'.same rfl (fun _ => rfl) rfl
  unfold MarketBooks.reduce
  split
  · exact h
  · rename_i rec hf
    have hset : ∀ mb' : MarketBooks, mb'.Priced P n → ∀ k, ({ mb' with
        orders := mb'.orders.set ref { rec with info := { rec.info with qty := k } } } : MarketBooks).Priced P n := by
      intro mb' h' k
      refine ⟨h'.levels, h'.books, fun ref' o ho => ?_⟩
      rw [BoundedMap.find_set] at ho
      split_ifs at ho
      · cases ho
        exact h.orders ref rec hf
      · exact h'.orders ref' o ho
    by_cases h₀ : shares = 0
    · rw [if_pos h₀]
      exact h
    by_cases h₁ : rec.info.qty < shares
    · rw [if_neg h₀, if_pos h₁]
      exact h.drop ref
    rw [if_neg h₀, if_neg h₁]
    refine hlast _ ?_ _ _ _
    split_ifs
    · exact h.drop ref
    · refine hset _ (h.withBook _ fun b hb => ?_) _
      unfold OrderBook.reduceOrder
      split_ifs
      exact hb.take _ _ _ _ _
    · exact hset mb h _

theorem onStockDirectory (h : mb.Priced P n) (m : Itch.StockDirectory) : (mb.onStockDirectory m).1.Priced P n := by
  unfold MarketBooks.onStockDirectory
  dsimp only
  cases mb.bySymbol.find m.symbol with
  | some bound =>
    dsimp only
    split_ifs
    · exact h
    · exact h
    · exact h
  | none =>
    dsimp only
    split_ifs
    · exact h
    · exact h
    · exact h
    · refine h.change (l := m.h.locate) rfl (fun b hb => ?_) (fun l' hl => ?_) h.orders
      · have : mb.ensureBook (mb.slots m.h.locate) = b := by simpa [MarketBooks.book, MarketBooks.setSlot] using hb
        rw [← this]
        exact h.ensureBook _
      · simp [MarketBooks.book, MarketBooks.setSlot, hl]

theorem counted (h : mb.Priced P n) {side : Side} {price : Int} (hp : P side price) (ref loc : Nat) {qty : Nat}
    (hq : qty ≤ kQtyMax) :
    (match mb.insertOrder ref loc side price qty with
      | (mb, true) => ({ mb with applied := mb.applied + 1 }, Applied.ok)
      | (mb, false) => (mb, Applied.capacity)).1.Priced P n := by
  have hi := h.insertOrder hp ref loc hq
  split
  · rename_i mb' heq
    rw [heq] at hi
    exact hi.same rfl (fun _ => rfl) rfl
  · rename_i mb' heq
    rw [heq] at hi
    exact hi

/-- A message keeps the books within `P` if the price it enters is, and the size fits a counter. -/
theorem on (h : mb.Priced P n) (m : Message) (hm : ∀ s p k, mb.enters m = some (s, p, k) → P s p ∧ k ≤ kQtyMax) :
    (mb.on m).1.Priced P n := by
  cases m with
  | stockDirectory m => exact h.onStockDirectory m
  | addOrder m =>
    show (mb.onAddOrder m).1.Priced P n
    unfold MarketBooks.onAddOrder
    split_ifs
    · exact h
    · exact h
    · exact h
    · obtain ⟨hp, hq⟩ := hm _ _ _ rfl
      exact h.counted hp _ _ hq
  | orderExecuted m => exact h.reduce _ _ _ _
  | orderExecutedPrice m => exact h.reduce _ _ _ _
  | orderCancel m => exact h.reduce _ _ _ _
  | orderDelete m =>
    show (mb.onOrderDelete m).1.Priced P n
    unfold MarketBooks.onOrderDelete
    split
    · exact h
    · exact (h.drop m.ref).same rfl (fun _ => rfl) rfl
  | orderReplace m =>
    show (mb.onOrderReplace m).1.Priced P n
    unfold MarketBooks.onOrderReplace
    split
    · exact h
    · rename_i old hold
      split_ifs
      · exact h
      · exact h
      · obtain ⟨hp, hq⟩ := hm old.info.side m.price m.shares (by simp [MarketBooks.enters, MarketBooks.order, hold])
        exact (h.drop m.oldRef).counted hp _ _ hq
  | trade m =>
    refine h.same rfl (fun l => ?_) rfl
    by_cases hl : l = m.h.locate
    · subst hl
      simp [MarketBooks.on, MarketBooks.onTrade, MarketBooks.book, MarketBooks.setSlot]
    · simp [MarketBooks.on, MarketBooks.onTrade, MarketBooks.book, MarketBooks.setSlot, hl]
  | systemEvent m => exact h

theorem ladder (h : mb.Priced P n) {l : Nat} {b : OrderBook} (hb : mb.book l = some b) (s : Side) :
    (∀ lv ∈ b.ladder s, P s lv.price ∧ 1 ≤ lv.qty ∧ lv.qty ≤ kQtyMax) ∧ (b.ladder s).length ≤ n := by
  have hp := h.books l b hb
  refine ⟨fun lv hlv => ?_, ?_⟩
  · obtain ⟨x, hx, rfl⟩ := List.mem_map.mp hlv
    exact hp.levels s x (List.mem_reverse.mp hx)
  · rw [b.length_ladder]
    exact hp.depth s

theorem order (h : mb.Priced P n) {ref : Nat} {i : OrderInfo} (hi : mb.order ref = some i) : P i.side i.price := by
  obtain ⟨o, ho, rfl⟩ := Option.map_eq_some_iff.mp hi
  exact h.orders ref o ho

end MarketBooks.Priced

namespace MarketBooks

/-- The books that messages of the decoder build: prices of 32 bits. -/
def Fed (n : Nat) (mb : MarketBooks) : Prop := mb.Priced (fun _ px => 0 ≤ px ∧ px ≤ u32Max) n

theorem Fed.new (config : MarketBooks.Config) : (MarketBooks.new config).Fed config.maxLevelsPerSide := Priced.new config

theorem Fed.on {mb : MarketBooks} {n : Nat} (h : mb.Fed n) {m : Message} (hm : m.WireSized) : (mb.on m).1.Fed n := by
  refine Priced.on h m fun s p k he => ?_
  cases m with
  | addOrder m =>
    cases he
    exact ⟨hm.2.2.2, hm.2.2.1⟩
  | orderReplace m =>
    obtain ⟨i, -, hi⟩ := Option.map_eq_some_iff.mp he
    cases hi
    exact ⟨hm.2, hm.1⟩
  | stockDirectory m => cases he
  | orderExecuted m => cases he
  | orderExecutedPrice m => cases he
  | orderCancel m => cases he
  | orderDelete m => cases he
  | trade m => cases he
  | systemEvent m => cases he

theorem Fed.best {mb : MarketBooks} {n : Nat} (h : mb.Fed n) {l : Nat} {b : OrderBook} (hb : mb.book l = some b)
    {s : Side} {lv : Level} (hlv : b.best s = some lv) : 0 ≤ lv.price ∧ lv.price ≤ u32Max ∧ lv.qty ≤ kQtyMax := by
  obtain ⟨x, hx, rfl⟩ := Option.map_eq_some_iff.mp hlv
  obtain ⟨hp, -, hq⟩ := (h.books l b hb).levels s x (List.mem_of_getLast? hx)
  exact ⟨hp.1, hp.2, hq⟩

end MarketBooks
end OptiTrade.Book
