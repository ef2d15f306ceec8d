import OptiTrade.Core.Types
import OptiTrade.Foundations.PartitionPoint

/-! # The price ladder of one instrument

Each side is one array of levels from the worst to the best price, of a capacity fixed at
construction. Here the array is the list of its used slots; opening and closing a gap in it are
`take` and `drop`. -/

namespace OptiTrade.Book
set_option autoImplicit false

/-- A price level as it is shown. -/
structure Level where
  price : Int := 0
  qty : Nat := 0
  orders : Nat := 0
  deriving DecidableEq

/-- What came of a message. -/
inductive Applied
  | ok
  | ignored
  | unknownOrder
  | duplicateOrder
  | unknownSymbol
  | capacity
  | invalid
  deriving DecidableEq

/-- A level and the id of its incarnation. -/
structure Entry where
  lv : Level
  id : Nat
  deriving DecidableEq

/-- One side of a book, the worst level first. -/
structure SideBook where
  capacity : Nat
  e : List Entry := []

def kNoLevel : Nat := 0
def kQtyMax : Nat := u32Max
def kOrdersMax : Nat := u32Max

/-- The levels from the best that are searched one by one. -/
def kWindow : Nat := 8

/-- `a` is a better price than `b`. -/
def better (s : Side) (a b : Int) : Bool :=
  match s with
  | .buy => b < a
  | .sell => a < b

/-- The first position whose price is equal to or better than `price`. -/
def findPos (sb : SideBook) (s : Side) (price : Int) : Nat :=
  PartitionPoint.search (fun x => better s price x.lv.price) sb.e kWindow

/-- The level tracked at `price`, with its position. -/
def findLevel (sb : SideBook) (s : Side) (price : Int) : Option (Nat × Entry) :=
  match sb.e[findPos sb s price]? with
  | some x => if x.lv.price = price then some (findPos sb s price, x) else none
  | none => none

/-- The two sides of an instrument. -/
structure OrderBook where
  sides : Side → SideBook
  nextId : Nat := 1
  updates : Nat := 0
  overflows : Nat := 0

namespace OrderBook

def new (maxLevelsPerSide : Nat) : OrderBook where
  sides := fun _ => { capacity := maxLevelsPerSide }

/-- The book with the slots of one side replaced. -/
def setSide (b : OrderBook) (s : Side) (e : List Entry) : OrderBook :=
  { b with sides := Function.update b.sides s { b.sides s with e := e } }

/-- A level of its own for a price that has none, between the `worse` and the better levels. -/
def place (b : OrderBook) (s : Side) (worse rest : List Entry) (price : Int) (qty : Nat) : OrderBook × Nat :=
  ({ b.setSide s (worse ++ ⟨⟨price, qty, 1⟩, b.nextId⟩ :: rest) with
      nextId := add64 b.nextId 1
      updates := b.updates + 1 }, b.nextId)

/-- The book after the add and the id of the level that holds the order, `kNoLevel` if none does. -/
def addOrder (b : OrderBook) (s : Side) (price : Int) (qty : Nat) : OrderBook × Nat :=
  if qty = 0 then (b, kNoLevel)
  else
    let sb := b.sides s
    match findLevel sb s price with
    | some (pos, x) =>
      if kQtyMax - qty < x.lv.qty ∨ x.lv.orders = kOrdersMax then
        ({ b with overflows := b.overflows + 1 }, kNoLevel)
      else
        ({ b.setSide s (sb.e.set pos { x with lv := { x.lv with
              qty := x.lv.qty + qty, orders := x.lv.orders + 1 } }) with
            updates := b.updates + 1 }, x.id)
    | none =>
      let pos := findPos sb s price
      if sb.e.length = sb.capacity then
        let b := { b with overflows := b.overflows + 1 }
        -- every tracked level is better than the new price
        if pos = 0 then (b, kNoLevel)
        else b.place s ((sb.e.take pos).drop 1) (sb.e.drop pos) price qty
      else b.place s (sb.e.take pos) (sb.e.drop pos) price qty

/-- Shares leave the level at `price`; `id` is `kNoLevel` for any incarnation of it. -/
def take (b : OrderBook) (s : Side) (price : Int) (qty id : Nat) (wholeOrder : Bool) : OrderBook × Bool :=
  if qty = 0 then (b, false)
  else
    let sb := b.sides s
    match findLevel sb s price with
    | none => (b, false)
    | some (pos, x) =>
      if id ≠ kNoLevel ∧ x.id ≠ id then (b, false)
      else if x.lv.qty < qty then (b, false)
      else
        let left := x.lv.qty - qty
        let e :=
          if left = 0 then sb.e.take pos ++ sb.e.drop (pos + 1)
          else if wholeOrder ∧ 1 < x.lv.orders then
            sb.e.set pos { x with lv := { x.lv with qty := left, orders := x.lv.orders - 1 } }
          else sb.e.set pos { x with lv := { x.lv with qty := left } }
        ({ b.setSide s e with updates := b.updates + 1 }, true)

/-- Whether the order was stored. -/
def add (b : OrderBook) (s : Side) (price : Int) (qty : Nat) : OrderBook × Bool :=
  ((b.addOrder s price qty).1, decide ((b.addOrder s price qty).2 ≠ kNoLevel))

/-- A whole order leaves the level at `price`. -/
def remove (b : OrderBook) (s : Side) (price : Int) (qty : Nat) : OrderBook × Bool :=
  b.take s price qty kNoLevel true

/-- The order stays with fewer shares. -/
def reduce (b : OrderBook) (s : Side) (price : Int) (qty : Nat) : OrderBook × Bool :=
  b.take s price qty kNoLevel false

/-- An order leaves the level it was added to. -/
def removeOrder (b : OrderBook) (s : Side) (price : Int) (qty id : Nat) : OrderBook × Bool :=
  if id ≠ kNoLevel then b.take s price qty id true else (b, false)

def reduceOrder (b : OrderBook) (s : Side) (price : Int) (qty id : Nat) : OrderBook × Bool :=
  if id ≠ kNoLevel then b.take s price qty id false else (b, false)

def depth (b : OrderBook) (s : Side) : Nat := (b.sides s).e.length

/-- The `i`th level from the best price. -/
def level (b : OrderBook) (s : Side) (i : Nat) : Level :=
  let e := (b.sides s).e
  if i < e.length then (e[e.length - 1 - i]?.map Entry.lv).getD {} else {}

/-- All levels of a side, best price first. -/
def ladder (b : OrderBook) (s : Side) : List Level := (b.sides s).e.reverse.map Entry.lv

def best (b : OrderBook) (s : Side) : Option Level := (b.sides s).e.getLast?.map Entry.lv

/-- The shares displayed at a price. -/
def qtyAt (b : OrderBook) (s : Side) (price : Int) : Nat :=
  match findLevel (b.sides s) s price with
  | some (_, x) => x.lv.qty
  | none => 0

/-- Shares of the levels on top of `sum`, saturating at the largest quantity. -/
def sumQty (sum : Nat) : List Level → Nat
  | [] => sum
  | lv :: ls => if kQtyMax ≤ sum + lv.qty then kQtyMax else sumQty (sum + lv.qty) ls

/-- Shares on the best `topN` levels. -/
def totalQty (b : OrderBook) (s : Side) (topN : Nat) : Nat := sumQty 0 ((b.ladder s).take topN)

/-- Locked counts as crossed. -/
def crossed (b : OrderBook) : Bool :=
  match b.best .buy, b.best .sell with
  | some bid, some ask => ask.price ≤ bid.price
  | _, _ => false

@[simp] theorem setSide_self (b : OrderBook) (s : Side) (e : List Entry) :
    ((b.setSide s e).sides s).e = e := by
  simp [setSide]

theorem setSide_ne (b : OrderBook) {s s' : Side} (h : s' ≠ s) (e : List Entry) :
    (b.setSide s e).sides s' = b.sides s' := by
  simp [setSide, h]

@[simp] theorem setSide_capacity (b : OrderBook) (s s' : Side) (e : List Entry) :
    ((b.setSide s e).sides s').capacity = (b.sides s').capacity := by
  by_cases h : s' = s
  · subst h
    simp [setSide]
  · rw [setSide_ne b h]

theorem length_ladder (b : OrderBook) (s : Side) : (b.ladder s).length = b.depth s := by
  simp [ladder, depth]

theorem ladder_getElem? (b : OrderBook) (s : Side) {i : Nat} (h : i < b.depth s) :
    (b.ladder s)[i]? = some (b.level s i) := by
  unfold depth at h
  unfold ladder level
  rw [if_pos h, List.getElem?_map, List.getElem?_reverse h]
  have hlt : (b.sides s).e.length - 1 - i < (b.sides s).e.length := by omega
  rw [List.getElem?_eq_getElem hlt]
  rfl

end OrderBook

/-! ## Sorted sides -/

theorem better_trans {s : Side} {a b c : Int} (h₁ : better s a b = true) (h₂ : better s b c = true) :
    better s a c = true := by
  cases s <;> simp only [better, decide_eq_true_eq] at * <;> omega

theorem better_irrefl (s : Side) (a : Int) : better s a a = false := by
  cases s <;> simp [better]

theorem better_total {s : Side} {a b : Int} (h : better s a b = false) (hne : a ≠ b) : better s b a = true := by
  cases s <;> simp only [better, decide_eq_true_eq, decide_eq_false_iff_not] at * <;> omega

theorem better_asymm {s : Side} {a b : Int} (h : better s a b = true) : better s b a = false := by
  cases s <;> simp only [better, decide_eq_true_eq, decide_eq_false_iff_not] at * <;> omega

/-- From the worst price to the best, no price twice. -/
def Sorted (s : Side) (e : List Entry) : Prop := e.Pairwise fun x y => better s y.lv.price x.lv.price = true

variable {s : Side} {sb : SideBook}

theorem Sorted.partitioned (h : Sorted s sb.e) (price : Int) :
    PartitionPoint.Partitioned (fun x : Entry => better s price x.lv.price) sb.e :=
  .of_pairwise (h.imp fun hxy hy => better_trans hy hxy)

/-- The levels strictly worse than a price. -/
def worse (sb : SideBook) (s : Side) (price : Int) : List Entry :=
  sb.e.takeWhile fun x => better s price x.lv.price

/-- The levels equal to or better than a price. -/
def rest (sb : SideBook) (s : Side) (price : Int) : List Entry :=
  sb.e.dropWhile fun x => better s price x.lv.price

theorem worse_append_rest (sb : SideBook) (s : Side) (price : Int) : worse sb s price ++ rest sb s price = sb.e :=
  List.takeWhile_append_dropWhile

theorem worse_better {price : Int} {x : Entry} (hx : x ∈ worse sb s price) : better s price x.lv.price = true :=
  List.all_eq_true.mp List.all_takeWhile x hx

theorem Sorted.take_findPos (h : Sorted s sb.e) (price : Int) : sb.e.take (findPos sb s price) = worse sb s price :=
  PartitionPoint.take_search (h.partitioned price) kWindow

theorem Sorted.drop_findPos (h : Sorted s sb.e) (price : Int) : sb.e.drop (findPos sb s price) = rest sb s price :=
  PartitionPoint.drop_search (h.partitioned price) kWindow

theorem Sorted.findPos_eq (h : Sorted s sb.e) (price : Int) : findPos sb s price = (worse sb s price).length :=
  PartitionPoint.search_eq (h.partitioned price) kWindow

/-- Either a level is tracked at the price, between the worse and the better ones, or none is. -/
theorem Sorted.findLevel_cases (h : Sorted s sb.e) (price : Int) :
    (∃ x bs, findLevel sb s price = some ((worse sb s price).length, x) ∧ x.lv.price = price ∧
      sb.e = worse sb s price ++ x :: bs ∧ ∀ y ∈ bs, better s y.lv.price price = true) ∨
    (findLevel sb s price = none ∧ sb.e = worse sb s price ++ rest sb s price ∧
      ∀ y ∈ rest sb s price, better s y.lv.price price = true) := by
  have hget : sb.e[findPos sb s price]? = (rest sb s price).head? := by
    rw [← h.drop_findPos price, List.head?_drop]
  have hsplit := worse_append_rest sb s price
  have hsorted := h
  rw [← hsplit] at hsorted
  have hrest := (List.pairwise_append.mp hsorted).2.1
  have hnot : ∀ y ∈ rest sb s price, better s price y.lv.price = false := h.partitioned price
  unfold findLevel
  rw [hget]
  cases hr : rest sb s price with
  | nil =>
    refine .inr ⟨rfl, ?_, by simp⟩
    rw [← hr, hsplit]
  | cons x bs =>
    rw [hr] at hrest hnot
    have hbs := (List.pairwise_cons.mp hrest).1
    by_cases hp : x.lv.price = price
    · refine .inl ⟨x, bs, ?_, hp, ?_, fun y hy => ?_⟩
      · simp only [List.head?_cons]
        rw [if_pos hp, h.findPos_eq price]
      · rw [← hr, hsplit]
      · rw [← hp]
        exact hbs y hy
    · refine .inr ⟨?_, by rw [← hr, hsplit], fun y hy => ?_⟩
      · simp only [List.head?_cons]
        rw [if_neg hp]
      · exact better_total (hnot y hy) (by
          rcases List.mem_cons.mp hy with rfl | hy'
          · exact Ne.symm hp
          · intro he
            have h₁ := hbs y hy'
            rw [← he, hnot x List.mem_cons_self] at h₁
            cases h₁)

/-! ## What the two operations do to a sorted side -/

/-- `price` goes between the levels `ws` and `bs`. -/
structure Between (s : Side) (price : Int) (ws bs : List Entry) : Prop where
  worse : ∀ x ∈ ws, better s price x.lv.price = true
  better : ∀ x ∈ bs, better s x.lv.price price = true

theorem Between.ne {price : Int} {ws bs : List Entry} (h : Between s price ws bs) :
    ∀ x ∈ ws ++ bs, x.lv.price ≠ price := by
  intro x hx hp
  rcases List.mem_append.mp hx with hx | hx
  · have := h.worse x hx
    rw [hp, better_irrefl] at this
    cases this
  · have := h.better x hx
    rw [hp, better_irrefl] at this
    cases this

theorem Sorted.insert {ws bs : List Entry} (h : Sorted s (ws ++ bs)) {x : Entry} (hb : Between s x.lv.price ws bs) :
    Sorted s (ws ++ x :: bs) := by
  obtain ⟨h₁, h₂, h₃⟩ := List.pairwise_append.mp h
  refine List.pairwise_append.mpr ⟨h₁, List.pairwise_cons.mpr ⟨hb.better, h₂⟩, fun a ha b hb' => ?_⟩
  rcases List.mem_cons.mp hb' with rfl | hb'
  · exact hb.worse a ha
  · exact h₃ a ha b hb'

theorem Sorted.remove {ws bs : List Entry} {x : Entry} (h : Sorted s (ws ++ x :: bs)) : Sorted s (ws ++ bs) :=
  h.sublist ((List.sublist_cons_self x bs).append_left ws)

theorem Sorted.replace {ws bs : List Entry} {x y : Entry} (h : Sorted s (ws ++ x :: bs)) (hp : y.lv.price = x.lv.price) :
    Sorted s (ws ++ y :: bs) := by
  refine h.remove.insert ?_
  rw [hp]
  obtain ⟨_, h₂, h₃⟩ := List.pairwise_append.mp h
  exact ⟨fun a ha => h₃ a ha x List.mem_cons_self, (List.pairwise_cons.mp h₂).1⟩

theorem Sorted.between {ws bs : List Entry} {x : Entry} (h : Sorted s (ws ++ x :: bs)) : Between s x.lv.price ws bs := by
  obtain ⟨_, h₂, h₃⟩ := List.pairwise_append.mp h
  exact ⟨fun a ha => h₃ a ha x List.mem_cons_self, (List.pairwise_cons.mp h₂).1⟩

theorem Sorted.findLevel_some (h : Sorted s sb.e) {ws bs : List Entry} {x : Entry} (he : sb.e = ws ++ x :: bs) :
    ∃ pos, findLevel sb s x.lv.price = some (pos, x) := by
  rcases h.findLevel_cases x.lv.price with ⟨y, bs', hf, hp, he', _⟩ | ⟨_, he', hb⟩
  · have hne := (he ▸ h).between.ne
    have hy : y ∈ ws ++ x :: bs := by
      rw [← he, he']
      simp
    have hyx : y = x := by
      rcases List.mem_append.mp hy with hy | hy
      · exact absurd hp (hne y (List.mem_append_left _ hy))
      · rcases List.mem_cons.mp hy with hy | hy
        · exact hy
        · exact absurd hp (hne y (List.mem_append_right _ hy))
    rw [hyx] at hf
    exact ⟨_, hf⟩
  · have hbw : Between s x.lv.price (worse sb s x.lv.price) (rest sb s x.lv.price) := ⟨fun y hy => worse_better hy, hb⟩
    refine absurd rfl (hbw.ne x ?_)
    rw [← he', he]
    simp

theorem Sorted.findLevel_none (h : Sorted s sb.e) {price : Int} (hn : ∀ x ∈ sb.e, x.lv.price ≠ price) :
    findLevel sb s price = none := by
  rcases h.findLevel_cases price with ⟨y, bs, _, hp, he, _⟩ | ⟨hf, _, _⟩
  · refine absurd hp (hn y ?_)
    rw [he]
    simp
  · exact hf

theorem Sorted.countP_eq {ws bs : List Entry} {y : Entry} (h : Sorted s (ws ++ y :: bs)) :
    (ws ++ bs).countP (fun x => better s y.lv.price x.lv.price) = ws.length := by
  have hb := h.between
  have hws : ws.countP (fun x => better s y.lv.price x.lv.price) = ws.length := List.countP_eq_length.mpr hb.worse
  have hbs : bs.countP (fun x => better s y.lv.price x.lv.price) = 0 := by
    rw [List.countP_eq_zero]
    intro x hx
    rw [better_asymm (hb.better x hx)]
    exact Bool.false_ne_true
  rw [List.countP_append, hws, hbs, Nat.add_zero]

theorem Sorted.findPos_eq_countP (h : Sorted s sb.e) (price : Int) :
    findPos sb s price = sb.e.countP fun x => better s price x.lv.price :=
  PartitionPoint.search_eq_countP (h.partitioned price) kWindow

/-- **The windowed search.** On every sorted side it finds the number of levels strictly worse than the
price: the position of the level at that price if there is one, and otherwise the only position at which
the price can be inserted in order. -/
theorem find_pos_counts_worse_levels (s : Side) (sb : SideBook) (price : Int) (h : Sorted s sb.e) :
    findPos sb s price = sb.e.countP (fun x => better s price x.lv.price) ∧
    (∀ i x, sb.e[i]? = some x → x.lv.price = price → i = findPos sb s price) ∧
    ((∀ x ∈ sb.e, x.lv.price ≠ price) → ∀ i ≤ sb.e.length, ∀ y : Entry, y.lv.price = price →
      (Sorted s (sb.e.take i ++ y :: sb.e.drop i) ↔ i = findPos sb s price)) := by
  have hcount := h.findPos_eq_countP price
  refine ⟨hcount, fun i x hx hp => ?_, fun hno i hi y hy => ⟨fun hins => ?_, fun hpos => ?_⟩⟩
  · obtain ⟨hi, rfl⟩ := List.getElem?_eq_some_iff.mp hx
    have hsplit : sb.e = sb.e.take i ++ sb.e[i] :: sb.e.drop (i + 1) := by
      rw [← List.drop_eq_getElem_cons hi, List.take_append_drop]
    have hs := h
    rw [hsplit] at hs
    have hpre := hs.countP_eq
    have hself : better s price sb.e[i].lv.price = false := by rw [hp, better_irrefl]
    rw [hp] at hpre
    rw [hcount]
    nth_rewrite 1 [hsplit]
    rw [List.countP_append, List.countP_cons, hself, if_neg Bool.false_ne_true, Nat.add_zero, ← List.countP_append, hpre,
      List.length_take, Nat.min_eq_left (Nat.le_of_lt hi)]
  · have hpre := hins.countP_eq
    rw [List.take_append_drop, hy, List.length_take, Nat.min_eq_left hi] at hpre
    rw [hcount, hpre]
  · rw [hpos, h.take_findPos, h.drop_findPos]
    have hb : Between s y.lv.price (worse sb s price) (rest sb s price) := by
      rw [hy]
      refine ⟨fun x hx => worse_better hx, fun x hx => better_total (h.partitioned price x hx) ?_⟩
      have hmem : x ∈ sb.e := by
        rw [← worse_append_rest sb s price]
        exact List.mem_append_right _ hx
      exact (hno x hmem).symm
    refine Sorted.insert ?_ hb
    rw [worse_append_rest]
    exact h

/-- Nine bids, one more than the window holds: a price between the two worst. -/
theorem find_pos_counts_worse_levels_below_window :
    findPos ⟨9, [⟨⟨1, 1, 1⟩, 1⟩, ⟨⟨3, 1, 1⟩, 2⟩, ⟨⟨5, 1, 1⟩, 3⟩, ⟨⟨7, 1, 1⟩, 4⟩, ⟨⟨9, 1, 1⟩, 5⟩, ⟨⟨11, 1, 1⟩, 6⟩,
      ⟨⟨13, 1, 1⟩, 7⟩, ⟨⟨15, 1, 1⟩, 8⟩, ⟨⟨17, 1, 1⟩, 9⟩]⟩ .buy 2 = 1 :=
  (find_pos_counts_worse_levels .buy _ 2 (by unfold Sorted; decide)).1.trans (by decide)

namespace OrderBook
variable {b : OrderBook} {price : Int} {qty : Nat}

/-- A level that cannot take `qty` more shares, or one more order. -/
def Full (x : Entry) (qty : Nat) : Prop := kQtyMax - qty < x.lv.qty ∨ x.lv.orders = kOrdersMax

/-- The ways an add can end. -/
inductive Added (b : OrderBook) (s : Side) (price : Int) (qty : Nat) : OrderBook × Nat → Prop
  | nothing : qty = 0 → Added b s price qty (b, kNoLevel)
  | full (ws bs : List Entry) (x : Entry) : 0 < qty → (b.sides s).e = ws ++ x :: bs → x.lv.price = price →
      Full x qty → Added b s price qty ({ b with overflows := b.overflows + 1 }, kNoLevel)
  | joined (ws bs : List Entry) (x : Entry) : 0 < qty → (b.sides s).e = ws ++ x :: bs → x.lv.price = price →
      ¬Full x qty → Added b s price qty
        ({ b.setSide s (ws ++ { x with lv := { x.lv with qty := x.lv.qty + qty, orders := x.lv.orders + 1 } } :: bs) with
            updates := b.updates + 1 }, x.id)
  | refused : 0 < qty → (b.sides s).e.length = (b.sides s).capacity → Between s price [] (b.sides s).e →
      Added b s price qty ({ b with overflows := b.overflows + 1 }, kNoLevel)
  | evicted (x : Entry) (ws bs : List Entry) : 0 < qty → (b.sides s).e = x :: ws ++ bs →
      (b.sides s).e.length = (b.sides s).capacity → Between s price (x :: ws) bs →
      Added b s price qty ({ b with overflows := b.overflows + 1 }.place s ws bs price qty)
  | inserted (ws bs : List Entry) : 0 < qty → (b.sides s).e = ws ++ bs →
      (b.sides s).e.length ≠ (b.sides s).capacity → Between s price ws bs →
      Added b s price qty (b.place s ws bs price qty)

theorem addOrder_cases (h : Sorted s (b.sides s).e) (price : Int) (qty : Nat) :
    Added b s price qty (b.addOrder s price qty) := by
  unfold addOrder
  by_cases hq : qty = 0
  · rw [if_pos hq]
    exact .nothing hq
  rw [if_neg hq]
  have hq : 0 < qty := Nat.pos_of_ne_zero hq
  dsimp only
  rcases h.findLevel_cases price with ⟨x, bs, hf, hp, he, _⟩ | ⟨hf, he, hb⟩
  · rw [hf]
    dsimp only
    by_cases hfull : kQtyMax - qty < x.lv.qty ∨ x.lv.orders = kOrdersMax
    · rw [if_pos hfull]
      exact .full _ bs x hq he hp hfull
    · rw [if_neg hfull]
      have hset : ∀ y : Entry, (b.sides s).e.set (worse (b.sides s) s price).length y =
          worse (b.sides s) s price ++ y :: bs := by
        intro y
        nth_rewrite 1 [he]
        rw [List.set_append_right _ _ (Nat.le_refl _), Nat.sub_self, List.set_cons_zero]
      rw [hset]
      exact .joined _ bs x hq he hp hfull
  · rw [hf]
    dsimp only
    have hbw : Between s price (worse (b.sides s) s price) (rest (b.sides s) s price) :=
      ⟨fun x hx => worse_better hx, hb⟩
    rw [h.take_findPos, h.drop_findPos]
    by_cases hfull : (b.sides s).e.length = (b.sides s).capacity
    · rw [if_pos hfull]
      by_cases hpos : findPos (b.sides s) s price = 0
      · rw [if_pos hpos]
        have hw : worse (b.sides s) s price = [] := by
          rw [h.findPos_eq] at hpos
          exact List.eq_nil_of_length_eq_zero hpos
        rw [hw, List.nil_append] at he
        refine .refused hq hfull ⟨by simp, ?_⟩
        rw [he]
        exact hb
      · rw [if_neg hpos]
        rw [h.findPos_eq] at hpos
        cases hw : worse (b.sides s) s price with
        | nil =>
          rw [hw] at hpos
          exact absurd rfl hpos
        | cons x ws =>
          rw [hw] at he hbw
          exact .evicted x ws _ hq he hfull hbw
    · rw [if_neg hfull]
      exact .inserted _ _ hq he hfull hbw

/-- The level that is left when `qty` shares leave `x`, with their order if it is a `whole` one. -/
def lessened (x : Entry) (qty : Nat) (whole : Bool) : Entry :=
  { x with lv := { x.lv with
      qty := x.lv.qty - qty, orders := if whole ∧ 1 < x.lv.orders then x.lv.orders - 1 else x.lv.orders } }

/-- The ways shares can leave a level. -/
inductive Taken (b : OrderBook) (s : Side) (price : Int) (qty id : Nat) (whole : Bool) : OrderBook × Bool → Prop
  | nothing : qty = 0 → Taken b s price qty id whole (b, false)
  | untracked : (∀ x ∈ (b.sides s).e, x.lv.price ≠ price) → Taken b s price qty id whole (b, false)
  | stale (ws bs : List Entry) (x : Entry) : (b.sides s).e = ws ++ x :: bs → x.lv.price = price →
      id ≠ kNoLevel → x.id ≠ id → Taken b s price qty id whole (b, false)
  | short (ws bs : List Entry) (x : Entry) : (b.sides s).e = ws ++ x :: bs → x.lv.price = price →
      (id ≠ kNoLevel → x.id = id) → x.lv.qty < qty → Taken b s price qty id whole (b, false)
  | emptied (ws bs : List Entry) (x : Entry) : 0 < qty → (b.sides s).e = ws ++ x :: bs → x.lv.price = price →
      (id ≠ kNoLevel → x.id = id) → x.lv.qty = qty →
      Taken b s price qty id whole ({ b.setSide s (ws ++ bs) with updates := b.updates + 1 }, true)
  | lessened (ws bs : List Entry) (x : Entry) : 0 < qty → (b.sides s).e = ws ++ x :: bs → x.lv.price = price →
      (id ≠ kNoLevel → x.id = id) → qty < x.lv.qty →
      Taken b s price qty id whole
        ({ b.setSide s (ws ++ OrderBook.lessened x qty whole :: bs) with updates := b.updates + 1 }, true)

theorem take_cases (h : Sorted s (b.sides s).e) (price : Int) (qty id : Nat) (whole : Bool) :
    Taken b s price qty id whole (b.take s price qty id whole) := by
  unfold take
  by_cases hq : qty = 0
  · rw [if_pos hq]
    exact .nothing hq
  rw [if_neg hq]
  have hq : 0 < qty := Nat.pos_of_ne_zero hq
  dsimp only
  rcases h.findLevel_cases price with ⟨x, bs, hf, hp, he, _⟩ | ⟨hf, he, hb⟩
  · rw [hf]
    dsimp only
    by_cases hid : id ≠ kNoLevel ∧ x.id ≠ id
    · rw [if_pos hid]
      exact .stale _ bs x he hp hid.1 hid.2
    rw [if_neg hid]
    have hid : id ≠ kNoLevel → x.id = id := fun h' => by
      by_contra hne
      exact hid ⟨h', hne⟩
    by_cases hshort : x.lv.qty < qty
    · rw [if_pos hshort]
      exact .short _ bs x he hp hid hshort
    rw [if_neg hshort]
    have hset : ∀ y : Entry, (b.sides s).e.set (worse (b.sides s) s price).length y =
        worse (b.sides s) s price ++ y :: bs := by
      intro y
      nth_rewrite 1 [he]
      rw [List.set_append_right _ _ (Nat.le_refl _), Nat.sub_self, List.set_cons_zero]
    by_cases hz : x.lv.qty - qty = 0
    · rw [if_pos hz]
      have htake : (b.sides s).e.take (worse (b.sides s) s price).length = worse (b.sides s) s price := by
        rw [← h.findPos_eq]
        exact h.take_findPos price
      have hdrop : (b.sides s).e.drop ((worse (b.sides s) s price).length + 1) = bs := by
        nth_rewrite 1 [he]
        rw [List.drop_append]
        simp
      rw [htake, hdrop]
      exact .emptied _ bs x hq he hp hid (by omega)
    · rw [if_neg hz]
      have hlt : qty < x.lv.qty := by omega
      have hone : Taken b s price qty id whole _ := .lessened (worse (b.sides s) s price) bs x hq he hp hid hlt
      unfold OrderBook.lessened at hone
      by_cases hwhole : whole = true ∧ 1 < x.lv.orders
      · rw [if_pos hwhole, hset]
        rw [if_pos hwhole] at hone
        exact hone
      · rw [if_neg hwhole, hset]
        rw [if_neg hwhole] at hone
        exact hone
  · rw [hf]
    refine .untracked fun x hx => ?_
    rw [he] at hx
    exact (Between.mk (fun x hx => worse_better hx) hb).ne x hx

end OrderBook

end OptiTrade.Book
