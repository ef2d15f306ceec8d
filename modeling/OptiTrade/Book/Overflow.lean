import Mathlib.Algebra.BigOperators.Group.List.Basic
import Mathlib.Algebra.GroupWithZero.Nat
import OptiTrade.Book.OrderBook
import OptiTrade.Foundations.TopK

/-! # What a full side keeps

Orders only arrive. A side forgets a level when a better price needs its slot, and forgets the shares with it;
since no forgotten price can come back while better ones hold the slots, the levels that are tracked are those of
the best prices, with everything that ever arrived there. -/

namespace OptiTrade.Book
set_option autoImplicit false

/-- An order that is added. -/
structure Arrival where
  side : Side
  price : Int
  qty : Nat
  deriving DecidableEq

/-- The prices that have arrived on a side. -/
def pricesOn (as : List Arrival) (s : Side) : List Int := (as.filter fun a => a.side = s).map Arrival.price

/-- Everything that has arrived at a price. -/
def arrivedAt (as : List Arrival) (s : Side) (price : Int) : List Arrival :=
  as.filter fun a => a.side = s ∧ a.price = price

/-- The level of all arrivals at a price. -/
def wholeLevel (as : List Arrival) (s : Side) (price : Int) : Level where
  price := price
  qty := ((arrivedAt as s price).map Arrival.qty).sum
  orders := (arrivedAt as s price).length

namespace OrderBook

def addAll (b : OrderBook) (as : List Arrival) : OrderBook := as.foldl (fun b a => (b.add a.side a.price a.qty).1) b

/-- The arrival finds its side full and no level at its price. -/
def Overflowing (b : OrderBook) (a : Arrival) : Prop :=
  b.depth a.side = (b.sides a.side).capacity ∧ ∀ x ∈ (b.sides a.side).e, x.lv.price ≠ a.price

instance (b : OrderBook) (a : Arrival) : Decidable (b.Overflowing a) := inferInstanceAs (Decidable (_ ∧ _))

/-- How many arrivals find their side full and no level at their price. -/
def overflowing : OrderBook → List Arrival → Nat
  | _, [] => 0
  | b, a :: as => (if b.Overflowing a then 1 else 0) + overflowing (b.add a.side a.price a.qty).1 as

end OrderBook

/-- The side `s` after the arrivals `as`. -/
structure Keeps (as : List Arrival) (s : Side) (sb : SideBook) : Prop where
  sorted : Sorted s sb.e
  fits : sb.e.length ≤ sb.capacity
  whole : ∀ x ∈ sb.e, x.lv.price ∈ pricesOn as s ∧ x.lv = wholeLevel as s x.lv.price
  /-- A price that is not tracked is worse than all that are, and these fill the side. -/
  forgotten : ∀ p ∈ pricesOn as s, (∀ x ∈ sb.e, x.lv.price ≠ p) →
    sb.e.length = sb.capacity ∧ ∀ x ∈ sb.e, better s x.lv.price p = true

variable {as : List Arrival} {a : Arrival} {s : Side} {sb sb' : SideBook} {b : OrderBook}

theorem better_linear (s : Side) : TopK.Linear (better s) := ⟨better_irrefl s, better_trans, better_total⟩

theorem pricesOn_append (as : List Arrival) (a : Arrival) (s : Side) :
    pricesOn (as ++ [a]) s = pricesOn as s ++ if a.side = s then [a.price] else [] := by
  unfold pricesOn
  rw [List.filter_append, List.map_append]
  by_cases h : a.side = s <;> simp [h]

theorem wholeLevel_append (as : List Arrival) (a : Arrival) (s : Side) (p : Int) :
    wholeLevel (as ++ [a]) s p = if a.side = s ∧ a.price = p then
      ⟨p, (wholeLevel as s p).qty + a.qty, (wholeLevel as s p).orders + 1⟩
    else wholeLevel as s p := by
  unfold wholeLevel arrivedAt
  by_cases h : a.side = s ∧ a.price = p
  · rw [if_pos h]
    simp [h]
  · rw [if_neg h]
    simp [h]

theorem wholeLevel_eq_empty {p : Int} (h : p ∉ pricesOn as s) : wholeLevel as s p = ⟨p, 0, 0⟩ := by
  have hnil : arrivedAt as s p = [] := by
    refine List.filter_eq_nil_iff.mpr fun a ha hap => h ?_
    have hap : a.side = s ∧ a.price = p := by simpa using hap
    exact List.mem_map.mpr ⟨a, List.mem_filter.mpr ⟨ha, by simpa using hap.1⟩, hap.2⟩
  unfold wholeLevel
  rw [hnil]
  rfl

theorem wholeLevel_orders_le (h : ∀ a ∈ as, 1 ≤ a.qty) (p : Int) : (wholeLevel as s p).orders ≤ (wholeLevel as s p).qty := by
  have hle : ((arrivedAt as s p).map Arrival.qty).length ≤ ((arrivedAt as s p).map Arrival.qty).sum := by
    refine List.length_le_sum_of_one_le _ fun q hq => ?_
    obtain ⟨a, ha, rfl⟩ := List.mem_map.mp hq
    exact h a (List.mem_filter.mp ha).1
  rwa [List.length_map] at hle

namespace Keeps

theorem new (s : Side) (cap : Nat) : Keeps [] s { capacity := cap } :=
  ⟨List.Pairwise.nil, Nat.zero_le _, fun _ hx => absurd hx List.not_mem_nil, fun _ hp => absurd hp List.not_mem_nil⟩

theorem other (h : Keeps as s sb) (ha : a.side ≠ s) : Keeps (as ++ [a]) s sb := by
  have hp : pricesOn (as ++ [a]) s = pricesOn as s := by
    rw [pricesOn_append, if_neg ha, List.append_nil]
  refine ⟨h.sorted, h.fits, fun x hx => ?_, ?_⟩
  · rw [hp, wholeLevel_append, if_neg fun h' => ha h'.1]
    exact h.whole x hx
  · rw [hp]
    exact h.forgotten

/-- The arrival joins the level at its price. -/
theorem joined (h : Keeps as s sb) (ha : a.side = s) {ws bs : List Entry} {x v : Entry} (he : sb.e = ws ++ x :: bs)
    (hp : x.lv.price = a.price) (hc : sb'.capacity = sb.capacity) (he' : sb'.e = ws ++ v :: bs)
    (hv : v.lv = ⟨x.lv.price, x.lv.qty + a.qty, x.lv.orders + 1⟩) :
    Keeps (as ++ [a]) s sb' := by
  have hx := h.whole x (by rw [he]; simp)
  have hvp : v.lv.price = x.lv.price := by rw [hv]
  have hs := h.sorted
  rw [he] at hs
  have hsub : ∀ y ∈ sb'.e, ∃ z ∈ sb.e, z.lv.price = y.lv.price := by
    intro y hy
    rw [he', List.mem_append, List.mem_cons] at hy
    rcases hy with hy | rfl | hy
    · exact ⟨y, by rw [he]; exact List.mem_append_left _ hy, rfl⟩
    · exact ⟨x, by rw [he]; simp, hvp.symm⟩
    · exact ⟨y, by rw [he]; exact List.mem_append_right _ (List.mem_cons_of_mem _ hy), rfl⟩
  have hlen : sb'.e.length = sb.e.length := by
    rw [he', he]
    simp
  have hprice : ∀ p, p ∈ pricesOn (as ++ [a]) s ↔ p ∈ pricesOn as s := by
    intro p
    rw [pricesOn_append, if_pos ha, List.mem_append, List.mem_singleton]
    refine ⟨fun hor => hor.elim id fun hpa => ?_, .inl⟩
    rw [hpa, ← hp]
    exact hx.1
  refine ⟨?_, by rw [hlen, hc]; exact h.fits, fun y hy => ?_, fun p hpm hn => ?_⟩
  · rw [he']
    exact hs.replace hvp
  · rw [he', List.mem_append, List.mem_cons] at hy
    have hold : y ∈ ws ++ bs → y.lv.price ∈ pricesOn (as ++ [a]) s ∧ y.lv = wholeLevel (as ++ [a]) s y.lv.price := by
      intro hy
      have hne := hs.between.ne y hy
      rw [hprice, wholeLevel_append, if_neg fun h' => hne (h'.2.symm.trans hp.symm)]
      exact h.whole y (by rw [he]; exact List.mem_append.mpr ((List.mem_append.mp hy).imp_right (List.mem_cons_of_mem x)))
    rcases hy with hy | rfl | hy
    · exact hold (List.mem_append_left _ hy)
    · refine ⟨(hprice _).mpr (by rw [hvp]; exact hx.1), ?_⟩
      rw [hvp, wholeLevel_append, if_pos ⟨ha, hp.symm⟩, ← hx.2, hv]
    · exact hold (List.mem_append_right _ hy)
  · have hn' : ∀ z ∈ sb.e, z.lv.price ≠ p := by
      intro z hz hzp
      rw [he, List.mem_append, List.mem_cons] at hz
      rcases hz with hz | rfl | hz
      · exact hn z (by rw [he']; exact List.mem_append_left _ hz) hzp
      · exact hn v (by rw [he']; exact List.mem_append_right _ List.mem_cons_self) (hvp.trans hzp)
      · exact hn z (by rw [he']; exact List.mem_append_right _ (List.mem_cons_of_mem _ hz)) hzp
    obtain ⟨h₁, h₂⟩ := h.forgotten p ((hprice p).mp hpm) hn'
    refine ⟨by rw [hlen, hc]; exact h₁, fun y hy => ?_⟩
    obtain ⟨z, hz, hzp⟩ := hsub y hy
    rw [← hzp]
    exact h₂ z hz

theorem refused (h : Keeps as s sb) (ha : a.side = s) (hfull : sb.e.length = sb.capacity) (hb : Between s a.price [] sb.e) :
    Keeps (as ++ [a]) s sb := by
  refine ⟨h.sorted, h.fits, fun x hx => ?_, fun p hp hn => ?_⟩
  · have hne : x.lv.price ≠ a.price := hb.ne x hx
    rw [wholeLevel_append, if_neg fun h' => hne h'.2.symm, pricesOn_append]
    exact ⟨List.mem_append_left _ (h.whole x hx).1, (h.whole x hx).2⟩
  · rw [pricesOn_append, if_pos ha, List.mem_append, List.mem_singleton] at hp
    rcases hp with hp | rfl
    · exact h.forgotten p hp hn
    · exact ⟨hfull, hb.better⟩

/-- The arrival has a level of its own, in the place of the levels `gone` before the worse ones. -/
theorem placed (h : Keeps as s sb) (ha : a.side = s) (gone : List Entry) {ws bs : List Entry} {id : Nat} (he : sb.e = gone ++ ws ++ bs)
    (hb : Between s a.price (gone ++ ws) bs) (he' : sb'.e = ws ++ ⟨⟨a.price, a.qty, 1⟩, id⟩ :: bs) (hfits : sb'.e.length ≤ sb'.capacity)
    (hgone : gone ≠ [] → sb'.e.length = sb'.capacity) (hroom : gone = [] → sb.e.length ≠ sb.capacity) :
    Keeps (as ++ [a]) s sb' := by
  have hs := h.sorted
  rw [he] at hs
  have hne := hb.ne
  rw [← he] at hne
  have hsub : ∀ y ∈ ws ++ bs, y ∈ sb.e := by
    intro y hy
    rw [he, List.append_assoc]
    exact List.mem_append_right _ hy
  -- the price has never arrived: otherwise it would be worse than every level of a full side
  have hnew : a.price ∉ pricesOn as s := by
    intro hmem
    obtain ⟨hfull, hworse⟩ := h.forgotten a.price hmem hne
    cases gone with
    | nil => exact hroom rfl hfull
    | cons x gone =>
      have h₁ := hworse x (by rw [he]; simp)
      rw [better_asymm (hb.worse x (by simp))] at h₁
      cases h₁
  refine ⟨?_, hfits, fun y hy => ?_, fun p hp hn => ?_⟩
  · rw [he']
    rw [List.append_assoc] at hs
    exact Sorted.insert (hs.sublist (List.sublist_append_right gone _))
      ⟨fun y hy => hb.worse y (List.mem_append_right _ hy), hb.better⟩
  · rw [he', List.mem_append, List.mem_cons] at hy
    have hold : y ∈ ws ++ bs → y.lv.price ∈ pricesOn (as ++ [a]) s ∧ y.lv = wholeLevel (as ++ [a]) s y.lv.price := by
      intro hy
      have hy := hsub y hy
      rw [wholeLevel_append, if_neg fun h' => hne y hy h'.2.symm, pricesOn_append]
      exact ⟨List.mem_append_left _ (h.whole y hy).1, (h.whole y hy).2⟩
    rcases hy with hy | rfl | hy
    · exact hold (List.mem_append_left _ hy)
    · rw [pricesOn_append, if_pos ha, wholeLevel_append, if_pos ⟨ha, rfl⟩, wholeLevel_eq_empty hnew]
      exact ⟨List.mem_append_right _ (List.mem_singleton_self _), by simp⟩
    · exact hold (List.mem_append_right _ hy)
  · rw [pricesOn_append, if_pos ha, List.mem_append, List.mem_singleton] at hp
    have hpa : p ≠ a.price := fun hpa => hn ⟨⟨a.price, a.qty, 1⟩, id⟩ (by rw [he']; simp) hpa.symm
    have hp := hp.resolve_right hpa
    by_cases hgp : ∃ x ∈ gone, x.lv.price = p
    · obtain ⟨x, hx, rfl⟩ := hgp
      refine ⟨hgone (List.ne_nil_of_mem hx), fun y hy => ?_⟩
      have hax := hb.worse x (List.mem_append_left _ hx)
      rw [he', List.mem_append, List.mem_cons] at hy
      rw [List.append_assoc] at hs
      have hfirst := (List.pairwise_append.mp hs).2.2 x hx
      rcases hy with hy | rfl | hy
      · exact hfirst y (List.mem_append_left _ hy)
      · exact hax
      · exact hfirst y (List.mem_append_right _ hy)
    · have hn' : ∀ x ∈ sb.e, x.lv.price ≠ p := by
        intro x hx hxp
        rw [he, List.mem_append, List.mem_append] at hx
        rcases hx with (hx | hx) | hx
        · exact hgp ⟨x, hx, hxp⟩
        · exact hn x (by rw [he']; exact List.mem_append_left _ hx) hxp
        · exact hn x (by rw [he']; exact List.mem_append_right _ (List.mem_cons_of_mem _ hx)) hxp
      obtain ⟨hfull, hworse⟩ := h.forgotten p hp hn'
      cases gone with
      | nil => exact absurd hfull (hroom rfl)
      | cons x gone =>
        refine ⟨hgone (List.cons_ne_nil _ _), fun y hy => ?_⟩
        rw [he', List.mem_append, List.mem_cons] at hy
        rcases hy with hy | rfl | hy
        · exact hworse y (hsub y (List.mem_append_left _ hy))
        · exact better_trans (hb.worse x (by simp)) (hworse x (by rw [he]; simp))
        · exact hworse y (hsub y (List.mem_append_right _ hy))

theorem ladder_eq (h : Keeps as s sb) :
    sb.e.reverse.map Entry.lv = ((TopK.inOrder (better s) (pricesOn as s)).take sb.capacity).map (wholeLevel as s) := by
  have htake : (TopK.inOrder (better s) (pricesOn as s)).take sb.capacity = sb.e.reverse.map fun x => x.lv.price := by
    refine (better_linear s).take_inOrder ?_ (fun p hp => ?_) (by simpa using h.fits) (fun p hp hn => ?_)
    · unfold TopK.Ascending
      rw [List.pairwise_map, List.pairwise_reverse]
      exact h.sorted
    · obtain ⟨x, hx, rfl⟩ := List.mem_map.mp hp
      exact (h.whole x (List.mem_reverse.mp hx)).1
    · have hn' : ∀ x ∈ sb.e, x.lv.price ≠ p := fun x hx hxp => hn (List.mem_map.mpr ⟨x, List.mem_reverse.mpr hx, hxp⟩)
      obtain ⟨h₁, h₂⟩ := h.forgotten p hp hn'
      refine ⟨by simpa using h₁, fun q hq => ?_⟩
      obtain ⟨x, hx, rfl⟩ := List.mem_map.mp hq
      exact h₂ x (List.mem_reverse.mp hx)
  rw [htake, List.map_map]
  refine List.map_congr_left fun x hx => ?_
  exact (h.whole x (List.mem_reverse.mp hx)).2

end Keeps

theorem Keeps.not_full (h : Keeps as s (b.sides s)) (hpos : ∀ a ∈ as, 1 ≤ a.qty) {ws bs : List Entry} {x : Entry} {price : Int}
    {qty : Nat} (he : (b.sides s).e = ws ++ x :: bs) (hp : x.lv.price = price) (hq : 1 ≤ qty)
    (hroom : b.qtyAt s price + qty ≤ kQtyMax) : ¬OrderBook.Full x qty := by
  obtain ⟨pos, hf⟩ := h.sorted.findLevel_some he
  have hat : b.qtyAt s price = x.lv.qty := by
    unfold OrderBook.qtyAt
    rw [← hp, hf]
  have hle : x.lv.orders ≤ x.lv.qty := by
    rw [(h.whole x (by rw [he]; simp)).2]
    exact wholeLevel_orders_le hpos _
  rw [hat] at hroom
  unfold OrderBook.Full kOrdersMax
  unfold kQtyMax at *
  omega

/-- The state after the arrivals `as`. -/
structure Received (cap : Nat) (as : List Arrival) (b : OrderBook) : Prop where
  side : ∀ s, Keeps as s (b.sides s)
  capacity : ∀ s, (b.sides s).capacity = cap
  positive : ∀ a ∈ as, 1 ≤ a.qty

namespace Received
variable {cap : Nat}

theorem new (cap : Nat) : Received cap [] (.new cap) :=
  ⟨fun s => .new s cap, fun _ => rfl, fun _ ha => absurd ha List.not_mem_nil⟩

/-- The side of the arrival changes and the other does not. -/
theorem set {b' : OrderBook} (h : Received cap as b) (hq : 1 ≤ a.qty) (hside : Keeps (as ++ [a]) a.side (b'.sides a.side))
    (hc : (b'.sides a.side).capacity = (b.sides a.side).capacity) (ho : ∀ s, s ≠ a.side → b'.sides s = b.sides s) :
    Received cap (as ++ [a]) b' := by
  refine ⟨fun s => ?_, fun s => ?_, fun a' ha' => ?_⟩
  · by_cases hs : s = a.side
    · rw [hs]
      exact hside
    · rw [ho s hs]
      exact (h.side s).other (Ne.symm hs)
  · by_cases hs : s = a.side
    · rw [hs, hc]
      exact h.capacity a.side
    · rw [ho s hs]
      exact h.capacity s
  · rcases List.mem_append.mp ha' with ha' | ha'
    · exact h.positive a' ha'
    · rw [List.mem_singleton.mp ha']
      exact hq

/-- **One arrival.** -/
theorem add (h : Received cap as b) (hq : 1 ≤ a.qty) (hroom : b.qtyAt a.side a.price + a.qty ≤ kQtyMax) :
    Received cap (as ++ [a]) (b.add a.side a.price a.qty).1 ∧
    (b.add a.side a.price a.qty).1.overflows = b.overflows + if b.Overflowing a then 1 else 0 := by
  have hk := h.side a.side
  have hfits := hk.fits
  have hadd := OrderBook.addOrder_cases hk.sorted a.price a.qty
  unfold OrderBook.add
  generalize b.addOrder a.side a.price a.qty = out at hadd ⊢
  cases hadd with
  | nothing h₀ => omega
  | full ws bs x _ he hp hfull => exact absurd hfull (hk.not_full h.positive he hp hq hroom)
  | joined ws bs x _ he hp _ =>
    refine ⟨h.set hq (hk.joined (v := { x with lv := { x.lv with qty := x.lv.qty + a.qty, orders := x.lv.orders + 1 } })
      rfl he hp (by simp) (OrderBook.setSide_self _ _ _) rfl) (by simp) (fun s hs => OrderBook.setSide_ne _ hs _), ?_⟩
    have hnot : ¬b.Overflowing a := fun h' => h'.2 x (by rw [he]; simp) hp
    rw [if_neg hnot]
    rfl
  | refused _ hfull hb =>
    refine ⟨h.set hq (hk.refused rfl hfull hb) rfl (fun _ _ => rfl), ?_⟩
    have hover : b.Overflowing a := ⟨hfull, hb.ne⟩
    rw [if_pos hover]
  | evicted x ws bs _ he hfull hb =>
    have hlen := hfull
    rw [he] at hlen
    simp only [List.cons_append, List.length_cons, List.length_append] at hlen
    refine ⟨h.set hq (hk.placed rfl [x] he hb (by simp [OrderBook.place]; rfl)
      ?_ (fun _ => ?_) (fun h' => absurd h' (List.cons_ne_nil _ _))) (by simp [OrderBook.place])
      (fun s hs => OrderBook.setSide_ne _ hs _), ?_⟩
    · simp [OrderBook.place]
      omega
    · simp [OrderBook.place]
      omega
    · have hover : b.Overflowing a := ⟨hfull, by rw [he]; exact hb.ne⟩
      rw [if_pos hover]
      rfl
  | inserted ws bs _ he hfull hb =>
    have hlen := hfits
    have hne := hfull
    rw [he] at hlen hne
    simp only [List.length_append] at hlen hne
    refine ⟨h.set hq (hk.placed rfl [] he hb (by simp [OrderBook.place]; rfl)
      ?_ (fun h' => absurd rfl h') (fun _ => hfull)) (by simp [OrderBook.place])
      (fun s hs => OrderBook.setSide_ne _ hs _), ?_⟩
    · simp [OrderBook.place]
      omega
    · have hnot : ¬b.Overflowing a := fun h' => hfull h'.1
      rw [if_neg hnot]
      rfl

theorem addAll (h : Received cap as b) (as' : List Arrival) (hq : ∀ a ∈ as', 1 ≤ a.qty)
    (hroom : ∀ pre a post, as' = pre ++ a :: post → (b.addAll pre).qtyAt a.side a.price + a.qty ≤ kQtyMax) :
    Received cap (as ++ as') (b.addAll as') ∧ (b.addAll as').overflows = b.overflows + b.overflowing as' := by
  induction as' generalizing b as with
  | nil =>
    rw [List.append_nil]
    exact ⟨h, rfl⟩
  | cons a as' ih =>
    obtain ⟨h₁, h₂⟩ := h.add (hq a List.mem_cons_self) (hroom [] a as' rfl)
    obtain ⟨h₃, h₄⟩ := ih h₁ (fun a' ha' => hq a' (List.mem_cons_of_mem a ha')) (fun pre a' post he =>
      hroom (a :: pre) a' post (by rw [he]; rfl))
    rw [List.append_assoc] at h₃
    refine ⟨h₃, ?_⟩
    unfold OrderBook.overflowing
    rw [← Nat.add_assoc, ← h₂]
    exact h₄

end Received

/-- **A full side keeps the best prices.** After any arrivals that leave every level within the width of a
quantity, a side lists its best distinct prices, as many as it has slots, each with everything that ever arrived
there. -/
theorem overflow_keeps_the_best (cap : Nat) (as : List Arrival) (hq : ∀ a ∈ as, 1 ≤ a.qty)
    (hroom : ∀ pre a post, as = pre ++ a :: post →
      ((OrderBook.new cap).addAll pre).qtyAt a.side a.price + a.qty ≤ 2 ^ 32 - 1) :
    (∀ s, ((OrderBook.new cap).addAll as).ladder s =
      ((TopK.inOrder (better s) (pricesOn as s)).take cap).map (wholeLevel as s)) ∧
    (∀ s, ((OrderBook.new cap).addAll as).depth s = min cap (pricesOn as s).dedup.length) ∧
    ((OrderBook.new cap).addAll as).overflows = (OrderBook.new cap).overflowing as := by
  obtain ⟨h₁, h₂⟩ := (Received.new cap).addAll as hq hroom
  rw [List.nil_append] at h₁
  have hladder : ∀ s, ((OrderBook.new cap).addAll as).ladder s =
      ((TopK.inOrder (better s) (pricesOn as s)).take cap).map (wholeLevel as s) := by
    intro s
    have hside := (h₁.side s).ladder_eq
    rw [h₁.capacity s] at hside
    exact hside
  refine ⟨hladder, fun s => ?_, ?_⟩
  · rw [← OrderBook.length_ladder, hladder, List.length_map, List.length_take]
    unfold TopK.inOrder
    rw [List.length_mergeSort]
  · rw [h₂]
    exact Nat.zero_add _

/-- Room for one bid, two prices: the worse one is forgotten and does not come back. -/
theorem overflow_keeps_the_best_of_two :
    ((OrderBook.new 1).addAll [⟨.buy, 10, 5⟩, ⟨.buy, 11, 1⟩, ⟨.buy, 10, 7⟩]).overflows = 2 := by
  refine (overflow_keeps_the_best 1 _ (by decide) ?_).2.2.trans (by decide)
  rintro (_ | ⟨_, _ | ⟨_, _ | ⟨_, pre⟩⟩⟩) a post he
  · cases he
    decide
  · cases he
    decide
  · cases he
    decide
  · cases pre <;> cases he

end OptiTrade.Book
