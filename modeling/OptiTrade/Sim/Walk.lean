import OptiTrade.Book.Refinement
import OptiTrade.Foundations.GreedyFill
import OptiTrade.Sim.FloorRuns

/-! # What an order does when it arrives

An order that is accepted or replaced meets the displayed levels of the other side. `Walked` says what it does there
without the loop: which levels it uses, what it takes of each, what is reported and where the rest of it goes. -/

namespace OptiTrade.Sim
set_option autoImplicit false

open Book (MarketBooks Level better)
open GreedyFill (fill total)
open Venue (crosses kRemoved)

/-- The level is within the limit of the order. -/
def Order.reaches (o : Order) (lv : Level) : Bool := crosses o.side o.price lv.price

/-- The executions of an order at levels of the book, numbered on from the last match. -/
def Tape.executions (t : Tape) (o : Order) (fs : List (Level × Nat)) : List Said :=
  fs.mapIdx fun i f => ⟨.executed ⟨t.clock, o.token, f.2, f.1.price, kRemoved, t.matchNo + 1 + i⟩, o.since⟩

/-- The levels that an order meets, best first. -/
def opposing (books : MarketBooks) (o : Order) : List Level :=
  match books.book o.locate with
  | some b => b.ladder (opposite o.side)
  | none => []

/-- What is displayed at the price of an order on its own side. -/
def shown (books : MarketBooks) (o : Order) : Nat :=
  match books.book o.locate with
  | some b => b.qtyAt o.side o.price
  | none => 0

namespace Venue

/-- Order `h` arrives while the orders `hs` rest, takes `fs` from the levels it meets, and leaves `w'`. -/
structure Walked (w : Venue) (hs : List Nat) (h : Nat) (fs : List (Level × Nat)) (w' : Venue) : Prop where
  /-- The levels within the limit from the best on, none left out. -/
  levels : (fs.map Prod.fst) <+: (opposing w.books (w.order h)).filter (w.order h).reaches
  worsening : fs.Pairwise fun f g => better (opposite (w.order h).side) f.1.price g.1.price = true
  each : ∀ pre f post, fs = pre ++ f :: post →
    0 < f.2 ∧ f.2 = min ((w.order h).leaves - total pre) f.1.qty ∧ (post ≠ [] → f.2 = f.1.qty)
  filled : total fs =
    min (w.order h).leaves (((opposing w.books (w.order h)).filter (w.order h).reaches).map Level.qty).sum
  said : w'.said = w.said ++ w.tape.executions (w.order h) fs ++
    if 0 < (w.order h).leaves - total fs ∧ (w.order h).tif = Ouch.kTifIoc then
      [⟨.canceled ⟨w.clock, (w.order h).token, (w.order h).leaves - total fs, ascii 'I'⟩, (w.order h).since⟩]
    else []
  books : w'.books = w.books
  /-- What is left rests behind every share at its price. -/
  rests : ∃ hs' ahead, w'.Stored hs' [] ∧
    hs'.map w'.order = (hs.map w.order ++
      if 0 < (w.order h).leaves - total fs ∧ (w.order h).tif ≠ Ouch.kTifIoc then
        [{ (w.order h).fill (total fs) with ahead := ahead, resting := true }]
      else []) ∧
    shown w.books (w.order h) + (((hs.map w.order).filter (w.order h).follows).map Order.leaves).sum ≤ ahead ∧
    ∀ e ∈ (hs.map w.order).filter (w.order h).follows, e.ahead + e.leaves ≤ ahead

end Venue

/-! ## The walk on the list -/

theorem executions_cons (t : Tape) (o : Order) (f : Level × Nat) (fs : List (Level × Nat)) :
    (t.said ++ t.executions o (f :: fs)) =
      (t.execute o f.2 f.1.price kRemoved).said ++ (t.execute o f.2 f.1.price kRemoved).executions (o.fill f.2) fs := by
  show _ = (t.said ++ [_]) ++ _
  rw [List.append_assoc, List.singleton_append]
  unfold Tape.executions
  rw [List.mapIdx_cons]
  congr 2
  congr 1
  funext i g
  show _ = Said.mk (.executed ⟨t.clock, o.token, g.2, g.1.price, kRemoved, t.matchNo + 1 + 1 + i⟩) o.since
  rw [Nat.add_assoc (t.matchNo + 1) 1 i, Nat.add_comm 1 i]

theorem Order.fill_fill (o : Order) (p q : Nat) : (o.fill p).fill q = o.fill (p + q) := by
  unfold Order.fill
  simp only [Nat.sub_sub, Nat.add_assoc]

/-- The tape and the order after the walk. -/
theorem takeLevels_eq (ls : List Level) (t : Tape) (o : Order) :
    takeLevels ls t o =
      ({ t with
          fills := t.fills + (fill o.reaches Level.qty ls o.leaves).length
          matchNo := t.matchNo + (fill o.reaches Level.qty ls o.leaves).length
          said := t.said ++ t.executions o (fill o.reaches Level.qty ls o.leaves) },
        o.fill (total (fill o.reaches Level.qty ls o.leaves))) := by
  have hidle : ∀ (t : Tape) (o : Order),
      (t, o) = ({ t with fills := t.fills + 0, matchNo := t.matchNo + 0, said := t.said ++ [] }, o.fill 0) := by
    intro t o
    rw [List.append_nil]
    rfl
  induction ls generalizing t o with
  | nil => exact hidle t o
  | cons lv ls ih =>
    unfold takeLevels fill
    by_cases hz : o.leaves = 0
    · rw [if_pos hz, if_pos hz]
      exact hidle t o
    rw [if_neg hz, if_neg hz]
    by_cases hc : o.reaches lv = true
    · have hc' : crosses o.side o.price lv.price = true := hc
      have hsame : fill (o.fill (min o.leaves lv.qty)).reaches Level.qty ls (o.fill (min o.leaves lv.qty)).leaves =
          fill o.reaches Level.qty ls (o.leaves - min o.leaves lv.qty) := rfl
      rw [if_pos hc, if_pos hc', ih, executions_cons, GreedyFill.total_cons, List.length_cons, hsame]
      refine Prod.ext ?_ ?_
      · show Tape.mk _ _ _ _ = Tape.mk _ _ _ _
        congr 1
        · show t.matchNo + 1 + _ = t.matchNo + (_ + 1)
          omega
        · show t.fills + 1 + _ = t.fills + (_ + 1)
          omega
      · exact o.fill_fill _ _
    · have hc' : crosses o.side o.price lv.price ≠ true := hc
      rw [if_neg hc, if_neg hc']
      exact hidle t o

/-! ## The rest of the order -/

theorem foldl_ahead (o : Order) (es : List Order) (x : Nat × Nat) :
    x.1 + ((es.filter fun e => e.price = o.price).map Order.leaves).sum ≤
      (es.foldl (fun (x : Nat × Nat) e =>
        if e.price = o.price then (x.1 + e.leaves, max x.2 (e.ahead + e.leaves)) else x) x).1 ∧
    x.2 ≤ (es.foldl (fun (x : Nat × Nat) e =>
        if e.price = o.price then (x.1 + e.leaves, max x.2 (e.ahead + e.leaves)) else x) x).2 ∧
    ∀ e ∈ es, e.price = o.price → e.ahead + e.leaves ≤
      (es.foldl (fun (x : Nat × Nat) e =>
        if e.price = o.price then (x.1 + e.leaves, max x.2 (e.ahead + e.leaves)) else x) x).2 := by
  induction es generalizing x with
  | nil => exact ⟨Nat.le_refl _, Nat.le_refl _, fun e he => absurd he List.not_mem_nil⟩
  | cons e es ih =>
    rw [List.foldl_cons]
    by_cases hp : e.price = o.price
    · rw [if_pos hp, List.filter_cons_of_pos (by simpa using hp), List.map_cons, List.sum_cons, ← Nat.add_assoc]
      obtain ⟨h₁, h₂, h₃⟩ := ih (x.1 + e.leaves, max x.2 (e.ahead + e.leaves))
      refine ⟨h₁, (Nat.le_max_left _ _).trans h₂, fun e' he' hp' => ?_⟩
      rcases List.mem_cons.mp he' with rfl | he'
      · exact (Nat.le_max_right _ _).trans h₂
      · exact h₃ e' he' hp'
    · rw [if_neg hp, List.filter_cons_of_neg (by simpa using hp)]
      obtain ⟨h₁, h₂, h₃⟩ := ih x
      refine ⟨h₁, h₂, fun e' he' hp' => ?_⟩
      rcases List.mem_cons.mp he' with rfl | he'
      · exact absurd hp' hp
      · exact h₃ e' he' hp'

theorem queueAhead_behind (d : Floor) (o : Order) (n : Nat) :
    n + ((d.orders.filter o.follows).map Order.leaves).sum ≤ d.queueAhead o n ∧
    ∀ e ∈ d.orders.filter o.follows, e.ahead + e.leaves ≤ d.queueAhead o n := by
  obtain ⟨h₁, _, h₃⟩ := foldl_ahead o (d.orders.filter fun e => e.slot = o.slot) (n, 0)
  have hfilter : (d.orders.filter fun e => e.slot = o.slot).filter (fun e => e.price = o.price) = d.orders.filter o.follows := by
    rw [List.filter_filter]
    refine List.filter_congr fun e _ => ?_
    unfold Order.follows
    rw [Bool.and_comm]
  rw [hfilter] at h₁
  refine ⟨h₁.trans (Nat.le_max_left _ _), fun e he => ?_⟩
  rw [← hfilter] at he
  obtain ⟨he, hp⟩ := List.mem_filter.mp he
  exact (h₃ e he (by simpa using hp)).trans (Nat.le_max_right _ _)

/-- What is left of an order is cancelled or rests. -/
theorem rest_eq (d : Floor) (o : Order) :
    ∃ ahead, d.rest o =
      { d with
          orders := d.orders ++ if 0 < o.leaves ∧ o.tif ≠ Ouch.kTifIoc then [{ o with ahead := ahead, resting := true }] else []
          tape := { d.tape with said := d.tape.said ++
            if 0 < o.leaves ∧ o.tif = Ouch.kTifIoc then [⟨.canceled ⟨d.tape.clock, o.token, o.leaves, ascii 'I'⟩, o.since⟩]
            else [] } } ∧
      shown d.books o + ((d.orders.filter o.follows).map Order.leaves).sum ≤ ahead ∧
      ∀ e ∈ d.orders.filter o.follows, e.ahead + e.leaves ≤ ahead := by
  refine ⟨d.queueAhead o (shown d.books o), ?_, queueAhead_behind d o _⟩
  unfold Floor.rest
  by_cases hz : o.leaves = 0
  · rw [if_pos hz, if_neg (by omega), if_neg (by omega), List.append_nil, List.append_nil]
  rw [if_neg hz]
  have hpos : 0 < o.leaves := Nat.pos_of_ne_zero hz
  by_cases hioc : o.tif = Ouch.kTifIoc
  · rw [if_pos hioc, if_neg fun h => h.2 hioc, if_pos ⟨hpos, hioc⟩, List.append_nil]
    rfl
  · rw [if_neg hioc, if_pos ⟨hpos, hioc⟩, if_neg fun h => hioc h.2, List.append_nil]
    rfl

/-- What an order does when it arrives, on the floor. -/
theorem work_eq (d : Floor) (o : Order) {fs : List (Level × Nat)}
    (hfs : fs = fill o.reaches Level.qty (opposing d.books o) o.leaves) :
    ∃ ahead, (d.work o).books = d.books ∧
      (d.work o).orders = (d.orders ++
        if 0 < o.leaves - total fs ∧ o.tif ≠ Ouch.kTifIoc then [{ o.fill (total fs) with ahead := ahead, resting := true }]
        else []) ∧
      (d.work o).tape.said = d.tape.said ++ d.tape.executions o fs ++
        (if 0 < o.leaves - total fs ∧ o.tif = Ouch.kTifIoc then
          [⟨.canceled ⟨d.tape.clock, o.token, o.leaves - total fs, ascii 'I'⟩, o.since⟩]
        else []) ∧
      shown d.books o + ((d.orders.filter o.follows).map Order.leaves).sum ≤ ahead ∧
      ∀ e ∈ d.orders.filter o.follows, e.ahead + e.leaves ≤ ahead := by
  have hwork : d.work o = { d with tape := (takeLevels (opposing d.books o) d.tape o).1 }.rest
      (takeLevels (opposing d.books o) d.tape o).2 := by
    unfold Floor.work opposing
    cases d.books.book o.locate <;> rfl
  rw [takeLevels_eq, ← hfs] at hwork
  obtain ⟨ahead, hrest, hback, hbehind⟩ := rest_eq { d with tape := { d.tape with
    fills := d.tape.fills + fs.length
    matchNo := d.tape.matchNo + fs.length
    said := d.tape.said ++ d.tape.executions o fs } } (o.fill (total fs))
  have hfloor := hwork.trans hrest
  have hbooks := congrArg Floor.books hfloor
  have horders := congrArg Floor.orders hfloor
  have hsaid := congrArg (fun d : Floor => d.tape.said) hfloor
  exact ⟨ahead, hbooks, horders, hsaid, hback, hbehind⟩

/-! ## The books -/

/-- Both sides of every book run from the best price to the worst, without an empty level. -/
def Ordered (books : MarketBooks) : Prop :=
  ∀ l b, books.book l = some b → ∀ s,
    (b.ladder s).Pairwise (fun x y => better s x.price y.price = true) ∧ ∀ lv ∈ b.ladder s, 0 < lv.qty

theorem ordered_of_simulates {books : MarketBooks} {r : Book.Reference} (h : Book.Simulates books r) : Ordered books := by
  intro l b hb s
  have hm : ∃ cap rb, Book.MirrorsBook cap b rb := by
    rcases h.book_cases l with ⟨hnone, _⟩ | ⟨b', rb, hb', _, hm⟩
    · exact absurd (hnone.symm.trans hb) (by simp)
    · have hbb : b' = b := Option.some.inj (hb'.symm.trans hb)
      exact ⟨_, rb, hbb ▸ hm⟩
  obtain ⟨cap, rb, hm⟩ := hm
  unfold Book.OrderBook.ladder
  refine ⟨?_, fun lv hlv => ?_⟩
  · rw [List.pairwise_map, List.pairwise_reverse]
    exact (hm.side s).sorted
  · obtain ⟨x, hx, rfl⟩ := List.mem_map.mp hlv
    exact (hm.side s).positive x (List.mem_reverse.mp hx)

namespace Ordered
variable {books : MarketBooks}

theorem opposing (h : Ordered books) (o : Order) :
    (opposing books o).Pairwise (fun x y => better (opposite o.side) x.price y.price = true) ∧
    ∀ lv ∈ opposing books o, 0 < lv.qty := by
  unfold Sim.opposing
  cases hb : books.book o.locate with
  | none => exact ⟨List.Pairwise.nil, fun lv hlv => absurd hlv List.not_mem_nil⟩
  | some b => exact h _ b hb (opposite o.side)

theorem reaches (h : Ordered books) (o : Order) :
    (Sim.opposing books o).Pairwise fun x y => o.reaches y = true → o.reaches x = true := by
  refine (h.opposing o).1.imp fun {x y} hxy hy => ?_
  unfold Order.reaches crosses at *
  unfold better at hxy
  cases hs : o.side <;> rw [hs] at hxy hy <;> simp only [opposite, decide_eq_true_eq] at hxy hy ⊢ <;> omega

end Ordered

/-- **The walk.** -/
theorem Venue.work_walked {w : Venue} {hs : List Nat} {h : Nat} (hw : w.Stored hs [h]) (hb : Ordered w.books) :
    Walked w hs h (fill (w.order h).reaches Level.qty (opposing w.books (w.order h)) (w.order h).leaves) (w.work h) := by
  obtain ⟨hs', hst, hfl⟩ := Venue.work_refines hw
  obtain ⟨hord, hpos⟩ := hb.opposing (w.order h)
  have htw := GreedyFill.takeWhile_eq_filter (hb.reaches (w.order h))
  have hpre : ((fill (w.order h).reaches Level.qty (opposing w.books (w.order h)) (w.order h).leaves).map Prod.fst) <+: _ :=
    GreedyFill.fill_isPrefix _ _
  have htotal : total (fill (w.order h).reaches Level.qty (opposing w.books (w.order h)) (w.order h).leaves) = _ :=
    GreedyFill.total_fill _ _
  rw [htw] at hpre htotal
  obtain ⟨ahead, hbooks, horders, hsaid, hback, hbehind⟩ := work_eq (w.floor hs) (w.order h) rfl
  rw [← hfl] at hbooks horders hsaid
  refine ⟨hpre, ?_, fun pre f post he => GreedyFill.fill_each hpos he, htotal, hsaid, hbooks, hs', ahead, hst, horders,
    hback, hbehind⟩
  have hsub := hord.sublist (hpre.sublist.trans List.filter_sublist)
  rwa [List.pairwise_map] at hsub

/-! ## Every state of the venue -/

/-- The states that requests and market messages lead to, at whatever times and in whatever order. -/
inductive Venue.Reached (maxOrders : Nat) (books : MarketBooks.Config) : Venue → Prop
  | new : Reached maxOrders books (.new maxOrders books)
  | tick {v : Venue} (clock : Nat) : Reached maxOrders books v → Reached maxOrders books { v with clock := clock }
  | publish {v : Venue} : Reached maxOrders books v → Reached maxOrders books { v with said := [] }
  | request {v : Venue} (m : Ouch.Inbound) (sent : Nat) : Reached maxOrders books v → Reached maxOrders books (v.onRequest m sent)
  | market {v : Venue} (m : Itch.Message) : Reached maxOrders books v → Reached maxOrders books (v.apply m)

theorem Floor.books_apply (d : Floor) (m : Itch.Message) : (d.apply m).books = (d.books.on m).1 := by
  unfold Floor.apply
  cases m with
  | addOrder m =>
    dsimp only
    split_ifs <;> rfl
  | orderExecuted m =>
    dsimp only
    split
    · rfl
    · split_ifs <;> rfl
  | orderExecutedPrice m =>
    dsimp only
    split
    · rfl
    · split_ifs <;> rfl
  | orderReplace m =>
    dsimp only
    split
    · rfl
    · split_ifs <;> rfl
  | stockDirectory m => rfl
  | orderCancel m => rfl
  | orderDelete m => rfl
  | trade m => rfl
  | systemEvent m => rfl

namespace Venue.Reached
variable {maxOrders : Nat} {books : MarketBooks.Config} {v : Venue}

theorem simulated_invariant : Floor.Invariant (fun _ _ => True) fun d => ∃ r, Book.Simulates d.books r where
  tick := fun _ _ h => h
  hush := fun _ h => h
  request := fun d m sent h => by
    rw [Floor.books_onRequest]
    exact h
  market := fun d m _ ⟨r, h⟩ => by
    rw [Floor.books_apply]
    exact ⟨_, (h.on m).2⟩

theorem meets (h : v.Reached maxOrders books) : v.Meets fun d => ∃ r, Book.Simulates d.books r := by
  induction h with
  | new => exact ⟨[], .new _ _, _, .new books⟩
  | tick clock _ ih => exact ih.tick simulated_invariant clock
  | publish _ ih => exact ih.hush simulated_invariant
  | request m sent _ ih => exact ih.onRequest m sent fun d hd => simulated_invariant.request d m sent hd
  | market m _ ih => exact ih.apply m fun d _ hd => simulated_invariant.market d m trivial hd

theorem ordered (h : v.Reached maxOrders books) : Ordered v.books := by
  obtain ⟨hs, _, r, hr⟩ := h.meets
  exact ordered_of_simulates hr

end Venue.Reached

/-! ## The states of the simulator -/

namespace ExchangeSim
variable {maxOrders : Nat} {books : MarketBooks.Config} {s : ExchangeSim}

theorem reached_process (h : s.Rings) (hv : s.venue.Reached maxOrders books) :
    s.reached.Reached maxOrders books ∧ s.process.venue.Reached maxOrders books := by
  have hr : s.reached.Reached maxOrders books := .tick _ hv
  rw [process_venue h]
  exact ⟨hr, .publish (.request _ _ hr)⟩

theorem reached_advance (h : s.Rings) (hv : s.venue.Reached maxOrders books) (now : Nat) :
    (s.advance now).venue.Reached maxOrders books := by
  refine (advance_invariant (P := fun t => t.Rings ∧ t.venue.Reached maxOrders books) ?_ ⟨h, hv⟩).2
  rintro t ⟨hr, hv⟩ -
  exact ⟨hr.process, (reached_process hr hv).2⟩

theorem reached_onItch (h : s.Rings) (hv : s.venue.Reached maxOrders books) (m : Option Itch.Message) (now : Nat) :
    (s.onItch m now).venue.Reached maxOrders books := by
  rw [onItch_venue h]
  have ht : (s.marketAt now).Reached maxOrders books := .tick _ (reached_advance h hv now)
  cases m with
  | none => exact .publish ht
  | some m => exact .publish (.market m ht)

end ExchangeSim

namespace State

theorem Steps.venue_reached {s t : State} {c : Call} {x : Answer} {maxOrders : Nat} {books : MarketBooks.Config}
    (h : Steps s c t x) (hr : s.sim.Rings) (hv : s.sim.venue.Reached maxOrders books) :
    t.sim.venue.Reached maxOrders books := by
  cases h with
  | send m now _ =>
    show (s.sim.send m now).1.venue.Reached maxOrders books
    rw [(s.sim.send_frame m now).1]
    exact hv
  | onItch m now _ => exact ExchangeSim.reached_onItch hr hv m now
  | advance now _ => exact ExchangeSim.reached_advance hr hv now
  | drain now _ => exact hv
  | hand now _ _ => exact hv
  | handed now _ => exact hv
  | drained now _ _ => exact hv

theorem run_reached {config : SimConfig} {cs : List Call} {s : State} {log : List (Call × Answer)}
    (hr : Runs.run next (⟨.new config, none⟩, []) cs = some (s, log)) :
    s.sim.Rings ∧ s.sim.venue.Reached config.maxOrders config.books := by
  refine Runs.run_invariant (P := fun p => p.1.sim.Rings ∧ p.1.sim.venue.Reached config.maxOrders config.books) ?_ hr
    ⟨.new config, .new⟩
  rintro p c p' ⟨hrings, hv⟩ hn
  obtain ⟨t, x, hstep, rfl⟩ := next_some hn
  have hs := step_cases hstep
  exact ⟨hs.rings hrings, hs.venue_reached hrings hv⟩

end State

/-- **The marketable walk is greedy and complete.** In every state of the venue a request is declined, or its order is
acknowledged and goes to the book. -/
theorem marketable_walk_is_greedy {maxOrders : Nat} {books : MarketBooks.Config} {v : Venue}
    (hv : v.Reached maxOrders books) (m : Ouch.Inbound) (sent : Nat) :
    v.Declines (v.onRequest m sent) ∨
    ∃ w hs h fs, v.Arrives w hs h ∧ v.onRequest m sent = w.work h ∧ w.Walked hs h fs (w.work h) := by
  obtain ⟨hs, hst, _⟩ := hv.meets
  rcases Venue.onRequest_cases hst m sent with ⟨hd, _⟩ | ⟨w, h, hs', harr, hwork, _⟩
  · exact .inl hd
  · have hb : Ordered w.books := by
      rw [harr.books]
      exact hv.ordered
    exact .inr ⟨w, hs', h, _, harr, hwork, Venue.work_walked harr.stored hb⟩

/-- One offer of ten shares. -/
def offered : Venue :=
  ((Venue.new 4 {}).apply (.stockDirectory ⟨⟨1, 0, 0⟩, .ofText [65, 66, 67, 68], 0, 0, 100, 0, 0, [], 0, 0, 0, 0, 0, 0, 0⟩)).apply
    (.addOrder ⟨⟨1, 0, 0⟩, 1, .sell, 10, .ofText [65, 66, 67, 68], 100, false, []⟩)

/-- Fifteen shares are wanted at the price of the offer. -/
theorem marketable_walk_is_greedy_partial :
    ∃ w hs h fs, offered.Arrives w hs h ∧
      offered.onRequest (.enter ⟨Ouch.Token.fromId 1, .buy, false, 15, .ofText [65, 66, 67, 68], 100, 99999,
        Ouch.Firm.blank, 89, 80, 78, 0, 78, 32⟩) 3 = w.work h ∧ w.Walked hs h fs (w.work h) := by
  have hreached : offered.Reached 4 {} := .market _ (.market _ .new)
  refine (marketable_walk_is_greedy hreached _ _).resolve_left ?_
  rintro ⟨xs, hsaid, hall⟩
  have hfirst : ∃ a, (offered.onRequest (.enter ⟨Ouch.Token.fromId 1, .buy, false, 15, .ofText [65, 66, 67, 68], 100, 99999,
      Ouch.Firm.blank, 89, 80, 78, 0, 78, 32⟩) 3).said.head?.map Said.msg = some (.accepted a) := ⟨_, rfl⟩
  obtain ⟨a, ha⟩ := hfirst
  obtain ⟨x, hx, hmsg⟩ := Option.map_eq_some_iff.mp ha
  have hnone : offered.said = [] := rfl
  rw [hsaid, hnone, List.nil_append] at hx
  rcases hall x (List.mem_of_head? hx) with ⟨_, h⟩ | ⟨_, h⟩
  · rw [hmsg] at h
    cases h
  · rw [hmsg] at h
    cases h

end OptiTrade.Sim
