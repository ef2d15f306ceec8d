import OptiTrade.Foundations.ShareQueue
import OptiTrade.Sim.Moves

/-! # The queue model against explicit queues

The simulator keeps of a price level only how many shares stand ahead of each of our orders. The reference keeps the
level as a queue of segments and never looks at `ahead`: others' adds append to it, executions leave it at the front,
whichever order the feed names, and our orders join behind the displayed shares and behind each other. The two agree
on where our orders stand and on what is filled, in every run. -/

namespace OptiTrade.Sim
set_option autoImplicit false

open Runs
open Ouch (Token Inbound)
open Book (MarketBooks)
open ShareQueue (Segment Mark)
open Venue (slot crosses kAdded kRemoved)

/-- Where an order stands, as the simulator has it. -/
def Order.mark (o : Order) : Mark Token := ⟨o.token, o.ahead, o.leaves⟩

/-- An order of the reference: its token, its slot and its price. -/
def Order.place (o : Order) : Token × Nat × Int := (o.token, o.slot, o.price)

/-! ## The reference -/

/-- The explicit queues. -/
structure Reference where
  /-- Our resting orders, in the order in which they joined. -/
  own : List (Token × Nat × Int) := []
  queues : Nat → Int → List (Segment Token) := fun _ _ => []
  fills : List (Token × Nat) := []

namespace Reference

def setQueue (q : Reference) (s : Nat) (price : Int) (r : List (Segment Token)) : Nat → Int → List (Segment Token) :=
  Function.update q.queues s (Function.update (q.queues s) price r)

/-- Others add shares to a level. -/
def append (q : Reference) (s : Nat) (price : Int) (shares : Nat) : Reference :=
  { q with queues := q.setQueue s price (q.queues s price ++ [⟨none, shares⟩]) }

/-- Shares are executed at a level. -/
def consume (q : Reference) (s : Nat) (price : Int) (shares : Nat) : Reference :=
  let r := ShareQueue.consume shares (q.queues s price)
  { own := q.own.filter fun x => x.2 ≠ (s, price) ∨ x.1 ∈ (ShareQueue.marks r.1).map Mark.key
    queues := q.setQueue s price r.1
    fills := q.fills ++ r.2 }

/-- An order on the other side reaches every level of `s` that crosses. -/
def sweep (q : Reference) (s : Nat) (side : Side) (price : Int) : Reference :=
  let reached (x : Token × Nat × Int) : Bool := x.2.1 = s ∧ crosses side x.2.2 price
  { own := q.own.filter fun x => !reached x
    queues := fun s' p => if s' = s ∧ crosses side p price then ShareQueue.others (q.queues s' p) else q.queues s' p
    fills := q.fills ++ (q.own.filter reached).flatMap fun x =>
      ((ShareQueue.marks (q.queues x.2.1 x.2.2)).filter fun m => m.key = x.1).map fun m => (m.key, m.size) }

/-- Our order `o` joins its level. -/
def join (q : Reference) (o : Order) (displayed : Nat) : Reference :=
  let r := q.queues o.slot o.price
  let offset := max (displayed + ShareQueue.ownOpen r) (ShareQueue.ownEnd r)
  { q with
    own := q.own ++ [o.place]
    queues := q.setQueue o.slot o.price (ShareQueue.insertAt offset ⟨some o.token, o.leaves⟩ r) }

/-- Shares of our order `o` leave its level. -/
def cut (q : Reference) (o : Order) (shares : Nat) : Reference :=
  { q with queues := q.setQueue o.slot o.price (ShareQueue.cut o.token shares (q.queues o.slot o.price)) }

/-- All of them do. -/
def leave (q : Reference) (o : Order) : Reference :=
  { q.cut o o.leaves with own := q.own.filter fun x => x.1 ≠ o.token }

/-- An order that comes to rest joins its queue. -/
def enter (q : Reference) (displayed : Order → Nat) : Option Order → Reference
  | none => q
  | some o => q.join o (displayed o)

/-- A request, by the working orders before it and after. -/
def onRequest (q : Reference) (old new : Token → Option Order) (displayed : Order → Nat) : Inbound → Reference
  | .enter r => if (old r.token).isSome then q else q.enter displayed (new r.token)
  | .cancel r =>
    match old r.token with
    | none => q
    | some o =>
      match new r.token with
      | none => q.leave o
      | some o' => if o'.leaves < o.leaves then q.cut o (o.leaves - o'.leaves) else q
  | .replace r =>
    match old r.existing with
    | none => q
    | some o => if (new r.existing).isSome then q else (q.leave o).enter displayed (new r.replacement)

/-- A market message that the books apply. -/
def apply (q : Reference) (mb : MarketBooks) (m : Itch.Message) : Reference :=
  if (mb.on m).2 = .ok then
    match m with
    | .addOrder m => (q.append (slot m.h.locate m.side) m.price m.shares).sweep (slot m.h.locate (opposite m.side)) (opposite m.side) m.price
    | .orderReplace m =>
      match mb.order m.oldRef with
      | none => q
      | some i => (q.append (slot i.locate i.side) m.price m.shares).sweep (slot i.locate (opposite i.side)) (opposite i.side) m.price
    | .orderExecuted m =>
      match mb.order m.ref with
      | none => q
      | some i => q.consume (slot i.locate i.side) i.price m.shares
    | .orderExecutedPrice m =>
      match mb.order m.ref with
      | none => q
      | some i => q.consume (slot i.locate i.side) i.price m.shares
    | .stockDirectory _ | .orderCancel _ | .orderDelete _ | .trade _ | .systemEvent _ => q
  else q

theorem setQueue_self (q : Reference) (s : Nat) (price : Int) (r : List (Segment Token)) : q.setQueue s price r s price = r := by
  unfold setQueue
  rw [Function.update_self, Function.update_self]

theorem setQueue_ne (q : Reference) {s s' : Nat} {price price' : Int} (r : List (Segment Token)) (h : ¬(s' = s ∧ price' = price)) :
    q.setQueue s price r s' price' = q.queues s' price' := by
  unfold setQueue
  by_cases hs : s' = s
  · subst hs
    rw [Function.update_self, Function.update_of_ne fun hp => h ⟨rfl, hp⟩]
  · rw [Function.update_of_ne hs]

end Reference

/-! ## Agreement -/

/-- The order is at the level. -/
def Order.at (s : Nat) (price : Int) (o : Order) : Bool := o.slot = s && o.price = price

/-- The reference has our orders where the simulator has them. -/
structure Agrees (os : List Order) (q : Reference) : Prop where
  tokens : (os.map Order.token).Nodup
  own : q.own = os.map Order.place
  marks : ∀ s price, ShareQueue.marks (q.queues s price) = (os.filter (Order.at s price)).map Order.mark

namespace Agrees
variable {os os' : List Order} {q : Reference} {o : Order}

theorem append (h : Agrees os q) (s : Nat) (price : Int) (shares : Nat) : Agrees os (q.append s price shares) := by
  refine ⟨h.tokens, h.own, fun s' price' => ?_⟩
  by_cases hat : s' = s ∧ price' = price
  · obtain ⟨rfl, rfl⟩ := hat
    show ShareQueue.marks (q.setQueue s' price' _ s' price') = _
    rw [Reference.setQueue_self, ShareQueue.marks_append_others]
    exact h.marks s' price'
  · show ShareQueue.marks (q.setQueue s price _ s' price') = _
    rw [Reference.setQueue_ne q _ hat]
    exact h.marks s' price'

/-- Every order in turn stays where it is, or goes. -/
theorem filter_filterMap {g h : Order → Option Order} {p : Order → Bool} (hin : ∀ o, p o = true → g o = h o)
    (hkeep : ∀ o x, g o = some x → p x = p o) (os : List Order) : (os.filterMap g).filter p = (os.filter p).filterMap h := by
  induction os with
  | nil => rfl
  | cons o os ih =>
    rw [List.filterMap_cons]
    cases hp : p o with
    | false =>
      rw [List.filter_cons_of_neg (by simp [hp])]
      cases hg : g o with
      | none => exact ih
      | some x =>
        dsimp only
        rw [List.filter_cons_of_neg (by rw [hkeep o x hg, hp]; simp)]
        exact ih
    | true =>
      rw [List.filter_cons_of_pos hp, List.filterMap_cons, ← hin o hp]
      cases hg : g o with
      | none => exact ih
      | some x =>
        dsimp only
        rw [List.filter_cons_of_pos (by rw [hkeep o x hg, hp]), ih]

theorem filter_place {g : Order → Option Order} {p : Token × Nat × Int → Bool} (hp : ∀ o ∈ os, p o.place = (g o).isSome)
    (hplace : ∀ o x, g o = some x → x.place = o.place) : (os.map Order.place).filter p = (os.filterMap g).map Order.place := by
  induction os with
  | nil => rfl
  | cons o os ih =>
    have ih := ih fun x hx => hp x (List.mem_cons_of_mem _ hx)
    have ho := hp o List.mem_cons_self
    rw [List.map_cons, List.filterMap_cons]
    cases hg : g o with
    | none =>
      rw [hg] at ho
      rw [List.filter_cons_of_neg (by rw [ho]; simp)]
      exact ih
    | some x =>
      rw [hg] at ho
      dsimp only
      rw [List.filter_cons_of_pos (by rw [ho]; rfl), List.map_cons, hplace o x hg, ih]

theorem filterMap_tokens {g : Order → Option Order} (hg : ∀ o x, g o = some x → x.token = o.token) (os : List Order) :
    ((os.filterMap g).map Order.token).Sublist (os.map Order.token) := by
  induction os with
  | nil => exact .slnil
  | cons o os ih =>
    rw [List.filterMap_cons]
    cases ho : g o with
    | none => exact ih.cons _
    | some x =>
      dsimp only
      rw [List.map_cons, List.map_cons, hg o x ho]
      exact ih.cons_cons _

theorem visited (h : Agrees os q) {g : Order → Option Order} {q' : Reference}
    (hplace : ∀ o x, g o = some x → x.place = o.place) (hown : q'.own = (os.filterMap g).map Order.place)
    (hmarks : ∀ s price, ShareQueue.marks (q'.queues s price) = ((os.filter (Order.at s price)).filterMap g).map Order.mark) :
    Agrees (os.filterMap g) q' := by
  refine ⟨?_, hown, fun s price => ?_⟩
  · refine h.tokens.sublist (filterMap_tokens (fun o x hx => ?_) os)
    exact congrArg Prod.fst (hplace o x hx)
  · rw [hmarks, filter_filterMap (fun _ _ => rfl) fun o x hx => ?_]
    have hpl := hplace o x hx
    unfold Order.place at hpl
    simp only [Prod.mk.injEq] at hpl
    unfold Order.at
    rw [hpl.2.1, hpl.2.2]

end Agrees

/-- What an execution of `n` shares at its level leaves of an order. -/
def Order.hit (n : Nat) (o : Order) : Option Order :=
  if n ≤ o.ahead then some { o with ahead := o.ahead - n }
  else if (({ o with ahead := 0 } : Order).fill (min o.leaves (n - o.ahead))).leaves = 0 then none
  else some (({ o with ahead := 0 } : Order).fill (min o.leaves (n - o.ahead)))

theorem Order.mark_hit (n : Nat) (o : Order) : (o.hit n).map Order.mark = o.mark.hit n := by
  unfold Order.hit Mark.hit Order.mark
  dsimp only
  by_cases hle : n ≤ o.ahead
  · rw [if_pos hle, if_pos hle]
    rfl
  · rw [if_neg hle, if_neg hle]
    unfold Order.fill
    dsimp only
    by_cases hz : o.leaves - min o.leaves (n - o.ahead) = 0
    · rw [if_pos hz, if_neg (by omega)]
      rfl
    · rw [if_neg hz, if_pos (by omega), Option.map_some]
      simp only [Option.some.injEq, Mark.mk.injEq, true_and]
      omega

theorem Order.hit_place {n : Nat} {o x : Order} (h : o.hit n = some x) : x.place = o.place := by
  unfold Order.hit at h
  split_ifs at h
  · cases h
    rfl
  · cases h
    rfl

theorem filterMap_mark {f : Order → Option Order} {g : Mark Token → Option (Mark Token)}
    (h : ∀ o, (f o).map Order.mark = g o.mark) (os : List Order) : (os.filterMap f).map Order.mark = (os.map Order.mark).filterMap g := by
  rw [List.map_filterMap, List.filterMap_map]
  exact List.filterMap_congr fun o _ => h o

namespace Agrees
variable {os os' : List Order} {q : Reference} {o : Order}

/-- **An execution at a level.** -/
theorem consume (h : Agrees os q) (s : Nat) (price : Int) (n : Nat) :
    Agrees (os.filterMap fun o => if o.at s price then o.hit n else some o) (q.consume s price n) ∧
      (q.consume s price n).fills = q.fills ++ (os.filter (Order.at s price)).filterMap fun o => o.mark.filled n := by
  obtain ⟨hmarks, hfills⟩ := ShareQueue.marks_consume n (q.queues s price)
  have hlevel : (os.filter (Order.at s price)).filterMap (fun o => if o.at s price then o.hit n else some o) =
      (os.filter (Order.at s price)).filterMap (Order.hit n) :=
    List.filterMap_congr fun o ho => if_pos (List.mem_filter.mp ho).2
  have hnew : ShareQueue.marks (ShareQueue.consume n (q.queues s price)).1 =
      ((os.filter (Order.at s price)).filterMap (Order.hit n)).map Order.mark := by
    rw [hmarks, h.marks, filterMap_mark (Order.mark_hit n)]
  have hplace : ∀ o x : Order, (if o.at s price then o.hit n else some o) = some x → x.place = o.place := by
    intro o x hx
    split_ifs at hx
    · exact Order.hit_place hx
    · cases hx
      rfl
  refine ⟨h.visited hplace ?_ fun s' price' => ?_, ?_⟩
  · show q.own.filter _ = _
    rw [h.own]
    refine filter_place (fun o ho => ?_) hplace
    rw [hnew, List.map_map]
    by_cases hat : o.at s price = true
    · rw [if_pos hat]
      have hslot : (o.slot, o.price) = (s, price) := by
        unfold Order.at at hat
        simpa using hat
      have hmem : o.token ∈ ((os.filter (Order.at s price)).filterMap (Order.hit n)).map (Mark.key ∘ Order.mark) ↔
          (o.hit n).isSome = true := by
        constructor
        · intro hm
          obtain ⟨y, hy, hk⟩ := List.mem_map.mp hm
          obtain ⟨x, hx, hxy⟩ := List.mem_filterMap.mp hy
          have hpl := Order.hit_place hxy
          have htok : x.token = o.token := (congrArg Prod.fst hpl).symm.trans hk
          have hxo : x = o := by
            have hinj := List.inj_on_of_nodup_map h.tokens
            exact hinj (List.mem_filter.mp hx).1 ho htok
          rw [← hxo, hxy]
          rfl
        · intro hs
          obtain ⟨x, hx⟩ := Option.isSome_iff_exists.mp hs
          refine List.mem_map.mpr ⟨x, List.mem_filterMap.mpr ⟨o, List.mem_filter.mpr ⟨ho, hat⟩, hx⟩, ?_⟩
          exact congrArg Prod.fst (Order.hit_place hx)
      refine Bool.eq_iff_iff.mpr (decide_eq_true_iff.trans ⟨fun hc => hmem.mp (hc.resolve_left fun hne => hne hslot), fun hs => ?_⟩)
      exact .inr (hmem.mpr hs)
    · rw [if_neg hat]
      refine decide_eq_true (.inl fun hslot => hat ?_)
      obtain ⟨hs, hp⟩ := Prod.mk.inj hslot
      unfold Order.at
      rw [hs, hp]
      simp
  · by_cases hat : s' = s ∧ price' = price
    · obtain ⟨rfl, rfl⟩ := hat
      show ShareQueue.marks (q.setQueue s' price' _ s' price') = _
      rw [Reference.setQueue_self, hnew, hlevel]
    · show ShareQueue.marks (q.setQueue s price _ s' price') = _
      rw [Reference.setQueue_ne q _ hat, h.marks]
      congr 1
      refine (List.filterMap_some.symm.trans (List.filterMap_congr fun o ho => ?_))
      have hno : ¬o.at s price = true := by
        intro hc
        have ho := (List.mem_filter.mp ho).2
        unfold Order.at at hc ho
        simp only [Bool.and_eq_true, decide_eq_true_eq] at hc ho
        exact hat ⟨ho.1.symm.trans hc.1, ho.2.symm.trans hc.2⟩
      rw [if_neg hno]
  · show q.fills ++ _ = _
    rw [hfills, h.marks, List.filterMap_map]
    rfl

/-- What the reference fills of our order, it fills of its own mark. -/
theorem marks_own (h : Agrees os q) (ho : o ∈ os) :
    ((ShareQueue.marks (q.queues o.slot o.price)).filter fun m => m.key = o.token) = [o.mark] := by
  obtain ⟨as, bs, rfl⟩ := List.append_of_mem ho
  have htokens := h.tokens
  rw [List.map_append, List.map_cons] at htokens
  have hothers : ∀ x ∈ as ++ bs, x.token ≠ o.token := by
    intro x hx he
    refine (List.nodup_middle.mp htokens).notMem ?_
    rw [← List.map_append, ← he]
    exact List.mem_map_of_mem hx
  have hnone : ∀ xs : List Order, (∀ x ∈ xs, x.token ≠ o.token) →
      ((xs.filter (Order.at o.slot o.price)).map Order.mark).filter (fun m => m.key = o.token) = [] := by
    intro xs hxs
    refine List.filter_eq_nil_iff.mpr fun m hm => ?_
    obtain ⟨x, hx, rfl⟩ := List.mem_map.mp hm
    exact fun hk => hxs x (List.mem_filter.mp hx).1 (of_decide_eq_true hk)
  have hat : o.at o.slot o.price = true := by simp [Order.at]
  rw [h.marks, List.filter_append, List.filter_cons_of_pos hat, List.map_append, List.map_cons, List.filter_append,
    hnone as fun x hx => hothers x (List.mem_append_left _ hx), List.nil_append, List.filter_cons_of_pos (by simp [Order.mark]),
    hnone bs fun x hx => hothers x (List.mem_append_right _ hx)]

/-- **An order on the other side** fills what it reaches. -/
theorem sweep (h : Agrees os q) (s : Nat) (side : Side) (price : Int) :
    Agrees (os.filterMap fun o => if o.slot = s ∧ crosses side o.price price then none else some o) (q.sweep s side price) ∧
      (q.sweep s side price).fills = q.fills ++ os.filterMap fun o =>
        if o.slot = s ∧ crosses side o.price price then some (o.token, o.leaves) else none := by
  have hplace : ∀ o x : Order, (if o.slot = s ∧ crosses side o.price price then none else some o) = some x → x.place = o.place := by
    intro o x hx
    split_ifs at hx
    cases hx
    rfl
  refine ⟨h.visited hplace ?_ fun s' price' => ?_, ?_⟩
  · show q.own.filter _ = _
    rw [h.own]
    refine filter_place (fun o _ => ?_) hplace
    unfold Order.place
    dsimp only
    by_cases hr : o.slot = s ∧ crosses side o.price price = true
    · simp [hr]
    · rw [if_neg hr, decide_eq_false hr]
      rfl
  · show ShareQueue.marks (if s' = s ∧ crosses side price' price then ShareQueue.others (q.queues s' price') else q.queues s' price') = _
    have hlevel : ∀ o ∈ os.filter (Order.at s' price'), (o.slot = s ∧ crosses side o.price price = true) ↔
        (s' = s ∧ crosses side price' price = true) := by
      intro o ho
      have hat := (List.mem_filter.mp ho).2
      unfold Order.at at hat
      simp only [Bool.and_eq_true, decide_eq_true_eq] at hat
      rw [hat.1, hat.2]
    by_cases hr : s' = s ∧ crosses side price' price = true
    · rw [if_pos hr, ShareQueue.marks_others]
      have hgone : (os.filter (Order.at s' price')).filterMap
          (fun o => if o.slot = s ∧ crosses side o.price price then none else some o) = [] :=
        List.filterMap_eq_nil_iff.mpr fun o ho => if_pos ((hlevel o ho).mpr hr)
      rw [hgone, List.map_nil]
    · rw [if_neg hr, h.marks]
      congr 1
      refine List.filterMap_some.symm.trans (List.filterMap_congr fun o ho => ?_)
      rw [if_neg fun hc => hr ((hlevel o ho).mp hc)]
  · show q.fills ++ _ = _
    congr 1
    rw [h.own, List.filter_map, List.flatMap_map]
    have hall : ∀ xs : List Order, (∀ x ∈ xs, x ∈ os) →
        (xs.filter ((fun x : Token × Nat × Int => decide (x.2.1 = s ∧ crosses side x.2.2 price = true)) ∘ Order.place)).flatMap
          (fun o => ((ShareQueue.marks (q.queues o.place.2.1 o.place.2.2)).filter fun m => m.key = o.place.1).map fun m => (m.key, m.size)) =
        xs.filterMap fun o => if o.slot = s ∧ crosses side o.price price then some (o.token, o.leaves) else none := by
      intro xs hxs
      induction xs with
      | nil => rfl
      | cons x xs ih =>
        have ih := ih fun y hy => hxs y (List.mem_cons_of_mem _ hy)
        rw [List.filterMap_cons]
        by_cases hr : x.slot = s ∧ crosses side x.price price = true
        · have hp : ((fun x : Token × Nat × Int => decide (x.2.1 = s ∧ crosses side x.2.2 price = true)) ∘ Order.place) x = true :=
            decide_eq_true hr
          rw [List.filter_cons_of_pos hp, List.flatMap_cons, ih, if_pos hr]
          have hown := h.marks_own (hxs x List.mem_cons_self)
          show ((ShareQueue.marks (q.queues x.slot x.price)).filter fun m => m.key = x.token).map _ ++ _ = _
          rw [hown]
          rfl
        · have hp : ¬((fun x : Token × Nat × Int => decide (x.2.1 = s ∧ crosses side x.2.2 price = true)) ∘ Order.place) x = true :=
            fun hc => hr (of_decide_eq_true hc)
          rw [List.filter_cons_of_neg hp, ih, if_neg hr]
    exact hall os fun x hx => hx

/-! ### Our own cancels -/

/-- An order that is cut, or gone, and those behind it move up. -/
structure Cut (os os' : List Order) (o : Order) (n : Nat) (new : Option Order) (as bs : List Order) : Prop where
  split : os = as ++ o :: bs
  before : ∀ x ∈ as, x.token ≠ o.token
  after : os' = as ++ (new.toList ++ bs.map fun f => if o.follows f then f.shrink n else f)

theorem shrink_at (o f : Order) (n s : Nat) (price : Int) : Order.at s price (if o.follows f then f.shrink n else f) = f.at s price := by
  split_ifs
  · rfl
  · rfl

theorem map_shrink_place (o : Order) (n : Nat) (bs : List Order) :
    (bs.map fun f => if o.follows f then f.shrink n else f).map Order.place = bs.map Order.place := by
  rw [List.map_map]
  refine List.map_congr_left fun f _ => ?_
  rw [Function.comp_apply]
  split_ifs
  · rfl
  · rfl

theorem filter_shrink (o : Order) (n s : Nat) (price : Int) (bs : List Order) :
    (bs.map fun f => if o.follows f then f.shrink n else f).filter (Order.at s price) =
      (bs.filter (Order.at s price)).map fun f => if o.follows f then f.shrink n else f := by
  rw [List.filter_map]
  congr 1
  exact List.filter_congr fun f _ => shrink_at o f n s price

/-- Where everybody stands after the cut. -/
theorem cut_marks (h : Agrees os q) {n : Nat} (hn : n ≤ o.leaves) {new : Option Order} {as bs : List Order} (hc : Cut os os' o n new as bs)
    (hnew : new.map Order.mark = if o.leaves ≤ n then none else some ⟨o.token, o.ahead, o.leaves - n⟩)
    (hplace : ∀ x ∈ new, x.place = o.place) (s : Nat) (price : Int) :
    ShareQueue.marks ((q.cut o n).queues s price) = (os'.filter (Order.at s price)).map Order.mark := by
  have hsize : ∀ m ∈ ShareQueue.marks (q.queues o.slot o.price), m.key = o.token → n ≤ m.size := by
    intro m hm hk
    have hown := h.marks_own (o := o) (by rw [hc.split]; simp)
    have : m ∈ (ShareQueue.marks (q.queues o.slot o.price)).filter fun m => m.key = o.token :=
      List.mem_filter.mpr ⟨hm, decide_eq_true hk⟩
    rw [hown, List.mem_singleton] at this
    rw [this]
    exact hn
  rw [hc.after, List.filter_append, List.filter_append, filter_shrink]
  by_cases hat : s = o.slot ∧ price = o.price
  · obtain ⟨rfl, rfl⟩ := hat
    show ShareQueue.marks (q.setQueue o.slot o.price _ o.slot o.price) = _
    have hself : o.at o.slot o.price = true := by simp [Order.at]
    have hkeys : ∀ m ∈ (as.filter (Order.at o.slot o.price)).map Order.mark, m.key ≠ o.token := by
      intro m hm
      obtain ⟨x, hx, rfl⟩ := List.mem_map.mp hm
      exact hc.before x (List.mem_filter.mp hx).1
    have hnews : (new.toList.filter (Order.at o.slot o.price)).map Order.mark =
        if o.leaves ≤ n then [] else [⟨o.token, o.ahead, o.leaves - n⟩] := by
      cases new with
      | none =>
        split_ifs at hnew ⊢ with hall
        · rfl
        · cases hnew
      | some x =>
        have hx := hplace x rfl
        unfold Order.place at hx
        simp only [Prod.mk.injEq] at hx
        have hxat : x.at o.slot o.price = true := by simp [Order.at, hx]
        split_ifs at hnew ⊢ with hall
        · cases hnew
        · rw [Option.toList_some, List.filter_cons_of_pos hxat, List.map_cons, Option.some.inj hnew]
          rfl
    rw [Reference.setQueue_self, ShareQueue.marks_cut hsize, h.marks, hc.split, List.filter_append, List.filter_cons_of_pos hself,
      List.map_append, List.map_cons, ShareQueue.cutMarks_append hkeys, List.map_append, List.map_append, hnews]
    congr 1
    rw [ShareQueue.cutMarks, if_pos (show o.mark.key = o.token from rfl), List.map_map, List.map_map]
    show (if o.leaves ≤ n then _ else _) ++ _ = _
    congr 1
    refine List.map_congr_left fun f hf => ?_
    have hfollows : o.follows f = true := (List.mem_filter.mp hf).2
    rw [Function.comp_apply, Function.comp_apply, if_pos hfollows]
    unfold Order.mark Order.shrink
    simp only [Mark.mk.injEq, true_and, and_true]
    omega
  · show ShareQueue.marks (q.setQueue o.slot o.price _ s price) = _
    have hno : ∀ x : Order, x.place = o.place → ¬x.at s price = true := by
      intro x hx hc
      unfold Order.place at hx
      unfold Order.at at hc
      simp only [Prod.mk.injEq] at hx
      simp only [Bool.and_eq_true, decide_eq_true_eq] at hc
      exact hat ⟨hc.1.symm.trans hx.2.1, hc.2.symm.trans hx.2.2⟩
    have hnews : new.toList.filter (Order.at s price) = [] := by
      cases new with
      | none => rfl
      | some x => exact List.filter_cons_of_neg (hno x (hplace x rfl))
    have hbehind : ((bs.filter (Order.at s price)).map fun f => if o.follows f then f.shrink n else f) = bs.filter (Order.at s price) := by
      refine (List.map_congr_left fun f hf => ?_).trans (List.map_id _)
      have hf := (List.mem_filter.mp hf).2
      refine if_neg fun hfollows => hat ?_
      unfold Order.at at hf
      unfold Order.follows at hfollows
      simp only [Bool.and_eq_true, decide_eq_true_eq] at hf hfollows
      exact ⟨hf.1.symm.trans hfollows.1, hf.2.symm.trans hfollows.2⟩
    rw [Reference.setQueue_ne q _ hat, h.marks, hc.split, List.filter_append, List.filter_cons_of_neg (hno o rfl), hnews, hbehind,
      List.nil_append]

/-- **A cancel** of a part. -/
theorem reduce (h : Agrees os q) {n : Nat} (hn : n < o.leaves) (hf : (os.find? fun x => x.token = o.token) = some o) :
    Agrees (amend o.token n (some { o with leaves := o.leaves - n }) os) (q.cut o n) := by
  obtain ⟨as, bs, hsplit, has, hamend⟩ := amend_eq n (some { o with leaves := o.leaves - n }) hf
  have hplaces : (amend o.token n (some { o with leaves := o.leaves - n }) os).map Order.place = os.map Order.place := by
    rw [hamend, hsplit, List.map_append, List.map_append, map_shrink_place, List.map_append, List.map_cons]
    rfl
  refine ⟨?_, h.own.trans hplaces.symm, fun s price => ?_⟩
  · have := h.tokens
    have htokens : ∀ xs : List Order, xs.map Order.token = (xs.map Order.place).map Prod.fst := fun xs => by
      rw [List.map_map]
      rfl
    rwa [htokens, hplaces, ← htokens]
  · refine h.cut_marks (Nat.le_of_lt hn) ⟨hsplit, has, hamend⟩ ?_ (fun x hx => ?_) s price
    · rw [if_neg (Nat.not_le.mpr hn)]
      rfl
    · cases hx
      rfl

/-- **An order that leaves.** -/
theorem leave (h : Agrees os q) (hf : (os.find? fun x => x.token = o.token) = some o) :
    Agrees (amend o.token o.leaves none os) (q.leave o) := by
  obtain ⟨as, bs, hsplit, has, hamend⟩ := amend_eq o.leaves none hf
  have htokens := h.tokens
  rw [hsplit, List.map_append, List.map_cons] at htokens
  have hbs : ∀ x ∈ bs, x.token ≠ o.token := by
    intro x hx he
    refine (List.nodup_middle.mp htokens).notMem (List.mem_append_right _ ?_)
    rw [← he]
    exact List.mem_map_of_mem hx
  have hplaces : (amend o.token o.leaves none os).map Order.place = (as ++ bs).map Order.place := by
    rw [hamend, Option.toList_none, List.nil_append, List.map_append, map_shrink_place, List.map_append]
  have hkeep : ∀ xs : List Order, (∀ x ∈ xs, x.token ≠ o.token) →
      (xs.map Order.place).filter (fun x => x.1 ≠ o.token) = xs.map Order.place := by
    intro xs hxs
    refine List.filter_eq_self.mpr fun y hy => ?_
    obtain ⟨x, hx, rfl⟩ := List.mem_map.mp hy
    exact decide_eq_true (hxs x hx)
  refine ⟨?_, ?_, fun s price => ?_⟩
  · have hfst : ∀ xs : List Order, xs.map Order.token = (xs.map Order.place).map Prod.fst := fun xs => by
      rw [List.map_map]
      rfl
    rw [hfst, hplaces, ← hfst, List.map_append]
    exact (List.nodup_cons.mp (List.nodup_middle.mp htokens)).2
  · show q.own.filter _ = _
    rw [h.own, hplaces, hsplit, List.map_append, List.map_cons, List.filter_append, hkeep as has,
      List.filter_cons_of_neg (by simp [Order.place]), hkeep bs hbs, List.map_append]
  · refine h.cut_marks (Nat.le_refl _) ⟨hsplit, has, hamend⟩ ?_ (fun x hx => by cases hx) s price
    rw [if_pos (Nat.le_refl _)]
    rfl

/-! ### A new order of ours -/

/-- What the simulator counts of the orders that are at the level. -/
theorem foldl_level (o : Order) (xs : List Order) (a b : Nat) :
    (xs.filter fun e => e.slot = o.slot).foldl (fun (x : Nat × Nat) e =>
      if e.price = o.price then (x.1 + e.leaves, max x.2 (e.ahead + e.leaves)) else x) (a, b) =
    (a + (((xs.filter (Order.at o.slot o.price)).map Order.mark).map Mark.size).sum,
      (((xs.filter (Order.at o.slot o.price)).map Order.mark).map Mark.stop).foldl max b) := by
  induction xs generalizing a b with
  | nil => rfl
  | cons e xs ih =>
    by_cases hs : e.slot = o.slot
    · rw [List.filter_cons_of_pos (by simpa using hs), List.foldl_cons]
      by_cases hp : e.price = o.price
      · have hat : e.at o.slot o.price = true := by simp [Order.at, hs, hp]
        rw [if_pos hp, ih, List.filter_cons_of_pos hat, List.map_cons, List.map_cons, List.map_cons, List.sum_cons,
          ← Nat.add_assoc]
        rfl
      · have hat : ¬e.at o.slot o.price = true := by simp [Order.at, hp]
        rw [if_neg hp, ih, List.filter_cons_of_neg hat]
    · have hat : ¬e.at o.slot o.price = true := by simp [Order.at, hs]
      rw [List.filter_cons_of_neg (by simpa using hs), ih, List.filter_cons_of_neg hat]

theorem queueAhead_eq {d : Floor} (h : Agrees d.orders q) (o : Order) (displayed : Nat) :
    d.queueAhead o displayed =
      max (displayed + ShareQueue.ownOpen (q.queues o.slot o.price)) (ShareQueue.ownEnd (q.queues o.slot o.price)) := by
  unfold Floor.queueAhead
  rw [foldl_level, ← h.marks, ShareQueue.foldl_max_stop]
  rfl

/-- **An order that comes to rest.** -/
theorem join {d : Floor} (h : Agrees d.orders q) (displayed : Nat) (hfresh : ∀ x ∈ d.orders, x.token ≠ o.token)
    (ha : o.ahead = d.queueAhead o displayed) : Agrees (d.orders ++ [o]) (q.join o displayed) := by
  refine ⟨?_, ?_, fun s price => ?_⟩
  · rw [List.map_append, List.map_singleton]
    refine h.tokens.append (List.nodup_singleton _) fun t ht ht' => ?_
    obtain ⟨x, hx, rfl⟩ := List.mem_map.mp ht
    exact hfresh x hx (List.mem_singleton.mp ht')
  · show q.own ++ [o.place] = _
    rw [h.own, List.map_append, List.map_singleton]
  · by_cases hat : s = o.slot ∧ price = o.price
    · obtain ⟨rfl, rfl⟩ := hat
      have hself : o.at o.slot o.price = true := by simp [Order.at]
      have hbehind : ∀ m ∈ ShareQueue.marks (q.queues o.slot o.price), m.stop ≤
          max (displayed + ShareQueue.ownOpen (q.queues o.slot o.price)) (ShareQueue.ownEnd (q.queues o.slot o.price)) :=
        fun m hm => Nat.le_trans (ShareQueue.stop_le_ownEnd m hm) (Nat.le_max_right _ _)
      show ShareQueue.marks (q.setQueue o.slot o.price _ o.slot o.price) = _
      rw [Reference.setQueue_self, ShareQueue.marks_insertAt hbehind, List.filter_append, List.filter_cons_of_pos hself, List.map_append,
        ← h.marks, ← h.queueAhead_eq, ← ha]
      rfl
    · have hno : ¬o.at s price = true := by
        intro hc
        unfold Order.at at hc
        simp only [Bool.and_eq_true, decide_eq_true_eq] at hc
        exact hat ⟨hc.1.symm, hc.2.symm⟩
      show ShareQueue.marks (q.setQueue o.slot o.price _ s price) = _
      rw [Reference.setQueue_ne q _ hat, h.marks, List.filter_append, List.filter_cons_of_neg hno, List.filter_nil, List.append_nil]

end Agrees
end OptiTrade.Sim
