import OptiTrade.Sim.Venue

/-! # The venue as a list of working orders

What the storage of the venue is for, without the storage: its pool, its token map and its linked lists stand
for one list, the working orders in the order in which they came to rest. The operations are the venue's,
over that list; `Storage` and `Refinement` connect the two. -/

namespace OptiTrade.Sim
set_option autoImplicit false

open Ouch (Token)
open Book (MarketBooks Level)
open Venue (slot crosses validToken kMaxPrice kAdded kRemoved)

namespace Order

/-- The queue the order is in. -/
def slot (o : Order) : Nat := Venue.slot o.locate o.side

def fill (o : Order) (qty : Nat) : Order := { o with leaves := o.leaves - qty, filled := o.filled + qty }

/-- `removed` shares in front of the order are gone. -/
def shrink (removed : Nat) (o : Order) : Order := { o with ahead := o.ahead - min o.ahead removed }

/-- The order is behind `o` if it came to rest later. -/
def follows (o f : Order) : Bool := f.slot = o.slot && f.price = o.price

def accepted (o : Order) (clock : Nat) : Ouch.Accepted :=
  { ts := clock, token := o.token, side := o.side, shares := o.leaves, stock := o.stock, price := o.price
    timeInForce := o.tif, firm := o.firm, display := o.display, ref := o.ref, capacity := o.capacity
    intermarketSweep := o.sweep, minQty := o.minQty, crossType := o.cross, orderState := ascii 'L'
    bboWeight := ascii ' ' }

end Order

/-- The counters, and what has been said. -/
structure Tape where
  clock : Nat := 0
  matchNo : Nat := 0
  fills : Nat := 0
  said : List Said := []

namespace Tape

def say (t : Tape) (m : Ouch.Outbound) (about : List Nat) : Tape := { t with said := t.said ++ [⟨m, about⟩] }

/-- An execution is counted and reported. -/
def execute (t : Tape) (o : Order) (qty : Nat) (price : Int) (liquidity : Byte) : Tape :=
  { t with fills := t.fills + 1, matchNo := t.matchNo + 1 }.say
    (.executed ⟨t.clock, o.token, qty, price, liquidity, t.matchNo + 1⟩) o.since

end Tape

/-! ## Visiting the orders -/

/-- Every order in turn stays, changes or goes. -/
def revise (f : Tape → Order → Tape × Option Order) : List Order → Tape → List Order × Tape
  | [], t => ([], t)
  | o :: os, t => ((f t o).2.toList ++ (revise f os (f t o).1).1, (revise f os (f t o).1).2)

/-- An order that an added order reaches fills at its own limit. -/
def sweepHit (loc : Nat) (side : Side) (price : Int) (t : Tape) (o : Order) : Tape × Option Order :=
  if o.slot = slot loc side ∧ crosses side o.price price then (t.execute o o.leaves o.price kAdded, none)
  else (t, some o)

/-- An order at an executed level loses the shares from the queue in front of it and fills with the rest. -/
def consumeHit (loc : Nat) (side : Side) (level execPrice : Int) (shares : Nat) (t : Tape) (o : Order) :
    Tape × Option Order :=
  if o.slot = slot loc side ∧ o.price = level then
    if shares ≤ o.ahead then (t, some { o with ahead := o.ahead - shares })
    else
      let qty := min o.leaves (shares - o.ahead)
      let px := match side with
        | .buy => min execPrice o.price
        | .sell => max execPrice o.price
      let o' := { o with ahead := 0 }.fill qty
      (t.execute o qty px kAdded, if o'.leaves = 0 then none else some o')
  else (t, some o)

/-- The order with the token gives way to `new`, and `removed` of its shares leave the queue. -/
def amend (token : Token) (removed : Nat) (new : Option Order) : List Order → List Order
  | [] => []
  | o :: os =>
    if o.token = token then new.toList ++ os.map fun f => if o.follows f then f.shrink removed else f
    else o :: amend token removed new os

/-- The levels an order takes, best first. -/
def takeLevels : List Level → Tape → Order → Tape × Order
  | [], t, o => (t, o)
  | lv :: ls, t, o =>
    if o.leaves = 0 then (t, o)
    else if crosses o.side o.price lv.price then
      takeLevels ls (t.execute o (min o.leaves lv.qty) lv.price kRemoved) (o.fill (min o.leaves lv.qty))
    else (t, o)

/-- The venue with its orders in a list. -/
structure Floor where
  books : MarketBooks
  orders : List Order := []
  maxOrders : Nat
  nextRef : Nat := 1
  tape : Tape := {}

namespace Floor

def revise (d : Floor) (f : Tape → Order → Tape × Option Order) : Floor :=
  { d with orders := (Sim.revise f d.orders d.tape).1, tape := (Sim.revise f d.orders d.tape).2 }

def find (d : Floor) (token : Token) : Option Order := d.orders.find? fun o => o.token = token

def say (d : Floor) (m : Ouch.Outbound) (about : List Nat) : Floor := { d with tape := d.tape.say m about }

def reject (d : Floor) (token : Token) (reason : Byte) (sent : Nat) : Floor :=
  d.say (.rejected ⟨d.tape.clock, token, reason⟩) [sent]

def amend (d : Floor) (token : Token) (removed : Nat) (new : Option Order) : Floor :=
  { d with orders := Sim.amend token removed new d.orders }

/-! ## Market data -/

/-- What a new order of the market trades with on its way in. -/
def sweepThrough (d : Floor) (loc : Nat) (addedSide : Side) (addedPrice : Int) : Floor :=
  d.revise (sweepHit loc (opposite addedSide) addedPrice)

/-- What a print of the market leaves for the orders in the queue. -/
def consume (d : Floor) (loc : Nat) (side : Side) (level execPrice : Int) (shares : Nat) : Floor :=
  d.revise (consumeHit loc side level execPrice shares)

def apply (d : Floor) (m : Itch.Message) : Floor :=
  let r := d.books.on m
  let d' := { d with books := r.1 }
  match m with
  | .addOrder m => if r.2 = .ok then d'.sweepThrough m.h.locate m.side m.price else d'
  | .orderExecuted m =>
    match d.books.order m.ref with
    | none => d'
    | some info => if r.2 = .ok then d'.consume info.locate info.side info.price info.price m.shares else d'
  | .orderExecutedPrice m =>
    match d.books.order m.ref with
    | none => d'
    | some info => if r.2 = .ok then d'.consume info.locate info.side info.price m.price m.shares else d'
  | .orderReplace m =>
    match d.books.order m.oldRef with
    | none => d'
    | some info => if r.2 = .ok then d'.sweepThrough info.locate info.side m.price else d'
  | .stockDirectory _ | .orderCancel _ | .orderDelete _ | .trade _ | .systemEvent _ => d'

/-! ## Requests -/

/-- What is in front of an order that joins its level. -/
def queueAhead (d : Floor) (o : Order) (displayed : Nat) : Nat :=
  let r := (d.orders.filter fun e => e.slot = o.slot).foldl (fun (x : Nat × Nat) e =>
    if e.price = o.price then (x.1 + e.leaves, max x.2 (e.ahead + e.leaves)) else x) (displayed, 0)
  max r.1 r.2

/-- An order that takes what is left of it to the back of its queue. -/
def rest (d : Floor) (o : Order) : Floor :=
  if o.leaves = 0 then d
  else if o.tif = Ouch.kTifIoc then d.say (.canceled ⟨d.tape.clock, o.token, o.leaves, ascii 'I'⟩) o.since
  else
    let displayed := match d.books.book o.locate with
      | some b => b.qtyAt o.side o.price
      | none => 0
    { d with orders := d.orders ++ [{ o with ahead := d.queueAhead o displayed, resting := true }] }

/-- A new or replaced order meets the displayed book. -/
def work (d : Floor) (o : Order) : Floor :=
  let r := match d.books.book o.locate with
    | some b => takeLevels (b.ladder (opposite o.side)) d.tape o
    | none => (d.tape, o)
  { d with tape := r.1 }.rest r.2

def onEnter (d : Floor) (r : Ouch.EnterOrder) (sent : Nat) : Floor :=
  if !validToken r.token || (d.find r.token).isSome then d.reject r.token (ascii 'O') sent
  else
    match d.books.locate r.stock with
    | none => d.reject r.token (ascii 'S') sent
    | some loc =>
      if r.shares = 0 then d.reject r.token (ascii 'O') sent
      else if kMaxOrderQty < r.shares then d.reject r.token (ascii 'Z') sent
      else if r.price ≤ 0 ∨ kMaxPrice < r.price then d.reject r.token (ascii 'X') sent
      else if d.maxOrders ≤ d.orders.length then d.reject r.token (ascii 'O') sent
      else
        let o : Order :=
          { token := r.token, locate := loc, side := r.side, price := r.price, leaves := r.shares
            tif := r.timeInForce, stock := r.stock, firm := r.firm, display := r.display, capacity := r.capacity
            sweep := r.intermarketSweep, minQty := r.minQty, cross := r.crossType, ref := d.nextRef
            since := [sent] }
        ({ d with nextRef := d.nextRef + 1 }.say (.accepted (o.accepted d.tape.clock)) o.since).work o

def onCancel (d : Floor) (r : Ouch.CancelOrder) (sent : Nat) : Floor :=
  match d.find r.token with
  | none => d
  | some o =>
    let keep := r.shares - o.filled
    if o.leaves ≤ keep then d
    else
      let d := d.say (.canceled ⟨d.tape.clock, o.token, o.leaves - keep, ascii 'U'⟩) (sent :: o.since)
      d.amend o.token (o.leaves - keep) (if keep = 0 then none else some { o with leaves := keep })

/-- The order a replace turns `o` into. -/
def replacement (o : Order) (r : Ouch.ReplaceOrder) (ref sent : Nat) : Order :=
  { o with
    token := r.replacement, price := r.price, leaves := r.shares - o.filled, tif := r.timeInForce
    display := r.display, sweep := r.intermarketSweep, minQty := r.minQty, ref := ref, resting := false
    since := sent :: o.since }

def onReplace (d : Floor) (r : Ouch.ReplaceOrder) (sent : Nat) : Floor :=
  match d.find r.existing with
  | none => d
  | some o =>
    if !validToken r.replacement || (d.find r.replacement).isSome then d
    else
      let valid := 0 < r.price ∧ r.price ≤ kMaxPrice ∧ o.filled < r.shares ∧ r.shares ≤ kMaxOrderQty
      if ¬valid then
        (d.say (.canceled ⟨d.tape.clock, o.token, o.leaves, ascii 'U'⟩) (sent :: o.since)).amend o.token o.leaves none
      else
        let o' := replacement o r d.nextRef sent
        let d := { d.amend o.token o.leaves none with nextRef := d.nextRef + 1 }
        (d.say (.replaced ⟨o'.accepted d.tape.clock, o.token⟩) o'.since).work o'

def onRequest (d : Floor) (m : Ouch.Inbound) (sent : Nat) : Floor :=
  match m with
  | .enter r => d.onEnter r sent
  | .cancel r => d.onCancel r sent
  | .replace r => d.onReplace r sent

theorem mem_of_find {d : Floor} {token : Token} {o : Order} (h : d.find token = some o) :
    o ∈ d.orders ∧ o.token = token :=
  ⟨List.mem_of_find?_eq_some h, by simpa using List.find?_some h⟩

end Floor

/-! ## Induction rules -/

variable {P : Order → Prop} {R : Tape → Prop}

theorem revise_invariant {f : Tape → Order → Tape × Option Order}
    (h : ∀ t o, R t → P o → R (f t o).1 ∧ ∀ o' ∈ (f t o).2, P o') {os : List Order} {t : Tape}
    (hos : ∀ o ∈ os, P o) (ht : R t) : R (revise f os t).2 ∧ ∀ o ∈ (revise f os t).1, P o := by
  induction os generalizing t with
  | nil => exact ⟨ht, fun o ho => by cases ho⟩
  | cons o os ih =>
    obtain ⟨ht', ho'⟩ := h t o ht (hos o List.mem_cons_self)
    obtain ⟨hr, hp⟩ := ih (fun o' h' => hos o' (List.mem_cons_of_mem _ h')) ht'
    refine ⟨hr, fun o' hm => ?_⟩
    rw [revise] at hm
    rcases List.mem_append.mp hm with hm | hm
    · exact ho' o' (Option.mem_toList.mp hm)
    · exact hp o' hm

theorem takeLevels_invariant {I : Tape → Order → Prop} {ls : List Level}
    (h : ∀ t o, ∀ lv ∈ ls, I t o → o.leaves ≠ 0 → crosses o.side o.price lv.price = true →
      I (t.execute o (min o.leaves lv.qty) lv.price kRemoved) (o.fill (min o.leaves lv.qty)))
    {t : Tape} {o : Order} (hi : I t o) : I (takeLevels ls t o).1 (takeLevels ls t o).2 := by
  induction ls generalizing t o with
  | nil => exact hi
  | cons lv ls ih =>
    unfold takeLevels
    split_ifs with hz hc
    · exact hi
    · exact ih (fun t o lv' hlv => h t o lv' (List.mem_cons_of_mem _ hlv)) (h t o lv List.mem_cons_self hi hz hc)
    · exact hi

/-- The orders an amendment leaves. -/
theorem amend_invariant {token : Token} {removed : Nat} {new : Option Order} {os : List Order}
    (hshrink : ∀ o, P o → P (o.shrink removed)) (hnew : ∀ o ∈ new, P o) (hos : ∀ o ∈ os, P o) :
    ∀ o ∈ amend token removed new os, P o := by
  induction os with
  | nil => exact hos
  | cons o os ih =>
    intro x hx
    have hrest : ∀ o' ∈ os, P o' := fun o' h' => hos o' (List.mem_cons_of_mem _ h')
    rw [amend] at hx
    split_ifs at hx
    · rcases List.mem_append.mp hx with hx | hx
      · exact hnew x (Option.mem_toList.mp hx)
      · obtain ⟨f, hf, rfl⟩ := List.mem_map.mp hx
        split_ifs
        · exact hshrink f (hrest f hf)
        · exact hrest f hf
    · rcases List.mem_cons.mp hx with rfl | hx
      · exact hos x List.mem_cons_self
      · exact ih hrest x hx

/-- The order that is amended, and those behind it. -/
theorem amend_eq {token : Token} {os : List Order} {o : Order} (removed : Nat) (new : Option Order)
    (hf : (os.find? fun x => x.token = token) = some o) :
    ∃ as bs, os = as ++ o :: bs ∧ (∀ x ∈ as, x.token ≠ token) ∧
      amend token removed new os = as ++ (new.toList ++ bs.map fun f => if o.follows f then f.shrink removed else f) := by
  induction os with
  | nil => cases hf
  | cons x os ih =>
    rw [amend]
    by_cases hx : x.token = token
    · rw [List.find?_cons_of_pos (by simpa using hx)] at hf
      cases hf
      exact ⟨[], os, rfl, fun y hy => (by cases hy), by rw [if_pos hx, List.nil_append]⟩
    · rw [List.find?_cons_of_neg (by simpa using hx)] at hf
      obtain ⟨as, bs, rfl, has, hamend⟩ := ih hf
      refine ⟨x :: as, bs, rfl, fun y hy => ?_, by rw [if_neg hx, hamend, List.cons_append]⟩
      rcases List.mem_cons.mp hy with rfl | hy
      · exact hx
      · exact has y hy

end OptiTrade.Sim
