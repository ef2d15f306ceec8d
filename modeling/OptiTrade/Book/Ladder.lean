import Mathlib.Algebra.Group.Nat.Defs
import Mathlib.Algebra.GroupWithZero.Nat
import OptiTrade.Book.Refinement

/-! # A book under any sequence of calls

The two ladders of one book against two bounded maps from prices to levels. A run is a list of calls with
arbitrary arguments; `births` are the ids of the levels it creates and `journal` says which incarnation each
successful call has changed. The counter of ids wraps, so what is said of ids is said of runs that create
fewer than `2 ^ 64` levels. -/

namespace OptiTrade.Book
set_option autoImplicit false

/-- A call of a book: by price alone, or for one order by price and level. -/
inductive Call
  | add (s : Side) (price : Int) (qty : Nat)
  | remove (s : Side) (price : Int) (qty : Nat)
  | reduce (s : Side) (price : Int) (qty : Nat)
  | addOrder (s : Side) (price : Int) (qty : Nat)
  | removeOrder (s : Side) (price : Int) (qty id : Nat)
  | reduceOrder (s : Side) (price : Int) (qty id : Nat)

/-- What a call returns. -/
inductive Answer
  | done (ok : Bool)
  | level (id : Nat)
  deriving DecidableEq

namespace Call

def side : Call → Side
  | .add s _ _ | .remove s _ _ | .reduce s _ _ | .addOrder s _ _ | .removeOrder s _ _ _ | .reduceOrder s _ _ _ => s

def price : Call → Int
  | .add _ p _ | .remove _ p _ | .reduce _ p _ | .addOrder _ p _ | .removeOrder _ p _ _ | .reduceOrder _ p _ _ => p

def qty : Call → Nat
  | .add _ _ q | .remove _ _ q | .reduce _ _ q | .addOrder _ _ q | .removeOrder _ _ q _ | .reduceOrder _ _ q _ => q

/-- The call puts shares on a level. -/
def adds : Call → Bool
  | .add .. | .addOrder .. => true
  | .remove .. | .reduce .. | .removeOrder .. | .reduceOrder .. => false

end Call

/-- The call reports that nothing was stored or nothing taken. -/
def Answer.Failed (a : Answer) : Prop := a = .done false ∨ a = .level kNoLevel

instance (a : Answer) : Decidable a.Failed := inferInstanceAs (Decidable (_ ∨ _))

namespace OrderBook

def call (b : OrderBook) : Call → OrderBook × Answer
  | .add s price qty => ((b.add s price qty).1, .done (b.add s price qty).2)
  | .remove s price qty => ((b.remove s price qty).1, .done (b.remove s price qty).2)
  | .reduce s price qty => ((b.reduce s price qty).1, .done (b.reduce s price qty).2)
  | .addOrder s price qty => ((b.addOrder s price qty).1, .level (b.addOrder s price qty).2)
  | .removeOrder s price qty id => ((b.removeOrder s price qty id).1, .done (b.removeOrder s price qty id).2)
  | .reduceOrder s price qty id => ((b.reduceOrder s price qty id).1, .done (b.reduceOrder s price qty id).2)

def calls (b : OrderBook) (cs : List Call) : OrderBook := cs.foldl (fun b c => (b.call c).1) b

/-- The incarnation tracked at a price. -/
def idAt (b : OrderBook) (s : Side) (price : Int) : Option Nat := (findLevel (b.sides s) s price).map fun x => x.2.id

/-- The id of the level that a call creates. -/
def born (b : OrderBook) (c : Call) : Option Nat :=
  if (b.idAt c.side c.price).isSome then none else (b.call c).1.idAt c.side c.price

/-- The incarnation at the price of a call: the one before it, or the one it creates. -/
def touched (b : OrderBook) (c : Call) : Option Nat := (b.idAt c.side c.price).or ((b.call c).1.idAt c.side c.price)

/-- What a successful call enters in the journal. -/
def entry (b : OrderBook) (c : Call) : Option (Nat × Call) :=
  if (b.call c).2.Failed then none else (b.touched c).map fun id => (id, c)

/-- The levels that come up in a sequence of calls, in order. -/
def births : OrderBook → List Call → List Nat
  | _, [] => []
  | b, c :: cs => (b.born c).toList ++ births (b.call c).1 cs

/-- What each call did to a level, in order. -/
def journal : OrderBook → List Call → List (Nat × Call)
  | _, [] => []
  | b, c :: cs => (b.entry c).toList ++ journal (b.call c).1 cs

end OrderBook

/-- The shares the calls that add (or do not) have moved on one incarnation. -/
def moved (adds : Bool) (j : List (Nat × Call)) (id : Nat) : Nat :=
  (j.map fun m => if m.1 = id ∧ m.2.adds = adds then m.2.qty else 0).sum

def addedTo (j : List (Nat × Call)) (id : Nat) : Nat := moved true j id

def removedFrom (j : List (Nat × Call)) (id : Nat) : Nat := moved false j id

/-! ## The bounded map -/

namespace RefBook

/-- An order is added: its level, or `kNoLevel` if there is none for it. -/
def addOrder (cap : Nat) (b : RefBook) (s : Side) (price : Int) (qty : Nat) : RefBook × Nat :=
  if qty = 0 then (b, kNoLevel)
  else
    let r := (b.sides s).add cap s price qty b.nextGen
    let created := (b.sides s).lookup price = none ∧ r.1.lookup price ≠ none
    ({ sides := Function.update b.sides s r.1
       nextGen := if created then b.nextGen + 1 else b.nextGen }, r.2.1)

/-- Shares leave the level at `price`, of any incarnation if `id` is `kNoLevel`. -/
def take (b : RefBook) (s : Side) (price : Int) (qty id : Nat) (whole : Bool) : RefBook × Bool :=
  match (b.sides s).lookup price with
  | none => (b, false)
  | some x =>
    if qty = 0 ∨ (id ≠ kNoLevel ∧ x.gen ≠ id) ∨ x.qty < qty then (b, false)
    else ({ b with sides := Function.update b.sides s ((b.sides s).take price qty x.gen whole) }, true)

/-- Shares leave the level at `price` if it is the incarnation `id`; no level is `kNoLevel`. -/
def takeFrom (b : RefBook) (s : Side) (price : Int) (qty id : Nat) (whole : Bool) : RefBook × Bool :=
  if id ≠ kNoLevel then b.take s price qty id whole else (b, false)

def call (cap : Nat) (b : RefBook) : Call → RefBook × Answer
  | .add s price qty => ((b.addOrder cap s price qty).1, .done (decide ((b.addOrder cap s price qty).2 ≠ kNoLevel)))
  | .remove s price qty => ((b.take s price qty kNoLevel true).1, .done (b.take s price qty kNoLevel true).2)
  | .reduce s price qty => ((b.take s price qty kNoLevel false).1, .done (b.take s price qty kNoLevel false).2)
  | .addOrder s price qty => ((b.addOrder cap s price qty).1, .level (b.addOrder cap s price qty).2)
  | .removeOrder s price qty id =>
    ((b.takeFrom s price qty id true).1, .done (b.takeFrom s price qty id true).2)
  | .reduceOrder s price qty id =>
    ((b.takeFrom s price qty id false).1, .done (b.takeFrom s price qty id false).2)

def calls (cap : Nat) (b : RefBook) (cs : List Call) : RefBook := cs.foldl (fun b c => (b.call cap c).1) b

end RefBook

/-- Every query of the book is answered by the maps. -/
structure Agrees (b : OrderBook) (rb : RefBook) : Prop where
  depth : ∀ s, b.depth s = (rb.sides s).keys.length
  level : ∀ s i, b.level s i = ((rb.sides s).ladder s)[i]?.getD {}
  best : ∀ s, b.best s = ((rb.sides s).ladder s).head?
  qtyAt : ∀ s price, b.qtyAt s price = (((rb.sides s).lookup price).map RefLevel.qty).getD 0
  totalQty : ∀ s n, b.totalQty s n = min kQtyMax ((((rb.sides s).ladder s).take n).map Level.qty).sum
  crossed : b.crossed = true ↔ ∃ bid ∈ (rb.sides .buy).keys, ∃ ask ∈ (rb.sides .sell).keys, ask ≤ bid

variable {s : Side} {sb : SideBook} {b b' : OrderBook} {c : Call} {ids ids' : List Nat} {j j' : List (Nat × Call)}

/-! ## What one call does -/

namespace OrderBook

theorem idAt_some (h : Sorted s (b.sides s).e) {ws bs : List Entry} {x : Entry} (he : (b.sides s).e = ws ++ x :: bs)
    {price : Int} (hp : x.lv.price = price) : b.idAt s price = some x.id := by
  obtain ⟨pos, hf⟩ := h.findLevel_some he
  unfold idAt
  rw [← hp, hf]
  rfl

theorem idAt_none (h : Sorted s (b.sides s).e) {price : Int} (hn : ∀ x ∈ (b.sides s).e, x.lv.price ≠ price) :
    b.idAt s price = none := by
  unfold idAt
  rw [h.findLevel_none hn]
  rfl

/-- A call is an add, or shares leaving a level, or is refused for its id. -/
theorem call_cases (b : OrderBook) (c : Call) :
    (c.adds = true ∧ (b.call c).1 = (b.addOrder c.side c.price c.qty).1 ∧
      ((b.call c).2.Failed ↔ (b.addOrder c.side c.price c.qty).2 = kNoLevel)) ∨
    (c.adds = false ∧ b.call c = (b, .done false)) ∨
    (∃ id whole, c.adds = false ∧ (b.call c).1 = (b.take c.side c.price c.qty id whole).1 ∧
      (b.call c).2 = .done (b.take c.side c.price c.qty id whole).2) := by
  cases c with
  | add s price qty =>
    refine .inl ⟨rfl, rfl, ?_⟩
    simp [call, add, Answer.Failed, Call.side, Call.price, Call.qty]
  | addOrder s price qty =>
    refine .inl ⟨rfl, rfl, ?_⟩
    simp [call, Answer.Failed, Call.side, Call.price, Call.qty]
  | remove s price qty => exact .inr (.inr ⟨kNoLevel, true, rfl, rfl, rfl⟩)
  | reduce s price qty => exact .inr (.inr ⟨kNoLevel, false, rfl, rfl, rfl⟩)
  | removeOrder s price qty id =>
    by_cases hid : id ≠ kNoLevel
    · refine .inr (.inr ⟨id, true, rfl, ?_, ?_⟩)
      · simp [call, removeOrder, hid, Call.side, Call.price, Call.qty]
      · simp [call, removeOrder, hid, Call.side, Call.price, Call.qty]
    · refine .inr (.inl ⟨rfl, ?_⟩)
      simp [call, removeOrder, hid]
  | reduceOrder s price qty id =>
    by_cases hid : id ≠ kNoLevel
    · refine .inr (.inr ⟨id, false, rfl, ?_, ?_⟩)
      · simp [call, reduceOrder, hid, Call.side, Call.price, Call.qty]
      · simp [call, reduceOrder, hid, Call.side, Call.price, Call.qty]
    · refine .inr (.inl ⟨rfl, ?_⟩)
      simp [call, reduceOrder, hid]

/-- What a call can do to a book whose sides are sorted. -/
inductive Effect (b : OrderBook) (c : Call) (b' : OrderBook) : Prop
  /-- Nothing moves. -/
  | refused : b'.sides = b.sides → b'.nextId = b.nextId → (b.call c).2.Failed → Effect b c b'
  /-- A level changes or, if `y` is none, goes. -/
  | changed (ws bs : List Entry) (x : Entry) (y : Option Entry) : (b.sides c.side).e = ws ++ x :: bs →
      x.lv.price = c.price → (b'.sides c.side).e = ws ++ y.toList ++ bs →
      (∀ s, s ≠ c.side → b'.sides s = b.sides s) → b'.nextId = b.nextId →
      (∀ z, y = some z → z.id = x.id ∧ z.lv.price = x.lv.price ∧ (1 ≤ x.lv.orders → 1 ≤ z.lv.orders) ∧
        z.lv.qty + (if c.adds = false then c.qty else 0) = x.lv.qty + (if c.adds = true then c.qty else 0)) →
      ((b.call c).2.Failed → c.adds = true ∧ x.id = kNoLevel) → Effect b c b'
  /-- A new level, in the place of the worst if the side is full. -/
  | placed (ws bs : List Entry) : (∀ x ∈ ws ++ bs, x ∈ (b.sides c.side).e) → (∀ x ∈ (b.sides c.side).e, x.lv.price ≠ c.price) →
      (b'.sides c.side).e = ws ++ ⟨⟨c.price, c.qty, 1⟩, b.nextId⟩ :: bs → (∀ s, s ≠ c.side → b'.sides s = b.sides s) →
      b'.nextId = add64 b.nextId 1 → c.adds = true → ((b.call c).2.Failed ↔ b.nextId = kNoLevel) →
      Sorted c.side (b'.sides c.side).e → Effect b c b'

theorem effect_add (h : Sorted c.side (b.sides c.side).e) (hc : c.adds = true)
    (hb : (b.call c).1 = (b.addOrder c.side c.price c.qty).1)
    (hf : (b.call c).2.Failed ↔ (b.addOrder c.side c.price c.qty).2 = kNoLevel) : Effect b c (b.call c).1 := by
  rw [hb]
  have hadd := addOrder_cases h c.price c.qty
  generalize b.addOrder c.side c.price c.qty = out at hadd hf ⊢
  cases hadd with
  | nothing _ => exact .refused rfl rfl (hf.mpr rfl)
  | full ws bs x _ _ _ _ => exact .refused rfl rfl (hf.mpr rfl)
  | refused _ _ _ => exact .refused rfl rfl (hf.mpr rfl)
  | joined ws bs x _ he hp _ =>
    refine .changed ws bs x (some { x with lv := { x.lv with qty := x.lv.qty + c.qty, orders := x.lv.orders + 1 } })
      he hp ?_ (fun s' hs => setSide_ne _ hs _) rfl (fun z hz => ?_) (fun h' => ⟨hc, hf.mp h'⟩)
    · simp
    · cases hz
      refine ⟨rfl, rfl, fun _ => Nat.le_add_left _ _, ?_⟩
      simp [hc]
  | evicted x ws bs _ he _ hbt =>
    refine .placed ws bs (fun y hy => ?_) (by rw [he]; exact hbt.ne) (by simp [place]) (fun s' hs => setSide_ne _ hs _) rfl
      hc hf ?_
    · rw [he]
      exact List.mem_cons_of_mem x hy
    · have hsort : Sorted c.side (ws ++ bs) := (he ▸ h).sublist (List.sublist_cons_self x _)
      rw [show ((place { b with overflows := b.overflows + 1 } c.side ws bs c.price c.qty).1.sides c.side).e =
        ws ++ ⟨⟨c.price, c.qty, 1⟩, b.nextId⟩ :: bs by simp [place]]
      exact hsort.insert ⟨fun y hy => hbt.worse y (List.mem_cons_of_mem x hy), hbt.better⟩
  | inserted ws bs _ he _ hbt =>
    refine .placed ws bs (fun y hy => by rw [he]; exact hy) (by rw [he]; exact hbt.ne) (by simp [place])
      (fun s' hs => setSide_ne _ hs _) rfl hc hf ?_
    rw [show ((b.place c.side ws bs c.price c.qty).1.sides c.side).e = ws ++ ⟨⟨c.price, c.qty, 1⟩, b.nextId⟩ :: bs by
      simp [place]]
    exact (he ▸ h).insert hbt

theorem effect_take (h : Sorted c.side (b.sides c.side).e) (hc : c.adds = false) {id : Nat} {whole : Bool}
    (hb : (b.call c).1 = (b.take c.side c.price c.qty id whole).1)
    (hf : (b.call c).2 = .done (b.take c.side c.price c.qty id whole).2) : Effect b c (b.call c).1 := by
  have hfail : (b.call c).2.Failed ↔ (b.take c.side c.price c.qty id whole).2 = false := by
    rw [hf]
    simp [Answer.Failed]
  rw [hb]
  have htake := take_cases h c.price c.qty id whole
  generalize b.take c.side c.price c.qty id whole = out at htake hfail ⊢
  cases htake with
  | nothing _ => exact .refused rfl rfl (hfail.mpr rfl)
  | untracked _ => exact .refused rfl rfl (hfail.mpr rfl)
  | stale ws bs x _ _ _ _ => exact .refused rfl rfl (hfail.mpr rfl)
  | short ws bs x _ _ _ _ => exact .refused rfl rfl (hfail.mpr rfl)
  | emptied ws bs x _ he hp _ _ =>
    refine .changed ws bs x none he hp ?_ (fun s' hs => setSide_ne _ hs _) rfl (fun z hz => by cases hz)
      (fun h' => Bool.noConfusion (hfail.mp h'))
    simp
  | lessened ws bs x _ he hp _ hlt =>
    refine .changed ws bs x (some (OrderBook.lessened x c.qty whole)) he hp ?_ (fun s' hs => setSide_ne _ hs _) rfl
      (fun z hz => ?_) (fun h' => Bool.noConfusion (hfail.mp h'))
    · simp
    · cases hz
      refine ⟨rfl, rfl, fun ho => ?_, ?_⟩
      · show 1 ≤ if whole = true ∧ 1 < x.lv.orders then x.lv.orders - 1 else x.lv.orders
        split_ifs <;> omega
      · show x.lv.qty - c.qty + _ = _
        rw [if_pos hc, if_neg (by rw [hc]; exact Bool.false_ne_true)]
        omega

theorem effect (h : Sorted c.side (b.sides c.side).e) : Effect b c (b.call c).1 := by
  rcases b.call_cases c with ⟨hc, hb, hf⟩ | ⟨hc, he⟩ | ⟨id, whole, hc, hb, hf⟩
  · exact effect_add h hc hb hf
  · rw [he]
    refine .refused rfl rfl ?_
    rw [he]
    exact .inl rfl
  · exact effect_take h hc hb hf

theorem Effect.other (h : Effect b c b') (hs : s ≠ c.side) : b'.sides s = b.sides s := by
  cases h with
  | refused h₁ _ _ => rw [h₁]
  | changed _ _ _ _ _ _ _ ho _ _ _ => exact ho s hs
  | placed _ _ _ _ _ ho _ _ _ _ => exact ho s hs

theorem Effect.sorted (h : Effect b c b') (hs : ∀ s, Sorted s (b.sides s).e) (s : Side) : Sorted s (b'.sides s).e := by
  by_cases hne : s ≠ c.side
  · rw [h.other hne]
    exact hs s
  rw [not_not.mp hne]
  have hc := hs c.side
  cases h with
  | refused h₁ _ _ =>
    rw [h₁]
    exact hc
  | changed ws bs x y he _ he' _ _ hy _ =>
    rw [he] at hc
    rw [he']
    cases y with
    | none => simpa using hc.remove
    | some z => simpa using hc.replace (hy z rfl).2.1
  | placed _ _ _ _ _ _ _ _ _ hsort => exact hsort

theorem length_born (b : OrderBook) (c : Call) : (b.born c).toList.length =
    if b.idAt c.side c.price = none ∧ (b.call c).1.idAt c.side c.price ≠ none then 1 else 0 := by
  unfold born
  cases b.idAt c.side c.price with
  | some id => rfl
  | none => cases (b.call c).1.idAt c.side c.price <;> rfl

theorem born_eq_none (h : Sorted c.side (b.sides c.side).e) (hc : c.adds = false) : b.born c = none := by
  have heff := effect h
  unfold born
  cases heff with
  | refused hsides _ _ =>
    have hid : (b.call c).1.idAt c.side c.price = b.idAt c.side c.price := by
      unfold idAt
      rw [hsides]
    rw [hid]
    cases b.idAt c.side c.price <;> rfl
  | changed ws bs x y he hp _ _ _ _ _ =>
    rw [idAt_some h he hp]
    rfl
  | placed _ _ _ _ _ _ _ hadds _ _ =>
    rw [hc] at hadds
    cases hadds

end OrderBook

/-! ## Ids and quantities of the incarnations -/

theorem moved_append (a : Bool) (j : List (Nat × Call)) (id i : Nat) (c : Call) :
    moved a (j ++ [(id, c)]) i = moved a j i + if id = i ∧ c.adds = a then c.qty else 0 := by
  simp [moved]

theorem moved_eq_zero (a : Bool) {id : Nat} (h : ∀ m ∈ j, m.1 ≠ id) : moved a j id = 0 := by
  unfold moved
  rw [List.sum_eq_zero]
  intro n hn
  obtain ⟨m, hm, rfl⟩ := List.mem_map.mp hn
  exact if_neg fun h' => h m hm h'.1

/-- The levels of a book after the births `ids` and the entries `j` of the journal. -/
structure Booked (b : OrderBook) (ids : List Nat) (j : List (Nat × Call)) : Prop where
  counter : b.nextId = (1 + ids.length) % 18446744073709551616
  births : ids = List.range' 1 ids.length
  level : ∀ s, ∀ x ∈ (b.sides s).e, x.id ∈ ids ∧ 1 ≤ x.lv.orders ∧ x.lv.qty + removedFrom j x.id = addedTo j x.id
  distinct : ∀ s s' x y, x ∈ (b.sides s).e → y ∈ (b.sides s').e → x.id = y.id → s = s' ∧ x = y
  past : ∀ m ∈ j, m.1 ∈ ids

namespace Booked

theorem new (cap : Nat) : Booked (.new cap) [] [] where
  counter := rfl
  births := rfl
  level := fun _ _ hx => absurd hx List.not_mem_nil
  distinct := fun _ _ _ _ hx => absurd hx List.not_mem_nil
  past := fun _ hm => absurd hm List.not_mem_nil

theorem pos_of_mem (h : Booked b ids j) {id : Nat} (hid : id ∈ ids) : 1 ≤ id ∧ id ≤ ids.length := by
  rw [h.births, List.mem_range'_1] at hid
  omega

/-- Only the level `id` changes: it becomes `mid`, and the call is entered for it. -/
theorem touch (h : Booked b ids j) {s : Side} {id : Nat} (mid : Option Entry) (c : Call)
    (hcounter : b'.nextId = (1 + ids'.length) % 18446744073709551616) (hbirths : ids' = List.range' 1 ids'.length)
    (hids : ∀ i ∈ ids, i ∈ ids') (hid : id ∈ ids') (hother : ∀ s', s' ≠ s → b'.sides s' = b.sides s')
    (hsole : ∀ s', ∀ y ∈ (b.sides s').e, y.id = id → s' = s)
    (hmem : ∀ y ∈ (b'.sides s).e, (y ∈ (b.sides s).e ∧ y.id ≠ id) ∨ mid = some y)
    (hmid : ∀ y, mid = some y → y.id = id ∧ 1 ≤ y.lv.orders ∧
      y.lv.qty + (removedFrom j id + if c.adds = false then c.qty else 0) =
        addedTo j id + if c.adds = true then c.qty else 0) :
    Booked b' ids' (j ++ [(id, c)]) := by
  have hcases : ∀ s', ∀ y ∈ (b'.sides s').e, (y ∈ (b.sides s').e ∧ y.id ≠ id) ∨ (s' = s ∧ mid = some y) := by
    intro s' y hy
    by_cases hs : s' = s
    · subst hs
      exact (hmem y hy).imp_right fun hm => ⟨rfl, hm⟩
    · rw [hother s' hs] at hy
      exact .inl ⟨hy, fun he => hs (hsole s' y hy he)⟩
  refine ⟨hcounter, hbirths, fun s' y hy => ?_, fun s₁ s₂ x y hx hy he => ?_, fun m hm => ?_⟩
  · unfold removedFrom addedTo
    rw [moved_append, moved_append]
    rcases hcases s' y hy with ⟨hy, hne⟩ | ⟨rfl, hm⟩
    · obtain ⟨h₁, h₂, h₃⟩ := h.level s' y hy
      refine ⟨hids _ h₁, h₂, ?_⟩
      rw [if_neg fun h' => hne h'.1.symm, if_neg fun h' => hne h'.1.symm]
      exact h₃
    · obtain ⟨rfl, h₂, h₃⟩ := hmid y hm
      refine ⟨hid, h₂, ?_⟩
      simp only [true_and]
      exact h₃
  · rcases hcases s₁ x hx with ⟨hx, hxne⟩ | ⟨rfl, hxm⟩
    · rcases hcases s₂ y hy with ⟨hy, _⟩ | ⟨rfl, hym⟩
      · exact h.distinct s₁ s₂ x y hx hy he
      · exact absurd (he.trans (hmid y hym).1) hxne
    · rcases hcases s₂ y hy with ⟨hy, hyne⟩ | ⟨rfl, hym⟩
      · exact absurd (he.symm.trans (hmid x hxm).1) hyne
      · exact ⟨rfl, Option.some.inj (hxm.symm.trans hym)⟩
  · rcases List.mem_append.mp hm with hm | hm
    · exact hids _ (h.past m hm)
    · rw [List.mem_singleton.mp hm]
      exact hid

theorem refused (h : Booked b ids j) (hsides : b'.sides = b.sides) (hnext : b'.nextId = b.nextId) : Booked b' ids j where
  counter := hnext.trans h.counter
  births := h.births
  level := by
    rw [hsides]
    exact h.level
  distinct := by
    rw [hsides]
    exact h.distinct
  past := h.past

/-- **One call.** It enters at most one birth and one line of the journal. -/
theorem call (h : Booked b ids j) (hs : ∀ s, Sorted s (b.sides s).e) (c : Call)
    (hroom : (ids ++ (b.born c).toList).length < 18446744073709551616) :
    Booked (b.call c).1 (ids ++ (b.born c).toList) (j ++ (b.entry c).toList) ∧
    ((b.call c).2.Failed → (b.call c).1.sides = b.sides) := by
  have heff := OrderBook.effect (hs c.side)
  have hs' := heff.sorted hs c.side
  cases heff with
  | refused hsides hnext hf =>
    have hid : (b.call c).1.idAt c.side c.price = b.idAt c.side c.price := by
      unfold OrderBook.idAt
      rw [hsides]
    have hborn : b.born c = none := by
      unfold OrderBook.born
      rw [hid]
      cases b.idAt c.side c.price <;> rfl
    have hentry : b.entry c = none := if_pos hf
    rw [hborn, hentry]
    simp only [Option.toList_none, List.append_nil]
    exact ⟨h.refused hsides hnext, fun _ => hsides⟩
  | changed ws bs x y he hp he' ho hnext hy hfail =>
    have hx : x ∈ (b.sides c.side).e := by
      rw [he]
      simp
    have hxid := h.pos_of_mem (h.level c.side x hx).1
    have hid : b.idAt c.side c.price = some x.id := OrderBook.idAt_some (hs c.side) he hp
    have hok : ¬(b.call c).2.Failed := by
      intro hf
      have h₀ : x.id = 0 := (hfail hf).2
      omega
    have hborn : b.born c = none := by
      unfold OrderBook.born
      rw [hid]
      rfl
    have hentry : b.entry c = some (x.id, c) := by
      unfold OrderBook.entry OrderBook.touched
      rw [if_neg hok, hid]
      rfl
    rw [hborn, hentry, Option.toList_none, List.append_nil]
    refine ⟨h.touch y c (hnext.trans h.counter) h.births (fun _ hi => hi) (h.level c.side x hx).1 ho
      (fun s' z hz hzid => (h.distinct s' c.side z x hz hx hzid).1) (fun z hz => ?_) (fun z hz => ?_), fun hf => absurd hf hok⟩
    · have hne := (he ▸ hs c.side).between.ne
      rw [he', List.mem_append, List.mem_append] at hz
      have hold : z ∈ ws ++ bs → z ∈ (b.sides c.side).e ∧ z.id ≠ x.id := by
        intro hz
        have hze : z ∈ (b.sides c.side).e := by
          rw [he]
          exact List.mem_append.mpr ((List.mem_append.mp hz).imp_right (List.mem_cons_of_mem x))
        refine ⟨hze, fun hzid => hne z hz ?_⟩
        rw [(h.distinct _ _ z x hze hx hzid).2]
      rcases hz with (hz | hz) | hz
      · exact .inl (hold (List.mem_append_left _ hz))
      · exact .inr (by simpa using hz)
      · exact .inl (hold (List.mem_append_right _ hz))
    · obtain ⟨h₁, _, h₃, h₄⟩ := hy z hz
      obtain ⟨_, ho, hq⟩ := h.level c.side x hx
      refine ⟨h₁, h₃ ho, ?_⟩
      omega
  | placed ws bs hsub hn he' ho hnext hc hfail hsort =>
    have hid : b.idAt c.side c.price = none := OrderBook.idAt_none (hs c.side) hn
    have hid' : (b.call c).1.idAt c.side c.price = some b.nextId := OrderBook.idAt_some hs' he' rfl
    have hborn : b.born c = some b.nextId := by
      unfold OrderBook.born
      rw [hid, hid']
      rfl
    rw [hborn, Option.toList_some, List.length_append, List.length_singleton] at hroom
    have hnew : b.nextId = 1 + ids.length := by
      rw [h.counter, Nat.mod_eq_of_lt (by omega)]
    have hok : ¬(b.call c).2.Failed := by
      intro hf
      have h₀ : b.nextId = 0 := hfail.mp hf
      omega
    have hentry : b.entry c = some (b.nextId, c) := by
      unfold OrderBook.entry OrderBook.touched
      rw [if_neg hok, hid, hid']
      rfl
    have hfresh : b.nextId ∉ ids := by
      intro hmem
      have := h.pos_of_mem hmem
      omega
    have hzero : ∀ a, moved a j b.nextId = 0 := fun a => moved_eq_zero a fun m hm he => hfresh (he ▸ h.past m hm)
    have hold : ∀ s', ∀ z ∈ (b.sides s').e, z.id ≠ b.nextId := fun s' z hz he => hfresh (he ▸ (h.level s' z hz).1)
    rw [hborn, hentry, Option.toList_some, Option.toList_some]
    refine ⟨h.touch (some ⟨⟨c.price, c.qty, 1⟩, b.nextId⟩) c ?_ ?_ (fun i hi => List.mem_append_left _ hi) (by simp) ho
      (fun s' z hz he => absurd he (hold s' z hz)) (fun z hz => ?_) (fun z hz => ?_), fun hf => absurd hf hok⟩
    · rw [hnext, hnew, List.length_append, List.length_singleton]
      unfold add64
      congr 1
    · nth_rewrite 1 [h.births]
      rw [hnew, List.length_append, List.length_singleton, List.range'_concat, Nat.one_mul]
    · rw [he', List.mem_append, List.mem_cons] at hz
      rcases hz with hz | rfl | hz
      · have hz := hsub z (List.mem_append_left _ hz)
        exact .inl ⟨hz, hold _ z hz⟩
      · exact .inr rfl
      · have hz := hsub z (List.mem_append_right _ hz)
        exact .inl ⟨hz, hold _ z hz⟩
    · cases hz
      refine ⟨rfl, Nat.le_refl 1, ?_⟩
      show c.qty + _ = _
      unfold removedFrom addedTo
      rw [hzero, hzero, if_pos hc, if_neg (by rw [hc]; exact Bool.noConfusion)]
      omega

end Booked

/-! ## The maps -/

theorem RefSide.add_of_not_created {lv : RefSide} {cap : Nat} {price : Int} {qty gen : Nat} (gen' : Nat)
    (h : ¬(lv.lookup price = none ∧ (lv.add cap s price qty gen).1.lookup price ≠ none)) :
    lv.add cap s price qty gen = lv.add cap s price qty gen' := by
  unfold RefSide.add at h ⊢
  cases hl : lv.lookup price with
  | some x => rfl
  | none =>
    rw [hl] at h
    dsimp only at h ⊢
    by_cases hlen : lv.keys.length < cap
    · simp [hlen] at h
    rw [if_neg hlen] at h ⊢
    rw [if_neg hlen]
    cases hw : lv.worst s with
    | none => rfl
    | some w =>
      rw [hw] at h
      dsimp only at h ⊢
      by_cases hb : better s w price = true
      · rw [if_pos hb, if_pos hb]
      · simp [hb] at h

namespace Mirrors
variable {lv : RefSide}

theorem findLevel_eq (h : Mirrors s sb lv) (price : Int) :
    (findLevel sb s price).map (fun x => (⟨x.2.lv.qty, x.2.lv.orders, x.2.id⟩ : RefLevel)) = lv.lookup price := by
  rcases h.sorted.findLevel_cases price with ⟨x, bs, hf, hp, he, _⟩ | ⟨hf, he, hb⟩
  · rw [hf, ← hp, h.lookup_some he]
    rfl
  · have hbw : Between s price (worse sb s price) (rest sb s price) := ⟨fun y hy => worse_better hy, hb⟩
    rw [hf, h.lookup_none (by rw [he]; exact hbw.ne)]
    rfl

end Mirrors

namespace MirrorsBook
variable {cap : Nat} {rb : RefBook}

theorem idAt_eq (h : MirrorsBook cap b rb) (s : Side) (price : Int) :
    b.idAt s price = ((rb.sides s).lookup price).map RefLevel.gen := by
  rw [← (h.side s).findLevel_eq price, Option.map_map]
  rfl

end MirrorsBook

/-- The book and the maps after `n` births. The maps count their incarnations without a bound. -/
structure Refines (cap n : Nat) (b : OrderBook) (rb : RefBook) : Prop where
  mirrors : MirrorsBook cap b { rb with nextGen := b.nextId }
  births : rb.nextGen = 1 + n
  counter : b.nextId = (1 + n) % 18446744073709551616

namespace Refines
variable {cap n : Nat} {rb : RefBook}

theorem new (cap : Nat) : Refines cap 0 (.new cap) {} := ⟨.new cap, rfl, rfl⟩

theorem addOrder (h : Refines cap n b rb) (s : Side) (price : Int) (qty : Nat) {k : Nat}
    (hk : k = if b.idAt s price = none ∧ (b.addOrder s price qty).1.idAt s price ≠ none then 1 else 0)
    (hroom : n + k < 18446744073709551616) :
    (b.addOrder s price qty).2 = (rb.addOrder cap s price qty).2 ∧
    Refines cap (n + k) (b.addOrder s price qty).1 (rb.addOrder cap s price qty).1 := by
  unfold RefBook.addOrder
  by_cases hq : qty = 0
  · have hb : b.addOrder s price qty = (b, kNoLevel) := if_pos hq
    rw [hb] at hk ⊢
    rw [if_pos hq]
    have hk₀ : k = 0 := by
      rw [hk]
      exact if_neg fun h' => h'.2 h'.1
    rw [hk₀]
    exact ⟨rfl, h⟩
  rw [if_neg hq]
  obtain ⟨h₁, _, h₃⟩ := h.mirrors.add s price (Nat.pos_of_ne_zero hq)
  dsimp only at h₁ h₃ ⊢
  have hborn : ((rb.sides s).lookup price = none ∧
      ((rb.sides s).add cap s price qty b.nextId).1.lookup price ≠ none) ↔
      (b.idAt s price = none ∧ (b.addOrder s price qty).1.idAt s price ≠ none) := by
    rw [h.mirrors.idAt_eq, h₃.idAt_eq]
    simp
  -- the two counters differ only when they have run out, and then no level is created
  have hgen : (rb.sides s).add cap s price qty b.nextId = (rb.sides s).add cap s price qty rb.nextGen := by
    by_cases hc : b.idAt s price = none ∧ (b.addOrder s price qty).1.idAt s price ≠ none
    · rw [if_pos hc] at hk
      rw [h.counter, h.births, Nat.mod_eq_of_lt (by omega)]
    · exact RefSide.add_of_not_created _ fun h' => hc (hborn.mp h')
  rw [hgen] at hborn
  rw [hgen] at h₁ h₃
  have hnext := h₃.nextId
  refine ⟨h₁, ⟨h₃.side, h₃.capacity, rfl⟩, ?_, ?_⟩
  · show (if _ then rb.nextGen + 1 else rb.nextGen) = _
    rw [hk]
    by_cases hc : b.idAt s price = none ∧ (b.addOrder s price qty).1.idAt s price ≠ none
    · rw [if_pos (hborn.mpr hc), if_pos hc, h.births, Nat.add_assoc]
    · rw [if_neg fun h' => hc (hborn.mp h'), if_neg hc, h.births]
      rfl
  · rw [hnext, hk]
    show (if _ then add64 b.nextId 1 else b.nextId) = _
    by_cases hc : b.idAt s price = none ∧ (b.addOrder s price qty).1.idAt s price ≠ none
    · rw [if_pos (hborn.mpr hc), if_pos hc, h.counter]
      unfold add64
      rw [Nat.mod_add_mod, Nat.add_assoc]
    · rw [if_neg fun h' => hc (hborn.mp h'), if_neg hc]
      exact h.counter

theorem taken (h : Refines cap n b rb) {lv : RefSide} (hnext : b'.nextId = b.nextId)
    (hm : MirrorsBook cap b' { sides := Function.update rb.sides s lv, nextGen := b.nextId }) :
    Refines cap n b' { rb with sides := Function.update rb.sides s lv } where
  mirrors := by
    rw [hnext]
    exact hm
  births := h.births
  counter := hnext.trans h.counter

theorem take (h : Refines cap n b rb) (s : Side) (price : Int) (qty id : Nat) (whole : Bool) :
    (b.take s price qty id whole).2 = (rb.take s price qty id whole).2 ∧
    Refines cap n (b.take s price qty id whole).1 (rb.take s price qty id whole).1 := by
  have hm := h.mirrors.side s
  have htake := OrderBook.take_cases hm.sorted price qty id whole
  have hsame : ∀ {ws bs : List Entry} {x : Entry}, 0 < qty → (b.sides s).e = ws ++ x :: bs → x.lv.price = price →
      (id ≠ kNoLevel → x.id = id) →
      MirrorsBook cap (b.take s price qty id whole).1
        { sides := Function.update rb.sides s ((rb.sides s).take price qty x.id whole), nextGen := b.nextId } := by
    intro ws bs x hq he hp hid
    refine h.mirrors.takeAs s price hq id x.id whole fun y hy hyp => ?_
    have hyx : y = x := by
      by_contra hne
      have hmem : y ∈ ws ++ bs := by
        rw [he, List.mem_append, List.mem_cons] at hy
        rcases hy with hy | hy | hy
        · exact List.mem_append_left _ hy
        · exact absurd hy hne
        · exact List.mem_append_right _ hy
      exact (he ▸ hm.sorted).between.ne y hmem (hyp.trans hp.symm)
    rw [hyx]
    exact ⟨fun _ => hid, fun _ => rfl⟩
  unfold RefBook.take
  generalize b.take s price qty id whole = out at htake hsame ⊢
  cases htake with
  | nothing h₀ =>
    cases (rb.sides s).lookup price with
    | none => exact ⟨rfl, h⟩
    | some x =>
      dsimp only
      rw [if_pos (.inl h₀)]
      exact ⟨rfl, h⟩
  | untracked hn =>
    rw [hm.lookup_none hn]
    exact ⟨rfl, h⟩
  | stale ws bs x he hp hid hne =>
    have hl := hm.lookup_some he
    rw [hp] at hl
    rw [hl]
    dsimp only
    rw [if_pos (.inr (.inl ⟨hid, hne⟩))]
    exact ⟨rfl, h⟩
  | short ws bs x he hp _ hlt =>
    have hl := hm.lookup_some he
    rw [hp] at hl
    rw [hl]
    dsimp only
    rw [if_pos (.inr (.inr hlt))]
    exact ⟨rfl, h⟩
  | emptied ws bs x hq he hp hid heq =>
    have hl := hm.lookup_some he
    rw [hp] at hl
    rw [hl]
    dsimp only
    rw [if_neg (by rintro (h' | ⟨h₁, h₂⟩ | h'); exacts [by omega, h₂ (hid h₁), by omega])]
    exact ⟨rfl, h.taken rfl (hsame hq he hp hid)⟩
  | lessened ws bs x hq he hp hid hlt =>
    have hl := hm.lookup_some he
    rw [hp] at hl
    rw [hl]
    dsimp only
    rw [if_neg (by rintro (h' | ⟨h₁, h₂⟩ | h'); exacts [by omega, h₂ (hid h₁), by omega])]
    exact ⟨rfl, h.taken rfl (hsame hq he hp hid)⟩

/-- **One call does the same to the book and to the maps.** -/
theorem call (h : Refines cap n b rb) (c : Call) (hroom : n + (b.born c).toList.length < 18446744073709551616) :
    (b.call c).2 = (rb.call cap c).2 ∧ Refines cap (n + (b.born c).toList.length) (b.call c).1 (rb.call cap c).1 := by
  have hadd : ∀ s price qty, c.side = s → c.price = price → c.qty = qty → (b.call c).1 = (b.addOrder s price qty).1 →
      (b.addOrder s price qty).2 = (rb.addOrder cap s price qty).2 ∧
      Refines cap (n + (b.born c).toList.length) (b.addOrder s price qty).1 (rb.addOrder cap s price qty).1 := by
    rintro s price qty rfl rfl rfl hb
    refine h.addOrder c.side c.price c.qty ?_ hroom
    rw [b.length_born, hb]
  have htake : ∀ s price qty id whole, c.adds = false →
      (b.take s price qty id whole).2 = (rb.take s price qty id whole).2 ∧
      Refines cap (n + (b.born c).toList.length) (b.take s price qty id whole).1 (rb.take s price qty id whole).1 := by
    intro s price qty id whole hc
    rw [OrderBook.born_eq_none (h.mirrors.side _).sorted hc]
    exact h.take s price qty id whole
  have hfrom : ∀ s price qty id whole, c.adds = false →
      (if id ≠ kNoLevel then b.take s price qty id whole else (b, false)).2 = (rb.takeFrom s price qty id whole).2 ∧
      Refines cap (n + (b.born c).toList.length) (if id ≠ kNoLevel then b.take s price qty id whole else (b, false)).1
        (rb.takeFrom s price qty id whole).1 := by
    intro s price qty id whole hc
    unfold RefBook.takeFrom
    by_cases hid : id ≠ kNoLevel
    · rw [if_pos hid, if_pos hid]
      exact htake s price qty id whole hc
    · rw [if_neg hid, if_neg hid, OrderBook.born_eq_none (h.mirrors.side _).sorted hc]
      exact ⟨rfl, h⟩
  cases c with
  | add s price qty =>
    obtain ⟨h₁, h₂⟩ := hadd s price qty rfl rfl rfl rfl
    refine ⟨?_, h₂⟩
    show Answer.done (decide ((b.addOrder s price qty).2 ≠ kNoLevel)) = _
    rw [h₁]
    rfl
  | addOrder s price qty =>
    obtain ⟨h₁, h₂⟩ := hadd s price qty rfl rfl rfl rfl
    exact ⟨congrArg Answer.level h₁, h₂⟩
  | remove s price qty =>
    obtain ⟨h₁, h₂⟩ := htake s price qty kNoLevel true rfl
    exact ⟨congrArg Answer.done h₁, h₂⟩
  | reduce s price qty =>
    obtain ⟨h₁, h₂⟩ := htake s price qty kNoLevel false rfl
    exact ⟨congrArg Answer.done h₁, h₂⟩
  | removeOrder s price qty id =>
    obtain ⟨h₁, h₂⟩ := hfrom s price qty id true rfl
    exact ⟨congrArg Answer.done h₁, h₂⟩
  | reduceOrder s price qty id =>
    obtain ⟨h₁, h₂⟩ := hfrom s price qty id false rfl
    exact ⟨congrArg Answer.done h₁, h₂⟩

end Refines

/-! ## The queries -/

theorem sumQty_eq (sum : Nat) (h : sum ≤ kQtyMax) (ls : List Level) :
    OrderBook.sumQty sum ls = min kQtyMax (sum + (ls.map Level.qty).sum) := by
  induction ls generalizing sum with
  | nil =>
    rw [List.map_nil, List.sum_nil, Nat.add_zero, Nat.min_eq_right h]
    rfl
  | cons lv ls ih =>
    unfold OrderBook.sumQty
    rw [List.map_cons, List.sum_cons]
    by_cases hfull : kQtyMax ≤ sum + lv.qty
    · rw [if_pos hfull]
      omega
    · rw [if_neg hfull, ih (sum + lv.qty) (by omega), Nat.add_assoc]

namespace MirrorsBook
variable {cap : Nat} {rb : RefBook}

theorem ladder_eq (h : MirrorsBook cap b rb) (s : Side) : (rb.sides s).ladder s = b.ladder s := (h.side s).ladder_eq

theorem best_eq (h : MirrorsBook cap b rb) (s : Side) : b.best s = ((rb.sides s).ladder s).head? := by
  rw [h.ladder_eq]
  unfold OrderBook.best OrderBook.ladder
  rw [List.head?_map, List.head?_reverse]

/-- The best level has a price of the map and no price of the map is better. -/
theorem best_cases (h : MirrorsBook cap b rb) (s : Side) :
    (b.best s = none ∧ (rb.sides s).keys = []) ∨
    (∃ lv, b.best s = some lv ∧ lv.price ∈ (rb.sides s).keys ∧ ∀ p ∈ (rb.sides s).keys, better s p lv.price = false) := by
  have hm := h.side s
  have hk := hm.keys_perm
  have hs := hm.sorted
  unfold OrderBook.best
  rcases List.eq_nil_or_concat (b.sides s).e with he | ⟨ws, x, he⟩
  · rw [he] at hk ⊢
    exact .inl ⟨rfl, List.perm_nil.mp hk⟩
  · rw [he] at hk hs ⊢
    refine .inr ⟨x.lv, by simp, ?_, fun p hp => ?_⟩
    · exact hk.mem_iff.mpr (List.mem_map.mpr ⟨x, by simp, rfl⟩)
    · obtain ⟨y, hy, rfl⟩ := List.mem_map.mp (hk.mem_iff.mp hp)
      rw [List.concat_eq_append, List.mem_append, List.mem_singleton] at hy
      rcases hy with hy | rfl
      · rw [List.concat_eq_append] at hs
        exact better_asymm ((List.pairwise_append.mp hs).2.2 y hy x (List.mem_singleton_self x))
      · exact better_irrefl s _

theorem crossed_iff (h : MirrorsBook cap b rb) :
    b.crossed = true ↔ ∃ bid ∈ (rb.sides .buy).keys, ∃ ask ∈ (rb.sides .sell).keys, ask ≤ bid := by
  unfold OrderBook.crossed
  rcases h.best_cases .buy with ⟨hbid, hkeys⟩ | ⟨bid, hbid, hmem, hbest⟩
  · rw [hbid, hkeys]
    simp
  rcases h.best_cases .sell with ⟨hask, hkeys⟩ | ⟨ask, hask, hmem', hbest'⟩
  · rw [hbid, hask, hkeys]
    simp
  rw [hbid, hask]
  simp only [decide_eq_true_eq]
  refine ⟨fun hle => ⟨bid.price, hmem, ask.price, hmem', hle⟩, ?_⟩
  rintro ⟨p, hp, q, hq, hle⟩
  have h₁ := hbest p hp
  have h₂ := hbest' q hq
  simp only [better, decide_eq_false_iff_not] at h₁ h₂
  omega

theorem agrees (h : MirrorsBook cap b rb) : Agrees b rb where
  depth := fun s => (h.side s).length_eq.symm
  level := fun s i => by
    rw [h.ladder_eq]
    by_cases hi : i < b.depth s
    · rw [b.ladder_getElem? s hi]
      rfl
    · rw [List.getElem?_eq_none (by rw [b.length_ladder]; omega)]
      exact if_neg hi
  best := h.best_eq
  qtyAt := fun s price => by
    rw [← (h.side s).findLevel_eq price]
    unfold OrderBook.qtyAt
    cases findLevel (b.sides s) s price <;> rfl
  totalQty := fun s n => by
    rw [h.ladder_eq]
    unfold OrderBook.totalQty
    rw [sumQty_eq 0 (Nat.zero_le _), Nat.zero_add]
  crossed := h.crossed_iff

end MirrorsBook

theorem Refines.agrees {cap n : Nat} {rb : RefBook} (h : Refines cap n b rb) : Agrees b rb := by
  have ha := h.mirrors.agrees
  exact ⟨ha.depth, ha.level, ha.best, ha.qtyAt, ha.totalQty, ha.crossed⟩

/-! ## Runs -/

/-- A book and the maps after a run with the births `ids` and the journal `j`. -/
structure Tracked (cap : Nat) (b : OrderBook) (rb : RefBook) (ids : List Nat) (j : List (Nat × Call)) : Prop where
  refines : Refines cap ids.length b rb
  booked : Booked b ids j

namespace Tracked
variable {cap : Nat} {rb : RefBook}

theorem sorted (h : Tracked cap b rb ids j) (s : Side) : Sorted s (b.sides s).e := (h.refines.mirrors.side s).sorted

theorem call (h : Tracked cap b rb ids j) (c : Call) (hroom : (ids ++ (b.born c).toList).length < 18446744073709551616) :
    Tracked cap (b.call c).1 (rb.call cap c).1 (ids ++ (b.born c).toList) (j ++ (b.entry c).toList) := by
  refine ⟨?_, (h.booked.call h.sorted c hroom).1⟩
  rw [List.length_append] at hroom ⊢
  exact (h.refines.call c hroom).2

theorem calls (h : Tracked cap b rb ids j) (cs : List Call) (hroom : (ids ++ b.births cs).length < 18446744073709551616) :
    Tracked cap (b.calls cs) (rb.calls cap cs) (ids ++ b.births cs) (j ++ b.journal cs) := by
  induction cs generalizing b rb ids j with
  | nil =>
    show Tracked cap b rb (ids ++ []) (j ++ [])
    rw [List.append_nil, List.append_nil]
    exact h
  | cons c cs ih =>
    unfold OrderBook.births at hroom
    unfold OrderBook.births OrderBook.journal
    rw [← List.append_assoc] at hroom
    rw [← List.append_assoc, ← List.append_assoc]
    refine ih (h.call c ?_) hroom
    rw [List.length_append] at hroom
    omega

end Tracked

theorem births_cons (b : OrderBook) (c : Call) (cs : List Call) :
    b.births (c :: cs) = (b.born c).toList ++ (b.call c).1.births cs := rfl

theorem births_append (b : OrderBook) (cs ds : List Call) : b.births (cs ++ ds) = b.births cs ++ (b.calls cs).births ds := by
  induction cs generalizing b with
  | nil => rfl
  | cons c cs ih =>
    rw [List.cons_append, births_cons, births_cons, ih, List.append_assoc]
    rfl

/-- What holds of a book after any run: ordered ladders within the capacity, no empty level, every tracked level
of an incarnation of its own with the shares that were added to it less those removed from it. -/
structure WellKept (cap : Nat) (b : OrderBook) (ids : List Nat) (j : List (Nat × Call)) : Prop where
  sorted : ∀ s, Sorted s (b.sides s).e
  depth : ∀ s, b.depth s ≤ cap
  positive : ∀ s, ∀ x ∈ (b.sides s).e, 1 ≤ x.lv.qty ∧ 1 ≤ x.lv.orders
  issued : ∀ s, ∀ x ∈ (b.sides s).e, x.id ∈ ids
  distinct : ∀ s s' x y, x ∈ (b.sides s).e → y ∈ (b.sides s').e → x.id = y.id → s = s' ∧ x = y
  increasing : ids.Pairwise (· < ·)
  ledger : ∀ s, ∀ x ∈ (b.sides s).e, x.lv.qty + removedFrom j x.id = addedTo j x.id

theorem Tracked.wellKept {cap : Nat} {rb : RefBook} (h : Tracked cap b rb ids j) : WellKept cap b ids j where
  sorted := h.sorted
  depth := fun s => by
    rw [← h.refines.mirrors.capacity s]
    exact (h.refines.mirrors.side s).fits
  positive := fun s x hx => ⟨(h.refines.mirrors.side s).positive x hx, (h.booked.level s x hx).2.1⟩
  issued := fun s x hx => (h.booked.level s x hx).1
  distinct := h.booked.distinct
  increasing := by
    rw [h.booked.births]
    exact List.pairwise_lt_range'
  ledger := fun s x hx => (h.booked.level s x hx).2.2

/-- **The ladders are bounded price maps.** -/
theorem order_book_refines_bounded_map (cap : Nat) (cs : List Call)
    (hids : ((OrderBook.new cap).births cs).length < 2 ^ 64) :
    WellKept cap ((OrderBook.new cap).calls cs) ((OrderBook.new cap).births cs) ((OrderBook.new cap).journal cs) ∧
    Agrees ((OrderBook.new cap).calls cs) (RefBook.calls cap {} cs) ∧
    ∀ pre c post, cs = pre ++ c :: post →
      let b := (OrderBook.new cap).calls pre
      (b.call c).2 = (RefBook.call cap (RefBook.calls cap {} pre) c).2 ∧
      ((b.call c).2.Failed → (b.call c).1.sides = b.sides) ∧
      ∀ s, s ≠ c.side → (b.call c).1.sides s = b.sides s := by
  have hnew : Tracked cap (.new cap) {} [] [] := ⟨.new cap, .new cap⟩
  have hrun := hnew.calls cs hids
  rw [List.nil_append, List.nil_append] at hrun
  refine ⟨hrun.wellKept, hrun.refines.agrees, ?_⟩
  rintro pre c post rfl
  rw [births_append, births_cons, List.length_append, List.length_append] at hids
  have hpre := hnew.calls pre (by rw [List.nil_append]; omega)
  rw [List.nil_append, List.nil_append] at hpre
  have hroom : ((OrderBook.new cap).births pre).length +
      (((OrderBook.new cap).calls pre).born c).toList.length < 18446744073709551616 := by omega
  refine ⟨(hpre.refines.call c hroom).1, (hpre.booked.call hpre.sorted c ?_).2, fun s hs => ?_⟩
  · rw [List.length_append]
    exact hroom
  · exact (OrderBook.effect (hpre.sorted c.side)).other hs

/-- One level a side: the second bid evicts the first, whose id is stale from then on. -/
theorem order_book_refines_bounded_map_evicting :
    (OrderBook.new 1).births [.add .buy 10 5, .addOrder .buy 11 3, .removeOrder .buy 10 5 1, .reduce .buy 11 1] = [1, 2] ∧
    WellKept 1
      ((OrderBook.new 1).calls [.add .buy 10 5, .addOrder .buy 11 3, .removeOrder .buy 10 5 1, .reduce .buy 11 1])
      ((OrderBook.new 1).births [.add .buy 10 5, .addOrder .buy 11 3, .removeOrder .buy 10 5 1, .reduce .buy 11 1])
      ((OrderBook.new 1).journal [.add .buy 10 5, .addOrder .buy 11 3, .removeOrder .buy 10 5 1, .reduce .buy 11 1]) :=
  ⟨by decide, (order_book_refines_bounded_map 1 _ (by decide)).1⟩

/-- A bid that comes and goes `n` times. -/
def comings (n : Nat) : List Call := (List.replicate n [Call.add .buy 1 1, Call.remove .buy 1 1]).flatten

theorem comings_succ (n : Nat) : comings (n + 1) = Call.add .buy 1 1 :: Call.remove .buy 1 1 :: comings n := by
  simp [comings, List.replicate_succ]

/-- An empty bid side with room for one level, and the next id. -/
structure Vacant (b : OrderBook) (next : Nat) : Prop where
  levels : (b.sides .buy).e = []
  capacity : (b.sides .buy).capacity = 1
  next : b.nextId = next

namespace Vacant
variable {next : Nat}

theorem addOrder (h : Vacant b next) : b.addOrder .buy 1 1 = b.place .buy [] [] 1 1 := by
  have hs : Sorted .buy (b.sides .buy).e := by
    rw [h.levels]
    exact List.Pairwise.nil
  have hf : findLevel (b.sides .buy) .buy 1 = none := hs.findLevel_none (by simp [h.levels])
  unfold OrderBook.addOrder
  rw [if_neg Nat.one_ne_zero]
  dsimp only
  rw [hf]
  dsimp only
  rw [h.levels, h.capacity, if_neg (by simp), List.take_nil, List.drop_nil]

/-- The bid has come and gone and has used up an id. -/
theorem round (h : Vacant b next) :
    Vacant ((b.call (.add .buy 1 1)).1.call (.remove .buy 1 1)).1 (add64 next 1) := by
  have hadd : (b.call (.add .buy 1 1)).1 = (b.place .buy [] [] 1 1).1 := congrArg Prod.fst h.addOrder
  rw [hadd]
  have he : ((b.place .buy [] [] 1 1).1.sides .buy).e = [] ++ ⟨⟨1, 1, 1⟩, b.nextId⟩ :: [] := by simp [OrderBook.place]
  have hs : Sorted .buy ((b.place .buy [] [] 1 1).1.sides .buy).e := by
    rw [he]
    exact List.pairwise_singleton _ _
  -- the only level there is goes, for all its one share
  have hone : ∀ {ws bs : List Entry} {x : Entry}, ((b.place .buy [] [] 1 1).1.sides .buy).e = ws ++ x :: bs →
      ws = [] ∧ bs = [] ∧ x.lv.qty = 1 := by
    intro ws bs x hx
    rw [he, List.nil_append, List.singleton_eq_append_iff] at hx
    rcases hx with ⟨rfl, hx⟩ | ⟨_, hx⟩
    · cases hx
      exact ⟨rfl, rfl, rfl⟩
    · cases hx
  have htake := OrderBook.take_cases hs 1 1 kNoLevel true
  show Vacant ((b.place .buy [] [] 1 1).1.take .buy 1 1 kNoLevel true).1 _
  generalize (b.place .buy [] [] 1 1).1.take .buy 1 1 kNoLevel true = out at htake ⊢
  cases htake with
  | nothing h₀ => cases h₀
  | untracked hn =>
    rw [he] at hn
    exact absurd rfl (hn ⟨⟨1, 1, 1⟩, b.nextId⟩ (by simp))
  | stale _ _ _ _ _ hid _ => exact absurd rfl hid
  | short ws bs x hx _ _ hlt =>
    have := (hone hx).2.2
    omega
  | lessened ws bs x _ hx _ _ hlt =>
    have := (hone hx).2.2
    omega
  | emptied ws bs x _ hx _ _ _ =>
    obtain ⟨rfl, rfl, _⟩ := hone hx
    refine ⟨by simp, ?_, ?_⟩
    · simpa [OrderBook.place] using h.capacity
    · show add64 b.nextId 1 = _
      rw [h.next]

theorem calls (h : Vacant b next) (n : Nat) (hn : next < 18446744073709551616) :
    Vacant (b.calls (comings n)) ((next + n) % 18446744073709551616) := by
  induction n generalizing b next with
  | zero =>
    rw [Nat.add_zero, Nat.mod_eq_of_lt hn]
    exact h
  | succ n ih =>
    rw [comings_succ]
    have := ih h.round (Nat.mod_lt _ (by decide))
    unfold add64 at this
    rw [Nat.mod_add_mod, Nat.add_assoc, Nat.add_comm 1 n] at this
    exact this

theorem wrapped (h : Vacant b kNoLevel) :
    (b.call (.addOrder .buy 1 1)).2 = .level kNoLevel ∧ b.depth .buy = 0 ∧ (b.call (.addOrder .buy 1 1)).1.depth .buy = 1 := by
  have hcall : b.call (.addOrder .buy 1 1) = ((b.place .buy [] [] 1 1).1, .level (b.place .buy [] [] 1 1).2) := by
    rw [← h.addOrder]
    rfl
  rw [hcall]
  refine ⟨congrArg Answer.level h.next, ?_, ?_⟩
  · show (b.sides .buy).e.length = 0
    rw [h.levels]
    rfl
  · simp [OrderBook.place, OrderBook.depth]

theorem calls_wrapped {n : Nat} (hn : 1 + n = 18446744073709551616) : Vacant ((OrderBook.new 1).calls (comings n)) kNoLevel := by
  have hnew : Vacant (OrderBook.new 1) 1 := ⟨rfl, rfl, rfl⟩
  have h := hnew.calls n (by decide)
  rw [hn, Nat.mod_self] at h
  exact h

end Vacant

/-- After `2 ^ 64 - 1` levels the counter is at `kNoLevel`: an add that is stored reports that it is not. -/
theorem level_id_wraps_to_none :
    (((OrderBook.new 1).calls (comings 18446744073709551615)).call (.addOrder .buy 1 1)).2 = .level kNoLevel ∧
    ((OrderBook.new 1).calls (comings 18446744073709551615)).depth .buy = 0 ∧
    (((OrderBook.new 1).calls (comings 18446744073709551615)).call (.addOrder .buy 1 1)).1.depth .buy = 1 :=
  (Vacant.calls_wrapped (n := 18446744073709551615) (by decide)).wrapped

end OptiTrade.Book
