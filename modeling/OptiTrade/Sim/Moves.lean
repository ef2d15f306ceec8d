import Mathlib.Logic.Relation
import OptiTrade.Sim.FloorRuns

/-! # What the venue can do to its list of orders

A request or a market message is a chain of moves: each says at most one thing and touches one order and the
queue behind it. An order that is being matched stands at the end of the list and is not resting yet. What every
move keeps holds in every state that the simulator can reach, of the orders and of all it has said so far. -/

namespace OptiTrade.Sim
set_option autoImplicit false

open Runs
open Relation (ReflTransGen)
open Ouch (Token Inbound)
open Book (MarketBooks Level)
open Venue (slot crosses validToken kMaxPrice kAdded kRemoved)

/-- Why the venue moves: a request, an order that is added on the other side of `side`, or an execution at a
level of `side`. -/
inductive Cause
  | request (m : Inbound) (sent : Nat)
  | added (loc : Nat) (side : Side) (price : Int)
  | printed (loc : Nat) (side : Side) (level execPrice : Int) (shares : Nat)

/-- The order that a request enters. -/
def Floor.entered (r : Ouch.EnterOrder) (loc ref sent : Nat) : Order :=
  { token := r.token, locate := loc, side := r.side, price := r.price, leaves := r.shares
    tif := r.timeInForce, stock := r.stock, firm := r.firm, display := r.display, capacity := r.capacity
    sweep := r.intermarketSweep, minQty := r.minQty, cross := r.crossType, ref := ref
    since := [sent] }

/-- The price at which a print fills an order. -/
def printPrice (side : Side) (execPrice limit : Int) : Int :=
  match side with
  | .buy => min execPrice limit
  | .sell => max execPrice limit

/-- The terms of an order that is taken. -/
structure Takes (d : Floor) (token : Token) (shares : Nat) (price : Int) : Prop where
  valid : validToken token = true
  fresh : d.find token = none
  shares : 1 ≤ shares ∧ shares ≤ kMaxOrderQty
  price : 0 < price ∧ price ≤ kMaxPrice

/-- What a request, or a message of the market, may do at a time. -/
inductive Moves : Cause → Floor → Floor → Prop
  | reject (d : Floor) (r : Ouch.EnterOrder) (reason : Byte) (sent : Nat) :
      Moves (.request (.enter r) sent) d (d.reject r.token reason sent)
  | accept (d : Floor) (r : Ouch.EnterOrder) (loc sent : Nat) : Takes d r.token r.shares r.price →
      d.books.locate r.stock = some loc →
      Moves (.request (.enter r) sent) d
        ({ d with nextRef := d.nextRef + 1, orders := d.orders ++ [Floor.entered r loc d.nextRef sent] }.say
          (.accepted ((Floor.entered r loc d.nextRef sent).accepted d.tape.clock)) [sent])
  | take (m : Inbound) (sent : Nat) (d : Floor) (os : List Order) (o : Order) (b : Book.OrderBook) (lv : Level) :
      d.orders = os ++ [o] → o.resting = false → d.books.book o.locate = some b → lv ∈ b.ladder (opposite o.side) →
      o.leaves ≠ 0 → crosses o.side o.price lv.price = true →
      Moves (.request m sent) d
        { d with
          orders := os ++ [o.fill (min o.leaves lv.qty)]
          tape := d.tape.execute o (min o.leaves lv.qty) lv.price kRemoved }
  | finish (m : Inbound) (sent : Nat) (d : Floor) (os : List Order) (o : Order) : d.orders = os ++ [o] → o.resting = false →
      o.leaves = 0 → Moves (.request m sent) d { d with orders := os }
  | expire (m : Inbound) (sent : Nat) (d : Floor) (os : List Order) (o : Order) : d.orders = os ++ [o] → o.resting = false →
      o.leaves ≠ 0 → o.tif = Ouch.kTifIoc →
      Moves (.request m sent) d
        ({ d with orders := os }.say (.canceled ⟨d.tape.clock, o.token, o.leaves, ascii 'I'⟩) o.since)
  | rest (m : Inbound) (sent : Nat) (d : Floor) (os : List Order) (o : Order) (ahead : Nat) : d.orders = os ++ [o] →
      o.resting = false → o.leaves ≠ 0 → o.tif ≠ Ouch.kTifIoc →
      Moves (.request m sent) d { d with orders := os ++ [{ o with ahead := ahead, resting := true }] }
  | reduce (d : Floor) (c : Ouch.CancelOrder) (o : Order) (sent : Nat) : d.find c.token = some o →
      o.resting = true → c.shares - o.filled ≠ 0 → c.shares - o.filled < o.leaves →
      Moves (.request (.cancel c) sent) d
        ((d.say (.canceled ⟨d.tape.clock, o.token, o.leaves - (c.shares - o.filled), ascii 'U'⟩) (sent :: o.since)).amend o.token
          (o.leaves - (c.shares - o.filled)) (some { o with leaves := c.shares - o.filled }))
  | cancel (d : Floor) (m : Inbound) (o : Order) (sent : Nat) : d.find o.token = some o → o.resting = true →
      Moves (.request m sent) d
        ((d.say (.canceled ⟨d.tape.clock, o.token, o.leaves, ascii 'U'⟩) (sent :: o.since)).amend o.token o.leaves none)
  | replace (d : Floor) (r : Ouch.ReplaceOrder) (o : Order) (sent : Nat) : d.find r.existing = some o →
      o.resting = true → Takes d r.replacement r.shares r.price → o.filled < r.shares →
      Moves (.request (.replace r) sent) d
        ({ d with
            nextRef := d.nextRef + 1
            orders := Sim.amend o.token o.leaves none d.orders ++ [Floor.replacement o r d.nextRef sent] }.say
          (.replaced ⟨(Floor.replacement o r d.nextRef sent).accepted d.tape.clock, o.token⟩) (sent :: o.since))
  | sweep (loc : Nat) (side : Side) (price : Int) (d : Floor) (os os' : List Order) (o : Order) :
      d.orders = os ++ o :: os' → o.resting = true → o.slot = slot loc side → crosses side o.price price = true →
      Moves (.added loc side price) d
        { d with orders := os ++ os', tape := d.tape.execute o o.leaves o.price kAdded }
  | pass (loc : Nat) (side : Side) (level execPrice : Int) (shares : Nat) (d : Floor) (os os' : List Order) (o : Order) :
      d.orders = os ++ o :: os' → o.resting = true → o.slot = slot loc side → o.price = level → shares ≤ o.ahead →
      Moves (.printed loc side level execPrice shares) d { d with orders := os ++ { o with ahead := o.ahead - shares } :: os' }
  | fill (loc : Nat) (side : Side) (level execPrice : Int) (shares : Nat) (d : Floor) (os os' : List Order) (o : Order) :
      d.orders = os ++ o :: os' → o.resting = true → o.slot = slot loc side → o.price = level → o.ahead < shares →
      min o.leaves (shares - o.ahead) < o.leaves →
      Moves (.printed loc side level execPrice shares) d
        { d with
          orders := os ++ { o with ahead := 0 }.fill (min o.leaves (shares - o.ahead)) :: os'
          tape := d.tape.execute o (min o.leaves (shares - o.ahead)) (printPrice side execPrice o.price) kAdded }
  | fillAll (loc : Nat) (side : Side) (level execPrice : Int) (shares : Nat) (d : Floor) (os os' : List Order) (o : Order) :
      d.orders = os ++ o :: os' → o.resting = true → o.slot = slot loc side → o.price = level → o.ahead < shares →
      Moves (.printed loc side level execPrice shares) d
        { d with
          orders := os ++ os'
          tape := d.tape.execute o o.leaves (printPrice side execPrice o.price) kAdded }

/-- Any number of moves for one cause. -/
abbrev Chain (k : Cause) : Floor → Floor → Prop := ReflTransGen (Moves k)

/-- No order is being matched. -/
def Floor.Settled (d : Floor) : Prop := ∀ o ∈ d.orders, o.resting = true

/-! ## Matching -/

/-- The levels an order takes, it being the last in the list. -/
theorem takeLevels_chain (m : Inbound) (sent : Nat) {os : List Order} {b : Book.OrderBook} (ls : List Level) (d : Floor) (o : Order)
    (ho : d.orders = os ++ [o]) (hrest : o.resting = false) (hb : d.books.book o.locate = some b)
    (hls : ∀ lv ∈ ls, lv ∈ b.ladder (opposite o.side)) :
    Chain (.request m sent) d
      { d with orders := os ++ [(takeLevels ls d.tape o).2], tape := (takeLevels ls d.tape o).1 } ∧
    (takeLevels ls d.tape o).2.resting = false := by
  induction ls generalizing d o with
  | nil =>
    refine ⟨?_, hrest⟩
    show Chain _ d { d with orders := os ++ [o] }
    rw [← ho]
  | cons lv ls ih =>
    have hsame : Chain (.request m sent) d { d with orders := os ++ [o] } := by rw [← ho]
    unfold takeLevels
    split_ifs with hz hc
    · exact ⟨hsame, hrest⟩
    · have hmove := Moves.take m sent d os o b lv ho hrest hb (hls lv List.mem_cons_self) hz hc
      obtain ⟨hchain, hrest'⟩ := ih { d with
          orders := os ++ [o.fill (min o.leaves lv.qty)]
          tape := d.tape.execute o (min o.leaves lv.qty) lv.price kRemoved } (o.fill (min o.leaves lv.qty)) rfl hrest hb
        fun x hx => hls x (List.mem_cons_of_mem _ hx)
      exact ⟨.head hmove hchain, hrest'⟩
    · exact ⟨hsame, hrest⟩

theorem rest_chain (m : Inbound) (sent : Nat) (d : Floor) (o : Order) (hrest : o.resting = false) :
    Chain (.request m sent) { d with orders := d.orders ++ [o] } (d.rest o) := by
  unfold Floor.rest
  split_ifs with hz hioc
  · exact .single (.finish m sent _ d.orders o rfl hrest hz)
  · exact .single (.expire m sent _ d.orders o rfl hrest hz hioc)
  · exact .single (.rest m sent _ d.orders o _ rfl hrest hz hioc)

theorem work_chain (m : Inbound) (sent : Nat) (d : Floor) (o : Order) (hrest : o.resting = false) :
    Chain (.request m sent) { d with orders := d.orders ++ [o] } (d.work o) := by
  unfold Floor.work
  cases hb : d.books.book o.locate with
  | none => exact rest_chain m sent d o hrest
  | some b =>
    obtain ⟨hchain, hrest'⟩ := takeLevels_chain m sent (b.ladder (opposite o.side))
      { d with orders := d.orders ++ [o] } o rfl hrest hb fun _ h => h
    exact hchain.trans (rest_chain m sent { d with tape := (takeLevels (b.ladder (opposite o.side)) d.tape o).1 } _ hrest')

/-! ## Requests -/

theorem onEnter_chain (d : Floor) (r : Ouch.EnterOrder) (sent : Nat) :
    Chain (.request (.enter r) sent) d (d.onEnter r sent) := by
  have hreject : ∀ reason, Chain (.request (.enter r) sent) d (d.reject r.token reason sent) :=
    fun reason => .single (.reject d r reason sent)
  unfold Floor.onEnter
  by_cases htok : (!validToken r.token || (d.find r.token).isSome) = true
  · rw [if_pos htok]
    exact hreject _
  rw [if_neg htok]
  have hvalid : validToken r.token = true ∧ d.find r.token = none := by
    simpa [Option.isSome_iff_ne_none] using htok
  cases hloc : d.books.locate r.stock with
  | none => exact hreject _
  | some loc =>
    dsimp only
    split_ifs with h₁ h₂ h₃ h₄
    · exact hreject _
    · exact hreject _
    · exact hreject _
    · exact hreject _
    · have htakes : Takes d r.token r.shares r.price := ⟨hvalid.1, hvalid.2, by omega, by omega⟩
      refine .head (.accept d r loc sent htakes hloc) ?_
      exact work_chain (.enter r) sent ({ d with nextRef := d.nextRef + 1 }.say
        (.accepted ((Floor.entered r loc d.nextRef sent).accepted d.tape.clock)) [sent])
        (Floor.entered r loc d.nextRef sent) rfl

theorem onCancel_chain (d : Floor) (hs : d.Settled) (r : Ouch.CancelOrder) (sent : Nat) :
    Chain (.request (.cancel r) sent) d (d.onCancel r sent) := by
  unfold Floor.onCancel
  cases hf : d.find r.token with
  | none => exact .refl
  | some o =>
    obtain ⟨hmem, htok⟩ := Floor.mem_of_find hf
    dsimp only
    split_ifs with h₁ h₂
    · exact .refl
    · have hall : o.leaves - (r.shares - o.filled) = o.leaves := by omega
      rw [hall]
      exact .single (.cancel d (.cancel r) o sent (by rw [htok]; exact hf) (hs o hmem))
    · exact .single (.reduce d r o sent hf (hs o hmem) h₂ (by omega))

theorem onReplace_chain (d : Floor) (hs : d.Settled) (r : Ouch.ReplaceOrder) (sent : Nat) :
    Chain (.request (.replace r) sent) d (d.onReplace r sent) := by
  unfold Floor.onReplace
  cases hf : d.find r.existing with
  | none => exact .refl
  | some o =>
    obtain ⟨hmem, htok⟩ := Floor.mem_of_find hf
    dsimp only
    by_cases hused : (!validToken r.replacement || (d.find r.replacement).isSome) = true
    · rw [if_pos hused]
    · rw [if_neg hused]
      have hfresh : validToken r.replacement = true ∧ d.find r.replacement = none := by
        simpa [Option.isSome_iff_ne_none] using hused
      split_ifs with h₁
      · have htakes : Takes d r.replacement r.shares r.price := ⟨hfresh.1, hfresh.2, by omega, h₁.1, h₁.2.1⟩
        refine .head (.replace d r o sent hf (hs o hmem) htakes h₁.2.2.1) ?_
        exact work_chain (.replace r) sent ({ d.amend o.token o.leaves none with nextRef := d.nextRef + 1 }.say
          (.replaced ⟨(Floor.replacement o r d.nextRef sent).accepted d.tape.clock, o.token⟩) (sent :: o.since))
          (Floor.replacement o r d.nextRef sent) rfl
      · exact .single (.cancel d (.replace r) o sent (by rw [htok]; exact hf) (hs o hmem))

/-- **A request** is a chain of moves. -/
theorem onRequest_chain (d : Floor) (hs : d.Settled) (m : Inbound) (sent : Nat) :
    Chain (.request m sent) d (d.onRequest m sent) := by
  cases m with
  | enter r => exact onEnter_chain d r sent
  | cancel r => exact onCancel_chain d hs r sent
  | replace r => exact onReplace_chain d hs r sent

/-! ## Market messages -/

/-- What every visit does to its order, the whole revision does to the list. -/
theorem revise_chain {k : Cause} {f : Tape → Order → Tape × Option Order}
    (hf : ∀ d os o os', d.orders = os ++ o :: os' → o.resting = true →
      Chain k d { d with orders := os ++ (f d.tape o).2.toList ++ os', tape := (f d.tape o).1 })
    (d : Floor) (hs : d.Settled) : Chain k d (d.revise f) := by
  have hloop : ∀ (os os' : List Order) (d : Floor), d.orders = os ++ os' → (∀ o ∈ os', o.resting = true) →
      Chain k d { d with orders := os ++ (revise f os' d.tape).1, tape := (revise f os' d.tape).2 } := by
    intro os os'
    induction os' generalizing os with
    | nil =>
      intro d ho _
      show Chain k d { d with orders := os ++ [] }
      rw [← ho]
    | cons o os' ih =>
      intro d ho hrest
      refine (hf d os o os' ho (hrest o List.mem_cons_self)).trans ?_
      have := ih (os ++ (f d.tape o).2.toList)
        { d with orders := os ++ (f d.tape o).2.toList ++ os', tape := (f d.tape o).1 } rfl
        fun x hx => hrest x (List.mem_cons_of_mem _ hx)
      rw [revise, ← List.append_assoc]
      exact this
  exact hloop [] d.orders d rfl hs

theorem sweepThrough_chain (d : Floor) (hs : d.Settled) (loc : Nat) (side : Side) (price : Int) :
    Chain (.added loc (opposite side) price) d (d.sweepThrough loc side price) := by
  refine revise_chain (fun d os o os' ho hrest => ?_) d hs
  unfold sweepHit
  split_ifs with h
  · rw [Option.toList_none, List.append_nil]
    exact .single (.sweep loc (opposite side) price d os os' o ho hrest h.1 h.2)
  · rw [Option.toList_some, List.append_assoc, List.singleton_append, ← ho]

theorem consume_chain (d : Floor) (hs : d.Settled) (loc : Nat) (side : Side) (level execPrice : Int) (shares : Nat) :
    Chain (.printed loc side level execPrice shares) d (d.consume loc side level execPrice shares) := by
  refine revise_chain (fun d os o os' ho hrest => ?_) d hs
  unfold consumeHit
  by_cases hat : o.slot = slot loc side ∧ o.price = level
  · rw [if_pos hat]
    by_cases hpass : shares ≤ o.ahead
    · rw [if_pos hpass, Option.toList_some, List.append_assoc, List.singleton_append]
      exact .single (.pass loc side level execPrice shares d os os' o ho hrest hat.1 hat.2 hpass)
    · rw [if_neg hpass]
      dsimp only
      by_cases hall : o.leaves - min o.leaves (shares - o.ahead) = 0
      · have hq : min o.leaves (shares - o.ahead) = o.leaves := by omega
        have hgone : (({ o with ahead := 0 } : Order).fill (min o.leaves (shares - o.ahead))).leaves = 0 := hall
        rw [if_pos hgone, Option.toList_none, List.append_nil, hq]
        exact .single (.fillAll loc side level execPrice shares d os os' o ho hrest hat.1 hat.2 (by omega))
      · have hstays : (({ o with ahead := 0 } : Order).fill (min o.leaves (shares - o.ahead))).leaves ≠ 0 := hall
        rw [if_neg hstays, Option.toList_some, List.append_assoc, List.singleton_append]
        exact .single (.fill loc side level execPrice shares d os os' o ho hrest hat.1 hat.2 (by omega) (by omega))
  · rw [if_neg hat, Option.toList_some, List.append_assoc, List.singleton_append, ← ho]

/-- Why a market message makes the venue move, `mb` being the books before it. -/
inductive Caused (mb : MarketBooks) : Itch.Message → Cause → Prop
  | add (m : Itch.AddOrder) : Caused mb (.addOrder m) (.added m.h.locate (opposite m.side) m.price)
  | replaced (m : Itch.OrderReplace) (i : Book.OrderInfo) : mb.order m.oldRef = some i →
      Caused mb (.orderReplace m) (.added i.locate (opposite i.side) m.price)
  | executed (m : Itch.OrderExecuted) (i : Book.OrderInfo) : mb.order m.ref = some i →
      Caused mb (.orderExecuted m) (.printed i.locate i.side i.price i.price m.shares)
  | executedPrice (m : Itch.OrderExecutedPrice) (i : Book.OrderInfo) : mb.order m.ref = some i →
      Caused mb (.orderExecutedPrice m) (.printed i.locate i.side i.price m.price m.shares)

/-- **A market message** changes the books, and then is a chain of moves. -/
theorem apply_chain (d : Floor) (hs : d.Settled) (m : Itch.Message) :
    d.apply m = { d with books := (d.books.on m).1 } ∨
      ∃ k, Caused d.books m k ∧ Chain k { d with books := (d.books.on m).1 } (d.apply m) := by
  have hs' : ∀ mb, ({ d with books := mb } : Floor).Settled := fun _ => hs
  unfold Floor.apply
  cases m with
  | addOrder m =>
    dsimp only
    split_ifs
    · exact .inr ⟨_, .add m, sweepThrough_chain _ (hs' _) _ _ _⟩
    · exact .inl rfl
  | orderExecuted m =>
    dsimp only
    split
    · exact .inl rfl
    · rename_i i hi
      split_ifs
      · exact .inr ⟨_, .executed m i hi, consume_chain _ (hs' _) _ _ _ _ _⟩
      · exact .inl rfl
  | orderExecutedPrice m =>
    dsimp only
    split
    · exact .inl rfl
    · rename_i i hi
      split_ifs
      · exact .inr ⟨_, .executedPrice m i hi, consume_chain _ (hs' _) _ _ _ _ _⟩
      · exact .inl rfl
  | orderReplace m =>
    dsimp only
    split
    · exact .inl rfl
    · rename_i i hi
      split_ifs
      · exact .inr ⟨_, .replaced m i hi, sweepThrough_chain _ (hs' _) _ _ _⟩
      · exact .inl rfl
  | stockDirectory m => exact .inl rfl
  | orderCancel m => exact .inl rfl
  | orderDelete m => exact .inl rfl
  | trade m => exact .inl rfl
  | systemEvent m => exact .inl rfl

/-! ## What has been said before -/

/-- The tape goes on from `xs`. -/
def Tape.after (xs : List Said) (t : Tape) : Tape := { t with said := xs ++ t.said }

def Floor.after (xs : List Said) (d : Floor) : Floor := { d with tape := d.tape.after xs }

theorem Tape.say_after (xs : List Said) (t : Tape) (m : Ouch.Outbound) (about : List Nat) :
    (t.say m about).after xs = (t.after xs).say m about := by
  unfold Tape.after Tape.say
  rw [List.append_assoc]

theorem Tape.execute_after (xs : List Said) (t : Tape) (o : Order) (qty : Nat) (price : Int) (liquidity : Byte) :
    (t.execute o qty price liquidity).after xs = (t.after xs).execute o qty price liquidity :=
  Tape.say_after xs _ _ _

theorem Floor.say_after (xs : List Said) (d : Floor) (m : Ouch.Outbound) (about : List Nat) :
    (d.say m about).after xs = (d.after xs).say m about :=
  congrArg (fun t => { d with tape := t }) (Tape.say_after xs d.tape m about)

theorem Floor.execute_after (xs : List Said) (d : Floor) (os : List Order) (o : Order) (qty : Nat) (price : Int) (liquidity : Byte) :
    ({ d with orders := os, tape := d.tape.execute o qty price liquidity } : Floor).after xs =
      { d.after xs with orders := os, tape := (d.after xs).tape.execute o qty price liquidity } :=
  congrArg (fun t => { d with orders := os, tape := t }) (Tape.execute_after xs d.tape o qty price liquidity)

theorem Floor.amend_after (xs : List Said) (d : Floor) (token : Token) (removed : Nat) (new : Option Order) :
    (d.amend token removed new).after xs = (d.after xs).amend token removed new := rfl

/-- A move does not depend on what has been said. -/
theorem Moves.after {k : Cause} {d d' : Floor} (h : Moves k d d') (xs : List Said) : Moves k (d.after xs) (d'.after xs) := by
  cases h with
  | reject _ r reason sent =>
    unfold Floor.reject
    rw [Floor.say_after]
    exact .reject (d.after xs) r reason sent
  | accept _ r loc sent ht hl =>
    rw [Floor.say_after]
    exact .accept (d.after xs) r loc sent ⟨ht.valid, ht.fresh, ht.shares, ht.price⟩ hl
  | take m sent _ os o b lv ho hr hb hlv hz hc =>
    rw [Floor.execute_after]
    exact .take m sent (d.after xs) os o b lv ho hr hb hlv hz hc
  | finish m sent _ os o ho hr hz => exact .finish m sent (d.after xs) os o ho hr hz
  | expire m sent _ os o ho hr hz hi =>
    rw [Floor.say_after]
    exact .expire m sent (d.after xs) os o ho hr hz hi
  | rest m sent _ os o ahead ho hr hz hi => exact .rest m sent (d.after xs) os o ahead ho hr hz hi
  | reduce _ c o sent hf hr h₀ h₁ =>
    rw [Floor.amend_after, Floor.say_after]
    exact .reduce (d.after xs) c o sent hf hr h₀ h₁
  | cancel _ m o sent hf hr =>
    rw [Floor.amend_after, Floor.say_after]
    exact .cancel (d.after xs) m o sent hf hr
  | replace _ r o sent hf hr ht hlt =>
    rw [Floor.say_after]
    exact .replace (d.after xs) r o sent hf hr ⟨ht.valid, ht.fresh, ht.shares, ht.price⟩ hlt
  | sweep loc side price _ os os' o ho hr hs hc =>
    rw [Floor.execute_after]
    exact .sweep loc side price (d.after xs) os os' o ho hr hs hc
  | pass loc side level execPrice shares _ os os' o ho hr hs hl hp =>
    exact .pass loc side level execPrice shares (d.after xs) os os' o ho hr hs hl hp
  | fill loc side level execPrice shares _ os os' o ho hr hs hl hlt hq =>
    rw [Floor.execute_after]
    exact .fill loc side level execPrice shares (d.after xs) os os' o ho hr hs hl hlt hq
  | fillAll loc side level execPrice shares _ os os' o ho hr hs hl hlt =>
    rw [Floor.execute_after]
    exact .fillAll loc side level execPrice shares (d.after xs) os os' o ho hr hs hl hlt

theorem Chain.after {k : Cause} {d d' : Floor} (h : Chain k d d') (xs : List Said) : Chain k (d.after xs) (d'.after xs) :=
  ReflTransGen.lift (Floor.after xs) (fun _ _ hm => Moves.after hm xs) _ _ h

theorem Moves.clock {k : Cause} {d d' : Floor} (h : Moves k d d') : d'.tape.clock = d.tape.clock := by
  cases h <;> rfl

theorem Chain.clock {k : Cause} {d d' : Floor} (h : Chain k d d') : d'.tape.clock = d.tape.clock := by
  induction h with
  | refl => rfl
  | tail _ hm ih => rw [Moves.clock hm, ih]

/-! ## Runs -/

/-- Kept by every move and by the books under every message. A market message may rely on `W` of the books it
meets, and what it causes meets `K`. -/
structure Chronicle (W : MarketBooks → Itch.Message → Prop) (K : Cause → Prop) (P : Floor → Prop) : Prop where
  tick : ∀ d clock, P d → P (d.tick clock)
  books : ∀ d m, W d.books m → P d → P { d with books := (d.books.on m).1 }
  request : ∀ m sent, K (.request m sent)
  caused : ∀ d m k, W d.books m → P d → Caused d.books m k → K k
  move : ∀ k d d', K k → Moves k d d' → P d → P d'

variable {W : MarketBooks → Itch.Message → Prop} {K : Cause → Prop} {P : Floor → Prop}

theorem Chronicle.chain (hP : Chronicle W K P) {k : Cause} (hk : K k) {d d' : Floor} (h : Chain k d d') (hd : P d) : P d' := by
  induction h with
  | refl => exact hd
  | tail _ hm ih => exact hP.move k _ _ hk hm ih

/-- The list of orders that `v` stands for meets `P`, its tape going on from `xs`. -/
def Venue.Tells (P : Floor → Prop) (xs : List Said) (v : Venue) : Prop :=
  ∃ hs, v.Stored hs [] ∧ P ((v.floor hs).after xs)

theorem Venue.Stored.settled {v : Venue} {hs : List Nat} (h : v.Stored hs []) : (v.floor hs).Settled := by
  intro o ho
  obtain ⟨x, hx, rfl⟩ := List.mem_map.mp ho
  exact h.resting x hx

theorem Venue.Stored.clock_onRequest {v : Venue} {hs : List Nat} (h : v.Stored hs []) (m : Inbound) (sent : Nat) :
    (v.onRequest m sent).clock = v.clock := by
  obtain ⟨hs', -, hfl⟩ := Venue.onRequest_refines h m sent
  exact (congrArg (fun d => d.tape.clock) hfl).trans (Chain.clock (onRequest_chain _ h.settled m sent))

theorem Venue.Stored.clock_apply {v : Venue} {hs : List Nat} (h : v.Stored hs []) (m : Itch.Message) :
    (v.apply m).clock = v.clock := by
  obtain ⟨hs', -, hfl⟩ := Venue.apply_refines h m
  refine (congrArg (fun d => d.tape.clock) hfl).trans ?_
  rcases apply_chain (v.floor hs) h.settled m with hsame | ⟨k, -, hchain⟩
  · rw [hsame]
    rfl
  · exact Chain.clock hchain

namespace Venue.Tells
variable {v : Venue} {xs : List Said}

theorem tick (h : v.Tells P xs) (hP : Chronicle W K P) (clock : Nat) : Venue.Tells P xs { v with clock := clock } := by
  obtain ⟨hs, hst, hp⟩ := h
  have hk : v.Keeps { v with clock := clock } := ⟨rfl, rfl, rfl, rfl, fun _ => rfl, fun _ => rfl, fun _ => rfl⟩
  exact ⟨hs, hk.stored hst, hP.tick _ clock hp⟩

theorem onRequest (h : v.Tells P xs) (hP : Chronicle W K P) (m : Inbound) (sent : Nat) : (v.onRequest m sent).Tells P xs := by
  obtain ⟨hs, hst, hp⟩ := h
  obtain ⟨hs', hst', hfl⟩ := Venue.onRequest_refines hst m sent
  refine ⟨hs', hst', ?_⟩
  rw [hfl]
  exact hP.chain (hP.request m sent) (Chain.after (onRequest_chain _ hst.settled m sent) xs) hp

theorem apply (h : v.Tells P xs) (hP : Chronicle W K P) (m : Itch.Message) (hw : W v.books m) : (v.apply m).Tells P xs := by
  obtain ⟨hs, hst, hp⟩ := h
  obtain ⟨hs', hst', hfl⟩ := Venue.apply_refines hst m
  refine ⟨hs', hst', ?_⟩
  rw [hfl]
  have hbooks := hP.books ((v.floor hs).after xs) m hw hp
  rcases apply_chain (v.floor hs) hst.settled m with hsame | ⟨k, hk, hchain⟩
  · rw [hsame]
    exact hbooks
  · exact hP.chain (hP.caused ((v.floor hs).after xs) m k hw hp hk) (Chain.after hchain xs) hbooks

theorem publish (h : v.Tells P xs) : Venue.Tells P (xs ++ v.said) { v with said := [] } := by
  obtain ⟨hs, hst, hp⟩ := h
  have hk : v.Keeps { v with said := [] } := ⟨rfl, rfl, rfl, rfl, fun _ => rfl, fun _ => rfl, fun _ => rfl⟩
  refine ⟨hs, hk.stored hst, ?_⟩
  have heq : (({ v with said := [] } : Venue).floor hs).after (xs ++ v.said) = (v.floor hs).after xs := by
    unfold Floor.after Tape.after
    show ({ v.floor hs with tape := { v.tape with said := xs ++ v.said ++ [] } } : Floor) = _
    rw [List.append_nil]
    rfl
  rw [heq]
  exact hp

end Venue.Tells

/-- What was said, of a report that was queued. -/
def Report.said (r : Report) : Said := ⟨r.msg, r.about⟩

namespace ExchangeSim
variable {s : ExchangeSim}

/-- The orders and all that the venue has said meet `P`; what was queued of it are the reports. -/
def Chronicled (P : Floor → Prop) (s : ExchangeSim) : Prop :=
  s.venue.said = [] ∧
    ∃ xs, s.venue.Tells P xs ∧ (s.generated.map Report.said).Sublist xs ∧ s.generated.length + s.droppedReports = xs.length

theorem Chronicled.publish (h : s.Rings) {v : Venue} {xs : List Said} (hv : v.Tells P xs)
    (hsub : (s.generated.map Report.said).Sublist xs) (hlen : s.generated.length + s.droppedReports = xs.length) :
    (s.publish v).Chronicled P := by
  obtain ⟨rs, d, hp⟩ := publish_published h v
  refine ⟨by rw [hp.queued.venue], xs ++ v.said, ?_, ?_, ?_⟩
  · rw [hp.queued.venue]
    exact hv.publish
  · rw [hp.queued.generated, List.map_append]
    refine hsub.append ?_
    have := hp.sublist.map Report.said
    rw [List.map_map] at this
    have hid : (Report.said ∘ s.reportAt v.clock) = id := rfl
    rwa [hid, List.map_id] at this
  · have hl := hp.length
    have hd : (s.publish v).droppedReports = s.droppedReports + d := hp.queued.dropped
    rw [hp.queued.generated, hd, List.length_append, List.length_append]
    show s.generated.length + rs.length + (s.droppedReports + d) = _
    omega

theorem Chronicled.process (h : s.Chronicled P) (hP : Chronicle W K P) (hr : s.Rings) : s.process.Chronicled P := by
  obtain ⟨-, xs, hv, hsub, hlen⟩ := h
  rw [process_eq]
  exact .publish (s := s.popped) hr.popped ((hv.tick hP _).onRequest hP _ _) hsub hlen

theorem Chronicled.advance (h : s.Chronicled P) (hP : Chronicle W K P) (hr : s.Rings) (now : Nat) :
    (s.advance now).Chronicled P := by
  refine (advance_invariant (P := fun t => t.Rings ∧ t.Chronicled P) ?_ ⟨hr, h⟩).2
  rintro t ⟨hr, h⟩ -
  exact ⟨hr.process, h.process hP hr⟩

theorem advance_books (hr : s.Rings) (h : s.venue.Meets fun _ => True) (now : Nat) :
    (s.advance now).venue.books = s.venue.books :=
  (meets_advance (W := fun _ _ => True) ⟨fun _ _ _ => trivial, fun _ _ => trivial, fun _ _ _ _ => trivial, fun _ _ _ _ => trivial⟩
    hr h now).2

theorem Chronicled.onItch (h : s.Chronicled P) (hP : Chronicle W K P) (hr : s.Rings) {m : Option Itch.Message} (now : Nat)
    (hw : ∀ m', m = some m' → W s.venue.books m') : (s.onItch m now).Chronicled P := by
  obtain ⟨-, xs, hv, hsub, hlen⟩ := h.advance hP hr now
  have hbooks : (s.advance now).venue.books = s.venue.books := by
    obtain ⟨-, -, ⟨hs, hst, -⟩, -⟩ := h
    exact advance_books hr ⟨hs, hst, trivial⟩ now
  have htick : (s.marketAt now).Tells P xs := hv.tick hP _
  cases m with
  | none => exact .publish (hr.advance now) htick hsub hlen
  | some m =>
    refine .publish (hr.advance now) (htick.apply hP m ?_) hsub hlen
    show W (s.advance now).venue.books m
    rw [hbooks]
    exact hw m rfl

theorem Chronicled.same {t : ExchangeSim} (h : s.Chronicled P) (hv : t.venue = s.venue) (hg : t.generated = s.generated)
    (hd : t.droppedReports = s.droppedReports) : t.Chronicled P := by
  obtain ⟨h₀, xs, h₁, h₂, h₃⟩ := h
  exact ⟨by rwa [hv], xs, by rwa [hv], by rwa [hg], by rwa [hg, hd]⟩

end ExchangeSim

namespace State

theorem Steps.chronicled {s t : State} {c : Call} {x : Answer} (h : Steps s c t x) (hP : Chronicle W K P) (hr : s.sim.Rings)
    (hs : s.sim.Chronicled P) (hw : ∀ m now, c = .onItch (some m) now → W s.sim.venue.books m) : t.sim.Chronicled P := by
  cases h with
  | send m now _ =>
    obtain ⟨hv, hg, hd⟩ := s.sim.send_frame m now
    exact hs.same hv hg hd
  | onItch m now _ => exact hs.onItch hP hr now fun m' hm => hw m' now (by rw [hm])
  | advance now _ => exact hs.advance hP hr now
  | drain now _ => exact hs
  | hand now _ _ => exact hs
  | handed now _ => exact hs.same rfl rfl rfl
  | drained now _ _ => exact hs

/-- **Run rule.** -/
theorem run_chronicled {config : SimConfig} {cs : List Call} {s : State} {log : List (Call × Answer)}
    (hP : Chronicle W K P) (hnew : P ((Venue.new config.maxOrders config.books).floor []))
    (hr : run next (⟨.new config, none⟩, []) cs = some (s, log))
    (hw : Along next (Heeds W) (⟨.new config, none⟩, []) cs) : s.sim.Rings ∧ s.sim.Chronicled P := by
  refine run_invariant_along (P := fun p => p.1.sim.Rings ∧ p.1.sim.Chronicled P) (Q := Heeds W) ?_ hr hw
    ⟨.new config, rfl, [], ⟨[], .new _ _, hnew⟩, List.Sublist.refl _, rfl⟩
  rintro p c p' ⟨hrings, hs⟩ hq hn
  obtain ⟨t, x, hstep, rfl⟩ := next_some hn
  have h := step_cases hstep
  exact ⟨h.rings hrings, h.chronicled hP hrings hs hq⟩

end State
end OptiTrade.Sim
