import OptiTrade.Book.Prices
import OptiTrade.Itch.Decoder
import OptiTrade.Sim.FloorRuns

/-! # Report back-pressure

A request reserves, when it is sent, room for every report that it can cause when it is processed. Every
price that a report can carry has a wire form, so only a full queue could drop a report. -/

namespace OptiTrade.Sim
set_option autoImplicit false

open Runs
open Ouch (fitsWirePrice)
open Book (MarketBooks Level)
open Venue (kMaxPrice)

/-! ## Every price fits the wire -/

/-- A price that can be encoded. -/
def Fits (px : Int) : Prop := fitsWirePrice px = true

theorem fits_iff {px : Int} : Fits px ↔ 0 ≤ px ∧ px ≤ 4294967295 := by
  simp [Fits, fitsWirePrice]

/-- The price a market message enters into the books, or prints, has a wire form, and so has the size. -/
def MarketFits : Itch.Message → Prop
  | .addOrder m => Fits m.price ∧ m.shares ≤ Book.kQtyMax
  | .orderReplace m => Fits m.price ∧ m.shares ≤ Book.kQtyMax
  | .orderExecutedPrice m => Fits m.price
  | _ => True

/-- The most that a request can cost, on top of a full report queue, is a `size_t`. -/
def SimConfig.Unwrapped (config : SimConfig) : Prop :=
  max 1024 (4 * config.maxOrders) + (config.books.maxLevelsPerSide + 2) ≤ u64Max

/-- Everything said can be encoded. -/
def Tape.Encodes (t : Tape) : Prop := ∀ x ∈ t.said, Fits x.msg.wirePrice

/-- Every price there is goes on the wire. -/
structure Floor.Encodes (n : Nat) (d : Floor) : Prop where
  books : d.books.Priced (fun _ px => Fits px) n
  orders : ∀ o ∈ d.orders, Fits o.price
  tape : d.tape.Encodes

namespace Floor.Encodes
variable {d : Floor} {n : Nat}

theorem saying {t : Tape} {m : Ouch.Outbound} {about : List Nat} (h : t.Encodes) (hm : Fits m.wirePrice) :
    (t.say m about).Encodes := by
  intro x hx
  rcases List.mem_append.mp hx with hx | hx
  · exact h x hx
  · rw [List.mem_singleton.mp hx]
    exact hm

theorem executing {t : Tape} {o : Order} {qty : Nat} {price : Int} {liquidity : Byte} (h : t.Encodes) (hp : Fits price) :
    (t.execute o qty price liquidity).Encodes := by
  have h' : ({ t with fills := t.fills + 1, matchNo := t.matchNo + 1 } : Tape).Encodes := h
  exact saying h' hp

theorem fits_zero : Fits 0 := rfl

theorem say {m : Ouch.Outbound} {about : List Nat} (h : d.Encodes n) (hm : Fits m.wirePrice) : (d.say m about).Encodes n :=
  ⟨h.books, h.orders, saying h.tape hm⟩

theorem amend {token : Ouch.Token} {removed : Nat} {new : Option Order} (h : d.Encodes n)
    (hnew : ∀ o ∈ new, Fits o.price) : (d.amend token removed new).Encodes n :=
  ⟨h.books, amend_invariant (P := fun o => Fits o.price) (fun _ ho => ho) hnew h.orders, h.tape⟩

theorem revise {f : Tape → Order → Tape × Option Order} (h : d.Encodes n)
    (hf : ∀ t o, t.Encodes → Fits o.price → (f t o).1.Encodes ∧ ∀ o' ∈ (f t o).2, Fits o'.price) :
    (d.revise f).Encodes n := by
  obtain ⟨ht, ho⟩ := revise_invariant (P := fun o => Fits o.price) hf h.orders h.tape
  exact ⟨h.books, ho, ht⟩

theorem sweepThrough (h : d.Encodes n) (loc : Nat) (side : Side) (price : Int) : (d.sweepThrough loc side price).Encodes n := by
  refine h.revise fun t o ht ho => ?_
  unfold sweepHit
  split_ifs
  · exact ⟨executing ht ho, by simp⟩
  · exact ⟨ht, by simpa using ho⟩

theorem fits_print (side : Side) {execPrice price : Int} (he : Fits execPrice) (hp : Fits price) :
    Fits (match side with
      | .buy => min execPrice price
      | .sell => max execPrice price) := by
  cases side with
  | buy =>
    show Fits (min execPrice price)
    rcases min_choice execPrice price with h | h <;> rw [h] <;> assumption
  | sell =>
    show Fits (max execPrice price)
    rcases max_choice execPrice price with h | h <;> rw [h] <;> assumption

theorem consume (h : d.Encodes n) (loc : Nat) (side : Side) (level : Int) {execPrice : Int} (shares : Nat)
    (hp : Fits execPrice) : (d.consume loc side level execPrice shares).Encodes n := by
  refine h.revise fun t o ht ho => ?_
  have hpx := fits_print side hp ho
  unfold consumeHit
  dsimp only
  split_ifs
  · exact ⟨ht, by simpa using ho⟩
  · exact ⟨executing ht hpx, by simp⟩
  · refine ⟨executing ht hpx, fun o' ho' => ?_⟩
    obtain rfl := Option.some.inj ho'
    exact ho
  · exact ⟨ht, by simpa using ho⟩

theorem apply (h : d.Encodes n) (m : Itch.Message) (hm : MarketFits m) : (d.apply m).Encodes n := by
  have hbooks : (d.books.on m).1.Priced (fun _ px => Fits px) n := by
    refine h.books.on m fun s p k hp => ?_
    cases m with
    | addOrder m =>
      cases hp
      exact hm
    | orderReplace m =>
      obtain ⟨i, -, hi⟩ := Option.map_eq_some_iff.mp hp
      cases hi
      exact hm
    | stockDirectory m => cases hp
    | orderExecuted m => cases hp
    | orderExecutedPrice m => cases hp
    | orderCancel m => cases hp
    | orderDelete m => cases hp
    | trade m => cases hp
    | systemEvent m => cases hp
  have h' : ({ d with books := (d.books.on m).1 } : Floor).Encodes n := ⟨hbooks, h.orders, h.tape⟩
  unfold Floor.apply
  cases m with
  | addOrder m =>
    dsimp only
    split_ifs
    · exact h'.sweepThrough _ _ _
    · exact h'
  | orderExecuted m =>
    dsimp only
    split
    · exact h'
    · rename_i info hinfo
      split_ifs
      · exact h'.consume _ _ _ _ (h.books.order hinfo)
      · exact h'
  | orderExecutedPrice m =>
    dsimp only
    split
    · exact h'
    · split_ifs
      · exact h'.consume _ _ _ _ hm
      · exact h'
  | orderReplace m =>
    dsimp only
    split
    · exact h'
    · split_ifs
      · exact h'.sweepThrough _ _ _
      · exact h'
  | stockDirectory m => exact h'
  | orderCancel m => exact h'
  | orderDelete m => exact h'
  | trade m => exact h'
  | systemEvent m => exact h'

theorem work {o : Order} (h : d.Encodes n) (ho : Fits o.price) : (d.work o).Encodes n := by
  have hrest : ∀ (t : Tape) (o : Order), t.Encodes → Fits o.price → ({ d with tape := t }.rest o).Encodes n := by
    intro t o ht ho
    have h' : ({ d with tape := t } : Floor).Encodes n := ⟨h.books, h.orders, ht⟩
    unfold Floor.rest
    split_ifs
    · exact h'
    · exact h'.say fits_zero
    · refine ⟨h.books, fun x hx => ?_, ht⟩
      rcases List.mem_append.mp hx with hx | hx
      · exact h.orders x hx
      · rw [List.mem_singleton.mp hx]
        exact ho
  unfold Floor.work
  cases hb : d.books.book o.locate with
  | none => exact hrest _ _ h.tape ho
  | some b =>
    let I : Tape → Order → Prop := fun t o => t.Encodes ∧ Fits o.price
    have hladder := (h.books.ladder hb (opposite o.side)).1
    have hi : I (takeLevels (b.ladder (opposite o.side)) d.tape o).1 (takeLevels (b.ladder (opposite o.side)) d.tape o).2 :=
      takeLevels_invariant (I := I) (fun t o lv hlv hi _ _ => ⟨executing hi.1 (hladder lv hlv).1, hi.2⟩) ⟨h.tape, ho⟩
    exact hrest _ _ hi.1 hi.2

theorem onEnter {r : Ouch.EnterOrder} {sent : Nat} (h : d.Encodes n) : (d.onEnter r sent).Encodes n := by
  have hreject : ∀ reason, (d.reject r.token reason sent).Encodes n := fun reason => h.say fits_zero
  unfold Floor.onEnter
  cases d.books.locate r.stock with
  | none =>
    dsimp only
    split_ifs
    · exact hreject _
    · exact hreject _
  | some loc =>
    dsimp only
    split_ifs with h₁ h₂ h₃ h₄ h₅
    · exact hreject _
    · exact hreject _
    · exact hreject _
    · exact hreject _
    · exact hreject _
    · have hpx : Fits r.price := by
        rw [fits_iff]
        unfold kMaxPrice at h₄
        omega
      refine work ?_ hpx
      exact Encodes.say (d := { d with nextRef := d.nextRef + 1 }) ⟨h.books, h.orders, h.tape⟩ hpx

theorem onCancel {r : Ouch.CancelOrder} {sent : Nat} (h : d.Encodes n) : (d.onCancel r sent).Encodes n := by
  unfold Floor.onCancel
  split
  · exact h
  · rename_i o hf
    have ho := h.orders o (mem_of_find hf).1
    dsimp only
    split_ifs
    · exact h
    · refine amend ?_ (by simp)
      exact h.say fits_zero
    · refine amend ?_ (by simpa using ho)
      exact h.say fits_zero

theorem onReplace {r : Ouch.ReplaceOrder} {sent : Nat} (h : d.Encodes n) : (d.onReplace r sent).Encodes n := by
  unfold Floor.onReplace
  split
  · exact h
  · rename_i o hf
    dsimp only
    split_ifs with h₁ h₂
    · exact h
    · have hpx : Fits r.price := by
        rw [fits_iff]
        unfold kMaxPrice at h₂
        omega
      have h' : (d.amend o.token o.leaves none).Encodes n := h.amend (by simp)
      refine work ?_ hpx
      exact Encodes.say (d := { d.amend o.token o.leaves none with nextRef := d.nextRef + 1 })
        ⟨h'.books, h'.orders, h'.tape⟩ hpx
    · refine amend ?_ (by simp)
      exact h.say fits_zero

theorem invariant (n : Nat) : Floor.Invariant (fun _ m => MarketFits m) (Floor.Encodes n) where
  tick := fun d clock h => ⟨h.books, h.orders, h.tape⟩
  hush := fun d h => ⟨h.books, h.orders, fun m hm => by cases hm⟩
  request := fun d m sent h => by
    cases m with
    | enter r => exact h.onEnter
    | cancel r => exact h.onCancel
    | replace r => exact h.onReplace
  market := fun d m hm h => h.apply m hm

end Floor.Encodes

/-! ## How much a request can say -/

namespace Floor

theorem said_takeLevels (ls : List Level) (t : Tape) (o : Order) :
    (takeLevels ls t o).1.said.length ≤ t.said.length + ls.length := by
  induction ls generalizing t o with
  | nil => exact Nat.le_refl _
  | cons lv ls ih =>
    unfold takeLevels
    split_ifs
    · exact Nat.le_add_right _ _
    · refine (ih _ _).trans ?_
      simp only [Tape.execute, Tape.say, List.length_append, List.length_cons, List.length_nil]
      omega
    · exact Nat.le_add_right _ _

theorem said_say (d : Floor) (m : Ouch.Outbound) (about : List Nat) :
    (d.say m about).tape.said.length = d.tape.said.length + 1 := by
  simp [Floor.say, Tape.say]

/-- An order that meets the book causes one report for each level, and one when the rest is canceled. -/
theorem said_work {d : Floor} {P : Side → Int → Prop} {n : Nat} (h : d.books.Priced P n) (o : Order) :
    (d.work o).tape.said.length ≤ d.tape.said.length + (n + 1) := by
  have hrest : ∀ (d : Floor) (o : Order), (d.rest o).tape.said.length ≤ d.tape.said.length + 1 := by
    intro d o
    unfold Floor.rest
    split_ifs
    · exact Nat.le_succ _
    · rw [said_say]
    · exact Nat.le_succ _
  unfold Floor.work
  refine (hrest _ _).trans ?_
  cases hb : d.books.book o.locate with
  | none =>
    show d.tape.said.length + 1 ≤ _
    omega
  | some b =>
    have hlen := (h.ladder hb (opposite o.side)).2
    have htake := said_takeLevels (b.ladder (opposite o.side)) d.tape o
    show (takeLevels (b.ladder (opposite o.side)) d.tape o).1.said.length + 1 ≤ _
    omega

/-- Most reports one request can cause. -/
def cost (n : Nat) : Ouch.Inbound → Nat
  | .cancel _ => 1
  | .enter _ | .replace _ => n + 2

theorem said_onEnter {d : Floor} {P : Side → Int → Prop} {n : Nat} (h : d.books.Priced P n) (r : Ouch.EnterOrder) (sent : Nat) :
    (d.onEnter r sent).tape.said.length ≤ d.tape.said.length + (n + 2) := by
  have hreject : ∀ reason, (d.reject r.token reason sent).tape.said.length ≤ d.tape.said.length + (n + 2) := by
    intro reason
    have := said_say d (.rejected ⟨d.tape.clock, r.token, reason⟩) [sent]
    unfold Floor.reject
    omega
  unfold Floor.onEnter
  cases d.books.locate r.stock with
  | none =>
    dsimp only
    split_ifs
    · exact hreject _
    · exact hreject _
  | some loc =>
    dsimp only
    split_ifs
    · exact hreject _
    · exact hreject _
    · exact hreject _
    · exact hreject _
    · exact hreject _
    · refine (said_work (P := P) (n := n) ?_ _).trans ?_
      · exact h
      rw [said_say]
      exact Nat.le_of_eq (by show d.tape.said.length + 1 + (n + 1) = _; omega)

theorem said_onCancel (d : Floor) (r : Ouch.CancelOrder) (sent : Nat) :
    (d.onCancel r sent).tape.said.length ≤ d.tape.said.length + 1 := by
  unfold Floor.onCancel
  split
  · exact Nat.le_succ _
  · dsimp only
    split_ifs
    · exact Nat.le_succ _
    · exact (said_say d _ _).le
    · exact (said_say d _ _).le

theorem said_onReplace {d : Floor} {P : Side → Int → Prop} {n : Nat} (h : d.books.Priced P n) (r : Ouch.ReplaceOrder) (sent : Nat) :
    (d.onReplace r sent).tape.said.length ≤ d.tape.said.length + (n + 2) := by
  unfold Floor.onReplace
  split
  · exact Nat.le_add_right _ _
  · rename_i o hf
    dsimp only
    split_ifs
    · exact Nat.le_add_right _ _
    · refine (said_work (P := P) (n := n) ?_ _).trans ?_
      · exact h
      rw [said_say]
      exact Nat.le_of_eq (by show d.tape.said.length + 1 + (n + 1) = _; omega)
    · refine (said_say d _ _).le.trans ?_
      omega

theorem said_onRequest {d : Floor} {P : Side → Int → Prop} {n : Nat} (h : d.books.Priced P n) (m : Ouch.Inbound) (sent : Nat) :
    (d.onRequest m sent).tape.said.length ≤ d.tape.said.length + cost n m := by
  cases m with
  | enter r => exact said_onEnter h r sent
  | cancel r => exact said_onCancel d r sent
  | replace r => exact said_onReplace h r sent

/-- A market message reports fills and nothing else. -/
theorem said_apply (d : Floor) (m : Itch.Message) :
    (d.apply m).tape.said.length + d.tape.fills = d.tape.said.length + (d.apply m).tape.fills := by
  have hrev : ∀ (d' : Floor) (f : Tape → Order → Tape × Option Order), d'.tape = d.tape →
      (∀ t o, (f t o).1.said.length + t.fills = t.said.length + (f t o).1.fills) →
      (d'.revise f).tape.said.length + d.tape.fills = d.tape.said.length + (d'.revise f).tape.fills := by
    intro d' f hd hf
    have hstep : ∀ t o, t.said.length + d.tape.fills = d.tape.said.length + t.fills → True →
        (f t o).1.said.length + d.tape.fills = d.tape.said.length + (f t o).1.fills ∧ ∀ o' ∈ (f t o).2, True := by
      intro t o ht _
      have := hf t o
      exact ⟨by omega, fun _ _ => trivial⟩
    exact (revise_invariant (P := fun _ => True) (R := fun t => t.said.length + d.tape.fills = d.tape.said.length + t.fills)
      hstep (fun _ _ => trivial) (by rw [hd])).1
  have hexec : ∀ (t : Tape) (o : Order) (qty : Nat) (price : Int) (l : Byte),
      (t.execute o qty price l).said.length + t.fills = t.said.length + (t.execute o qty price l).fills := by
    intro t o qty price l
    simp only [Tape.execute, Tape.say, List.length_append, List.length_singleton]
    omega
  have hsweep : ∀ loc side price, ∀ t o, (sweepHit loc side price t o).1.said.length + t.fills =
      t.said.length + (sweepHit loc side price t o).1.fills := by
    intro loc side price t o
    unfold sweepHit
    split_ifs
    · exact hexec t o _ _ _
    · rfl
  have hconsume : ∀ loc side level px shares, ∀ t o, (consumeHit loc side level px shares t o).1.said.length + t.fills =
      t.said.length + (consumeHit loc side level px shares t o).1.fills := by
    intro loc side level px shares t o
    unfold consumeHit
    dsimp only
    split_ifs
    · rfl
    · exact hexec t o _ _ _
    · exact hexec t o _ _ _
    · rfl
  unfold Floor.apply
  cases m with
  | addOrder m =>
    dsimp only
    split_ifs
    · exact hrev _ _ rfl (hsweep _ _ _)
    · rfl
  | orderExecuted m =>
    dsimp only
    split
    · rfl
    · split_ifs
      · exact hrev _ _ rfl (hconsume _ _ _ _ _)
      · rfl
  | orderExecutedPrice m =>
    dsimp only
    split
    · rfl
    · split_ifs
      · exact hrev _ _ rfl (hconsume _ _ _ _ _)
      · rfl
  | orderReplace m =>
    dsimp only
    split
    · rfl
    · split_ifs
      · exact hrev _ _ rfl (hsweep _ _ _)
      · rfl
  | stockDirectory m => rfl
  | orderCancel m => rfl
  | orderDelete m => rfl
  | trade m => rfl
  | systemEvent m => rfl

end Floor

/-! ## The queue of reports -/

namespace ExchangeSim
variable {s : ExchangeSim} {n : Nat}

/-- What is handed to `emit` when the first request is processed. -/
def processSaid (s : ExchangeSim) : List Said := (s.reached.onRequest s.requests.front.msg s.requests.front.sent).said

/-- The requests that at most `k` iterations of the loop of `advance` process, and what each of them hands
to `emit`. -/
def servedUpTo (now : Nat) : Nat → ExchangeSim → List (Request × List Said)
  | 0, _ => []
  | k + 1, s => if s.arrived now then (s.requests.front, s.processSaid) :: servedUpTo now k s.process else []

/-- What a market message hands to `emit`. -/
def marketSaid (s : ExchangeSim) (m : Itch.Message) (now : Nat) : List Said := ((s.marketAt now).apply m).said

theorem encode_isSome {m : Ouch.Outbound} (h : Fits m.wirePrice) : (Ouch.encode m).isSome := by
  unfold Fits at h
  simp [Ouch.encode, h]

/-- The venue has prices that can be encoded, and all it said is published. -/
structure Sound (n : Nat) (s : ExchangeSim) : Prop where
  rings : s.Rings
  meets : s.venue.Meets (Floor.Encodes n)
  hushed : s.venue.said = []
  levels : s.config.books.maxLevelsPerSide = n

theorem Sound.cost_eq (h : s.Sound n) (hn : n + 2 ≤ u64Max) (m : Ouch.Inbound) : s.reportCost m = Floor.cost n m := by
  have hadd : add64 s.config.books.maxLevelsPerSide 2 = n + 2 := by rw [h.levels, add64_eq hn]
  cases m with
  | enter r => exact hadd
  | cancel r => rfl
  | replace r => exact hadd

theorem Sound.process (h : s.Sound n) : s.process.Sound n := by
  obtain ⟨rs, d, hp⟩ := process_published h.rings
  refine ⟨h.rings.process, meets_process (Floor.Encodes.invariant n) h.rings h.meets, ?_, ?_⟩
  · rw [process_venue h.rings]
  · rw [hp.queued.config]
    exact h.levels

/-- **One request** causes no more reports than it may, and all of them can be encoded. -/
theorem Sound.processSaid (h : s.Sound n) :
    s.processSaid.length ≤ Floor.cost n s.requests.front.msg ∧ ∀ x ∈ s.processSaid, (Ouch.encode x.msg).isSome := by
  obtain ⟨hs, hst, hd⟩ := h.meets.tick (Floor.Encodes.invariant n) (max s.venue.clock s.requests.front.arrival)
  obtain ⟨hs', -, hfl⟩ := Venue.onRequest_refines hst s.requests.front.msg s.requests.front.sent
  have hsaid := congrArg (fun d : Floor => d.tape.said) hfl
  have hlen := Floor.said_onRequest hd.books s.requests.front.msg s.requests.front.sent
  have henc := ((Floor.Encodes.invariant n).request _ s.requests.front.msg s.requests.front.sent hd).tape
  have hzero : (({ s.venue with clock := max s.venue.clock s.requests.front.arrival } : Venue).floor hs).tape.said = [] :=
    h.hushed
  rw [hzero, List.length_nil, Nat.zero_add] at hlen
  unfold Tape.Encodes at henc
  rw [← hsaid] at hlen henc
  exact ⟨hlen, fun x hx => encode_isSome (henc x hx)⟩

theorem Sound.served (h : s.Sound n) (now k : Nat) : ∀ p ∈ servedUpTo now k s,
    p.2.length ≤ Floor.cost n p.1.msg ∧ ∀ x ∈ p.2, (Ouch.encode x.msg).isSome := by
  induction k generalizing s with
  | zero => exact fun p hp => by cases hp
  | succ k ih =>
    intro p hp
    unfold servedUpTo at hp
    split_ifs at hp
    · rcases List.mem_cons.mp hp with rfl | hp
      · exact h.processSaid
      · exact ih h.process p hp
    · cases hp

theorem Sound.advance (h : s.Sound n) (now : Nat) : (s.advance now).Sound n :=
  advance_invariant (fun _ hs _ => hs.process) h

theorem Sound.marketSaid (h : s.Sound n) {m : Itch.Message} (hm : MarketFits m) (now : Nat) :
    ∀ x ∈ s.marketSaid m now, (Ouch.encode x.msg).isSome := by
  obtain ⟨hs, hst, hd⟩ := (h.advance now).meets.tick (Floor.Encodes.invariant n) (max (s.advance now).venue.clock now)
  obtain ⟨hs', -, hfl⟩ := Venue.apply_refines hst m
  have hsaid := congrArg (fun d : Floor => d.tape.said) hfl
  have henc := (hd.apply m hm).tape
  unfold Tape.Encodes at henc
  rw [← hsaid] at henc
  exact fun x hx => encode_isSome (henc x hx)

theorem Sound.quiet (h : s.Sound n) {m : Itch.Message} {now : Nat}
    (hq : ((s.marketAt now).apply m).fills = (s.marketAt now).fills) : s.marketSaid m now = [] := by
  have hadv := h.advance now
  obtain ⟨hs, hst, -⟩ := hadv.meets.tick (Floor.Encodes.invariant n) (max (s.advance now).venue.clock now)
  obtain ⟨hs', -, hfl⟩ := Venue.apply_refines hst m
  have hsaid := congrArg (fun d : Floor => d.tape.said) hfl
  have hfills := congrArg (fun d : Floor => d.tape.fills) hfl
  have hcount := Floor.said_apply ((s.marketAt now).floor hs) m
  have hzero : ((s.marketAt now).floor hs).tape.said = [] := hadv.hushed
  rw [hzero, List.length_nil] at hcount
  have h₁ : ((s.marketAt now).floor hs).tape.fills = (s.marketAt now).fills := rfl
  have h₂ : (((s.marketAt now).floor hs).apply m).tape.fills = ((s.marketAt now).apply m).fills := hfills.symm
  have h₃ : (((s.marketAt now).floor hs).apply m).tape.said = ((s.marketAt now).apply m).said := hsaid.symm
  rw [h₁, h₂, h₃, hq] at hcount
  exact List.eq_nil_of_length_eq_zero (by unfold ExchangeSim.marketSaid; omega)

theorem Sound.onItch (h : s.Sound n) {m : Option Itch.Message} (now : Nat) (hm : ∀ m', m = some m' → MarketFits m') :
    (s.onItch m now).Sound n := by
  refine ⟨h.rings.onItch m now, meets_onItch (Floor.Encodes.invariant n) h.rings h.meets now hm, ?_, ?_⟩
  · rw [onItch_venue h.rings]
  · have hadv := (h.advance now).levels
    unfold ExchangeSim.onItch
    cases m with
    | none =>
      obtain ⟨rs, d, hp⟩ := publish_published (h.advance now).rings (s.marketAt now)
      exact (congrArg (fun c : SimConfig => c.books.maxLevelsPerSide) hp.queued.config).trans hadv
    | some m =>
      obtain ⟨rs, d, hp⟩ := publish_published (h.advance now).rings ((s.marketAt now).apply m)
      exact (congrArg (fun c : SimConfig => c.books.maxLevelsPerSide) hp.queued.config).trans hadv

/-! ## Reservations -/

/-- The queued requests have room for the reports they may cause, and none has been dropped. The sums that say so
are those of a `size_t`. -/
structure Backed (s : ExchangeSim) : Prop where
  unwrapped : s.reports.size + (s.config.books.maxLevelsPerSide + 2) ≤ u64Max
  reserved : s.reserved = (s.requests.toList.map fun r => s.reportCost r.msg).sum
  room : s.reports.count + s.reserved ≤ s.reports.size
  kept : s.droppedReports = 0

theorem Backed.cost_le (h : s.Backed) (m : Ouch.Inbound) : s.reportCost m ≤ s.config.books.maxLevelsPerSide + 2 := by
  have hadd : add64 s.config.books.maxLevelsPerSide 2 = s.config.books.maxLevelsPerSide + 2 :=
    add64_eq ((Nat.le_add_left _ _).trans h.unwrapped)
  cases m with
  | enter r => exact hadd.le
  | cancel r => exact Nat.le_add_left 1 (_ + 1)
  | replace r => exact hadd.le

/-- Reports for which there is room are all queued. -/
theorem foldl_emit_room {ms : List Said} (henc : ∀ x ∈ ms, (Ouch.encode x.msg).isSome)
    (hroom : s.reports.count + ms.length ≤ s.reports.size) :
    (ms.foldl emit s).droppedReports = s.droppedReports ∧
      (ms.foldl emit s).reports.count = s.reports.count + ms.length ∧
      (ms.foldl emit s).reports.size = s.reports.size := by
  induction ms generalizing s with
  | nil => exact ⟨rfl, rfl, rfl⟩
  | cons x ms ih =>
    rw [List.length_cons] at hroom
    have hx := henc x List.mem_cons_self
    have hemit : s.emit x =
        { s with
          reports := s.reports.push ⟨saturatingAdd s.venue.clock s.config.reportLatencyNs, x.msg, x.about⟩
          generated := s.generated ++ [⟨saturatingAdd s.venue.clock s.config.reportLatencyNs, x.msg, x.about⟩] } := by
      have hsome : ¬(Ouch.encode x.msg).isNone := by
        rw [Option.isNone_iff_eq_none]
        exact Option.isSome_iff_ne_none.mp hx
      unfold emit
      rw [if_neg (by omega), if_neg hsome]
    obtain ⟨h₁, h₂, h₃⟩ := ih (s := s.emit x) (fun y hy => henc y (List.mem_cons_of_mem _ hy))
      (by rw [hemit]; show s.reports.count + 1 + ms.length ≤ s.reports.size; omega)
    rw [List.foldl_cons]
    refine ⟨by rw [h₁, hemit], ?_, by rw [h₃, hemit]; rfl⟩
    rw [h₂, hemit, List.length_cons]
    show s.reports.count + 1 + ms.length = _
    omega

theorem Backed.publish {v : Venue} (h : s.Backed) (henc : ∀ x ∈ v.said, (Ouch.encode x.msg).isSome) (hr : s.Rings)
    (hroom : s.reports.count + v.said.length + s.reserved ≤ s.reports.size) : (s.publish v).Backed := by
  obtain ⟨rs, d, hp⟩ := publish_published hr v
  obtain ⟨hdrop, hcount, hsize⟩ := foldl_emit_room (s := { s with venue := { v with said := [] } }) henc
    (by show s.reports.count + v.said.length ≤ s.reports.size; omega)
  have hcost : (s.publish v).reportCost = s.reportCost := by
    unfold reportCost
    rw [hp.queued.config]
  have hsize : (s.publish v).reports.size = s.reports.size := hsize
  refine ⟨?_, ?_, ?_, hdrop.trans h.kept⟩
  · rw [hsize, hp.queued.config]
    exact h.unwrapped
  · rw [hp.queued.reserved, hp.queued.requests, hcost]
    exact h.reserved
  · have hcount : (s.publish v).reports.count = s.reports.count + v.said.length := hcount
    rw [hcount, hsize, hp.queued.reserved]
    exact hroom

theorem Backed.new {config : SimConfig} (h : config.Unwrapped) : (new config).Backed :=
  ⟨h, rfl, Nat.zero_le _, rfl⟩

theorem Backed.send (h : s.Backed) (hr : s.Rings) (m : Ouch.Inbound) (now : Nat) : (s.send m now).1.Backed := by
  unfold ExchangeSim.send
  split_ifs with h₁ h₂
  · exact h
  · exact h
  · have hcost := h.cost_le m
    have hroom := h.room
    have hfit := h.unwrapped
    have hsum : add64 s.reserved (s.reportCost m) = s.reserved + s.reportCost m := add64_eq (by omega)
    rw [add64_eq (a := s.reports.count) (by omega), add64_eq (by omega)] at h₂
    refine ⟨hfit, ?_, ?_, h.kept⟩
    · show add64 s.reserved (s.reportCost m) = ((s.requests.push _).toList.map _).sum
      rw [hsum, RingBuffer.toList_push _ _ (Nat.lt_of_le_of_ne hr.requests_le h₁), List.map_append, List.sum_append, h.reserved]
      rfl
    · show s.reports.count + add64 s.reserved (s.reportCost m) ≤ s.reports.size
      omega

/-- A request that is processed gives back what it had reserved, and takes no more. -/
theorem Backed.process {now : Nat} (h : s.Backed) (hs : s.Sound n) (ha : s.arrived now = true) : s.process.Backed := by
  obtain ⟨hlen, henc⟩ := hs.processSaid
  have hsum := h.reserved
  rw [hs.rings.toList_requests (arrived_count ha).1, List.map_cons, List.sum_cons] at hsum
  have hroom := h.room
  have hfit := h.unwrapped
  rw [← hs.cost_eq (by rw [← hs.levels]; omega)] at hlen
  have hdiff : sub64 s.reserved (s.reportCost s.requests.front.msg) = s.reserved - s.reportCost s.requests.front.msg :=
    sub64_eq (by omega) (by omega)
  have hpopped : s.popped.Backed := by
    refine ⟨hfit, ?_, ?_, h.kept⟩
    · show sub64 s.reserved (s.reportCost s.requests.front.msg) = _
      rw [hdiff, hsum, Nat.add_sub_cancel_left]
      rfl
    · show s.reports.count + sub64 s.reserved (s.reportCost s.requests.front.msg) ≤ s.reports.size
      omega
  rw [process_eq]
  refine hpopped.publish henc hs.rings.popped ?_
  show s.reports.count + s.processSaid.length + sub64 s.reserved (s.reportCost s.requests.front.msg) ≤ s.reports.size
  omega

theorem Backed.advanceUpTo (h : s.Backed) (hs : s.Sound n) (now k : Nat) :
    (advanceUpTo now k s).Backed ∧ (advanceUpTo now k s).Sound n := by
  induction k generalizing s with
  | zero => exact ⟨h, hs⟩
  | succ k ih =>
    unfold ExchangeSim.advanceUpTo
    split_ifs with ha
    · exact ih (h.process hs ha) hs.process
    · exact ⟨h, hs⟩

theorem Backed.onItch (h : s.Backed) (hs : s.Sound n) {m : Option Itch.Message} {now : Nat}
    (hq : ∀ m', m = some m' → ((s.marketAt now).apply m').fills = (s.marketAt now).fills) : (s.onItch m now).Backed := by
  obtain ⟨hadv, hsadv⟩ := h.advanceUpTo hs now s.requests.count
  have hpub : ∀ v : Venue, v.said = [] → ((s.advance now).publish v).Backed := by
    intro v hv
    refine Backed.publish hadv (by simp [hv]) hsadv.rings ?_
    rw [hv]
    exact hadv.room
  cases m with
  | none => exact hpub (s.marketAt now) hsadv.hushed
  | some m => exact hpub ((s.marketAt now).apply m) (hs.quiet (hq m rfl))

theorem Backed.handed (h : s.Backed) : s.handed.Backed := by
  refine ⟨h.unwrapped, h.reserved, ?_, h.kept⟩
  have := h.room
  show s.reports.count - 1 + s.reserved ≤ s.reports.size
  omega

theorem Sound.new (config : SimConfig) : (new config).Sound config.books.maxLevelsPerSide := by
  refine ⟨.new config, ⟨[], .new _ _, ?_, ?_, ?_⟩, rfl, rfl⟩
  · exact .new config.books
  · exact fun o ho => by cases ho
  · exact fun x hx => by cases hx

theorem Sound.send (h : s.Sound n) (m : Ouch.Inbound) (now : Nat) : (s.send m now).1.Sound n := by
  have hrings := h.rings.send m now
  unfold ExchangeSim.send at hrings ⊢
  split_ifs at hrings ⊢
  · exact h
  · exact h
  · exact ⟨hrings, h.meets, h.hushed, h.levels⟩

theorem Sound.handed (h : s.Sound n) : s.handed.Sound n := ⟨h.rings.handed, h.meets, h.hushed, h.levels⟩

end ExchangeSim

theorem marketFits_of_decode {b : List Byte} {m : Itch.Message} (h : Itch.decode b = .ok m) : MarketFits m := by
  have hw := Itch.decode_wireSized h
  cases m with
  | addOrder m => exact ⟨fits_iff.mpr hw.2.2.2, hw.2.2.1⟩
  | orderReplace m => exact ⟨fits_iff.mpr hw.2, hw.1⟩
  | orderExecutedPrice m => exact fits_iff.mpr hw.2
  | stockDirectory m => trivial
  | orderExecuted m => trivial
  | orderCancel m => trivial
  | orderDelete m => trivial
  | trade m => trivial
  | systemEvent m => trivial

/-! ## Runs -/

namespace State
variable {s t : State} {c : Call} {x : Answer} {n : Nat}

/-- A market message comes from the decoder. -/
def Delivered (c : Call) : Prop := ∀ m now, c = .onItch (some m) now → ∃ b, Itch.decode b = .ok m

/-- A market message fills none of the resting orders. -/
def FillsNothing (p : State × List (Call × Answer)) (c : Call) : Prop :=
  ∀ m now, c = .onItch (some m) now → ((p.1.sim.marketAt now).apply m).fills = (p.1.sim.marketAt now).fills

theorem Steps.sound (h : Steps s c t x) (hs : s.sim.Sound n) (hc : Delivered c) : t.sim.Sound n := by
  cases h with
  | send m now _ => exact hs.send m now
  | onItch m now _ =>
    refine hs.onItch now fun m' hm => ?_
    obtain ⟨b, hb⟩ := hc m' now (by rw [hm])
    exact marketFits_of_decode hb
  | advance now _ => exact hs.advance now
  | drain now _ => exact hs
  | hand now _ _ => exact hs
  | handed now _ => exact hs.handed
  | drained now _ _ => exact hs

theorem Steps.backed {log : List (Call × Answer)} (h : Steps s c t x) (hs : s.sim.Sound n) (hb : s.sim.Backed)
    (hc : FillsNothing (s, log) c) : t.sim.Backed := by
  cases h with
  | send m now _ => exact hb.send hs.rings m now
  | onItch m now _ => exact hb.onItch hs fun m' hm => hc m' now (by rw [hm])
  | advance now _ => exact (hb.advanceUpTo hs now _).1
  | drain now _ => exact hb
  | hand now _ _ => exact hb
  | handed now _ => exact hb.handed
  | drained now _ _ => exact hb

theorem run_sound {config : SimConfig} {cs : List Call} {log : List (Call × Answer)}
    (hr : run next (⟨.new config, none⟩, []) cs = some (s, log)) (hw : ∀ c ∈ cs, Delivered c) :
    s.sim.Sound config.books.maxLevelsPerSide := by
  refine run_invariant_along (P := fun p => p.1.sim.Sound config.books.maxLevelsPerSide) (Q := fun _ c => Delivered c) ?_ hr
    (along_of_forall hw _) (.new config)
  intro p c p' hp hc hn
  obtain ⟨t, x, hstep, rfl⟩ := next_some hn
  exact (step_cases hstep).sound hp hc

theorem run_backed {config : SimConfig} (hu : config.Unwrapped) {cs : List Call} {log : List (Call × Answer)}
    (hr : run next (⟨.new config, none⟩, []) cs = some (s, log)) (hw : ∀ c ∈ cs, Delivered c)
    (hq : Along next FillsNothing (⟨.new config, none⟩, []) cs) : s.sim.Backed := by
  refine (run_invariant_along (P := fun p => p.1.sim.Sound config.books.maxLevelsPerSide ∧ p.1.sim.Backed)
    (Q := fun p c => Delivered c ∧ FillsNothing p c) ?_ hr ((along_of_forall hw _).and hq) ⟨.new config, .new hu⟩).2
  rintro p c p' ⟨hp, hb⟩ ⟨hc, hq⟩ hn
  obtain ⟨t, x, hstep, rfl⟩ := next_some hn
  exact ⟨(step_cases hstep).sound hp hc, (step_cases hstep).backed hp hb hq⟩

/-- **Report back-pressure is sufficient.** In every state that a run over messages of the decoder can reach, every
report that a request or a market message hands out can be encoded. If the sizes do not wrap, each request that is
processed next hands out at most the reports that it costs; and if moreover no market message of the run filled a
resting order, the reservations and the queued reports fit the queue at every point of a further advance, and no
report was ever dropped. -/
theorem report_back_pressure (config : SimConfig) (cs : List Call) (s : State) (log : List (Call × Answer))
    (hr : run next (⟨.new config, none⟩, []) cs = some (s, log)) (hw : ∀ c ∈ cs, Delivered c) :
    (∀ now k, ∀ p ∈ s.sim.servedUpTo now k, ∀ x ∈ p.2, (Ouch.encode x.msg).isSome) ∧
    (∀ b m now, Itch.decode b = .ok m → ∀ x ∈ s.sim.marketSaid m now, (Ouch.encode x.msg).isSome) ∧
    (config.books.maxLevelsPerSide + 2 ≤ u64Max → ∀ now k, ∀ p ∈ s.sim.servedUpTo now k,
      p.2.length ≤ s.sim.reportCost p.1.msg) ∧
    (config.Unwrapped → Along next FillsNothing (⟨.new config, none⟩, []) cs → ∀ now k,
      (s.sim.advanceUpTo now k).reports.count + (s.sim.advanceUpTo now k).reserved ≤ (s.sim.advanceUpTo now k).reports.size ∧
      (s.sim.advanceUpTo now k).droppedReports = 0) := by
  have hs := run_sound hr hw
  refine ⟨fun now k p hp => (hs.served now k p hp).2, fun b m now hb => hs.marketSaid (marketFits_of_decode hb) now,
    fun hn now k p hp => ?_, fun hu hq now k => ?_⟩
  · rw [hs.cost_eq hn]
    exact (hs.served now k p hp).1
  · have hb := ((run_backed hu hr hw hq).advanceUpTo hs now k).1
    exact ⟨hb.room, hb.kept⟩

/-- An order for a stock that is not listed. -/
def unlistedOrder : List Call :=
  [.send (.enter ⟨Ouch.Token.fromId 1, .buy, false, 100, .ofText [65, 66, 67, 68], 10, 99999,
    Ouch.Firm.blank, 89, 80, 78, 0, 78, 32⟩) 3]

/-- So many levels that the cost of an order comes round to zero. -/
def countlessLevels : SimConfig := { maxOrders := 4, books := { maxLevelsPerSide := 18446744073709551614 } }

/-- The order costs nothing, and yet it is rejected. -/
theorem costs_nothing_and_is_rejected :
    ¬∀ (config : SimConfig) (cs : List Call) (s : State) (log : List (Call × Answer)),
      run next (⟨.new config, none⟩, []) cs = some (s, log) → (∀ c ∈ cs, Delivered c) →
        ∀ now k, ∀ p ∈ s.sim.servedUpTo now k, p.2.length ≤ s.sim.reportCost p.1.msg := by
  intro h
  have hview : (run next (⟨.new countlessLevels, none⟩, []) unlistedOrder).map (fun p =>
      (p.1.sim.servedUpTo 60000 1).map fun q => (q.2.length, p.1.sim.reportCost q.1.msg)) = some [(1, 0)] := rfl
  obtain ⟨⟨s, log⟩, hr, hv⟩ := Option.map_eq_some_iff.mp hview
  have hw : ∀ c ∈ unlistedOrder, Delivered c := by
    intro c hc m now h
    subst h
    simp [unlistedOrder] at hc
  obtain ⟨q, hq, hlen⟩ := List.mem_map.mp (hv ▸ List.mem_singleton_self _)
  have hle := h countlessLevels unlistedOrder s log hr hw 60000 1 q hq
  rw [(Prod.mk.inj hlen).1, (Prod.mk.inj hlen).2] at hle
  exact absurd hle (by decide)

/-- The directory entry of a stock, as the decoder delivers it. -/
def oneListing : Itch.Message :=
  .stockDirectory ⟨⟨1, 0, 0⟩, .ofText [65, 66, 67, 68], 0, 0, 100, 0, 0, [0, 0], 0, 0, 0, 0, 0, 0, 0⟩

/-- An order and its cancel wait in the queue. -/
def orderAndCancel : List Call :=
  [.onItch (some oneListing) 1,
    .send (.enter ⟨Ouch.Token.fromId 1, .buy, false, 100, .ofText [65, 66, 67, 68], 10, 99999,
      Ouch.Firm.blank, 89, 80, 78, 0, 78, 32⟩) 3,
    .send (.cancel ⟨Ouch.Token.fromId 1, 0⟩) 4]

theorem report_back_pressure_order_and_cancel :
    ∃ s log, run next (⟨.new { maxOrders := 4 }, none⟩, []) orderAndCancel = some (s, log) ∧ s.sim.reserved = 259 ∧
      (s.sim.advanceUpTo 60000 1).reports.count + (s.sim.advanceUpTo 60000 1).reserved ≤
        (s.sim.advanceUpTo 60000 1).reports.size ∧
      (s.sim.advanceUpTo 60000 2).droppedReports = 0 := by
  have hview : (run next (⟨.new { maxOrders := 4 }, none⟩, []) orderAndCancel).map (fun p => p.1.sim.reserved) =
      some 259 := rfl
  obtain ⟨⟨s, log⟩, hr, hv⟩ := Option.map_eq_some_iff.mp hview
  have hw : ∀ c ∈ orderAndCancel, Delivered c := by
    intro c hc m now h
    subst h
    simp only [orderAndCancel, List.mem_cons, Call.onItch.injEq, Option.some.injEq, List.not_mem_nil, reduceCtorEq,
      or_false] at hc
    obtain ⟨rfl, -⟩ := hc
    exact ⟨[82, 0, 1, 0, 0, 0, 0, 0, 0, 0, 0, 65, 66, 67, 68, 32, 32, 32, 32, 0, 0, 0, 0, 0, 100, 0, 0, 0, 0, 0, 0, 0, 0, 0,
      0, 0, 0, 0, 0], rfl⟩
  have hq : Along next FillsNothing (⟨.new { maxOrders := 4 }, none⟩, []) orderAndCancel := by
    refine ⟨fun m now h => ?_, fun p _ => ⟨?_, fun p' _ => ⟨?_, fun _ _ => trivial⟩⟩⟩
    · cases h
      rfl
    · exact fun m now h => by cases h
    · exact fun m now h => by cases h
  obtain ⟨-, -, -, hroom⟩ := report_back_pressure { maxOrders := 4 } orderAndCancel s log hr hw
  have hu : SimConfig.Unwrapped { maxOrders := 4 } := by
    unfold SimConfig.Unwrapped
    decide
  exact ⟨s, log, hr, hv, (hroom hu hq 60000 1).1, (hroom hu hq 60000 2).2⟩

end State

end OptiTrade.Sim
