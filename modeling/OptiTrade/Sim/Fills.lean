import OptiTrade.Sim.Moves
import OptiTrade.Sim.Pressure

/-! # Which fills can be booked

The order manager books an execution of 1 to 999999 shares at a price from 1 to `2 ^ 32 - 1`. The simulator keeps
within that, except where the feed brings in a price of zero: an offer displayed at zero that a buy order takes, and
a print at zero against a bid. -/

namespace OptiTrade.Sim
set_option autoImplicit false

open Runs
open Book (MarketBooks)
open Venue (crosses kMaxPrice kAdded kRemoved)

/-- An execution that passes the check of the order manager. -/
def Bookable (x : Ouch.Executed) : Prop :=
  1 ≤ x.shares ∧ x.shares ≤ kMaxOrderQty ∧ 1 ≤ x.price ∧ x.price ≤ 4294967295

/-- A message of the feed that brings no zero price to where it could be traded: no offer is displayed at zero, and no
displayed bid is executed at zero. -/
def Charges (mb : MarketBooks) : Itch.Message → Prop
  | .addOrder m => m.side = .sell → 1 ≤ m.price
  | .orderReplace m => ∀ i, mb.order m.oldRef = some i → i.side = .sell → 1 ≤ m.price
  | .orderExecutedPrice m => ∀ i, mb.order m.ref = some i → i.side = .buy → 1 ≤ m.price
  | _ => True

/-- What can be executed of an order. -/
structure Order.Sized (o : Order) : Prop where
  leaves_le : o.leaves ≤ kMaxOrderQty
  leaves_pos : o.resting = true → 1 ≤ o.leaves
  price : 1 ≤ o.price ∧ o.price ≤ 4294967295

theorem Order.Sized.bookable {o : Order} (h : o.Sized) {clock qty number : Nat} {price : Int} {liquidity : Byte} (h₁ : 1 ≤ qty)
    (h₂ : qty ≤ o.leaves) (h₃ : 1 ≤ price) (h₄ : price ≤ 4294967295) :
    Bookable ⟨clock, o.token, qty, price, liquidity, number⟩ :=
  ⟨h₁, h₂.trans h.leaves_le, h₃, h₄⟩

/-- Everything said so far can be booked. -/
def Tape.Books (t : Tape) : Prop := ∀ x ∈ t.said, ∀ e, x.msg = .executed e → Bookable e

theorem Tape.Books.say {t : Tape} (h : t.Books) {m : Ouch.Outbound} (hm : ∀ e, m = .executed e → Bookable e) (about : List Nat) :
    (t.say m about).Books := by
  intro x hx
  rcases List.mem_append.mp hx with hx | hx
  · exact h x hx
  · rw [List.mem_singleton.mp hx]
    exact hm

theorem Tape.Books.execute {t : Tape} (h : t.Books) {o : Order} (ho : o.Sized) {qty : Nat} {price : Int} (liquidity : Byte)
    (h₁ : 1 ≤ qty) (h₂ : qty ≤ o.leaves) (h₃ : 1 ≤ price) (h₄ : price ≤ 4294967295) : (t.execute o qty price liquidity).Books := by
  refine Tape.Books.say (t := { t with fills := t.fills + 1, matchNo := t.matchNo + 1 }) h (fun e he => ?_) o.since
  cases he
  exact ho.bookable h₁ h₂ h₃ h₄

/-- A print is worth something to a resting order. -/
def Prices : Cause → Prop
  | .printed _ side level execPrice _ => execPrice ≤ 4294967295 ∧ (side = .buy → execPrice = level ∨ 1 ≤ execPrice)
  | _ => True

/-- The invariant. -/
structure Floor.Payable (n : Nat) (d : Floor) : Prop where
  books : d.books.Priced (fun s px => (s = .sell → 1 ≤ px) ∧ 0 ≤ px ∧ px ≤ 4294967295) n
  orders : ∀ o ∈ d.orders, o.Sized
  tape : d.tape.Books

theorem printPrice_bounds {side : Side} {level execPrice : Int} {o : Order} (ho : o.Sized) (hl : o.price = level)
    (hk : execPrice ≤ 4294967295 ∧ (side = .buy → execPrice = level ∨ 1 ≤ execPrice)) :
    1 ≤ printPrice side execPrice o.price ∧ printPrice side execPrice o.price ≤ 4294967295 := by
  have hp := ho.price
  cases side with
  | buy =>
    have := hk.2 rfl
    show 1 ≤ min execPrice o.price ∧ min execPrice o.price ≤ 4294967295
    omega
  | sell =>
    show 1 ≤ max execPrice o.price ∧ max execPrice o.price ≤ 4294967295
    omega

namespace Floor.Payable
variable {n : Nat} {d d' : Floor}

theorem amended (h : d.Payable n) {token : Ouch.Token} {removed : Nat} (new : Option Order) (hnew : ∀ o ∈ new, o.Sized) :
    ∀ o ∈ Sim.amend token removed new d.orders, o.Sized :=
  amend_invariant (fun _ ho => ⟨ho.leaves_le, ho.leaves_pos, ho.price⟩) hnew h.orders

theorem exchanged (h : d.Payable n) {os os' : List Order} (new : List Order) {o : Order} (ho : d.orders = os ++ o :: os')
    (hnew : ∀ x ∈ new, x.Sized) : ∀ x ∈ os ++ (new ++ os'), x.Sized := by
  have hos : ∀ x ∈ os ++ o :: os', x.Sized := fun x hx => h.orders x (by rw [ho]; exact hx)
  intro x hx
  rcases List.mem_append.mp hx with hx | hx
  · exact hos x (List.mem_append_left _ hx)
  · rcases List.mem_append.mp hx with hx | hx
    · exact hnew x hx
    · exact hos x (List.mem_append_right _ (List.mem_cons_of_mem _ hx))

theorem own (h : d.Payable n) {os os' : List Order} {o : Order} (ho : d.orders = os ++ o :: os') : o.Sized :=
  h.orders o (by simp [ho])

/-- **A move** says only what can be booked. -/
theorem move {k : Cause} (hk : Prices k) (hm : Moves k d d') (h : d.Payable n) : d'.Payable n := by
  cases hm with
  | reject _ r reason sent => exact ⟨h.books, h.orders, h.tape.say (fun e he => by cases he) _⟩
  | accept _ r loc sent ht hl =>
    refine ⟨h.books, fun o ho => ?_, h.tape.say (fun e he => by cases he) _⟩
    rcases List.mem_append.mp ho with ho | ho
    · exact h.orders o ho
    · rw [List.mem_singleton.mp ho]
      have hp := ht.price
      unfold kMaxPrice at hp
      exact ⟨ht.shares.2, fun _ => ht.shares.1, hp.1, by show r.price ≤ _; omega⟩
  | take m sent _ os o b lv ho hr hb hlv hz hc =>
    have hown := h.own ho
    obtain ⟨⟨hsell, -, hle⟩, hq, -⟩ := (h.books.ladder hb (opposite o.side)).1 lv hlv
    have hone : 1 ≤ lv.price := by
      cases hs : o.side with
      | buy => exact hsell (by rw [hs]; rfl)
      | sell =>
        rw [hs] at hc
        have : o.price ≤ lv.price := by simpa [crosses] using hc
        exact hown.price.1.trans this
    refine ⟨h.books, h.exchanged [o.fill (min o.leaves lv.qty)] ho fun x hx => ?_,
      h.tape.execute hown kRemoved (by omega) (Nat.min_le_left _ _) hone hle⟩
    rw [List.mem_singleton.mp hx]
    exact ⟨(Nat.sub_le _ _).trans hown.leaves_le, fun hres => absurd (hr.symm.trans hres) (by decide), hown.price⟩
  | finish m sent _ os o ho hr hz =>
    exact ⟨h.books, fun x hx => h.orders x (by rw [ho]; exact List.mem_append_left _ hx), h.tape⟩
  | expire m sent _ os o ho hr hz hi =>
    exact ⟨h.books, fun x hx => h.orders x (by rw [ho]; exact List.mem_append_left _ hx),
      h.tape.say (fun e he => by cases he) _⟩
  | rest m sent _ os o ahead ho hr hz hi =>
    have hown := h.own ho
    refine ⟨h.books, h.exchanged [{ o with ahead := ahead, resting := true }] ho fun x hx => ?_, h.tape⟩
    rw [List.mem_singleton.mp hx]
    exact ⟨hown.leaves_le, fun _ => Nat.pos_of_ne_zero hz, hown.price⟩
  | reduce _ c o sent hf hr h₀ h₁ =>
    have hown := h.orders o (Floor.mem_of_find hf).1
    refine ⟨h.books, h.amended _ fun x hx => ?_, h.tape.say (fun e he => by cases he) _⟩
    cases hx
    exact ⟨h₁.le.trans hown.leaves_le, fun _ => Nat.pos_of_ne_zero h₀, hown.price⟩
  | cancel _ m o sent hf hr =>
    exact ⟨h.books, h.amended _ fun x hx => (by cases hx), h.tape.say (fun e he => by cases he) _⟩
  | replace _ r o sent hf hr ht hlt =>
    refine ⟨h.books, fun x hx => ?_, h.tape.say (fun e he => by cases he) _⟩
    rcases List.mem_append.mp hx with hx | hx
    · exact h.amended none (fun x hx => by cases hx) x hx
    · rw [List.mem_singleton.mp hx]
      have hp := ht.price
      unfold kMaxPrice at hp
      exact ⟨(Nat.sub_le _ _).trans ht.shares.2, fun hres => (by cases hres), hp.1, by show r.price ≤ _; omega⟩
  | sweep loc side price _ os os' o ho hr hs hc =>
    have hown := h.own ho
    exact ⟨h.books, h.exchanged [] ho fun x hx => (by cases hx),
      h.tape.execute hown kAdded (hown.leaves_pos hr) (Nat.le_refl _) hown.price.1 hown.price.2⟩
  | pass loc side level execPrice shares _ os os' o ho hr hs hl hp =>
    have hown := h.own ho
    refine ⟨h.books, h.exchanged [{ o with ahead := o.ahead - shares }] ho fun x hx => ?_, h.tape⟩
    rw [List.mem_singleton.mp hx]
    exact ⟨hown.leaves_le, hown.leaves_pos, hown.price⟩
  | fill loc side level execPrice shares _ os os' o ho hr hs hl hlt hq =>
    have hown := h.own ho
    have hpos := hown.leaves_pos hr
    obtain ⟨hp₁, hp₂⟩ := printPrice_bounds hown hl hk
    refine ⟨h.books, h.exchanged [({ o with ahead := 0 } : Order).fill (min o.leaves (shares - o.ahead))] ho fun x hx => ?_,
      h.tape.execute hown kAdded (by omega) (Nat.min_le_left _ _) hp₁ hp₂⟩
    rw [List.mem_singleton.mp hx]
    refine ⟨(Nat.sub_le _ _).trans hown.leaves_le, fun _ => ?_, hown.price⟩
    show 1 ≤ o.leaves - min o.leaves (shares - o.ahead)
    omega
  | fillAll loc side level execPrice shares _ os os' o ho hr hs hl hlt =>
    have hown := h.own ho
    obtain ⟨hp₁, hp₂⟩ := printPrice_bounds hown hl hk
    exact ⟨h.books, h.exchanged [] ho fun x hx => (by cases hx),
      h.tape.execute hown kAdded (hown.leaves_pos hr) (Nat.le_refl _) hp₁ hp₂⟩

/-- A market message keeps offers above zero. -/
theorem market (h : d.Payable n) {m : Itch.Message} (hw : m.WireSized) (hm : Charges d.books m) :
    ({ d with books := (d.books.on m).1 } : Floor).Payable n := by
  refine ⟨h.books.on m fun s p k he => ?_, h.orders, h.tape⟩
  cases m with
  | addOrder m =>
    cases he
    exact ⟨⟨hm, hw.2.2.2⟩, hw.2.2.1⟩
  | orderReplace m =>
    obtain ⟨i, hi, he⟩ := Option.map_eq_some_iff.mp he
    cases he
    exact ⟨⟨hm i hi, hw.2⟩, hw.1⟩
  | stockDirectory m => cases he
  | orderExecuted m => cases he
  | orderExecutedPrice m => cases he
  | orderCancel m => cases he
  | orderDelete m => cases he
  | trade m => cases he
  | systemEvent m => cases he

/-- **The simulator** says only what can be booked. -/
theorem chronicle (n : Nat) : Chronicle (fun mb m => m.WireSized ∧ Charges mb m) Prices (Floor.Payable n) where
  tick := fun d clock h => ⟨h.books, h.orders, h.tape⟩
  books := fun d m hw h => h.market hw.1 hw.2
  request := fun m sent => trivial
  caused := fun d m k hw h hk => by
    cases hk with
    | add m => trivial
    | replaced m i hi => trivial
    | executed m i hi => exact ⟨(h.books.order hi).2.2, fun _ => .inl rfl⟩
    | executedPrice m i hi => exact ⟨hw.1.2.2, fun hs => .inr (hw.2 i hi hs)⟩
  move := fun k d d' hk hm h => move hk hm h

end Floor.Payable

namespace State

/-- A message of the feed comes from the decoder and brings no zero price to where it could be traded. -/
def Chargeable (p : State × List (Call × Answer)) (c : Call) : Prop :=
  Delivered c ∧ ∀ m now, c = .onItch (some m) now → Charges p.1.sim.venue.books m

/-- **Every fill can be booked**, in every run on messages of the decoder that bring no zero price to where it could be
traded. -/
theorem fills_are_bookable (config : SimConfig) (cs : List Call) (s : State) (log : List (Call × Answer))
    (hr : run next (⟨.new config, none⟩, []) cs = some (s, log)) (hw : Along next Chargeable (⟨.new config, none⟩, []) cs) :
    ∀ r ∈ s.sim.generated, ∀ x, r.msg = .executed x → Bookable x := by
  have hheeds : Along next (Heeds fun mb m => m.WireSized ∧ Charges mb m) (⟨.new config, none⟩, []) cs := by
    refine along_imp (fun p c hc m now he => ⟨?_, hc.2 m now he⟩) hw
    obtain ⟨b, hb⟩ := hc.1 m now he
    exact Itch.decode_wireSized hb
  obtain ⟨-, -, xs, ⟨hs, -, hp⟩, hsub, -⟩ := run_chronicled (Floor.Payable.chronicle config.books.maxLevelsPerSide)
    ⟨.new config.books, fun o ho => (by cases ho), fun x hx => (by cases hx)⟩ hr hheeds
  intro r hm x hx
  have hmem : r.said ∈ xs := hsub.subset (List.mem_map_of_mem hm)
  exact hp.tape r.said (List.mem_append_left _ hmem) x hx

/-- A buy order takes an offer at `price`. -/
def takeOffer (price : Int) : List Call :=
  [.onItch (some oneListing) 1,
    .onItch (some (.addOrder ⟨⟨1, 0, 0⟩, 1, .sell, 100, .ofText [65, 66, 67, 68], price, false, [0, 0, 0, 0]⟩)) 2,
    .send (.enter ⟨Ouch.Token.fromId 1, .buy, false, 10, .ofText [65, 66, 67, 68], 10, 99999,
      Ouch.Firm.blank, 89, 80, 78, 0, 78, 32⟩) 3,
    .advance 60000]

/-- The fills of a run. -/
def executions (s : State) : List (Nat × Int) :=
  s.sim.generated.filterMap fun r =>
    match r.msg with
    | .executed x => some (x.shares, x.price)
    | _ => none

theorem mem_executions {s : State} {q : Nat} {p : Int} (h : (q, p) ∈ s.executions) :
    ∃ r ∈ s.sim.generated, ∃ x, r.msg = .executed x ∧ x.shares = q ∧ x.price = p := by
  obtain ⟨r, hr, hx⟩ := List.mem_filterMap.mp h
  split at hx
  · rename_i x hm
    cases hx
    exact ⟨r, hr, x, hm, rfl, rfl⟩
  · cases hx

theorem takeOffer_delivered (price : Int) (b : List Byte)
    (hb : Itch.decode b =
      .ok (.addOrder ⟨⟨1, 0, 0⟩, 1, .sell, 100, .ofText [65, 66, 67, 68], price, false, [0, 0, 0, 0]⟩)) :
    ∀ c ∈ takeOffer price, Delivered c := by
  intro c hc m now h
  subst h
  simp only [takeOffer, List.mem_cons, Call.onItch.injEq, Option.some.injEq, List.not_mem_nil, reduceCtorEq, or_false] at hc
  rcases hc with ⟨rfl, -⟩ | ⟨rfl, -⟩
  · exact ⟨[82, 0, 1, 0, 0, 0, 0, 0, 0, 0, 0, 65, 66, 67, 68, 32, 32, 32, 32, 0, 0, 0, 0, 0, 100, 0, 0, 0, 0, 0, 0, 0, 0, 0,
      0, 0, 0, 0, 0], rfl⟩
  · exact ⟨b, hb⟩

/-- An offer at zero is taken at zero. -/
theorem fill_at_zero_not_bookable :
    ∃ s log, run next (⟨.new { maxOrders := 4 }, none⟩, []) (takeOffer 0) = some (s, log) ∧
      (∀ c ∈ takeOffer 0, Delivered c) ∧ ∃ r ∈ s.sim.generated, ∃ x, r.msg = .executed x ∧ ¬Bookable x := by
  have hview : (run next (⟨.new { maxOrders := 4 }, none⟩, []) (takeOffer 0)).map (fun p => p.1.executions) = some [(10, 0)] := by
    decide +kernel
  obtain ⟨⟨s, log⟩, hr, hv⟩ := Option.map_eq_some_iff.mp hview
  obtain ⟨r, hm, x, hx, -, hp⟩ := mem_executions (s := s) (q := 10) (p := 0) (by rw [hv]; exact List.mem_cons_self)
  refine ⟨s, log, hr, takeOffer_delivered 0 [65, 0, 1, 0, 0, 0, 0, 0, 0, 0, 0, 0, 0, 0, 0, 0, 0, 0, 1, 83, 0, 0, 0, 100, 65, 66, 67,
    68, 32, 32, 32, 32, 0, 0, 0, 0] (by decide +kernel), r, hm, x, hx, fun hb => ?_⟩
  have := hb.2.2.1
  omega

theorem fills_are_bookable_at_five :
    ∃ s log, run next (⟨.new { maxOrders := 4 }, none⟩, []) (takeOffer 5) = some (s, log) ∧
      ∃ r ∈ s.sim.generated, ∃ x, r.msg = .executed x ∧ x.price = 5 ∧ Bookable x := by
  have hview : (run next (⟨.new { maxOrders := 4 }, none⟩, []) (takeOffer 5)).map (fun p => p.1.executions) = some [(10, 5)] := by
    decide +kernel
  obtain ⟨⟨s, log⟩, hr, hv⟩ := Option.map_eq_some_iff.mp hview
  obtain ⟨r, hm, x, hx, -, hp⟩ := mem_executions (s := s) (q := 10) (p := 5) (by rw [hv]; exact List.mem_cons_self)
  have hdel := takeOffer_delivered 5 [65, 0, 1, 0, 0, 0, 0, 0, 0, 0, 0, 0, 0, 0, 0, 0, 0, 0, 1, 83, 0, 0, 0, 100, 65,
    66, 67, 68, 32, 32, 32, 32, 0, 0, 0, 5] (by decide +kernel)
  have hcharges : ∀ c ∈ takeOffer 5, ∀ mb m now, c = .onItch (some m) now → Charges mb m := by
    intro c hc mb m now h
    subst h
    simp only [takeOffer, oneListing, List.mem_cons, Call.onItch.injEq, Option.some.injEq, List.not_mem_nil, reduceCtorEq,
      or_false] at hc
    rcases hc with ⟨rfl, -⟩ | ⟨rfl, -⟩
    · trivial
    · exact fun _ => (by decide)
  have hw : Along next Chargeable (⟨.new { maxOrders := 4 }, none⟩, []) (takeOffer 5) :=
    (along_of_forall hdel _).and (along_imp (fun p c hc m now he => hc p.1.sim.venue.books m now he) (along_of_forall hcharges _))
  exact ⟨s, log, hr, r, hm, x, hx, hp, fills_are_bookable { maxOrders := 4 } (takeOffer 5) s log hr hw r hm x hx⟩

end State
end OptiTrade.Sim
