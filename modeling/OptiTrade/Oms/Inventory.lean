import OptiTrade.Oms.HardLimits
import OptiTrade.Oms.Listener

/-! # What could fill, and who keeps track of the orders

The two ends of an instrument are its position if all the working buys filled, and if all the working sells
did. Only a submit and a replace widen them. A client that knows the id of its only order of each instrument
and side knows by how much. -/

namespace OptiTrade.Oms
set_option autoImplicit false

open Finset
open Risk (RiskEngine kInt64Max)

namespace OrderManager
variable {m m' : OrderManager}

def pos (m : OrderManager) (l : Nat) : Int := (m.risk.slots l).pos.qty

/-- The position that the risk engine shows. -/
def seen (m : OrderManager) (l : Nat) : Int := (m.risk.position l).qty

theorem seen_eq {l : Nat} (hl : l < m.risk.locates) : m.seen l = m.pos l := by
  unfold seen pos RiskEngine.position
  rw [if_pos hl]

theorem seen_congr (hp : ∀ l, m'.pos l = m.pos l) (hl : m'.risk.locates = m.risk.locates) : m'.seen = m.seen := by
  funext l
  by_cases h : l < m.risk.locates
  · rw [seen_eq h, seen_eq (hl ▸ h), hp]
  · unfold seen RiskEngine.position
    rw [if_neg h, if_neg (hl ▸ h)]

/-- Shares held for the working orders of an instrument and side. -/
def shares (m : OrderManager) (l : Nat) (sd : Side) : Int := (m.risk.slots l).openShares sd

/-- The position within `cap` in both directions, whichever working orders fill. -/
structure Capped (cap : Int) (m : OrderManager) : Prop where
  upper : ∀ l, m.pos l + m.shares l .buy ≤ cap
  lower : ∀ l, -cap ≤ m.pos l - m.shares l .sell

/-- Neither end has moved outwards. -/
structure Eases (m m' : OrderManager) : Prop where
  upper : ∀ l, m'.pos l + m'.shares l .buy ≤ m.pos l + m.shares l .buy
  lower : ∀ l, m.pos l - m.shares l .sell ≤ m'.pos l - m'.shares l .sell

theorem Eases.of_same (hp : ∀ l, m'.pos l = m.pos l) (hs : ∀ l sd, m'.shares l sd = m.shares l sd) : Eases m m' :=
  ⟨fun l => by rw [hp, hs], fun l => by rw [hp, hs]⟩

theorem Capped.eases {cap : Int} (h : Capped cap m) (he : Eases m m') : Capped cap m' :=
  ⟨fun l => (he.upper l).trans (h.upper l), fun l => (h.lower l).trans (he.lower l)⟩

theorem Inv.shares_nonneg (h : Inv m) (l : Nat) (sd : Side) : 0 ≤ m.shares l sd := h.ledger.shares_nonneg l sd

theorem Capped.pos_le {cap : Int} (hc : Capped cap m) (h : Inv m) (l : Nat) : -cap ≤ m.pos l ∧ m.pos l ≤ cap := by
  have h₁ := hc.upper l
  have h₂ := hc.lower l
  have h₃ := h.shares_nonneg l .buy
  have h₄ := h.shares_nonneg l .sell
  exact ⟨by omega, by omega⟩

/-! ## Reports and cancels -/

theorem Inv.executed_pos (h : Inv m) {i : Nat} (hi : i < m.fresh) {x : Ouch.Executed} (hbad : ¬badExecution (m.slots i) x)
    (now l : Nat) : ((m.booked i x).settle i ((m.slots i).execute x now) (some .filled)).pos l =
      m.pos l + if l = (m.slots i).info.req.locate then
        (if (m.slots i).info.req.side = .buy then m.movedBy i x else -m.movedBy i x) else 0 := by
  obtain ⟨hq, hprice, _⟩ := execute_numbers (h.entries i hi).sizes now hbad
  unfold pos
  rw [settle_pos]
  by_cases hl : l = (m.slots i).info.req.locate
  · rw [hl, booked_qty h hi hbad, if_pos rfl]
  · rw [booked_risk, RiskEngine.onFill_qty (h.ledger.locate i hi) (by omega) hprice, if_neg hl, if_neg hl, add_zero]

/-- **A report or a cancel moves neither end outwards.** -/
theorem Eases.releases (h : Inv m) (hrange : ∀ l, -kInt64Max ≤ m.pos l ∧ m.pos l ≤ kInt64Max) (hr : Releases m m') :
    Eases m m' := by
  cases hr with
  | same => exact .of_same (fun _ => rfl) fun _ _ => rfl
  | unknown => exact .of_same (fun _ => rfl) fun _ _ => rfl
  | late => exact .of_same (fun _ => rfl) fun _ _ => rfl
  | invalid => exact .of_same (fun _ => rfl) fun _ _ => rfl
  | settled i m₁ e o hi hw hm hrisk hsame hsz hph hnew =>
    have hpos : ∀ l, (m₁.settle i e o).pos l = m.pos l := fun l => by
      unfold pos
      rw [settle_pos, hrisk]
    have hsh : ∀ l sd, (m₁.settle i e o).shares l sd ≤ m.shares l sd := fun l sd => by
      unfold shares
      rw [settle_shares h hi hw hm hsame hsz hph]
      split_ifs <;> omega
    refine ⟨fun l => ?_, fun l => ?_⟩
    · have := hsh l .buy
      rw [hpos]
      omega
    · have := hsh l .sell
      rw [hpos]
      omega
  | executed i x now hi hw hbad hle =>
    have hlife := h.entries i hi
    have hnew := newReserved_execute hlife hw now hbad hle
    obtain ⟨h₀, h₁⟩ := movedBy_bounds (x := x) (hrange (m.slots i).info.req.locate)
    have hsh := settle_shares (e := (m.slots i).execute x now) (o := some .filled) h hi hw (Near.booked m i x)
      ⟨rfl, rfl, rfl, rfl⟩ (hlife.sizes.execute now hbad) (hlife.phase.execute hw x now)
    have hpos := h.executed_pos hi hbad now
    -- the end on the side of the order stays where it was or comes in, the other one comes in
    refine ⟨fun l => ?_, fun l => ?_⟩
    · have hs := hsh l .buy
      rw [hpos]
      unfold shares
      rw [hs]
      by_cases hl : l = (m.slots i).info.req.locate
      · cases hsd : (m.slots i).info.req.side <;> simp [hl] <;> omega
      · simp [hl]
    · have hs := hsh l .sell
      rw [hpos]
      unfold shares
      rw [hs]
      by_cases hl : l = (m.slots i).info.req.locate
      · cases hsd : (m.slots i).info.req.side <;> simp [hl] <;> omega
      · simp [hl]

/-- No order has come in: what works now worked before, under the same id. -/
def Fewer (m m' : OrderManager) : Prop := ∀ i < m'.fresh, (m'.slots i).working = true →
  i < m.fresh ∧ (m.slots i).working = true ∧ (m'.slots i).info.id = (m.slots i).info.id ∧
    (m'.slots i).info.req.locate = (m.slots i).info.req.locate ∧ (m'.slots i).info.req.side = (m.slots i).info.req.side

theorem Fewer.of_same (hf : m'.fresh = m.fresh) (hs : m'.slots = m.slots) : Fewer m m' := by
  intro i hi hw
  rw [hs] at hw ⊢
  exact ⟨hf ▸ hi, hw, rfl, rfl, rfl⟩

theorem Fewer.settle {i : Nat} {m₁ : OrderManager} {e : Entry} {o : Option OrderStatus} (hi : i < m.fresh)
    (hw : (m.slots i).working = true) (hm : Near m m₁) (hsame : SameOrder (m.slots i) e) : Fewer m (m₁.settle i e o) := by
  intro j hj hjw
  rw [(m₁.settle_table i e o).fresh, hm.table.fresh] at hj
  have hkeep : ((m₁.settle i e o).slots i).info.id = (m.slots i).info.id ∧
      ((m₁.settle i e o).slots i).info.req.locate = (m.slots i).info.req.locate ∧
      ((m₁.settle i e o).slots i).info.req.side = (m.slots i).info.req.side := by
    by_cases hl : e.info.leavesQty = 0
    · rw [settle_slots_dead hm hl, Function.update_self]
      exact ⟨hsame.id, hsame.locate, hsame.side⟩
    · rw [settle_slots_live hm hl, Function.update_self]
      exact ⟨hsame.id, hsame.locate, hsame.side⟩
  by_cases hji : j = i
  · subst hji
    exact ⟨hi, hw, hkeep⟩
  · have hsl : (m₁.settle i e o).slots j = m.slots j := by
      obtain ⟨e', _, hsl⟩ := m₁.settle_slots i e o
      rw [hsl, Function.update_of_ne hji, hm.slots]
    rw [hsl] at hjw ⊢
    exact ⟨hj, hjw, rfl, rfl, rfl⟩

theorem Fewer.releases (hr : Releases m m') : Fewer m m' := by
  cases hr with
  | same => exact .of_same rfl rfl
  | unknown => exact .of_same rfl rfl
  | late => exact .of_same rfl rfl
  | invalid => exact .of_same rfl rfl
  | settled i m₁ e o hi hw hm _ hsame _ _ _ => exact .settle hi hw hm hsame
  | executed i x now hi hw _ _ => exact .settle hi hw (Near.booked m i x) ⟨rfl, rfl, rfl, rfl⟩

/-! ## Keeping track of the orders -/

/-- `ids` names the working order of every instrument and side that has one. -/
def Tracks (ids : Nat → Side → Nat) (m : OrderManager) : Prop := ∀ i < m.fresh, (m.slots i).working = true →
  (m.slots i).info.id = ids (m.slots i).info.req.locate (m.slots i).info.req.side

/-- No working order has this id. -/
def Over (m : OrderManager) (id : Nat) : Prop := ∀ i < m.fresh, (m.slots i).working = true → (m.slots i).info.id ≠ id

/-- No order of this instrument and side works. -/
def Idle (m : OrderManager) (l : Nat) (sd : Side) : Prop := ∀ i < m.fresh, (m.slots i).working = true →
  ¬((m.slots i).info.req.locate = l ∧ (m.slots i).info.req.side = sd)

theorem Inv.over_of_find (h : Inv m) {id : Nat} (hf : ∀ o, m.find id = some o → isTerminal o.status = true) :
    m.Over id := by
  intro i hi hw hid
  have ht := hf _ (h.find_some.mpr ⟨i, hi, hid, rfl⟩)
  simp [Entry.working, ht] at hw

theorem Inv.over_of_slot (h : Inv m) {i : Nat} (hi : i < m.fresh) (ht : isTerminal (m.slots i).info.status = true) :
    m.Over (m.slots i).info.id := by
  refine h.over_of_find fun o ho => ?_
  rw [h.find_some.mpr ⟨i, hi, rfl, rfl⟩] at ho
  rw [← Option.some.inj ho]
  exact ht

theorem Over.zero (h : Inv m) : m.Over 0 := by
  intro i hi _ hid
  have := h.ids.id_pos i hi
  omega

variable {ids ids' : Nat → Side → Nat}

theorem Tracks.fewer (h : Tracks ids m) (hf : Fewer m m') : Tracks ids m' := by
  intro i hi hw
  obtain ⟨hi', hw', hid, hl, hsd⟩ := hf i hi hw
  rw [hid, hl, hsd]
  exact h i hi' hw'

theorem Tracks.forget (h : Tracks ids m) (hids : ∀ l sd, ids' l sd = ids l sd ∨ m.Over (ids l sd)) : Tracks ids' m := by
  intro i hi hw
  have hid := h i hi hw
  rcases hids (m.slots i).info.req.locate (m.slots i).info.req.side with heq | hover
  · rw [heq]
    exact hid
  · exact absurd hid (hover i hi hw)

theorem Tracks.idle (h : Tracks ids m) {l : Nat} {sd : Side} (ho : m.Over (ids l sd)) : m.Idle l sd := by
  rintro i hi hw ⟨rfl, rfl⟩
  exact ho i hi hw (h i hi hw)

theorem Inv.slot_unique (h : Inv m) {i j : Nat} (hi : i < m.fresh) (hj : j < m.fresh)
    (hij : (m.slots i).info.id = (m.slots j).info.id) : i = j := by
  have h₁ := (h.ids.find _ i).mpr ⟨hi, hij⟩
  have h₂ := (h.ids.find _ j).mpr ⟨hj, rfl⟩
  exact Option.some.inj (h₁.symm.trans h₂)

/-- **At most one order** of an instrument and side works. -/
theorem Tracks.unique (h : Tracks ids m) (hinv : Inv m) {i j : Nat} (hi : i < m.fresh) (hj : j < m.fresh)
    (hwi : (m.slots i).working = true) (hwj : (m.slots j).working = true)
    (hl : (m.slots i).info.req.locate = (m.slots j).info.req.locate)
    (hsd : (m.slots i).info.req.side = (m.slots j).info.req.side) : i = j := by
  refine hinv.slot_unique hi hj ?_
  rw [h i hi hwi, h j hj hwj, hl, hsd]

theorem Idle.shares {l : Nat} {sd : Side} (hi : m.Idle l sd) (h : Inv m) : m.shares l sd = 0 := by
  unfold OrderManager.shares
  rw [h.ledger.shares, Finset.sum_eq_zero]
  · rfl
  · intro i hm
    unfold Entry.held
    rw [if_neg]
    rintro ⟨hw, hkey⟩
    exact hi i (mem_range.mp hm) hw hkey

theorem Tracks.shares (ht : Tracks ids m) (h : Inv m) {i : Nat} (hi : i < m.fresh) (hw : (m.slots i).working = true) :
    m.shares (m.slots i).info.req.locate (m.slots i).info.req.side = (m.slots i).reserved := by
  unfold OrderManager.shares
  rw [h.ledger.shares, Finset.sum_eq_single i]
  · simp [Entry.held, hw]
  · intro j hj hne
    unfold Entry.held
    rw [if_neg]
    rintro ⟨hwj, hl, hsd⟩
    exact hne (ht.unique h (mem_range.mp hj) hi hwj hw hl hsd)
  · exact fun hni => absurd (mem_range.mpr hi) hni

theorem Inv.idle_of_unknown (h : Inv m) {l : Nat} (hl : ¬l < m.risk.locates) (sd : Side) : m.Idle l sd := by
  rintro i hi _ ⟨rfl, _⟩
  exact hl (h.ledger.locate i hi)

theorem Capped.seen {cap : Int} (hc : Capped cap m) (h : Inv m) (h₀ : 0 ≤ cap) (l : Nat) :
    m.seen l + ((∑ i ∈ range m.fresh, (m.slots i).held l .buy : Nat) : Int) ≤ cap ∧
      -cap ≤ m.seen l - ((∑ i ∈ range m.fresh, (m.slots i).held l .sell : Nat) : Int) ∧
      |m.seen l| ≤ cap := by
  have hshares : ∀ sd, ((∑ i ∈ range m.fresh, (m.slots i).held l sd : Nat) : Int) = m.shares l sd :=
    fun sd => (h.ledger.shares l sd).symm
  rw [hshares, hshares, abs_le]
  by_cases hl : l < m.risk.locates
  · rw [OrderManager.seen_eq hl]
    exact ⟨hc.upper l, hc.lower l, hc.pos_le h l⟩
  · have hz : m.seen l = 0 := by
      unfold OrderManager.seen RiskEngine.position
      rw [if_neg hl]
    rw [hz, (h.idle_of_unknown hl .buy).shares h, (h.idle_of_unknown hl .sell).shares h]
    omega

/-! ## A new order -/

theorem submit_refused (m : OrderManager) (req : OrderRequest) (now : Nat) (symbol : Nat → Symbol)
    (reference : Nat → Int) (gateway : Ouch.Inbound → Bool)
    (hu : (m.submit req now symbol reference gateway).update = none) :
    (m.submit req now symbol reference gateway).result.status ≠ .ok := by
  unfold submit at hu ⊢
  dsimp only at hu ⊢
  split_ifs at hu ⊢ <;> simp

/-- There is room for `qty` more shares on one side. -/
def Room (cap pos : Int) (sd : Side) (qty : Nat) : Prop :=
  match sd with
  | .buy => pos + qty ≤ cap
  | .sell => -cap ≤ pos - qty

section
variable {req : OrderRequest} {now : Nat} {reference : Nat → Int} {tokens : BoundedMap Nat Nat} (h : Inv m)
  (hs : Submittable m req now reference tokens)

include h hs

omit h hs in
theorem admitted_pos (l : Nat) : (m.admitted req now tokens).pos l = m.pos l := by
  unfold pos
  rw [admitted_risk, RiskEngine.onOrderOpen_pos, admitOrder_positions m.risk now]

omit h hs in
theorem admitted_locates : (m.admitted req now tokens).risk.locates = m.risk.locates := by
  rw [admitted_risk, RiskEngine.onOrderOpen_locates, (RiskEngine.admitOrder_sameLedger m.risk now).locates]

omit h hs in
theorem admitted_seen : (m.admitted req now tokens).seen = m.seen :=
  seen_congr (fun l => admitted_pos l) admitted_locates

theorem admitted_shares (l : Nat) (sd : Side) : (m.admitted req now tokens).shares l sd =
    m.shares l sd + if l = req.locate ∧ sd = req.side then (req.qty : Int) else 0 := by
  have hsame := RiskEngine.admitOrder_sameLedger m.risk now
  have hqty : req.qty ≠ 0 := by have := hs.qty_pos; omega
  have hle := hs.qty_le
  have hnn := h.ledger.shares_nonneg req.locate req.side
  have hhi := h.ledger.shares_le h.ids req.locate req.side
  unfold shares
  rw [admitted_risk, RiskEngine.onOrderOpen_shares (by rw [hsame.locates]; exact hs.locate_lt) hqty
    (by rw [hsame.shares]; exact hnn)
    (by rw [hsame.shares]; unfold Risk.kInt64Max; unfold kMaxOrderQty at hle; omega), hsame.shares]

theorem admitted_slots {i : Nat} (hi : i < (m.admitted req now tokens).fresh) :
    (i = m.nextSlot ∧ (m.admitted req now tokens).slots i = m.newEntry req now) ∨
    (i < m.fresh ∧ (m.admitted req now tokens).slots i = m.slots i) := by
  by_cases hin : i = m.nextSlot
  · exact .inl ⟨hin, by rw [hin]; exact Function.update_self ..⟩
  · refine .inr ⟨?_, Function.update_of_ne hin _ _⟩
    rw [admitted_fresh] at hi
    rcases h.nextSlot_cases hs.slot with ⟨h₁, h₂⟩ | ⟨h₁, _⟩
    · rw [if_pos h₁] at hi
      omega
    · rwa [if_neg (by omega)] at hi

/-- The only order of its instrument and side, with room for it. -/
theorem Capped.admitted {cap : Int} (hc : Capped cap m) (hidle : m.Idle req.locate req.side)
    (hroom : Room cap (m.pos req.locate) req.side req.qty) : Capped cap (m.admitted req now tokens) := by
  have hzero := hidle.shares h
  refine ⟨fun l => ?_, fun l => ?_⟩
  · have hup := hc.upper l
    rw [admitted_pos, admitted_shares h hs]
    split_ifs with hk
    · obtain ⟨rfl, hsd⟩ := hk
      rw [← hsd] at hzero hroom
      rw [hzero, zero_add]
      exact hroom
    · omega
  · have hlo := hc.lower l
    rw [admitted_pos, admitted_shares h hs]
    split_ifs with hk
    · obtain ⟨rfl, hsd⟩ := hk
      rw [← hsd] at hzero hroom
      rw [hzero, zero_add]
      exact hroom
    · omega

theorem Tracks.admitted (ht : Tracks ids m) (hnew : ids' req.locate req.side = m.nextId)
    (hkeep : ∀ i < m.fresh, (m.slots i).working = true → ids' (m.slots i).info.req.locate (m.slots i).info.req.side =
      ids (m.slots i).info.req.locate (m.slots i).info.req.side) : Tracks ids' (m.admitted req now tokens) := by
  intro i hi hw
  rcases admitted_slots h hs hi with ⟨_, he⟩ | ⟨hi', he⟩
  · rw [he]
    exact hnew.symm
  · rw [he] at hw ⊢
    rw [hkeep i hi' hw]
    exact ht i hi' hw

end

/-! ## A replace -/

section
variable {i newQty now : Nat} {newPrice : Int} {reference : Nat → Int} {tokens : BoundedMap Nat Nat} (h : Inv m)
  (hi : i < m.fresh) (hr : Replaceable m i newPrice newQty now reference tokens)

include h hi hr

omit h in
theorem Fewer.replaced : Fewer m ((m.offered i newQty now tokens).settle i
    ((m.slots i).askReplace m.nextToken newPrice newQty now) none) :=
  .settle hi hr.working (Near.offered m i newQty now tokens) ⟨rfl, rfl, rfl, rfl⟩

omit h hi hr in
theorem replaced_pos (l : Nat) : ((m.offered i newQty now tokens).settle i
    ((m.slots i).askReplace m.nextToken newPrice newQty now) none).pos l = m.pos l := by
  unfold pos
  rw [settle_pos, offered_positions m i newQty now tokens l]

omit h hi hr in
theorem replaced_seen : ((m.offered i newQty now tokens).settle i
    ((m.slots i).askReplace m.nextToken newPrice newQty now) none).seen = m.seen := by
  refine seen_congr (fun l => replaced_pos l) ?_
  rw [(settle_limits _ _ _ _).2, (Near.offered m i newQty now tokens).ledger.locates]

theorem replaced_shares (l : Nat) (sd : Side) : ((m.offered i newQty now tokens).settle i
    ((m.slots i).askReplace m.nextToken newPrice newQty now) none).shares l sd = m.shares l sd +
      if l = (m.slots i).info.req.locate ∧ sd = (m.slots i).info.req.side then
        ((m.slots i).growth newQty : Int) else 0 := by
  obtain ⟨-, -, -, hph, hnew⟩ := newReserved_askReplace h hi hr
  have hsz := (h.entries i hi).sizes.askReplace m.nextToken newPrice newQty now
  have hsame : SameOrder (m.slots i) ((m.slots i).askReplace m.nextToken newPrice newQty now) := ⟨rfl, rfl, rfl, rfl⟩
  unfold shares
  rw [settle_shares h hi hr.working (Near.offered m i newQty now tokens) hsame hsz fun _ => hph, hnew]
  push_cast
  rw [add_sub_cancel_left]

/-- The only order of its instrument and side grows to what there is room for, or does not grow. -/
theorem Capped.replaced {cap : Int} (hc : Capped cap m) (ht : Tracks ids m)
    (hroom : Room cap (m.pos (m.slots i).info.req.locate) (m.slots i).info.req.side (newQty - (m.slots i).info.cumQty)) :
    Capped cap ((m.offered i newQty now tokens).settle i
      ((m.slots i).askReplace m.nextToken newPrice newQty now) none) := by
  obtain ⟨hres, -, hgrowth, -, -⟩ := newReserved_askReplace h hi hr
  have hown := ht.shares h hi hr.working
  have hshares := replaced_shares h hi hr
  refine ⟨fun l => ?_, fun l => ?_⟩
  · have hup := hc.upper l
    rw [replaced_pos, hshares]
    split_ifs with hk
    · obtain ⟨rfl, hsd⟩ := hk
      rw [← hsd] at hown hroom
      have hroom : m.pos _ + ((newQty - (m.slots i).info.cumQty : Nat) : Int) ≤ cap := hroom
      omega
    · omega
  · have hlo := hc.lower l
    rw [replaced_pos, hshares]
    split_ifs with hk
    · obtain ⟨rfl, hsd⟩ := hk
      rw [← hsd] at hown hroom
      have hroom : -cap ≤ m.pos _ - ((newQty - (m.slots i).info.cumQty : Nat) : Int) := hroom
      omega
    · omega

end

theorem Inv.perform_seen (h : Inv m) {c : Call} (hc : m.Fits c) (hr : ∀ x now, c ≠ .report (.executed x) now) :
    (m.perform c).seen = m.seen := by
  refine seen_congr (fun l => ?_) (h.perform_limits hc).2
  unfold pos
  cases h.touched hc with
  | none _ _ _ hp => rw [hp l]
  | settled i m₁ e o _ _ _ hp _ _ hout => rw [hout, settle_pos, hp l]
  | executed i x now hcx _ _ _ _ => exact absurd hcx (hr x now)
  | admitted req now reference tokens _ hout =>
    rw [hout]
    exact admitted_pos l

end OrderManager

namespace Session
variable {s s' : Session} {e : Event} {fx : List Effect}

theorem Ok.step_seen (h : Ok s) (hs : s.step e = some (s', fx)) (hr : ∀ r now, e ≠ .report r now) :
    s'.manager.seen = s.manager.seen := by
  cases (h.step hs).1 with
  | stack hm _ _ => rw [hm]
  | call c hc hm he _ =>
    rw [hm]
    exact h.inv.perform_seen hc fun x now hcr => hr _ now ((he _ now).mp hcr)

/-- A step that neither submits nor replaces is a report or a cancel for the manager, or nothing. -/
inductive Lightens (m : OrderManager) : OrderManager → Prop
  | released {m' : OrderManager} : m.Releases m' → Lightens m m'
  | risk (r : Risk.RiskEngine) : (∀ l, (r.slots l).pos.qty = (m.risk.slots l).pos.qty) →
      (∀ l, (r.slots l).openShares = (m.risk.slots l).openShares) → r.locates = m.risk.locates →
      Lightens m { m with risk := r }

theorem Lightens.eases {m m' : OrderManager} (hl : Lightens m m') (h : m.Inv)
    (hrange : ∀ l, -kInt64Max ≤ m.pos l ∧ m.pos l ≤ kInt64Max) : m.Eases m' ∧ m.Fewer m' := by
  cases hl with
  | released hr => exact ⟨.releases h hrange hr, .releases hr⟩
  | risk r hp hs _ =>
    exact ⟨.of_same hp fun l sd => congrFun (hs l) sd, .of_same rfl rfl⟩

theorem Lightens.nextId {m m' : OrderManager} (hl : Lightens m m') : m'.nextId = m.nextId := by
  cases hl with
  | released hr =>
    cases hr with
    | same => rfl
    | unknown => rfl
    | late => rfl
    | invalid => rfl
    | settled i m₁ e o _ _ hm _ _ _ _ _ => exact (m₁.settle_table i e o).nextId.trans hm.table.nextId
    | executed i x now _ _ _ _ =>
      exact ((m.booked i x).settle_table i _ _).nextId.trans (OrderManager.Near.booked m i x).table.nextId
  | risk r _ _ _ => rfl

theorem Lightens.locates {m m' : OrderManager} (hl : Lightens m m') : m'.risk.locates = m.risk.locates := by
  cases hl with
  | released hr =>
    cases hr with
    | same => rfl
    | unknown => rfl
    | late => rfl
    | invalid => rfl
    | settled i m₁ e o _ _ hm _ _ _ _ _ => exact (m₁.settle_limits i e o).2.trans hm.ledger.locates
    | executed i x now _ _ _ _ =>
      exact ((m.booked i x).settle_limits i _ _).2.trans (OrderManager.Near.booked m i x).ledger.locates
  | risk r _ _ hloc => exact hloc

theorem Ok.step_lightens (h : Ok s) (hs : s.step e = some (s', fx)) (hsub : ∀ req now w, e ≠ .submit req now w)
    (hrep : ∀ id p q now w, e ≠ .replace id p q now w) (hx : s.withinLeaves e) : Lightens s.manager s'.manager := by
  cases e with
  | submit req now w => exact absurd rfl (hsub req now w)
  | replace id p q now w => exact absurd rfl (hrep id p q now w)
  | cancel id now w =>
    simp only [Session.step, Option.ite_none_right_eq_some, Option.some.injEq] at hs
    have hm := finishCall_manager s (s.manager.cancel id now w.gateway) now w
    rw [hs.2] at hm
    have hm : s'.manager = _ := hm
    rw [hm]
    unfold OrderManager.cancel
    cases hslot : s.manager.slotOf id with
    | none => exact .released .same
    | some i => exact .released (h.inv.releases_cancelEntry ((h.inv.ids.find id i).mp hslot).1 now w.gateway)
  | cancelAll now =>
    simp only [Session.step, Option.ite_none_right_eq_some, Option.some.injEq, Prod.mk.injEq] at hs
    obtain ⟨_, rfl, _⟩ := hs
    exact .released .same
  | advance w =>
    simp only [Session.step] at hs
    split at hs
    · rename_i cursor last sent now rest hst
      have hs : _ = s' := congrArg Prod.fst (Option.some.inj hs)
      rw [← hs]
      unfold Session.sweep
      cases cursor with
      | none => exact .released .same
      | some i =>
        obtain ⟨hi, _⟩ := h.cursors i last sent now (by rw [hst]; exact List.mem_cons_self)
        dsimp only
        by_cases hlast : last < (s.manager.slots i).info.id
        · rw [if_pos hlast]
          exact .released .same
        · rw [if_neg hlast]
          by_cases hpc : (s.manager.slots i).info.status ≠ .pendingCancel
          · rw [if_pos hpc, finishCall_manager]
            exact .released (h.inv.releases_cancelEntry hi now w.gateway)
          · rw [if_neg hpc]
            exact .released .same
    · cases hs
  | ret =>
    simp only [Session.step] at hs
    split at hs
    · obtain ⟨rfl, _⟩ := Prod.mk.inj (Option.some.inj hs)
      exact .released .same
    · obtain ⟨rfl, _⟩ := Prod.mk.inj (Option.some.inj hs)
      exact .released .same
    · cases hs
  | report r now =>
    simp only [Session.step, Option.ite_none_right_eq_some, Option.some.injEq] at hs
    have hm := report_manager s r now
    rw [hs.2] at hm
    have hm : s'.manager = _ := hm
    rw [hm]
    refine .released (h.inv.releases_onReport r now fun x hr i hres hw hb => ?_)
    subst hr
    exact h.withinLeaves hx hres hw hb
  | mark l p =>
    simp only [Session.step, Option.ite_none_right_eq_some, Option.some.injEq, Prod.mk.injEq] at hs
    obtain ⟨_, rfl, _⟩ := hs
    exact .risk _ (fun k => by rw [Risk.RiskEngine.mark_pos p k])
      (Risk.RiskEngine.mark_sameLedger s.manager.risk l p).shares (Risk.RiskEngine.mark_sameLedger s.manager.risk l p).locates
  | killSwitch on =>
    simp only [Session.step, Option.ite_none_right_eq_some, Option.some.injEq, Prod.mk.injEq] at hs
    obtain ⟨_, rfl, _⟩ := hs
    exact .risk _ (fun k => rfl) (Risk.RiskEngine.setKillSwitch_sameLedger s.manager.risk on).shares
      (Risk.RiskEngine.setKillSwitch_sameLedger s.manager.risk on).locates

/-- **An order that is shown as terminal is over.** -/
theorem Ok.updates_over (h : Ok s) (hs : s.step e = some (s', fx)) {info : OrderInfo} (hu : Effect.update info ∈ fx)
    (ht : isTerminal info.status = true) : s'.manager.Over info.id := by
  have hinv := (h.step hs).2.inv
  have hmem : info ∈ Journal.updatesIn fx := List.mem_filterMap.mpr ⟨_, hu, rfl⟩
  cases Journal.shown h hs with
  | quiet hnil _ _ _ _ =>
    rw [hnil] at hmem
    cases hmem
  | settled i m₁ e' o hi _ hm _ _ hout hone _ _ _ =>
    rw [hone, List.mem_singleton] at hmem
    subst hmem
    refine hinv.over_of_slot ?_ ht
    rw [hout, (m₁.settle_table i e' o).fresh, hm.table.fresh]
    exact hi
  | admitted req now reference tokens _ _ hone _ _ =>
    rw [hone, List.mem_singleton] at hmem
    subst hmem
    cases ht
  | returned before _ hm hone _ =>
    rw [hone, List.mem_singleton] at hmem
    subst hmem
    rw [hm] at hinv ⊢
    unfold OrderManager.afterFill at ht ⊢
    refine hinv.over_of_find fun o ho => ?_
    cases hf : s.manager.find before.id with
    | none =>
      rw [hf] at ho
      simp only [Option.getD_none] at ho
      rw [hf] at ho
      cases ho
    | some o' =>
      obtain ⟨i, _, hid, rfl⟩ := hinv.find_some.mp hf
      rw [hf] at ho ht
      simp only [Option.getD_some] at ho ht
      rw [hid, hf] at ho
      rw [← Option.some.inj ho]
      exact ht
  | booked i x now _ _ _ _ _ _ hone _ =>
    rw [hone] at hmem
    cases hmem

end Session
end OptiTrade.Oms
