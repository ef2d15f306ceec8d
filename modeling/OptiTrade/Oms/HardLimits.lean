import OptiTrade.Oms.Lifetime

/-! # The hard limits over whole runs -/

namespace OptiTrade.Oms
set_option autoImplicit false

open Runs
open Risk (RiskEngine kInt64Max clamp64)
open Risk.RiskEngine (Within Local SameLedger)

namespace OrderManager

/-- No limit is exceeded. -/
structure Limited (m : OrderManager) : Prop where
  within : Within m.risk
  orders : m.risk.limits.maxOpenOrders ≠ 0 → m.risk.openTotal ≤ m.risk.limits.maxOpenOrders
  sizes : ∀ i < m.fresh, (m.slots i).working = true → (m.slots i).reserved ≤ m.risk.limits.maxOrderQty

variable {m : OrderManager}

theorem Limited.keep {m' : OrderManager} (h : Limited m) (hw : Within m'.risk) (hlim : m'.risk.limits = m.risk.limits)
    (ht : m'.risk.openTotal = m.risk.openTotal) (hf : m'.fresh = m.fresh) (hs : m'.slots = m.slots) :
    Limited m' where
  within := hw
  orders := by rw [hlim, ht]; exact h.orders
  sizes := by rw [hlim, hf, hs]; exact h.sizes

theorem syncedRisk_local {r : RiskEngine} {e : Entry} {l : Nat} (hl : e.info.req.locate = l)
    (h : (r.slots l).exposure = RiskEngine.worst (r.slots l)) : Local r (syncedRisk r e) l := by
  unfold syncedRisk
  rw [hl]
  split_ifs
  · exact RiskEngine.onOrderGrow_local h
  · exact RiskEngine.onOrderReduce_local h
  · exact .refl h

theorem syncedRisk_pos (r : RiskEngine) (e : Entry) (k : Nat) :
    ((syncedRisk r e).slots k).pos = (r.slots k).pos := by
  unfold syncedRisk
  split_ifs
  · exact RiskEngine.onOrderGrow_pos k
  · exact RiskEngine.onOrderReduce_pos k
  · rfl

theorem syncedRisk_limits (r : RiskEngine) (e : Entry) : (syncedRisk r e).limits = r.limits := by
  unfold syncedRisk
  split_ifs <;> simp

theorem settle_limits (m : OrderManager) (i : Nat) (e : Entry) (o : Option OrderStatus) :
    (m.settle i e o).risk.limits = m.risk.limits ∧ (m.settle i e o).risk.locates = m.risk.locates := by
  by_cases hl : e.info.leavesQty = 0
  · rw [settle_dead hl]
    exact ⟨RiskEngine.onOrderEnd_limits, RiskEngine.onOrderEnd_locates⟩
  · rw [settle_live hl]
    exact ⟨syncedRisk_limits m.risk e, syncedRisk_locates m.risk e⟩

theorem Inv.perform_limits (h : Inv m) {c : Call} (hc : m.Fits c) :
    (m.perform c).risk.limits = m.risk.limits ∧ (m.perform c).risk.locates = m.risk.locates := by
  rcases (h.touched hc).cases with ⟨_, _, hr⟩ | ⟨i, m₁, e, o, _, _, hm, _, hout⟩ | ⟨req, now, _, tokens, _, hout⟩
  · exact ⟨hr.limits, hr.locates⟩
  · obtain ⟨h₁, h₂⟩ := settle_limits m₁ i e o
    rw [hout, h₁, h₂]
    exact ⟨hm.ledger.limits, hm.ledger.locates⟩
  · have hsame := RiskEngine.admitOrder_sameLedger m.risk now
    rw [hout, admitted_risk, RiskEngine.onOrderOpen_limits, RiskEngine.onOrderOpen_locates]
    exact ⟨hsame.limits, hsame.locates⟩

/-- What is held for the order after it is settled. -/
def newReserved (e : Entry) : Nat := if e.info.leavesQty = 0 then 0 else e.want

section
variable (h : Inv m) {i : Nat} (hi : i < m.fresh) (hw : (m.slots i).working = true) {e : Entry}
  {m₁ : OrderManager} {o : Option OrderStatus} (hm : Near m m₁) (hsame : SameOrder (m.slots i) e)
  (hsz : Sizes e) (hph : e.info.leavesQty ≠ 0 → Phase e)

include h hi hw hm hsame hsz hph

/-- The working quantities after an order is settled. -/
theorem settle_shares (l : Nat) (sd : Side) :
    ((m₁.settle i e o).risk.slots l).openShares sd =
      (m.risk.slots l).openShares sd +
        if l = (m.slots i).info.req.locate ∧ sd = (m.slots i).info.req.side then
          (newReserved e : Int) - (m.slots i).reserved else 0 := by
  have hlt : e.info.req.locate < m₁.risk.locates := by
    rw [hsame.locate, hm.ledger.locates]; exact h.ledger.locate i hi
  have hheld : (m.slots i).held e.info.req.locate e.info.req.side = e.reserved := by
    simp [Entry.held, hw, hsame.locate, hsame.side, hsame.reserved]
  have hlo : (e.reserved : Int) ≤ (m₁.risk.slots e.info.req.locate).openShares e.info.req.side := by
    rw [hm.ledger.shares, ← hheld]
    exact h.ledger.held_le_shares hi _ _
  have hhi : (m₁.risk.slots e.info.req.locate).openShares e.info.req.side ≤ 4294967295 * 999999 := by
    rw [hm.ledger.shares]
    exact h.ledger.shares_le h.ids _ _
  have hresle : e.reserved ≤ kMaxOrderQty := by rw [hsame.reserved]; exact h.ledger.bound i hi
  rw [← hsame.locate, ← hsame.side, ← hsame.reserved, newReserved]
  by_cases hl : e.info.leavesQty = 0
  · rw [settle_dead hl, if_pos hl, RiskEngine.onOrderEnd_shares hlt hlo, hm.ledger.shares]
    split_ifs <;> omega
  · rw [settle_live hl, if_neg hl, syncedRisk_shares hlt hlo hhi (want_le hsz (hph hl)) hresle, hm.ledger.shares]

omit h hi hw hm hsame hsz hph in
theorem settle_pos (l : Nat) : ((m₁.settle i e o).risk.slots l).pos = (m₁.risk.slots l).pos := by
  by_cases hl : e.info.leavesQty = 0
  · rw [settle_dead hl]
    exact RiskEngine.onOrderEnd_pos l
  · rw [settle_live hl]
    exact syncedRisk_pos m₁.risk e l

omit h hi hw hm hsz hph in
theorem settle_local (hloc : Local m.risk m₁.risk (m.slots i).info.req.locate) :
    Local m.risk (m₁.settle i e o).risk (m.slots i).info.req.locate := by
  refine hloc.trans ?_
  by_cases hl : e.info.leavesQty = 0
  · rw [settle_dead hl, hsame.locate]
    exact RiskEngine.onOrderEnd_local hloc.exposure
  · rw [settle_live hl]
    exact syncedRisk_local hsame.locate hloc.exposure

omit hsz hph in
/-- What settling does to the limits other than those of the risk engine's slots. -/
theorem Limited.settle (hL : Limited m) (hlim : m₁.risk.limits = m.risk.limits)
    (hwithin : Within (m₁.settle i e o).risk)
    (hnew : newReserved e ≤ m.risk.limits.maxOrderQty) : Limited (m₁.settle i e o) := by
  have hlim' : (m₁.settle i e o).risk.limits = m.risk.limits := (settle_limits m₁ i e o).1.trans hlim
  have htot : (m₁.settle i e o).risk.openTotal ≤ m.risk.openTotal := by
    by_cases hl : e.info.leavesQty = 0
    · have hc0 : (m₁.risk.slots e.info.req.locate).openCount e.info.req.side ≠ 0 := by
        have := h.ledger.counted_le_count hi e.info.req.locate e.info.req.side
        have hcnt : (m.slots i).counted e.info.req.locate e.info.req.side = 1 := by
          simp [Entry.counted, hw, hsame.locate, hsame.side]
        rw [hm.ledger.count]
        omega
      have hlt : e.info.req.locate < m₁.risk.locates := by
        rw [hsame.locate, hm.ledger.locates]; exact h.ledger.locate i hi
      rw [settle_dead hl, RiskEngine.onOrderEnd_openTotal hlt hc0, hm.ledger.total]
      omega
    · rw [settle_live hl, syncedRisk_openTotal, hm.ledger.total]
  refine ⟨hwithin, ?_, ?_⟩
  · rw [hlim']
    exact fun h' => htot.trans (hL.orders h')
  · have ht := m₁.settle_table i e o
    rw [hlim', ht.fresh, hm.table.fresh]
    intro j hj hjw
    by_cases hji : j = i
    · subst hji
      by_cases hl : e.info.leavesQty = 0
      · rw [settle_dead hl]
        simp [Entry.finish]
      · rw [newReserved, if_neg hl] at hnew
        rw [settle_live hl]
        simpa [Entry.synced] using hnew
    · have hsl : (m₁.settle i e o).slots j = m.slots j := by
        obtain ⟨e', _, hsl⟩ := m₁.settle_slots i e o
        rw [hsl, Function.update_of_ne hji, hm.slots]
      rw [hsl] at hjw ⊢
      exact hL.sizes j hj hjw

/-- **Settling releases shares**: `p` of them went to the position. -/
theorem Limited.release (hL : Limited m) (hloc : Local m.risk m₁.risk (m.slots i).info.req.locate) {p : Int}
    (hp : 0 ≤ p) (hpd : (newReserved e : Int) + p ≤ (m.slots i).reserved)
    (hpos : (m₁.risk.slots (m.slots i).info.req.locate).pos.qty =
      (m.risk.slots (m.slots i).info.req.locate).pos.qty +
        if (m.slots i).info.req.side = .buy then p else -p)
    (hrange : -kInt64Max ≤ (m₁.risk.slots (m.slots i).info.req.locate).pos.qty ∧
      (m₁.risk.slots (m.slots i).info.req.locate).pos.qty ≤ kInt64Max) : Limited (m₁.settle i e o) := by
  have hheld : (m.slots i).held (m.slots i).info.req.locate (m.slots i).info.req.side = (m.slots i).reserved := by
    simp [Entry.held, hw]
  have hle := h.ledger.held_le_shares hi (m.slots i).info.req.locate (m.slots i).info.req.side
  rw [hheld] at hle
  have hd : ((m.slots i).reserved : Int) - newReserved e ≤
      (m.risk.slots (m.slots i).info.req.locate).openShares (m.slots i).info.req.side := by omega
  refine hL.settle h hi hw hm hsame hloc.limits ?_ ?_
  · refine hL.within.release (settle_local hsame hloc) (p := p) hp (by omega) hd ?_ ?_ ?_
    · rw [settle_pos, hpos]
    · rw [settle_pos]
      exact hrange
    · intro sd
      rw [settle_shares h hi hw hm hsame hsz hph]
      simp only [true_and]
      split_ifs <;> omega
  · have := hL.sizes i hi hw
    omega

end

/-! ## What is held for the new entries -/

section
variable {e : Entry} (h : Lifecycle e) (hw : e.working = true)

include h hw

theorem reserved_eq_max : e.reserved = max e.info.leavesQty (e.replaceQty - e.info.cumQty) := by
  rw [h.reserved, if_pos hw, want_eq h.phase]

omit h hw in
theorem newReserved_le {e' : Entry} (hp : e'.info.leavesQty ≠ 0 → Phase e')
    (h₁ : e'.info.leavesQty ≤ e.reserved) (h₂ : e'.replaceQty - e'.info.cumQty ≤ e.reserved) :
    newReserved e' ≤ e.reserved := by
  unfold newReserved
  split_ifs with hl
  · exact Nat.zero_le _
  · rw [want_eq (hp hl)]
    omega

theorem newReserved_accept (a : Ouch.Accepted) (now : Nat) : newReserved (e.accept a now) ≤ e.reserved := by
  have hr := reserved_eq_max h hw
  refine newReserved_le (h.phase.accept hw a now) ?_ ?_
  · simp only [Entry.accept]
    split_ifs <;> omega
  · simp only [Entry.accept]
    omega

theorem newReserved_reduce (c : Ouch.Canceled) (now : Nat) : newReserved (e.reduce c now) ≤ e.reserved := by
  have hr := reserved_eq_max h hw
  refine newReserved_le (h.phase.reduce hw c now) ?_ ?_
  · rw [reduce_leaves h.sizes]
    omega
  · show e.replaceQty - e.info.cumQty ≤ e.reserved
    omega

theorem newReserved_revert (r : Ouch.Rejected) (now : Nat) : newReserved (e.revert r now) ≤ e.reserved := by
  have hr := reserved_eq_max h hw
  refine newReserved_le (fun _ => h.phase.revert hw r now) ?_ ?_
  · show e.info.leavesQty ≤ e.reserved
    omega
  · show 0 - e.info.cumQty ≤ e.reserved
    omega

omit h hw in
theorem newReserved_refuse (r : Ouch.Rejected) (now : Nat) : newReserved (e.refuse r now) = 0 := rfl

theorem newReserved_swap (hn : e.nextToken ≠ 0) (rp : Ouch.Replaced) (now : Nat) :
    newReserved (e.swap rp now) ≤ e.reserved := by
  have hr := reserved_eq_max h hw
  have ha := asked_eq h.phase hn
  refine newReserved_le (h.phase.swap hn rp now) ?_ ?_
  · simp only [Entry.swap]
    split_ifs <;> omega
  · show 0 - e.info.cumQty ≤ e.reserved
    omega

theorem newReserved_askCancel (now : Nat) : newReserved (e.askCancel now) ≤ e.reserved := by
  have hr := reserved_eq_max h hw
  refine newReserved_le (fun _ => h.phase.askCancel hw now) ?_ ?_
  · show e.info.leavesQty ≤ e.reserved
    omega
  · show e.replaceQty - e.info.cumQty ≤ e.reserved
    omega

theorem newReserved_execute {x : Ouch.Executed} (now : Nat) (hx : ¬badExecution e x)
    (hle : x.shares ≤ e.info.leavesQty) : newReserved (e.execute x now) + x.shares ≤ e.reserved := by
  have hr := reserved_eq_max h hw
  obtain ⟨_, _, _, _, hcum, hlv, _⟩ := execute_numbers h.sizes now hx
  unfold newReserved
  split_ifs with hl
  · omega
  · rw [want_eq (h.phase.execute hw x now hl), hlv, hcum]
    show max _ (e.replaceQty - _) + _ ≤ _
    rw [hlv] at hl
    omega

end

/-! ## The operations -/

theorem Limited.counted (h : Limited m) : Limited m.unknown ∧ Limited m.late ∧ Limited m.invalid :=
  ⟨h.keep h.within rfl rfl rfl rfl, h.keep h.within rfl rfl rfl rfl, h.keep h.within rfl rfl rfl rfl⟩

theorem Limited.released (h : Inv m) (hL : Limited m) {i : Nat} (hi : i < m.fresh)
    (hw : (m.slots i).working = true) {e : Entry} {m₁ : OrderManager} {o : Option OrderStatus} (hm : Near m m₁)
    (hrisk : m₁.risk = m.risk) (hsame : SameOrder (m.slots i) e) (hsz : Sizes e)
    (hph : e.info.leavesQty ≠ 0 → Phase e) (hnew : newReserved e ≤ (m.slots i).reserved) :
    Limited (m₁.settle i e o) := by
  refine hL.release h hi hw hm hsame hsz hph (p := 0) ?_ (le_refl _) (by omega) ?_ ?_
  · rw [hrisk]
    exact .refl (hL.within.exposure _)
  · rw [hrisk]
    split_ifs <;> simp
  · rw [hrisk]
    exact hL.within.range _

/-- A report or a cancel leaves the orders alone, or settles one of them and holds no more for it than
before; an execution takes its shares out of what is held. -/
inductive Releases (m : OrderManager) : OrderManager → Prop
  | same : Releases m m
  | unknown : Releases m m.unknown
  | late : Releases m m.late
  | invalid : Releases m m.invalid
  | settled (i : Nat) (m₁ : OrderManager) (e : Entry) (o : Option OrderStatus) : i < m.fresh →
      (m.slots i).working = true → Near m m₁ → m₁.risk = m.risk → SameOrder (m.slots i) e → Sizes e →
      (e.info.leavesQty ≠ 0 → Phase e) → newReserved e ≤ (m.slots i).reserved → Releases m (m₁.settle i e o)
  | executed (i : Nat) (x : Ouch.Executed) (now : Nat) : i < m.fresh → (m.slots i).working = true →
      ¬badExecution (m.slots i) x → x.shares ≤ (m.slots i).info.leavesQty →
      Releases m ((m.booked i x).settle i ((m.slots i).execute x now) (some .filled))

theorem Inv.releases_onReport (h : Inv m) (r : Ouch.Outbound) (now : Nat)
    (hx : ∀ x, r = .executed x → ∀ i, m.resolve x.token = some (i, false) → (m.slots i).working = true →
      ¬badExecution (m.slots i) x → x.shares ≤ (m.slots i).info.leavesQty) : Releases m (m.onReport r now) := by
  cases r with
  | accepted a =>
    refine (onAccepted_handled h a now).preserve .unknown .late .invalid fun i b hr hw _ hout => ?_
    have hi := ((resolve_some h.tokens).mp hr).1
    have hlife := h.entries i hi
    rw [hout]
    exact .settled i m ((m.slots i).accept a now) none hi hw (.refl m) rfl ⟨rfl, rfl, rfl, rfl⟩ (hlife.sizes.accept a now)
      (hlife.phase.accept hw a now) (newReserved_accept hlife hw a now)
  | executed x =>
    refine (onExecuted_handled h x now).preserve .unknown .late .invalid fun i b hr hw hb hout => ?_
    have hi := ((resolve_some h.tokens).mp hr).1
    have hbad : ¬badExecution (m.slots i) x := fun h' => hb (.inr h')
    have hbf : b = false := by simpa using fun h' => hb (.inl h')
    rw [hout]
    exact .executed i x now hi hw hbad (hx x rfl i (hbf ▸ hr) hw hbad)
  | canceled c =>
    refine (onCanceled_handled h c now).preserve .unknown .late .invalid fun i b hr hw _ hout => ?_
    have hi := ((resolve_some h.tokens).mp hr).1
    have hlife := h.entries i hi
    rw [hout]
    exact .settled i _ ((m.slots i).reduce c now) none hi hw ((Near.refl m).noteClamp _) (noteClamp_tokens m _).2.2
      ⟨rfl, rfl, rfl, rfl⟩ (hlife.sizes.reduce c now) (hlife.phase.reduce hw c now) (newReserved_reduce hlife hw c now)
  | rejected r =>
    refine (onRejected_handled h r now).preserve .unknown .late .invalid fun i b hr hw _ hout => ?_
    have hi := ((resolve_some h.tokens).mp hr).1
    have hlife := h.entries i hi
    rw [hout]
    cases b with
    | true =>
      rw [if_pos rfl]
      have hnear : Near m { m with tokens := m.tokens.erase (m.slots i).nextToken } :=
        ⟨⟨rfl, rfl, rfl, rfl⟩, ⟨rfl, rfl, rfl, rfl⟩, rfl, .refl _⟩
      exact .settled i _ ((m.slots i).revert r now) none hi hw hnear rfl ⟨rfl, rfl, rfl, rfl⟩ (hlife.sizes.revert r now)
        (fun _ => hlife.phase.revert hw r now) (newReserved_revert hlife hw r now)
    | false =>
      rw [if_neg (by decide)]
      exact .settled i m ((m.slots i).refuse r now) (some .rejected) hi hw (.refl m) rfl ⟨rfl, rfl, rfl, rfl⟩
        (hlife.sizes.refuse r now) (fun h' => absurd rfl h') ((newReserved_refuse r now).trans_le (Nat.zero_le _))
  | replaced rp =>
    refine (onReplaced_handled h rp now).preserve .unknown .late .invalid fun i b hr hw hbad hout => ?_
    obtain ⟨hi, hb⟩ := (resolve_some h.tokens).mp hr
    have hlife := h.entries i hi
    have hbt : b = true := by simpa using fun h' => hbad (.inl h')
    rw [if_pos hbt] at hb
    have hnear : Near m { m with tokens := m.tokens.erase (m.slots i).token } :=
      ⟨⟨rfl, rfl, rfl, rfl⟩, ⟨rfl, rfl, rfl, rfl⟩, rfl, .refl _⟩
    rw [hout]
    exact .settled i _ ((m.slots i).swap rp now) none hi hw (hnear.noteClamp _) (noteClamp_tokens _ _).2.2
      ⟨rfl, rfl, rfl, rfl⟩ (hlife.sizes.swap hlife.phase hb.1 rp now) (hlife.phase.swap hb.1 rp now)
      (newReserved_swap hlife hw hb.1 rp now)

theorem Inv.releases_cancelEntry (h : Inv m) {i : Nat} (hi : i < m.fresh) (now : Nat) (gateway : Ouch.Inbound → Bool) :
    Releases m (m.cancelEntry i now gateway).state := by
  rcases cancelEntry_cases h hi now gateway rfl with ⟨hs, _, _⟩ | ⟨hw, _, _, hout⟩
  · rw [hs]
    exact .same
  · have hlife := h.entries i hi
    rw [hout]
    exact .settled i m ((m.slots i).askCancel now) none hi hw (.refl m) rfl ⟨rfl, rfl, rfl, rfl⟩
      (hlife.sizes.askCancel now) (fun _ => hlife.phase.askCancel hw now) (newReserved_askCancel hlife hw now)

theorem booked_risk (m : OrderManager) (i : Nat) (x : Ouch.Executed) : (m.booked i x).risk =
    m.risk.onFill (m.slots i).info.req.locate (m.slots i).info.req.side x.shares x.price := by
  show (m.noteClamp _).risk.onFill _ _ _ _ = _
  rw [(noteClamp_tokens m _).2.2]

/-- The shares by which an execution moves the position, in the direction of the order. -/
def movedBy (m : OrderManager) (i : Nat) (x : Ouch.Executed) : Int :=
  let pos := (m.risk.slots (m.slots i).info.req.locate).pos.qty
  if (m.slots i).info.req.side = .buy then clamp64 (pos + x.shares) - pos else pos - clamp64 (pos - x.shares)

section
variable (h : Inv m) {i : Nat} (hi : i < m.fresh) {x : Ouch.Executed} (hb : ¬badExecution (m.slots i) x)

include h hi hb

theorem booked_qty : ((m.booked i x).risk.slots (m.slots i).info.req.locate).pos.qty =
    (m.risk.slots (m.slots i).info.req.locate).pos.qty +
      if (m.slots i).info.req.side = .buy then m.movedBy i x else -m.movedBy i x := by
  obtain ⟨hq, hprice, _⟩ := execute_numbers (h.entries i hi).sizes 0 hb
  rw [booked_risk, RiskEngine.onFill_qty (h.ledger.locate i hi) (by omega) hprice, if_pos rfl]
  unfold movedBy
  dsimp only
  split_ifs with hs
  · rw [add_sub_cancel]
  · rw [← sub_eq_add_neg]
    omega

omit h hi hb in
theorem movedBy_bounds (hrange : -kInt64Max ≤ (m.risk.slots (m.slots i).info.req.locate).pos.qty ∧
    (m.risk.slots (m.slots i).info.req.locate).pos.qty ≤ kInt64Max) : 0 ≤ m.movedBy i x ∧ m.movedBy i x ≤ x.shares := by
  unfold movedBy Risk.clamp64 Risk.kInt64Max at *
  dsimp only
  split_ifs <;> omega

end

theorem Limited.releases {m' : OrderManager} (h : Inv m) (hL : Limited m) (hr : Releases m m') : Limited m' := by
  obtain ⟨hu, hla, hin⟩ := hL.counted
  cases hr with
  | same => exact hL
  | unknown => exact hu
  | late => exact hla
  | invalid => exact hin
  | settled i m₁ e o hi hw hm hrisk hsame hsz hph hnew => exact hL.released h hi hw hm hrisk hsame hsz hph hnew
  | executed i x now hi hw hbad hle =>
    have hlife := h.entries i hi
    have hnew := newReserved_execute hlife hw now hbad hle
    have hrange := hL.within.range (m.slots i).info.req.locate
    obtain ⟨h₀, h₁⟩ := movedBy_bounds (x := x) hrange
    have hqty := booked_qty h hi hbad
    refine hL.release h hi hw (Near.booked m i x) ⟨rfl, rfl, rfl, rfl⟩ (hlife.sizes.execute now hbad)
      (hlife.phase.execute hw x now) (p := m.movedBy i x) ?_ h₀ (by omega) hqty ?_
    · rw [booked_risk]
      exact RiskEngine.onFill_local (hL.within.exposure _) x.price
    · rw [hqty]
      unfold movedBy Risk.clamp64 Risk.kInt64Max
      dsimp only
      split_ifs <;> omega

theorem Limited.admitted (h : Inv m) (hL : Limited m) {req : OrderRequest} {now : Nat} {reference : Nat → Int}
    {tokens : BoundedMap Nat Nat} (hs : Submittable m req now reference tokens) :
    Limited (m.admitted req now tokens) := by
  have hp := RiskEngine.assess_none hs.verdict
  have hloc := hs.locate_lt
  have hsame := RiskEngine.admitOrder_sameLedger m.risk now
  have hqty : req.qty ≠ 0 := by have := hs.qty_pos; omega
  have hle := hs.qty_le
  have hnn := h.ledger.shares_nonneg req.locate req.side
  have hhi := h.ledger.shares_le h.ids req.locate req.side
  have hcount := h.ledger.count_lt h.ids req.locate req.side
  have hl₁ := RiskEngine.admitOrder_local now (hL.within.exposure req.locate)
  have hl₂ : RiskEngine.Local _ ((m.risk.admitOrder now).onOrderOpen req.locate req.side req.qty) req.locate :=
    RiskEngine.onOrderOpen_local hl₁.exposure
  have hpos := admitOrder_positions m.risk now
  have hlim : (m.admitted req now tokens).risk.limits = m.risk.limits := (hl₁.trans hl₂).limits
  refine ⟨?_, ?_, ?_⟩
  · refine hL.within.grow (hl₁.trans hl₂) hp hqty ?_ ?_
    · rw [admitted_risk, RiskEngine.onOrderOpen_pos, hpos]
    · intro sd
      rw [admitted_risk, RiskEngine.onOrderOpen_shares (by rw [hsame.locates]; exact hloc) hqty
        (by rw [hsame.shares]; exact hnn) (by
          rw [hsame.shares]; unfold Risk.kInt64Max; unfold kMaxOrderQty at hle; omega), hsame.shares]
      simp
  · rw [hlim]
    intro hz
    have := hp.openOrders rfl hz
    rw [admitted_risk, RiskEngine.onOrderOpen_openTotal (by rw [hsame.locates]; exact hloc) hqty
      (by rw [hsame.count]; omega), hsame.total]
    omega
  · rw [hlim]
    intro j hj hjw
    by_cases hji : j = m.nextSlot
    · subst hji
      show (Function.update m.slots m.nextSlot (m.newEntry req now) m.nextSlot).reserved ≤ _
      rw [Function.update_self]
      exact hp.qty_le
    · have hsl : (m.admitted req now tokens).slots j = m.slots j := Function.update_of_ne hji _ _
      rw [hsl] at hjw ⊢
      refine hL.sizes j ?_ hjw
      rw [admitted_fresh] at hj
      rcases h.nextSlot_cases hs.slot with ⟨h₁, h₂⟩ | ⟨h₁, _⟩
      · rw [if_pos h₁] at hj; omega
      · rwa [if_neg (by omega)] at hj

/-- A replace holds the shares by which it grows the order on top of what is held. -/
theorem newReserved_askReplace (h : Inv m) {i newQty now : Nat} {newPrice : Int} {reference : Nat → Int}
    {tokens : BoundedMap Nat Nat} (hi : i < m.fresh) (hr : Replaceable m i newPrice newQty now reference tokens) :
    (m.slots i).reserved = (m.slots i).info.leavesQty ∧
      sub32 newQty (m.slots i).info.cumQty = newQty - (m.slots i).info.cumQty ∧
      (m.slots i).growth newQty = newQty - (m.slots i).info.cumQty - (m.slots i).info.leavesQty ∧
      Phase ((m.slots i).askReplace m.nextToken newPrice newQty now) ∧
      newReserved ((m.slots i).askReplace m.nextToken newPrice newQty now) =
        (m.slots i).reserved + (m.slots i).growth newQty := by
  have hw := hr.working
  have hlife := h.entries i hi
  have hcum := hr.cum_lt
  have hle := hr.qty_le
  have hlv := hlife.sizes.leaves_le
  have hleaves := hlife.phase.working_iff.mp hw
  have hnt : (m.slots i).nextToken = 0 := by
    by_contra hne
    rcases hlife.phase.repl_status hne with h' | h' <;> rw [hr.live] at h' <;> cases h'
  have hres := reserved_eq_max hlife hw
  rw [hlife.phase.repl_none hnt] at hres
  have hopen : sub32 newQty (m.slots i).info.cumQty = newQty - (m.slots i).info.cumQty :=
    sub32_eq hcum.le (by unfold kMaxOrderQty at hle; unfold u32Max; omega)
  have hgrowth : (m.slots i).growth newQty =
      newQty - (m.slots i).info.cumQty - (m.slots i).info.leavesQty := by
    unfold Entry.growth
    rw [hopen]
    split_ifs with hg
    · exact sub32_eq hg.le (by unfold kMaxOrderQty at hle; unfold u32Max; omega)
    · omega
  have hph := hlife.phase.askReplace hw now h.tokens.next_pos.ne' (by omega) hle hr.price_pos hr.price_le
  refine ⟨by omega, hopen, hgrowth, hph, ?_⟩
  rw [newReserved, if_neg (by simp [Entry.askReplace]; omega), want_eq hph, hgrowth]
  show max (m.slots i).info.leavesQty (newQty - (m.slots i).info.cumQty) = _
  omega

theorem Limited.replaced (h : Inv m) (hL : Limited m) {i newQty now : Nat} {newPrice : Int}
    {reference : Nat → Int} {tokens : BoundedMap Nat Nat} (hi : i < m.fresh)
    (hr : Replaceable m i newPrice newQty now reference tokens) :
    Limited ((m.offered i newQty now tokens).settle i
      ((m.slots i).askReplace m.nextToken newPrice newQty now) none) := by
  have hw := hr.working
  have hp := RiskEngine.assess_none hr.verdict
  obtain ⟨hres, hopen, hgrowth, hph, hnew⟩ := newReserved_askReplace h hi hr
  have hnear := Near.offered m i newQty now tokens
  have hsame : SameOrder (m.slots i) ((m.slots i).askReplace m.nextToken newPrice newQty now) := ⟨rfl, rfl, rfl, rfl⟩
  have hsz := (h.entries i hi).sizes.askReplace m.nextToken newPrice newQty now
  have hoff : (m.offered i newQty now tokens).risk =
      if (m.slots i).growth newQty ≠ 0 then m.risk.admitOrder now else m.risk := rfl
  have hloc : Local m.risk (m.offered i newQty now tokens).risk (m.slots i).info.req.locate := by
    rw [hoff]
    split_ifs
    · exact RiskEngine.admitOrder_local now (hL.within.exposure _)
    · exact .refl (hL.within.exposure _)
  have hpos := offered_positions m i newQty now tokens (m.slots i).info.req.locate
  by_cases hg : (m.slots i).growth newQty = 0
  · refine hL.release h hi hw hnear hsame hsz (fun _ => hph) hloc (p := 0) (le_refl _) (by omega) ?_ ?_
    · rw [hpos]
      split_ifs <;> simp
    · rw [hpos]
      exact hL.within.range _
  · refine hL.settle h hi hw hnear hsame hloc.limits ?_ ?_
    · refine hL.within.grow (settle_local hsame hloc) hp hg ?_ ?_
      · rw [settle_pos, hpos]
      · intro sd
        rw [settle_shares h hi hw hnear hsame hsz fun _ => hph, hnew]
        simp only [true_and]
        split_ifs <;> omega
    · rw [hnew]
      have hq := hp.qty_le
      rw [hopen] at hq
      have := hL.sizes i hi hw
      omega

theorem Limited.perform (h : Inv m) (hL : Limited m) {c : Call} (hc : m.Fits c)
    (hx : ∀ x now, c = .report (.executed x) now → ∀ i, m.resolve x.token = some (i, false) →
      (m.slots i).working = true → ¬badExecution (m.slots i) x → x.shares ≤ (m.slots i).info.leavesQty) :
    Limited (m.perform c) := by
  cases c with
  | submit req now w =>
    rcases submit_cases m req now w.symbol w.reference w.gateway rfl with
      ⟨hs, _, _⟩ | ⟨tokens, hs, _, hout⟩
    · rw [OrderManager.perform, hs]; exact hL
    · rw [OrderManager.perform, hout]; exact hL.admitted h hs
  | cancelEntry i now w => exact hL.releases h (h.releases_cancelEntry hc now w.gateway)
  | replace id p q now w =>
    rcases replace_cases h id p q now w.reference w.gateway rfl with
      ⟨hs, _, _⟩ | ⟨i, tokens, hid, hr, _, hout⟩
    · rw [OrderManager.perform, hs]; exact hL
    · rw [OrderManager.perform, hout]
      exact hL.replaced h ((h.ids.find id i).mp hid).1 hr
  | report r now => exact hL.releases h (h.releases_onReport r now fun x hr => hx x now (by rw [hr]))
  | mark l p =>
    have hsame := RiskEngine.mark_sameLedger m.risk l p
    exact hL.keep (hL.within.mark l p) hsame.limits hsame.total rfl rfl
  | killSwitch on => exact hL.keep (hL.within.keep rfl rfl rfl) rfl rfl rfl rfl

end OrderManager

/-! ## Runs -/

namespace Session

/-- An execution that is applied carries no more shares than the order has open. -/
def withinLeaves (s : Session) : Event → Prop
  | .report (.executed x) now => ∀ f before, (s.manager.onExecuted x now).2 = some (f, before) →
      ∀ e, s.manager.entry f.id = some e → x.shares ≤ e.info.leavesQty
  | _ => True

instance (s : Session) : (e : Event) → Decidable (s.withinLeaves e)
  | .report (.executed x) now =>
    decidable_of_iff (((s.manager.onExecuted x now).2.all fun out =>
        (s.manager.entry out.1.id).all fun e => decide (x.shares ≤ e.info.leavesQty)) = true) (by
      rw [Option.all_eq_true]
      refine ⟨fun h f before hf e he => ?_, fun h out hout => ?_⟩
      · exact of_decide_eq_true ((Option.all_eq_true _ _).mp (h _ hf) e he)
      · exact (Option.all_eq_true _ _).mpr fun e he => decide_eq_true (h _ _ hout e he))
  | .report (.accepted _) _ => isTrue trivial
  | .report (.canceled _) _ => isTrue trivial
  | .report (.rejected _) _ => isTrue trivial
  | .report (.replaced _) _ => isTrue trivial
  | .submit .. => isTrue trivial
  | .cancel .. => isTrue trivial
  | .replace .. => isTrue trivial
  | .cancelAll _ => isTrue trivial
  | .advance _ => isTrue trivial
  | .ret => isTrue trivial
  | .mark .. => isTrue trivial
  | .killSwitch _ => isTrue trivial

theorem Ok.withinLeaves {s : Session} (h : Ok s) {x : Ouch.Executed} {now i : Nat}
    (hq : s.withinLeaves (.report (.executed x) now)) (hr : s.manager.resolve x.token = some (i, false))
    (hw : (s.manager.slots i).working = true) (hb : ¬OrderManager.badExecution (s.manager.slots i) x) :
    x.shares ≤ (s.manager.slots i).info.leavesQty := by
  have hi := ((OrderManager.resolve_some h.inv.tokens).mp hr).1
  cases OrderManager.onExecuted_handled h.inv x now with
  | unknown hn _ => rw [hr] at hn; cases hn
  | late j b hr' hw' _ =>
    rw [hr] at hr'
    cases hr'
    rw [hw] at hw'
    cases hw'
  | invalid j b hr' _ hb' _ =>
    rw [hr] at hr'
    cases hr'
    exact absurd hb' (fun h' => h'.elim (by decide) hb)
  | applied j b hr' _ _ hout =>
    rw [hr] at hr'
    cases hr'
    refine hq _ _ (congrArg Prod.snd hout) _ ?_
    obtain ⟨e', hid, hsl⟩ := (s.manager.booked i x).settle_slots i ((s.manager.slots i).execute x now) (some .filled)
    have hid' : ((((s.manager.booked i x).settle i ((s.manager.slots i).execute x now) (some .filled)).slots
        i).info.id) = (s.manager.slots i).info.id := by
      rw [hsl, Function.update_self, hid]
      rfl
    show s.manager.entry _ = some (s.manager.slots i)
    rw [hid']
    exact h.inv.entry_slot hi

theorem Ok.step_limits {s s' : Session} {e : Event} {fx : List Effect} (h : Ok s) (hs : s.step e = some (s', fx)) :
    s'.manager.risk.limits = s.manager.risk.limits := by
  cases h.moves hs with
  | stack hm _ _ => rw [hm]
  | call c hc hm _ _ =>
    rw [hm]
    exact (h.inv.perform_limits hc).1

end Session

/-- **Hard limits hold over whole runs.** Over a fresh risk engine with a non-negative position limit,
as long as no applied execution exceeds the leaves of its order: the position stays within the limit
whichever working orders fill, the gross exposure, the number of working orders and the quantity held
for each order stay within theirs. -/
theorem hard_limits_hold (config : Config) (limits : Risk.Limits) (maxLocates : Nat)
    (hpos : 0 ≤ limits.maxPosition) (es : List Event) (s : Session)
    (h : run Session.next (Session.new config limits maxLocates) es = some s)
    (hx : Along Session.next Session.withinLeaves (Session.new config limits maxLocates) es) :
    (∀ l, (s.manager.risk.position l).qty + s.manager.risk.openQty l .buy ≤ limits.maxPosition ∧
      -limits.maxPosition ≤ (s.manager.risk.position l).qty - s.manager.risk.openQty l .sell) ∧
    (0 < limits.maxGrossPosition → s.manager.risk.grossExposure ≤ limits.maxGrossPosition) ∧
    (0 < limits.maxOpenOrders → s.manager.risk.openOrders ≤ limits.maxOpenOrders ∧
      s.manager.openOrders ≤ limits.maxOpenOrders) ∧
    ∀ id, s.manager.reservedQty id ≤ limits.maxOrderQty := by
  have hinv := run_invariant_along
    (P := fun u : Session => u.Ok ∧ u.manager.Limited ∧ u.manager.risk.limits = limits)
    (fun u e u' ⟨hok, hL, hlim⟩ hq hstep => ?_) h hx
    ⟨.new config limits maxLocates,
      ⟨Within.new hpos maxLocates, fun _ => Nat.zero_le _, fun i hi => absurd hi (Nat.not_lt_zero _)⟩, rfl⟩
  · obtain ⟨hok, hL, hlim⟩ := hinv
    rw [← hlim]
    refine ⟨fun l => ?_, fun hg => ?_, fun ho => ?_, fun id => ?_⟩
    · unfold RiskEngine.position RiskEngine.openQty
      split_ifs
      · exact ⟨hL.within.upper l, hL.within.lower l⟩
      · have := hL.within.limit_nonneg
        exact ⟨by simpa using this, by simpa using this⟩
    · have := hL.within.gross hg
      unfold RiskEngine.grossExposure Risk.clamp64 Risk.kInt64Max
      split_ifs <;> omega
    · have h₁ := hL.orders ho.ne'
      have h₂ := hok.inv.openOrders_eq
      have h₃ : s.manager.risk.openOrders ≤ s.manager.risk.openTotal := min_le_left _ _
      omega
    · cases he : s.manager.entry id with
      | none =>
        rw [OrderManager.reservedQty, he]
        exact Nat.zero_le _
      | some e =>
        obtain ⟨i, hi, _, rfl⟩ := hok.inv.entry_some.mp he
        rw [OrderManager.reservedQty, he]
        by_cases hw : (s.manager.slots i).working = true
        · exact hL.sizes i hi hw
        · have hr := (hok.inv.entries i hi).reserved
          rw [if_neg hw] at hr
          show (s.manager.slots i).reserved ≤ _
          rw [hr]
          exact Nat.zero_le _
  · obtain ⟨fx, hstep⟩ := Session.next_some hstep
    obtain ⟨hmv, hok'⟩ := hok.step hstep
    refine ⟨hok', ?_, (hok.step_limits hstep).trans hlim⟩
    cases hmv with
    | stack hm _ _ => rw [hm]; exact hL
    | call c hc hm he =>
      rw [hm]
      refine hL.perform hok.inv hc fun x now hcx i hr hw hb => ?_
      rw [(he (.executed x) now).mp hcx] at hq
      exact hok.withinLeaves hq hr hw hb

/-- The replace in flight has grown the reservation of a buy to 120 shares with 30 executed: 150 in
the worst case, which is what a limit of 150 allows. -/
theorem hard_limits_hold_replace_in_flight :
    ∃ s, run Session.next (Session.new {} { maxPosition := 150 } 4) Session.replaceInFlight = some s ∧
      (s.manager.risk.position 1).qty = 30 ∧ s.manager.risk.openQty 1 .buy = 120 ∧
      (s.manager.risk.position 1).qty + s.manager.risk.openQty 1 .buy ≤ 150 := by
  refine ⟨_, rfl, rfl, rfl, ?_⟩
  exact ((hard_limits_hold {} { maxPosition := 150 } 4 (by decide) Session.replaceInFlight _ rfl (by decide +kernel)).1 1).1

end OptiTrade.Oms
