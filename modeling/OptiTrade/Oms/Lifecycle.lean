import OptiTrade.Oms.Ledger

/-! # The life of one order

`Lifecycle e` is what holds of every tabled order between two calls. `Inv m` joins it with the
table and the ledger. The two ways a call ends for a working order are `Inv.amend` (it stays
working and its ledger entry is brought up to date) and `Inv.finish` (it leaves the working list);
`Inv.put` is the way an order comes in. -/

namespace OptiTrade.Oms
set_option autoImplicit false

open Ouch (Token)
open Risk (RiskEngine kInt64Max)
open Risk.RiskEngine (SameLedger)

/-- The entry with its reservation brought up to date. -/
def Entry.synced (e : Entry) : Entry := { e with reserved := e.want }

/-- The entry after its terminal transition. -/
def Entry.finish (e : Entry) (outcome : Option OrderStatus) : Entry :=
  { e with
    info :=
      { e.info with
        leavesQty := 0
        status := outcome.getD (if e.info.req.qty ≤ e.info.cumQty then .filled else .canceled) }
    nextToken := 0, replacePrice := 0, replaceQty := 0, reserved := 0 }

/-- Sizes and sums of an order, working or not. -/
structure Sizes (e : Entry) : Prop where
  qty_pos : 1 ≤ e.info.req.qty
  qty_le : e.info.req.qty ≤ kMaxOrderQty
  fits : e.info.leavesQty + e.info.cumQty ≤ e.info.req.qty
  price_pos : 0 < e.info.req.price
  price_le : e.info.req.price ≤ kMaxWirePrice
  notional_le : e.notional ≤ e.info.cumQty * 4294967295
  match_le : e.matchCount ≤ e.info.cumQty

/-- How status, replacement token and acknowledgment go together. -/
structure Phase (e : Entry) : Prop where
  working_iff : e.working = true ↔ 1 ≤ e.info.leavesQty
  repl_status : e.nextToken ≠ 0 → e.info.status = .pendingReplace ∨ e.info.status = .pendingCancel
  repl_some : e.info.status = .pendingReplace → e.nextToken ≠ 0
  repl_qty : e.nextToken ≠ 0 → 1 ≤ e.replaceQty ∧ e.replaceQty ≤ kMaxOrderQty
  repl_price : e.nextToken ≠ 0 → 0 < e.replacePrice ∧ e.replacePrice ≤ kMaxWirePrice
  repl_none : e.nextToken = 0 → e.replaceQty = 0
  /-- No report has been applied to a pending order: it is as `submit` left it. -/
  untouched : e.info.status = .pendingNew → e =
    { info := { id := e.info.id, req := e.info.req, leavesQty := e.info.req.qty, lastUpdate := e.info.lastUpdate }
      token := e.token, reserved := e.info.req.qty }
  accepted_acked : e.accepted = true → e.acked = true

/-- **The invariant of an order.** -/
structure Lifecycle (e : Entry) : Prop where
  sizes : Sizes e
  phase : Phase e
  reserved : e.reserved = if e.working = true then e.want else 0

theorem Sizes.leaves_le {e : Entry} (h : Sizes e) : e.info.leavesQty ≤ kMaxOrderQty := by
  have h₁ := h.fits
  have h₂ := h.qty_le
  omega

theorem Sizes.cum_le {e : Entry} (h : Sizes e) : e.info.cumQty ≤ kMaxOrderQty := by
  have h₁ := h.fits
  have h₂ := h.qty_le
  omega

theorem want_eq {e : Entry} (hp : Phase e) :
    e.want = max e.info.leavesQty (e.replaceQty - e.info.cumQty) := by
  unfold Entry.want
  by_cases h : e.nextToken ≠ 0 ∧ e.info.cumQty < e.replaceQty
  · have h₁ := (hp.repl_qty h.1).2
    rw [if_pos h, sub32_eq (by omega) (by unfold u32Max kMaxOrderQty at *; omega)]
  · rw [if_neg h]
    by_cases hz : e.nextToken = 0
    · rw [hp.repl_none hz]
      omega
    · have : ¬e.info.cumQty < e.replaceQty := fun h' => h ⟨hz, h'⟩
      omega

theorem want_le {e : Entry} (hs : Sizes e) (hp : Phase e) : e.want ≤ kMaxOrderQty := by
  rw [want_eq hp]
  have h₁ := hs.leaves_le
  have h₂ : e.replaceQty ≤ kMaxOrderQty := by
    by_cases hz : e.nextToken = 0
    · rw [hp.repl_none hz]; exact Nat.zero_le _
    · exact (hp.repl_qty hz).2
  omega

theorem Lifecycle.synced {e : Entry} (hs : Sizes e) (hp : Phase e) (hw : e.working = true) :
    Lifecycle e.synced where
  sizes := ⟨hs.qty_pos, hs.qty_le, hs.fits, hs.price_pos, hs.price_le, hs.notional_le, hs.match_le⟩
  phase := by
    refine ⟨hp.working_iff, hp.repl_status, hp.repl_some, hp.repl_qty, hp.repl_price, hp.repl_none, ?_,
      hp.accepted_acked⟩
    intro h
    have he := hp.untouched h
    have hn : e.nextToken = 0 := congrArg Entry.nextToken he
    have hl : e.info.leavesQty = e.info.req.qty := congrArg (fun x => x.info.leavesQty) he
    have hwant : e.want = e.info.req.qty := by
      rw [Entry.want, if_neg (fun h' => h'.1 hn), hl]
    rw [Entry.synced, hwant]
    exact congrArg (fun x : Entry => { x with reserved := e.info.req.qty }) he
  reserved := (if_pos hw).symm

theorem Lifecycle.finish {e : Entry} (hs : Sizes e) (ha : e.accepted = true → e.acked = true)
    (o : Option OrderStatus) (ho : ∀ s, o = some s → isTerminal s = true) : Lifecycle (e.finish o) := by
  have hterm : isTerminal (e.finish o).info.status = true := by
    cases o with
    | some s => exact ho s rfl
    | none =>
      simp only [Entry.finish, Option.getD_none]
      split_ifs <;> rfl
  have hw : (e.finish o).working = false := by simp [Entry.working, hterm]
  refine ⟨⟨hs.qty_pos, hs.qty_le, ?_, hs.price_pos, hs.price_le, hs.notional_le, hs.match_le⟩, ?_, ?_⟩
  · have := hs.fits
    simp only [Entry.finish]
    omega
  · refine ⟨?_, ?_, ?_, ?_, ?_, ?_, ?_, ha⟩
    · rw [hw]
      simp [Entry.finish]
    · intro h; exact absurd rfl h
    · intro h; rw [h] at hterm; cases hterm
    · intro h; exact absurd rfl h
    · intro h; exact absurd rfl h
    · intro _; rfl
    · intro h; rw [h] at hterm; cases hterm
  · rw [hw]
    rfl

theorem Lifecycle.reserved_le {e : Entry} (h : Lifecycle e) : e.reserved ≤ kMaxOrderQty := by
  rw [h.reserved]
  split_ifs
  · exact want_le h.sizes h.phase
  · exact Nat.zero_le _

/-! ## The invariant of the manager -/

namespace OrderManager

/-- **The invariant of the table.** -/
structure Inv (m : OrderManager) : Prop where
  ids : Ids m
  tokens : Tokens m
  places : Places m
  ledger : Ledger m
  nextId_pos : 1 ≤ m.nextId
  entries : ∀ i < m.fresh, Lifecycle (m.slots i)

variable {m m' : OrderManager}

/-- The tables of `m'` are those of `m`. -/
structure SameTable (m m' : OrderManager) : Prop where
  fresh : m'.fresh = m.fresh
  capacity : m'.capacity = m.capacity
  byId : m'.byId = m.byId
  nextId : m'.nextId = m.nextId

/-- The working list and the ring of `m'` are those of `m`. -/
structure SamePlaces (m m' : OrderManager) : Prop where
  finished : m'.finished = m.finished
  links : m'.links = m.links
  working : m'.working = m.working
  opened : m'.opened = m.opened

theorem Inv.keep (h : Inv m) (ht : SameTable m m') (hp : SamePlaces m m') (hs : m'.slots = m.slots)
    (htok : m'.tokens = m.tokens) (hn : m'.nextToken = m.nextToken) (hr : SameLedger m.risk m'.risk) :
    Inv m' where
  ids := h.ids.congr ht.fresh ht.capacity ht.byId ht.nextId fun i _ => by rw [hs]
  tokens := h.tokens.congr ht.fresh ht.capacity htok hn fun i _ => by rw [hs]; exact ⟨rfl, rfl⟩
  places := h.places.congr ht.fresh ht.capacity hp.finished hp.links hp.working hp.opened
    fun i _ => by rw [hs]; exact ⟨rfl, rfl⟩
  ledger := h.ledger.congr ht.fresh hp.opened hr fun i _ => by rw [hs]; exact ⟨rfl, rfl, rfl, rfl⟩
  nextId_pos := by rw [ht.nextId]; exact h.nextId_pos
  entries := fun i hi => by rw [ht.fresh] at hi; rw [hs]; exact h.entries i hi

/-- The risk engine after `syncLedger` for entry `e`. -/
def syncedRisk (r : RiskEngine) (e : Entry) : RiskEngine :=
  if e.reserved < e.want then r.onOrderGrow e.info.req.locate e.info.req.side (sub32 e.want e.reserved)
  else if e.want < e.reserved then r.onOrderReduce e.info.req.locate e.info.req.side (sub32 e.reserved e.want)
  else r

theorem syncLedger_eq (m : OrderManager) (i : Nat) :
    m.syncLedger i =
      { m with risk := syncedRisk m.risk (m.slots i), slots := Function.update m.slots i (m.slots i).synced } := rfl

theorem syncedRisk_locates (r : RiskEngine) (e : Entry) : (syncedRisk r e).locates = r.locates := by
  unfold syncedRisk
  split_ifs <;> simp

theorem syncedRisk_openTotal (r : RiskEngine) (e : Entry) : (syncedRisk r e).openTotal = r.openTotal := by
  unfold syncedRisk
  split_ifs <;> simp

theorem syncedRisk_count (r : RiskEngine) (e : Entry) (l : Nat) :
    ((syncedRisk r e).slots l).openCount = (r.slots l).openCount := by
  unfold syncedRisk
  split_ifs
  · exact RiskEngine.onOrderGrow_count l
  · exact RiskEngine.onOrderReduce_count l
  · rfl

theorem syncedRisk_shares {r : RiskEngine} {e : Entry} (hl : e.info.req.locate < r.locates)
    (hlo : (e.reserved : Int) ≤ (r.slots e.info.req.locate).openShares e.info.req.side)
    (hhi : (r.slots e.info.req.locate).openShares e.info.req.side ≤ 4294967295 * 999999)
    (hw : e.want ≤ kMaxOrderQty) (hres : e.reserved ≤ kMaxOrderQty) (l : Nat) (sd : Side) :
    ((syncedRisk r e).slots l).openShares sd =
      (r.slots l).openShares sd +
        if l = e.info.req.locate ∧ sd = e.info.req.side then (e.want : Int) - e.reserved else 0 := by
  unfold kMaxOrderQty at hw hres
  have hgrow : sub32 e.want e.reserved = e.want - e.reserved ∨ e.want < e.reserved := by
    by_cases h : e.reserved ≤ e.want
    · exact .inl (sub32_eq h (by unfold u32Max; omega))
    · exact .inr (by omega)
  have hred : sub32 e.reserved e.want = e.reserved - e.want ∨ e.reserved < e.want := by
    by_cases h : e.want ≤ e.reserved
    · exact .inl (sub32_eq h (by unfold u32Max; omega))
    · exact .inr (by omega)
  unfold syncedRisk
  by_cases h₁ : e.reserved < e.want
  · rw [if_pos h₁, RiskEngine.onOrderGrow_shares hl (by omega) (by unfold kInt64Max; omega)]
    split_ifs <;> omega
  · rw [if_neg h₁]
    by_cases h₂ : e.want < e.reserved
    · rw [if_pos h₂, RiskEngine.onOrderReduce_shares hl (by omega)]
      split_ifs <;> omega
    · rw [if_neg h₂]
      split_ifs <;> omega

/-- **A working order stays working.** Slot `i` gets `e` with its reservation brought up to date. -/
theorem Inv.amend (h : Inv m) {i : Nat} (hi : i < m.fresh) (hw : (m.slots i).working = true) {e : Entry}
    {r : RiskEngine} (hs : m'.slots = Function.update m.slots i e.synced)
    (hr : SameLedger m.risk r) (hr' : m'.risk = syncedRisk r e)
    (ht : SameTable m m') (hp : SamePlaces m m') (htok : Tokens m')
    (hid : e.info.id = (m.slots i).info.id) (hloc : e.info.req.locate = (m.slots i).info.req.locate)
    (hside : e.info.req.side = (m.slots i).info.req.side) (hres : e.reserved = (m.slots i).reserved)
    (hew : e.working = true) (hsz : Sizes e) (hph : Phase e) : Inv m' := by
  have hslot : ∀ j, j ≠ i → m'.slots j = m.slots j := fun j hj => by rw [hs, Function.update_of_ne hj]
  have hself : m'.slots i = e.synced := by rw [hs, Function.update_self]
  have hlt : e.info.req.locate < r.locates := by rw [hloc, hr.locates]; exact h.ledger.locate i hi
  have hwant := want_le hsz hph
  have hheld : (m.slots i).held e.info.req.locate e.info.req.side = e.reserved := by
    simp [Entry.held, hw, hloc, hside, hres]
  have hlo : (e.reserved : Int) ≤ (r.slots e.info.req.locate).openShares e.info.req.side := by
    rw [hr.shares, ← hheld]
    exact h.ledger.held_le_shares hi _ _
  have hhi : (r.slots e.info.req.locate).openShares e.info.req.side ≤ 4294967295 * 999999 := by
    rw [hr.shares]
    exact h.ledger.shares_le h.ids _ _
  have hresle : e.reserved ≤ kMaxOrderQty := by rw [hres]; exact h.ledger.bound i hi
  refine ⟨?_, htok, ?_, ?_, by rw [ht.nextId]; exact h.nextId_pos, ?_⟩
  · refine h.ids.congr ht.fresh ht.capacity ht.byId ht.nextId fun j _ => ?_
    by_cases hj : j = i
    · rw [hj, hself, ← hid]; rfl
    · rw [hslot j hj]
  · refine h.places.congr ht.fresh ht.capacity hp.finished hp.links hp.working hp.opened fun j _ => ?_
    by_cases hj : j = i
    · rw [hj, hself, ← hid, hw, ← hew]
      exact ⟨rfl, rfl⟩
    · rw [hslot j hj]
      exact ⟨rfl, rfl⟩
  · refine h.ledger.move hi hs ht.fresh (hlt.trans_eq hr.locates) hwant ?_ ?_ ?_ ?_
    · rw [hr', syncedRisk_locates, hr.locates]
    · intro l sd
      rw [hr', syncedRisk_shares hlt hlo hhi hwant hresle, hr.shares]
      have h₁ : (m.slots i).held l sd =
          if l = e.info.req.locate ∧ sd = e.info.req.side then e.reserved else 0 := by
        simp only [Entry.held, hw, true_and, ← hloc, ← hside, ← hres, eq_comm]
      have h₂ : e.synced.held l sd =
          if l = e.info.req.locate ∧ sd = e.info.req.side then e.want else 0 := by
        have : e.synced.working = true := hew
        simp only [Entry.held, this, true_and, eq_comm]
        rfl
      rw [h₁, h₂]
      split_ifs
      · omega
      · omega
    · intro l sd
      rw [hr', syncedRisk_count, hr.count]
      have h₁ : e.synced.counted l sd = (m.slots i).counted l sd := by
        have : e.synced.working = true := hew
        simp only [Entry.counted, this, hw, ← hloc, ← hside]
        rfl
      rw [h₁]
    · rw [hr', syncedRisk_openTotal, hr.total, hp.opened]
      exact h.ledger.total
  · intro j hj
    rw [ht.fresh] at hj
    by_cases hji : j = i
    · rw [hji, hself]; exact Lifecycle.synced hsz hph hew
    · rw [hslot j hji]; exact h.entries j hj

theorem endOfLife_eq (m : OrderManager) (i : Nat) (o : Option OrderStatus) :
    m.endOfLife i o =
      { m with
        slots := Function.update m.slots i ((m.slots i).finish o)
        tokens := if (m.slots i).nextToken ≠ 0 then m.tokens.erase (m.slots i).nextToken else m.tokens
        risk := m.risk.onOrderEnd (m.slots i).info.req.locate (m.slots i).info.req.side (m.slots i).reserved
        links := (m.links.unlink m.working i).1
        working := (m.links.unlink m.working i).2
        finished := m.finished.push i
        opened := m.opened - 1 } := by
  simp [endOfLife, dropReplacement, set, unlink, Entry.finish]

/-- **A working order finishes.** -/
theorem Inv.finish (h : Inv m) {i : Nat} (hi : i < m.fresh) (hw : (m.slots i).working = true) {e : Entry}
    {r : RiskEngine} {o : Option OrderStatus} (hs : m'.slots = Function.update m.slots i (e.finish o))
    (hr : SameLedger m.risk r)
    (hr' : m'.risk = r.onOrderEnd e.info.req.locate e.info.req.side e.reserved)
    (ht : SameTable m m') (hfin : m'.finished = m.finished.push i)
    (hl : m'.links = (m.links.unlink m.working i).1) (hwk : m'.working = (m.links.unlink m.working i).2)
    (hop : m'.opened = m.opened - 1) (htok : Tokens m')
    (hid : e.info.id = (m.slots i).info.id) (hloc : e.info.req.locate = (m.slots i).info.req.locate)
    (hside : e.info.req.side = (m.slots i).info.req.side) (hres : e.reserved = (m.slots i).reserved)
    (hsz : Sizes e) (hacc : e.accepted = true → e.acked = true)
    (ho : ∀ s, o = some s → isTerminal s = true) : Inv m' := by
  have hslot : ∀ j, j ≠ i → m'.slots j = m.slots j := fun j hj => by rw [hs, Function.update_of_ne hj]
  have hself : m'.slots i = e.finish o := by rw [hs, Function.update_self]
  have hlife := Lifecycle.finish hsz hacc o ho
  have hnw : (e.finish o).working = false := by
    cases hc : (e.finish o).working with
    | false => rfl
    | true =>
      have := hlife.phase.working_iff.mp hc
      simp [Entry.finish] at this
  have hlt : e.info.req.locate < r.locates := by rw [hloc, hr.locates]; exact h.ledger.locate i hi
  have hcnt : (m.slots i).counted e.info.req.locate e.info.req.side = 1 := by
    simp [Entry.counted, hw, hloc, hside]
  have hc0 : (r.slots e.info.req.locate).openCount e.info.req.side ≠ 0 := by
    have := h.ledger.counted_le_count hi e.info.req.locate e.info.req.side
    rw [hr.count]
    omega
  have hlo : (e.reserved : Int) ≤ (r.slots e.info.req.locate).openShares e.info.req.side := by
    have hheld : (m.slots i).held e.info.req.locate e.info.req.side = e.reserved := by
      simp [Entry.held, hw, hloc, hside, hres]
    rw [hr.shares, ← hheld]
    exact h.ledger.held_le_shares hi _ _
  refine ⟨?_, htok, ?_, ?_, by rw [ht.nextId]; exact h.nextId_pos, ?_⟩
  · refine h.ids.congr ht.fresh ht.capacity ht.byId ht.nextId fun j _ => ?_
    by_cases hj : j = i
    · rw [hj, hself, ← hid]; rfl
    · rw [hslot j hj]
  · exact h.places.finish h.ids hi hw hs (by rw [← hid]; rfl) hnw ht.fresh ht.capacity hfin hl hwk hop
  · refine h.ledger.move hi hs ht.fresh (hlt.trans_eq hr.locates) (Nat.zero_le _) ?_ ?_ ?_ ?_
    · rw [hr', RiskEngine.onOrderEnd_locates, hr.locates]
    · intro l sd
      have h₁ : (m.slots i).held l sd =
          if l = e.info.req.locate ∧ sd = e.info.req.side then e.reserved else 0 := by
        simp only [Entry.held, hw, true_and, ← hloc, ← hside, ← hres, eq_comm]
      have h₂ : (e.finish o).held l sd = 0 := by simp [Entry.held, hnw]
      rw [hr', RiskEngine.onOrderEnd_shares hlt hlo, hr.shares, h₁, h₂]
      split_ifs <;> simp
    · intro l sd
      have h₁ : (m.slots i).counted l sd =
          if l = e.info.req.locate ∧ sd = e.info.req.side then 1 else 0 := by
        simp only [Entry.counted, hw, true_and, ← hloc, ← hside, eq_comm]
      have h₂ : (e.finish o).counted l sd = 0 := by simp [Entry.counted, hnw]
      rw [hr', RiskEngine.onOrderEnd_count hlt hc0, hr.count, h₁, h₂]
      by_cases hk : l = e.info.req.locate ∧ sd = e.info.req.side
      · have : (m.risk.slots l).openCount sd ≠ 0 := by
          rw [hk.1, hk.2, ← hr.count]
          exact hc0
        rw [if_pos hk]
        omega
      · simp [hk]
    · rw [hr', RiskEngine.onOrderEnd_openTotal hlt hc0, hr.total, hop, h.ledger.total]
  · intro j hj
    rw [ht.fresh] at hj
    by_cases hji : j = i
    · rw [hji, hself]; exact hlife
    · rw [hslot j hji]; exact h.entries j hj

/-! ## Both endings in one -/

/-- Slot `i` gets `e`; with nothing left open the order finishes, else its reservation is brought up
to date. -/
def settle (m : OrderManager) (i : Nat) (e : Entry) (outcome : Option OrderStatus) : OrderManager :=
  if e.info.leavesQty = 0 then (m.set i e).endOfLife i outcome else (m.set i e).syncLedger i

theorem settle_live {i : Nat} {e : Entry} {o : Option OrderStatus} (h : e.info.leavesQty ≠ 0) :
    m.settle i e o =
      { m with slots := Function.update m.slots i e.synced, risk := syncedRisk m.risk e } := by
  rw [settle, if_neg h, syncLedger_eq]
  simp [set]

theorem settle_dead {i : Nat} {e : Entry} {o : Option OrderStatus} (h : e.info.leavesQty = 0) :
    m.settle i e o =
      { m with
        slots := Function.update m.slots i (e.finish o)
        tokens := if e.nextToken ≠ 0 then m.tokens.erase e.nextToken else m.tokens
        risk := m.risk.onOrderEnd e.info.req.locate e.info.req.side e.reserved
        links := (m.links.unlink m.working i).1
        working := (m.links.unlink m.working i).2
        finished := m.finished.push i
        opened := m.opened - 1 } := by
  rw [settle, if_pos h, endOfLife_eq]
  simp [set]

/-- Apart from counters, tokens and what the ledger does not read, `m'` is `m`. -/
structure Near (m m' : OrderManager) : Prop where
  table : SameTable m m'
  places : SamePlaces m m'
  slots : m'.slots = m.slots
  ledger : SameLedger m.risk m'.risk

/-- The order keeps what identifies it. -/
structure SameOrder (e e' : Entry) : Prop where
  id : e'.info.id = e.info.id
  locate : e'.info.req.locate = e.info.req.locate
  side : e'.info.req.side = e.info.req.side
  reserved : e'.reserved = e.reserved

/-- **A working order is settled.** -/
theorem Inv.settle (h : Inv m) {i : Nat} (hi : i < m.fresh) (hw : (m.slots i).working = true) {e : Entry}
    {m₁ : OrderManager} {o : Option OrderStatus} (hm : Near m m₁) (htok : Tokens (m₁.set i e))
    (hsame : SameOrder (m.slots i) e) (hsz : Sizes e) (hph : e.info.leavesQty ≠ 0 → Phase e)
    (hacc : e.accepted = true → e.acked = true) (ho : ∀ s, o = some s → isTerminal s = true) :
    Inv (m₁.settle i e o) := by
  have hself : (m₁.set i e).slots i = e := by simp [set]
  have hi₁ : i < (m₁.set i e).fresh := hi.trans_eq hm.table.fresh.symm
  by_cases hl : e.info.leavesQty = 0
  · rw [settle_dead hl]
    refine h.finish hi hw (e := e) (o := o) (r := m₁.risk) (by rw [hm.slots]) hm.ledger rfl
      ⟨hm.table.fresh, hm.table.capacity, hm.table.byId, hm.table.nextId⟩ (by rw [hm.places.finished])
      (by rw [hm.places.links, hm.places.working]) (by rw [hm.places.links, hm.places.working])
      (by rw [hm.places.opened]) ?_ hsame.id hsame.locate hsame.side hsame.reserved hsz hacc ho
    refine htok.drop hi₁ (e := e.finish o) ?_ ?_ rfl rfl rfl rfl ?_
    · simp [set]
    · rw [hself]
      rfl
    · rw [hself]
      rfl
  · rw [settle_live hl]
    refine h.amend hi hw (e := e) (r := m₁.risk) (by rw [hm.slots]) hm.ledger rfl
      ⟨hm.table.fresh, hm.table.capacity, hm.table.byId, hm.table.nextId⟩
      ⟨hm.places.finished, hm.places.links, hm.places.working, hm.places.opened⟩ ?_ hsame.id hsame.locate
      hsame.side hsame.reserved ((hph hl).working_iff.mpr (Nat.pos_of_ne_zero hl)) hsz (hph hl)
    refine htok.congr rfl rfl rfl rfl fun j _ => ?_
    by_cases hj : j = i
    · subst hj
      simp [set, Entry.synced]
    · simp [set, hj]

end OrderManager
end OptiTrade.Oms
