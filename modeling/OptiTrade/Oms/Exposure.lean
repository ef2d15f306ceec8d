import Mathlib.Data.Finset.Card
import OptiTrade.Oms.Session

/-! # The exposure ledger as the interface shows it

The ledger is kept over table slots; here it is restated over order ids, for every reachable
session. -/

namespace OptiTrade.Oms
set_option autoImplicit false

open Finset Runs

namespace OrderManager

/-- The ids of the orders in the table that are not terminal. -/
def nonTerminal (m : OrderManager) : Finset Nat :=
  (range m.nextId).filter fun id => ∃ info, m.find id = some info ∧ isTerminal info.status = false

/-- Those of one instrument and side. -/
def nonTerminalOf (m : OrderManager) (l : Nat) (sd : Side) : Finset Nat :=
  m.nonTerminal.filter fun id => ∃ info, m.find id = some info ∧ info.req.locate = l ∧ info.req.side = sd

variable {m : OrderManager}

theorem Inv.entry_some (h : Inv m) {id : Nat} {e : Entry} :
    m.entry id = some e ↔ ∃ i < m.fresh, (m.slots i).info.id = id ∧ m.slots i = e := by
  unfold entry slotOf
  rw [Option.map_eq_some_iff]
  constructor
  · rintro ⟨i, hi, he⟩
    obtain ⟨h₁, h₂⟩ := (h.ids.find id i).mp hi
    exact ⟨i, h₁, h₂, he⟩
  · rintro ⟨i, h₁, h₂, he⟩
    exact ⟨i, (h.ids.find id i).mpr ⟨h₁, h₂⟩, he⟩

theorem Inv.entry_slot (h : Inv m) {i : Nat} (hi : i < m.fresh) :
    m.entry (m.slots i).info.id = some (m.slots i) := h.entry_some.mpr ⟨i, hi, rfl, rfl⟩

theorem Inv.find_some (h : Inv m) {id : Nat} {info : OrderInfo} :
    m.find id = some info ↔ ∃ i < m.fresh, (m.slots i).info.id = id ∧ (m.slots i).info = info := by
  unfold find
  rw [Option.map_eq_some_iff]
  constructor
  · rintro ⟨e, he, hinfo⟩
    obtain ⟨i, h₁, h₂, h₃⟩ := h.entry_some.mp he
    exact ⟨i, h₁, h₂, by rw [h₃, hinfo]⟩
  · rintro ⟨i, h₁, h₂, h₃⟩
    exact ⟨m.slots i, h.entry_some.mpr ⟨i, h₁, h₂, rfl⟩, h₃⟩

theorem Inv.id_injOn (h : Inv m) : Set.InjOn (fun i => (m.slots i).info.id) {i | i < m.fresh} := by
  intro i hi j hj hij
  have h₁ := (h.ids.find _ i).mpr ⟨hi, rfl⟩
  have h₂ := (h.ids.find _ j).mpr ⟨hj, rfl⟩
  dsimp only at hij
  rw [hij, h₂] at h₁
  exact (Option.some.inj h₁).symm

theorem Inv.mem_nonTerminal (h : Inv m) {id : Nat} :
    id ∈ m.nonTerminal ↔ ∃ info, m.find id = some info ∧ isTerminal info.status = false := by
  unfold nonTerminal
  rw [mem_filter, and_iff_right_iff_imp]
  rintro ⟨info, hf, _⟩
  obtain ⟨i, hi, hid, _⟩ := h.find_some.mp hf
  rw [mem_range, ← hid]
  exact h.ids.id_lt i hi

theorem Inv.card_working (h : Inv m) :
    ((range m.fresh).filter fun i => (m.slots i).working = true).card = m.opened := by
  obtain ⟨ws, h₁, h₂, _, h₄⟩ := h.places.list
  rw [← h₄, ← List.toFinset_card_of_nodup h₁.nodup]
  congr 1
  ext i
  rw [mem_filter, mem_range, List.mem_toFinset, h₂]

theorem Inv.card_nonTerminal (h : Inv m) : m.nonTerminal.card = m.opened := by
  rw [← h.card_working]
  symm
  refine card_nbij (fun i => (m.slots i).info.id) ?_ ?_ ?_
  · intro i hi
    obtain ⟨hi, hw⟩ := mem_filter.mp hi
    refine h.mem_nonTerminal.mpr ⟨(m.slots i).info, h.find_some.mpr ⟨i, mem_range.mp hi, rfl, rfl⟩, ?_⟩
    simpa [Entry.working] using hw
  · exact h.id_injOn.mono fun i hi => mem_range.mp (mem_filter.mp hi).1
  · intro id hid
    obtain ⟨info, hf, ht⟩ := h.mem_nonTerminal.mp hid
    obtain ⟨i, hi, h₁, h₂⟩ := h.find_some.mp hf
    refine ⟨i, ?_, h₁⟩
    simp [Entry.working, hi, h₂, ht]

theorem Inv.sum_reserved (h : Inv m) (l : Nat) (sd : Side) :
    ∑ i ∈ range m.fresh, (m.slots i).held l sd = ∑ id ∈ m.nonTerminalOf l sd, m.reservedQty id := by
  unfold Entry.held
  rw [← sum_filter]
  refine sum_nbij (fun i => (m.slots i).info.id) ?_ ?_ ?_ ?_
  · intro i hi
    obtain ⟨hi, hw, hl, hsd⟩ := mem_filter.mp hi
    have hf := h.find_some.mpr ⟨i, mem_range.mp hi, rfl, rfl⟩
    refine mem_filter.mpr ⟨h.mem_nonTerminal.mpr ⟨_, hf, ?_⟩, _, hf, hl, hsd⟩
    simpa [Entry.working] using hw
  · exact h.id_injOn.mono fun i hi => mem_range.mp (mem_filter.mp hi).1
  · intro id hid
    obtain ⟨hnt, info', hf', hl, hsd⟩ := mem_filter.mp hid
    obtain ⟨info, hf, ht⟩ := h.mem_nonTerminal.mp hnt
    obtain rfl : info = info' := Option.some.inj (hf.symm.trans hf')
    obtain ⟨i, hi, h₁, h₂⟩ := h.find_some.mp hf
    refine ⟨i, ?_, h₁⟩
    simp [Entry.working, hi, h₂, ht, hl, hsd]
  · intro i hi
    have hi := mem_range.mp (mem_filter.mp hi).1
    rw [reservedQty, h.entry_slot hi]

theorem Inv.openQty_eq (h : Inv m) (l : Nat) (sd : Side) :
    m.risk.openQty l sd = ((∑ id ∈ m.nonTerminalOf l sd, m.reservedQty id : Nat) : Int) := by
  rw [← h.sum_reserved, ← h.ledger.shares]
  unfold Risk.RiskEngine.openQty
  split_ifs with hl
  · rfl
  · -- no order is on an instrument the risk engine does not know
    rw [h.ledger.shares]
    symm
    rw [Nat.cast_eq_zero]
    refine sum_eq_zero fun i hi => ?_
    have := h.ledger.locate i (mem_range.mp hi)
    rw [Entry.held, if_neg]
    rintro ⟨_, h', _⟩
    omega

theorem Inv.openOrders_eq (h : Inv m) : m.risk.openOrders = m.openOrders := by
  have hle : m.opened ≤ m.fresh := by
    rw [← h.card_working]
    exact (card_filter_le _ _).trans_eq (card_range _)
  have h₁ := h.ids.fresh_le
  have h₂ := h.ids.capacity_lt
  unfold Risk.RiskEngine.openOrders openOrders
  rw [h.ledger.total]
  unfold kNone at h₂
  unfold u32Max
  omega

theorem Inv.reservedQty_eq (h : Inv m) {id : Nat} {e : Entry} (he : m.entry id = some e) :
    m.reservedQty id =
      if isTerminal e.info.status = true then 0
      else if e.nextToken ≠ 0 then max e.info.leavesQty (e.replaceQty - e.info.cumQty)
      else e.info.leavesQty := by
  obtain ⟨i, hi, _, rfl⟩ := h.entry_some.mp he
  have hlife := h.entries i hi
  rw [reservedQty, he]
  dsimp only
  rw [hlife.reserved, Entry.working]
  by_cases ht : isTerminal (m.slots i).info.status = true
  · simp [ht]
  · rw [if_pos (by simpa using ht), if_neg ht, want_eq hlife.phase]
    by_cases hn : (m.slots i).nextToken ≠ 0
    · rw [if_pos hn]
    · rw [if_neg hn, hlife.phase.repl_none (not_not.mp hn)]
      omega

end OrderManager

/-- **Exposure ledger exactness.** In every state a session reaches, whatever is called, reported and
refused: what the manager holds for an order is its leaves, or while a replace is in flight the
larger of its leaves and what the replace asks to be open, and nothing for a terminal or unknown
order; the risk engine's working quantity is the sum over the non-terminal orders; and both count
exactly the non-terminal orders. -/
theorem exposure_ledger_exact (config : Config) (limits : Risk.Limits) (maxLocates : Nat) (es : List Event)
    (s : Session) (h : run Session.next (Session.new config limits maxLocates) es = some s) :
    (∀ id e, s.manager.entry id = some e → s.manager.reservedQty id =
      if isTerminal e.info.status = true then 0
      else if e.nextToken ≠ 0 then max e.info.leavesQty (e.replaceQty - e.info.cumQty)
      else e.info.leavesQty) ∧
    (∀ id, s.manager.entry id = none → s.manager.reservedQty id = 0) ∧
    (∀ id, id ∈ s.manager.nonTerminal ↔
      ∃ info, s.manager.find id = some info ∧ isTerminal info.status = false) ∧
    (∀ l sd, s.manager.risk.openQty l sd =
      ((∑ id ∈ s.manager.nonTerminalOf l sd, s.manager.reservedQty id : Nat) : Int)) ∧
    s.manager.risk.openOrders = s.manager.openOrders ∧
    s.manager.openOrders = s.manager.nonTerminal.card := by
  have hok := (Session.Ok.new config limits maxLocates).run h
  refine ⟨fun id e he => hok.inv.reservedQty_eq he, fun id he => ?_, fun id => hok.inv.mem_nonTerminal,
    hok.inv.openQty_eq, hok.inv.openOrders_eq, hok.inv.card_nonTerminal.symm⟩
  rw [OrderManager.reservedQty, he]

/-- With 70 shares open and 120 asked for, 120 are held. -/
theorem exposure_ledger_replace_in_flight :
    ∃ s, run Session.next (Session.new {} {} 4) Session.replaceInFlight = some s ∧
      s.manager.reservedQty 1 = 120 ∧
      s.manager.risk.openQty 1 .buy =
        ((∑ id ∈ s.manager.nonTerminalOf 1 .buy, s.manager.reservedQty id : Nat) : Int) :=
  ⟨_, rfl, rfl, (exposure_ledger_exact {} {} 4 Session.replaceInFlight _ rfl).2.2.2.1 1 .buy⟩

end OptiTrade.Oms
