import OptiTrade.Oms.Session

/-! # No unsigned wrap

The operations that compute with the sizes of an order once more, with every unsigned sum, difference and product
of the source put through its C++ type: `sum32`, `diff32` and so on answer `none` for a result that the type does
not hold. The operations are in the order of the source, and each stands under the guards it has there. -/

namespace OptiTrade.Oms
set_option autoImplicit false

open Ouch (Token)

/-- `a - b` on `std::uint32_t`, if it does not wrap. -/
def diff32 (a b : Nat) : Option Nat := if b ≤ a then some (a - b) else none

/-- `a + b` on `std::uint32_t`, if it does not wrap. -/
def sum32 (a b : Nat) : Option Nat := if a + b ≤ u32Max then some (a + b) else none

/-- `a + b` on `std::uint64_t`, if it does not wrap. -/
def sum64 (a b : Nat) : Option Nat := if a + b ≤ u64Max then some (a + b) else none

/-- `a * b` on `std::uint64_t`, if it does not wrap. -/
def product64 (a b : Nat) : Option Nat := if a * b ≤ u64Max then some (a * b) else none

theorem sub32_le (a b : Nat) : sub32 a b ≤ u32Max := by
  unfold sub32 u32Max
  omega

theorem diff32_eq {a b : Nat} (hab : b ≤ a) (ha : a ≤ u32Max) : diff32 a b = some (sub32 a b) := by
  rw [diff32, if_pos hab, sub32_eq hab ha]

theorem sum32_eq {a b : Nat} (h : a + b ≤ u32Max) : sum32 a b = some (add32 a b) := by
  rw [sum32, if_pos h, add32_eq h]

theorem sum64_eq {a b : Nat} (h : a + b ≤ u64Max) : sum64 a b = some (add64 a b) := by
  rw [sum64, if_pos h, add64_eq h]

theorem product64_eq {a b : Nat} (h : a * b ≤ u64Max) : product64 a b = some (a * b) := if_pos h

/-- `a > b ? a - b : 0`. -/
def excess (a b : Nat) : Option Nat := if b < a then diff32 a b else some 0

theorem excess_eq {a b : Nat} (ha : a ≤ u32Max) : excess a b = some (if b < a then sub32 a b else 0) := by
  unfold excess
  split_ifs with h
  · exact diff32_eq h.le ha
  · rfl

namespace Checked

/-! ## The operations -/

/-- What the ledger has to hold for the order. -/
def want (e : Entry) : Option Nat :=
  if e.nextToken ≠ 0 ∧ e.info.cumQty < e.replaceQty then do
    let rest ← diff32 e.replaceQty e.info.cumQty
    some (max e.info.leavesQty rest)
  else some e.info.leavesQty

/-- The ledger holds what the order needs. -/
def syncLedger (m : OrderManager) (i : Nat) : Option OrderManager := do
  let e := m.slots i
  let want ← want e
  let risk ←
    if e.reserved < want then do
      let more ← diff32 want e.reserved
      some (m.risk.onOrderGrow e.info.req.locate e.info.req.side more)
    else if want < e.reserved then do
      let less ← diff32 e.reserved want
      some (m.risk.onOrderReduce e.info.req.locate e.info.req.side less)
    else some m.risk
  some ({ m with risk := risk }.set i { e with reserved := want })

/-- The growth is the only difference that a replace takes, and it has its own guard. -/
def replace (m : OrderManager) (id : Nat) (newPrice : Int) (newQty : Nat) (now : Nat) (reference : Nat → Int)
    (gateway : Ouch.Inbound → Bool) : Option (OrderManager.Outcome SubmitStatus) :=
  match m.slotOf id with
  | none => some ⟨.unknownOrder, m, none, none⟩
  | some i =>
    let e := m.slots i
    if e.info.status ≠ .live then some ⟨.badState, m, none, none⟩
    else if newPrice ≤ 0 ∨ kMaxWirePrice < newPrice ∨ newQty = 0 ∨ kMaxOrderQty < newQty ∨
        newQty ≤ e.info.cumQty then some ⟨.invalidRequest, m, none, none⟩
    else if !m.tokenAvailable then some ⟨.capacity, m, none, none⟩
    else do
      let openAfter ← diff32 newQty e.info.cumQty
      let growth ← excess openAfter e.info.leavesQty
      let loc := e.info.req.locate
      let verdict := m.risk.evaluateReplace loc e.info.req.side newPrice openAfter growth (reference loc) now
      if verdict ≠ .none then some ⟨.rejectedByRisk, m, none, none⟩
      else
        let msg : Ouch.ReplaceOrder :=
          { existing := Token.fromId e.token, replacement := Token.fromId m.nextToken
            shares := newQty, price := newPrice, timeInForce := OrderManager.wireTif e.info.req.tif }
        let ins := m.tokens.insert m.nextToken i
        if !ins.2 then some ⟨.capacity, m, none, none⟩
        else if !gateway (.replace msg) then
          some ⟨.gatewayBusy, { m with tokens := ins.1.erase m.nextToken }, some (.replace msg), none⟩
        else do
          let m := { m with tokens := ins.1, risk := if growth ≠ 0 then m.risk.admitOrder now else m.risk }
          let m := { m with nextToken := m.nextToken + 1 }.set i
            { e with nextToken := m.nextToken, replacePrice := newPrice, replaceQty := newQty }
          let m ← syncLedger m i
          let info := { (m.slots i).info with status := .pendingReplace, lastUpdate := now }
          some ⟨.ok, m.set i { m.slots i with info := info }, some (.replace msg), some info⟩

/-- The counter of the ring of match numbers. -/
def rememberMatch (e : Entry) (n : Nat) : Option Entry := do
  let count ← sum32 e.matchCount 1
  some { e with matches_ := Function.update e.matches_ (e.matchCount % kMatchMemory) n, matchCount := count }

def book (e : Entry) (x : Ouch.Executed) (now : Nat) : Option Entry := do
  let e ← rememberMatch e x.matchNo
  let value ← product64 x.price.toNat x.shares
  let notional ← sum64 e.notional value
  let cum ← sum32 e.info.cumQty x.shares
  let leaves ← diff32 e.info.leavesQty (min x.shares e.info.leavesQty)
  some
    { e with
      acked := true
      notional := notional
      info :=
        { e.info with
          cumQty := cum
          leavesQty := leaves
          req := { e.info.req with qty := max e.info.req.qty cum }
          avgPrice := (notional / cum : Nat)
          lastUpdate := now } }

/-- The end that a handler comes to: with nothing left open the order finishes, else it is live if it was pending,
and its ledger entry is brought up to date. -/
def close (m : OrderManager) (i : Nat) (outcome : Option OrderStatus) (pending : OrderStatus) : Option OrderManager :=
  if (m.slots i).info.leavesQty = 0 then some (m.endOfLife i outcome)
  else
    syncLedger
      (if (m.slots i).info.status = pending then
        m.set i { m.slots i with info := { (m.slots i).info with status := .live } }
      else m) i

/-- The first reasons to count an execution as invalid; the room is computed when the others do not apply. -/
def garbage (e : Entry) (x : Ouch.Executed) : Option Bool :=
  if x.shares = 0 ∨ x.price ≤ 0 ∨ kMaxWirePrice < x.price then some true
  else do
    let room ← diff32 kMaxOrderQty e.info.cumQty
    some (decide (room < x.shares))

def onExecuted (m : OrderManager) (x : Ouch.Executed) (now : Nat) : Option (OrderManager × Option (Fill × OrderInfo)) :=
  match m.activeOrder x.token with
  | .inr m' => some (m', none)
  | .inl i => do
    let e := m.slots i
    let garbage ← garbage e x
    if garbage then some (m.invalid, none)
    else if e.seenMatch x.matchNo then some (m.invalid, none)
    else do
      let m := if e.info.leavesQty < x.shares then m.clamped else m
      let booked ← book e x now
      let m := m.set i booked
      let m := { m with risk := m.risk.onFill e.info.req.locate e.info.req.side x.shares x.price }
      let m ← close m i (some .filled) .pendingNew
      let info := (m.slots i).info
      some (m, some (⟨info.id, info.req.locate, info.req.side, x.shares, x.price, now, x.matchNo⟩, info))

def onCanceled (m : OrderManager) (c : Ouch.Canceled) (now : Nat) : Option (OrderManager × Option OrderInfo) :=
  match m.activeOrder c.token with
  | .inr m' => some (m', none)
  | .inl i =>
    if c.decrement = 0 then some (m.invalid, none)
    else do
      let e := m.slots i
      let qty := min c.decrement e.info.leavesQty
      let m := if qty ≠ c.decrement then m.clamped else m
      let leaves ← diff32 e.info.leavesQty qty
      let m := m.set i
        { e with
          acked := true
          info := { e.info with leavesQty := leaves, reason := c.reason, lastUpdate := now } }
      let m ← close m i none .pendingNew
      some (m, some (m.slots i).info)

def onRejected (m : OrderManager) (r : Ouch.Rejected) (now : Nat) : Option (OrderManager × Option OrderInfo) :=
  match m.resolve r.token with
  | none => some (m.unknown, none)
  | some (i, replacement) =>
    if isTerminal (m.slots i).info.status then some (m.late, none)
    else if !replacement && (m.slots i).acked then some (m.invalid, none)
    else do
      let m ←
        if replacement then
          let m := m.dropReplacement i
          syncLedger (m.set i { m.slots i with info := { (m.slots i).info with status := .live } }) i
        else some (m.endOfLife i (some .rejected))
      let info := { (m.slots i).info with reason := r.reason, lastUpdate := now }
      some (m.set i { m.slots i with info := info }, some info)

def onReplaced (m : OrderManager) (rp : Ouch.Replaced) (now : Nat) : Option (OrderManager × Option OrderInfo) :=
  match m.resolve rp.a.token with
  | none => some (m.unknown, none)
  | some (i, replacement) =>
    let e := m.slots i
    if isTerminal e.info.status then some (m.late, none)
    else if !replacement || rp.previous != Token.fromId e.token ||
        (rp.a.orderState != ascii 'L' && rp.a.orderState != ascii 'D') then some (m.invalid, none)
    else do
      let total := e.replaceQty
      let dead := rp.a.orderState = ascii 'D'
      let asked ← excess total e.info.cumQty
      let m := { m with tokens := m.tokens.erase e.token }
      let m := if ¬dead ∧ asked < rp.a.shares then m.clamped else m
      let m := m.set i
        { e with
          token := e.nextToken
          nextToken := 0
          replaceQty := 0
          replacePrice := 0
          info :=
            { e.info with
              req :=
                { e.info.req with
                  qty := max total e.info.cumQty
                  price := if 0 < rp.a.price ∧ rp.a.price ≤ kMaxWirePrice then rp.a.price else e.replacePrice }
              exchangeRef := if rp.a.ref ≠ 0 then rp.a.ref else e.info.exchangeRef
              leavesQty := if dead then 0 else min rp.a.shares asked
              lastUpdate := now } }
      let m ← close m i none .pendingReplace
      some (m, some (m.slots i).info)

/-- A report, with the handlers that compute. -/
def report (s : Session) (r : Ouch.Outbound) (now : Nat) : Option (Session × List Effect) :=
  match r with
  | .accepted a => some (Session.finishReport (s.manager.onAccepted a now))
  | .canceled c => do
    let out ← onCanceled s.manager c now
    some (Session.finishReport out)
  | .rejected x => do
    let out ← onRejected s.manager x now
    some (Session.finishReport out)
  | .replaced x => do
    let out ← onReplaced s.manager x now
    some (Session.finishReport out)
  | .executed x => do
    let out ← onExecuted s.manager x now
    match out with
    | (m, some (f, before)) => some (⟨m, [.fill before]⟩, [.fill f])
    | (m, none) => some (⟨m, []⟩, [])

/-- A step of the session; what is not listed computes with no size of an order. -/
def step (s : Session) : Event → Option (Option (Session × List Effect))
  | .replace id newPrice newQty now w =>
    if s.mayCall then do
      let out ← replace s.manager id newPrice newQty now w.reference w.gateway
      some (some (s.finishCall out now w))
    else some none
  | .report r now =>
    if s.stack.isEmpty then do
      let after ← report s r now
      some (some after)
    else some none
  | e => some (s.step e)

/-! ## They answer the same -/

section
variable {e : Entry} {m : OrderManager} {i : Nat}

/-- The sizes of the entry fit their type. -/
structure Narrow (e : Entry) : Prop where
  replaceQty : e.replaceQty ≤ u32Max
  leavesQty : e.info.leavesQty ≤ u32Max
  reserved : e.reserved ≤ u32Max

theorem want_eq (h : Narrow e) : want e = some e.want := by
  unfold want Entry.want
  by_cases hc : e.nextToken ≠ 0 ∧ e.info.cumQty < e.replaceQty
  · rw [if_pos hc, if_pos hc, diff32_eq hc.2.le h.replaceQty]
    rfl
  · rw [if_neg hc, if_neg hc]

theorem want_le (h : Narrow e) : e.want ≤ u32Max := by
  unfold Entry.want
  split_ifs
  · exact max_le h.leavesQty (sub32_le _ _)
  · exact h.leavesQty

theorem syncLedger_eq (h : Narrow (m.slots i)) : syncLedger m i = some (m.syncLedger i) := by
  have hwant := want_le h
  unfold syncLedger OrderManager.syncLedger
  simp only [want_eq h, Option.bind_eq_bind, Option.bind_some]
  by_cases hg : (m.slots i).reserved < (m.slots i).want
  · simp only [hg, if_true, diff32_eq hg.le hwant, Option.bind_some]
  · by_cases hr : (m.slots i).want < (m.slots i).reserved
    · simp only [hg, hr, if_true, if_false, diff32_eq hr.le h.reserved, Option.bind_some]
    · simp only [hg, hr, if_false]

/-- The entry that is stored in a slot. -/
theorem Narrow.set (h : Narrow e) : Narrow ((m.set i e).slots i) := by
  simp only [OrderManager.set, Function.update_self]
  exact h

theorem close_eq (h : Narrow (m.slots i)) (o : Option OrderStatus) (pending : OrderStatus) :
    close m i o pending = some
      (if (m.slots i).info.leavesQty = 0 then m.endOfLife i o
      else
        (if (m.slots i).info.status = pending then
          m.set i { m.slots i with info := { (m.slots i).info with status := .live } }
        else m).syncLedger i) := by
  unfold close
  by_cases hl : (m.slots i).info.leavesQty = 0
  · rw [if_pos hl, if_pos hl]
  · rw [if_neg hl, if_neg hl]
    refine syncLedger_eq ?_
    split_ifs
    · exact .set ⟨h.replaceQty, h.leavesQty, h.reserved⟩
    · exact h

end

/-! ## In every state of the manager -/

section
variable {m : OrderManager} {i : Nat}

open OrderManager (Inv)

theorem narrow {e : Entry} (h : Lifecycle e) : Narrow e := by
  have hmax : kMaxOrderQty ≤ u32Max := by decide
  refine ⟨?_, h.sizes.leaves_le.trans hmax, h.reserved_le.trans hmax⟩
  by_cases hz : e.nextToken = 0
  · rw [h.phase.repl_none hz]
    exact Nat.zero_le _
  · exact (h.phase.repl_qty hz).2.trans hmax

theorem activeOrder_lt (h : Inv m) {t : Token} (ha : m.activeOrder t = .inl i) : i < m.fresh := by
  unfold OrderManager.activeOrder at ha
  split at ha
  · cases ha
  · rename_i j b hr
    split_ifs at ha
    obtain rfl := Sum.inl.inj ha
    exact ((OrderManager.resolve_some h.tokens).mp hr).1

theorem replace_eq (h : Inv m) (id : Nat) (newPrice : Int) (newQty now : Nat) (reference : Nat → Int)
    (gateway : Ouch.Inbound → Bool) :
    replace m id newPrice newQty now reference gateway = some (m.replace id newPrice newQty now reference gateway) := by
  unfold replace OrderManager.replace
  cases hs : m.slotOf id with
  | none => rfl
  | some i =>
    have hlife := h.entries i ((h.ids.find id i).mp hs).1
    have hnarrow := narrow hlife
    dsimp only
    by_cases h₁ : (m.slots i).info.status ≠ .live
    · rw [if_pos h₁, if_pos h₁]
    rw [if_neg h₁, if_neg h₁]
    by_cases h₂ : newPrice ≤ 0 ∨ kMaxWirePrice < newPrice ∨ newQty = 0 ∨ kMaxOrderQty < newQty ∨
        newQty ≤ (m.slots i).info.cumQty
    · rw [if_pos h₂, if_pos h₂]
    rw [if_neg h₂, if_neg h₂]
    by_cases h₃ : (!m.tokenAvailable) = true
    · rw [if_pos h₃, if_pos h₃]
    rw [if_neg h₃, if_neg h₃]
    -- what the guards leave: the new total is above what has executed
    push Not at h₂
    obtain ⟨-, -, -, hmax, hcum⟩ := h₂
    have hqty : newQty ≤ u32Max := hmax.trans (by decide)
    simp only [diff32_eq hcum.le hqty, excess_eq (sub32_le _ _), Option.bind_eq_bind, Option.bind_some]
    generalize (if (m.slots i).info.leavesQty < sub32 newQty (m.slots i).info.cumQty then
          sub32 (sub32 newQty (m.slots i).info.cumQty) (m.slots i).info.leavesQty else 0) = growth
    rw [syncLedger_eq]
    · split_ifs <;> rfl
    · exact .set ⟨hqty, hnarrow.leavesQty, hnarrow.reserved⟩

theorem book_eq {e : Entry} (h : Lifecycle e) {x : Ouch.Executed} (now : Nat) (hx : ¬OrderManager.badExecution e x) :
    book e x now = some (e.book x now) := by
  obtain ⟨hshares, -, hprice, hcum, -⟩ := execute_numbers h.sizes now hx
  have hvalue : x.price.toNat * x.shares ≤ 4294967295 * x.shares :=
    Nat.mul_le_mul_right _ (by unfold kMaxWirePrice at hprice; omega)
  have hnotional := h.sizes.notional_le
  have hmatch := h.sizes.match_le
  have hleaves := (narrow h).leavesQty
  unfold kMaxOrderQty at hcum
  have h₁ : sum32 e.matchCount 1 = some (add32 e.matchCount 1) := sum32_eq (by unfold u32Max; omega)
  have h₂ : product64 x.price.toNat x.shares = some (x.price.toNat * x.shares) :=
    product64_eq (by unfold u64Max; omega)
  have h₃ : sum64 e.notional (x.price.toNat * x.shares) = some (add64 e.notional (x.price.toNat * x.shares)) :=
    sum64_eq (by unfold u64Max; omega)
  have h₄ : sum32 e.info.cumQty x.shares = some (add32 e.info.cumQty x.shares) := sum32_eq (by unfold u32Max; omega)
  have h₅ : diff32 e.info.leavesQty (min x.shares e.info.leavesQty) =
      some (sub32 e.info.leavesQty (min x.shares e.info.leavesQty)) := diff32_eq (Nat.min_le_right _ _) hleaves
  simp only [book, rememberMatch, h₁, h₂, h₃, h₄, h₅, Option.bind_eq_bind, Option.bind_some]
  rfl

theorem garbage_eq {e : Entry} (h : Lifecycle e) (x : Ouch.Executed) :
    garbage e x = some (decide (x.shares = 0 ∨ x.price ≤ 0 ∨ kMaxWirePrice < x.price ∨
      sub32 kMaxOrderQty e.info.cumQty < x.shares)) := by
  unfold garbage
  by_cases hg : x.shares = 0 ∨ x.price ≤ 0 ∨ kMaxWirePrice < x.price
  · rw [if_pos hg, decide_eq_true (by tauto)]
  · rw [if_neg hg, diff32_eq h.sizes.cum_le (by decide)]
    exact congrArg some (decide_eq_decide.mpr (by tauto))

theorem onExecuted_eq (h : Inv m) (x : Ouch.Executed) (now : Nat) : onExecuted m x now = some (m.onExecuted x now) := by
  unfold onExecuted OrderManager.onExecuted
  cases ha : m.activeOrder x.token with
  | inr m' => rfl
  | inl i =>
    have hlife := h.entries i (activeOrder_lt h ha)
    have hnarrow := narrow hlife
    simp only [garbage_eq hlife, Option.bind_eq_bind, Option.bind_some, decide_eq_true_eq]
    by_cases h₁ : x.shares = 0 ∨ x.price ≤ 0 ∨ kMaxWirePrice < x.price ∨
        sub32 kMaxOrderQty (m.slots i).info.cumQty < x.shares
    · rw [if_pos h₁, if_pos h₁]
    rw [if_neg h₁, if_neg h₁]
    by_cases h₂ : (m.slots i).seenMatch x.matchNo = true
    · rw [if_pos h₂, if_pos h₂]
    rw [if_neg h₂, if_neg h₂, book_eq hlife now (by unfold OrderManager.badExecution; tauto), Option.bind_some]
    rw [close_eq]
    · rfl
    · exact .set ⟨hnarrow.replaceQty, sub32_le _ _, hnarrow.reserved⟩

theorem onCanceled_eq (h : Inv m) (c : Ouch.Canceled) (now : Nat) : onCanceled m c now = some (m.onCanceled c now) := by
  unfold onCanceled OrderManager.onCanceled
  cases ha : m.activeOrder c.token with
  | inr m' => rfl
  | inl i =>
    have hnarrow := narrow (h.entries i (activeOrder_lt h ha))
    dsimp only
    by_cases hz : c.decrement = 0
    · rw [if_pos hz, if_pos hz]
    rw [if_neg hz, if_neg hz]
    simp only [diff32_eq (Nat.min_le_right _ _) hnarrow.leavesQty, Option.bind_eq_bind, Option.bind_some]
    rw [close_eq]
    · rfl
    · exact .set ⟨hnarrow.replaceQty, sub32_le _ _, hnarrow.reserved⟩

theorem onRejected_eq (h : Inv m) (r : Ouch.Rejected) (now : Nat) : onRejected m r now = some (m.onRejected r now) := by
  unfold onRejected OrderManager.onRejected
  cases hr : m.resolve r.token with
  | none => rfl
  | some p =>
    obtain ⟨i, replacement⟩ := p
    have hnarrow := narrow (h.entries i ((OrderManager.resolve_some h.tokens).mp hr).1)
    dsimp only
    by_cases h₁ : isTerminal (m.slots i).info.status = true
    · rw [if_pos h₁, if_pos h₁]
    rw [if_neg h₁, if_neg h₁]
    by_cases h₂ : (!replacement && (m.slots i).acked) = true
    · rw [if_pos h₂, if_pos h₂]
    rw [if_neg h₂, if_neg h₂]
    cases replacement with
    | false => rfl
    | true =>
      simp only [if_true, Option.bind_eq_bind]
      rw [syncLedger_eq]
      · rfl
      · simp only [OrderManager.set, OrderManager.dropReplacement, Function.update_self]
        exact ⟨Nat.zero_le _, hnarrow.leavesQty, hnarrow.reserved⟩

theorem onReplaced_eq (h : Inv m) (rp : Ouch.Replaced) (now : Nat) : onReplaced m rp now = some (m.onReplaced rp now) := by
  unfold onReplaced OrderManager.onReplaced
  cases hr : m.resolve rp.a.token with
  | none => rfl
  | some p =>
    obtain ⟨i, replacement⟩ := p
    have hnarrow := narrow (h.entries i ((OrderManager.resolve_some h.tokens).mp hr).1)
    dsimp only
    by_cases h₁ : isTerminal (m.slots i).info.status = true
    · rw [if_pos h₁, if_pos h₁]
    rw [if_neg h₁, if_neg h₁]
    by_cases h₂ : (!replacement || rp.previous != Token.fromId (m.slots i).token ||
        (rp.a.orderState != ascii 'L' && rp.a.orderState != ascii 'D')) = true
    · rw [if_pos h₂, if_pos h₂]
    rw [if_neg h₂, if_neg h₂]
    have hasked : (if (m.slots i).info.cumQty < (m.slots i).replaceQty then
        sub32 (m.slots i).replaceQty (m.slots i).info.cumQty else 0) ≤ u32Max := by
      split_ifs
      · exact sub32_le _ _
      · exact Nat.zero_le _
    have hopen : (if rp.a.orderState = ascii 'D' then 0 else min rp.a.shares
        (if (m.slots i).info.cumQty < (m.slots i).replaceQty then
          sub32 (m.slots i).replaceQty (m.slots i).info.cumQty else 0)) ≤ u32Max := by
      by_cases hd : rp.a.orderState = ascii 'D'
      · rw [if_pos hd]
        exact Nat.zero_le _
      · rw [if_neg hd]
        exact (Nat.min_le_right _ _).trans hasked
    simp only [excess_eq hnarrow.replaceQty, Option.bind_eq_bind, Option.bind_some]
    rw [close_eq]
    · rfl
    · exact .set ⟨Nat.zero_le _, hopen, hnarrow.reserved⟩

theorem report_eq {s : Session} (h : Inv s.manager) (r : Ouch.Outbound) (now : Nat) :
    report s r now = some (s.report r now) := by
  cases r with
  | accepted a => rfl
  | canceled c => simp only [report, onCanceled_eq h, Option.bind_eq_bind, Option.bind_some, Session.report]
  | rejected x => simp only [report, onRejected_eq h, Option.bind_eq_bind, Option.bind_some, Session.report]
  | replaced x => simp only [report, onReplaced_eq h, Option.bind_eq_bind, Option.bind_some, Session.report]
  | executed x =>
    simp only [report, onExecuted_eq h, Option.bind_eq_bind, Option.bind_some, Session.report]
    cases s.manager.onExecuted x now with
    | mk m o => cases o <;> rfl

/-- **No size of an order wraps.** -/
theorem step_eq {s : Session} (h : Inv s.manager) (e : Event) : step s e = some (s.step e) := by
  cases e with
  | replace id p q now w =>
    simp only [step, replace_eq h, Option.bind_eq_bind, Option.bind_some, Session.step]
    split_ifs <;> rfl
  | report r now =>
    simp only [step, report_eq h, Option.bind_eq_bind, Option.bind_some, Session.step]
    split_ifs <;> rfl
  | _ => rfl

end
end Checked
end OptiTrade.Oms
