import OptiTrade.Oms.Lifecycle

/-! # What an operation does to the order it is about

Each report handler and each order-entry call is brought to one form: it is dropped and counted, or
it settles one working order with a new entry. The new entries are the functions of the first
section. -/

namespace OptiTrade.Oms
set_option autoImplicit false

open Ouch (Token)
open Risk (RiskEngine)

/-! ## The new entry -/

/-- The first applied report makes a pending order live. -/
def confirm : OrderStatus → OrderStatus
  | .pendingNew => .live
  | s => s

theorem confirm_eq (s : OrderStatus) : confirm s = if s = .pendingNew then .live else s := by
  cases s <;> rfl

namespace Entry

def accept (e : Entry) (a : Ouch.Accepted) (now : Nat) : Entry :=
  { e with
    accepted := true, acked := true
    info :=
      { e.info with
        exchangeRef := a.ref, lastUpdate := now, status := confirm e.info.status
        leavesQty := if a.orderState = ascii 'D' then 0 else e.info.leavesQty } }

def execute (e : Entry) (x : Ouch.Executed) (now : Nat) : Entry :=
  { e.book x now with info := { (e.book x now).info with status := confirm e.info.status } }

/-- The order after shares were taken off it. -/
def shrink (e : Entry) (c : Ouch.Canceled) (now : Nat) : Entry :=
  { e with
    acked := true
    info :=
      { e.info with
        leavesQty := sub32 e.info.leavesQty (min c.decrement e.info.leavesQty), reason := c.reason
        lastUpdate := now } }

def reduce (e : Entry) (c : Ouch.Canceled) (now : Nat) : Entry :=
  { e.shrink c now with info := { (e.shrink c now).info with status := confirm e.info.status } }

/-- The replace in flight was rejected. -/
def revert (e : Entry) (r : Ouch.Rejected) (now : Nat) : Entry :=
  { e with
    nextToken := 0, replacePrice := 0, replaceQty := 0
    info := { e.info with status := .live, reason := r.reason, lastUpdate := now } }

def refuse (e : Entry) (r : Ouch.Rejected) (now : Nat) : Entry :=
  { e with info := { e.info with leavesQty := 0, reason := r.reason, lastUpdate := now } }

/-- What the replace in flight asks to be open. -/
def asked (e : Entry) : Nat := if e.info.cumQty < e.replaceQty then sub32 e.replaceQty e.info.cumQty else 0

/-- The order after a replace: the replacement token is its token now. -/
def swap (e : Entry) (rp : Ouch.Replaced) (now : Nat) : Entry :=
  { e with
    token := e.nextToken, nextToken := 0, replaceQty := 0, replacePrice := 0
    info :=
      { e.info with
        req :=
          { e.info.req with
            qty := max e.replaceQty e.info.cumQty
            price := if 0 < rp.a.price ∧ rp.a.price ≤ kMaxWirePrice then rp.a.price else e.replacePrice }
        exchangeRef := if rp.a.ref ≠ 0 then rp.a.ref else e.info.exchangeRef
        leavesQty := if rp.a.orderState = ascii 'D' then 0 else min rp.a.shares e.asked
        status := if e.info.status = .pendingReplace then .live else e.info.status
        lastUpdate := now } }

def askCancel (e : Entry) (now : Nat) : Entry :=
  { e with info := { e.info with status := .pendingCancel, lastUpdate := now } }

def askReplace (e : Entry) (token : Nat) (price : Int) (qty now : Nat) : Entry :=
  { e with
    nextToken := token, replacePrice := price, replaceQty := qty
    info := { e.info with status := .pendingReplace, lastUpdate := now } }

/-- The token a cancel is addressed to. -/
def target (e : Entry) : Nat := if e.nextToken ≠ 0 then e.nextToken else e.token

/-- The shares a replace to a total of `qty` adds to what is open. -/
def growth (e : Entry) (qty : Nat) : Nat :=
  if e.info.leavesQty < sub32 qty e.info.cumQty then sub32 (sub32 qty e.info.cumQty) e.info.leavesQty else 0

end Entry

/-! ## Dropped or applied -/

namespace OrderManager

variable {m : OrderManager} {α : Type}

/-- The four ways a report is handled. `bad` is the handler's own reason to count the report as
invalid, `applied` what it does otherwise. -/
inductive Handled (m : OrderManager) (t : Token) (out : OrderManager × Option α) (bad : Nat → Bool → Prop)
    (applied : Nat → Bool → Prop) : Prop
  | unknown : m.resolve t = none → out = (m.unknown, none) → Handled m t out bad applied
  | late (i : Nat) (b : Bool) : m.resolve t = some (i, b) → (m.slots i).working = false →
      out = (m.late, none) → Handled m t out bad applied
  | invalid (i : Nat) (b : Bool) : m.resolve t = some (i, b) → (m.slots i).working = true → bad i b →
      out = (m.invalid, none) → Handled m t out bad applied
  | applied (i : Nat) (b : Bool) : m.resolve t = some (i, b) → (m.slots i).working = true → ¬bad i b →
      applied i b → Handled m t out bad applied

theorem resolve_some (h : Tokens m) {t : Token} {i : Nat} {b : Bool} :
    m.resolve t = some (i, b) ↔
      i < m.fresh ∧ if b = true then (m.slots i).nextToken ≠ 0 ∧ t = Token.fromId (m.slots i).nextToken
        else t = Token.fromId (m.slots i).token := by
  constructor
  · intro hr
    unfold resolve at hr
    cases hid : t.toId with
    | none => rw [hid] at hr; cases hr
    | some id =>
      rw [hid] at hr
      dsimp only at hr
      by_cases hcanon : Token.fromId id = t
      · rw [if_pos hcanon] at hr
        cases hfind : m.tokens.find id with
        | none => rw [hfind] at hr; cases hr
        | some j =>
          rw [hfind] at hr
          dsimp only at hr
          obtain ⟨hj, htok⟩ := (h.find id j).mp hfind
          by_cases h₁ : (m.slots j).token = id
          · rw [if_pos h₁] at hr
            cases hr
            exact ⟨hj, by rw [h₁]; exact hcanon.symm⟩
          · rw [if_neg h₁] at hr
            have h₂ : (m.slots j).nextToken = id ∧ id ≠ 0 := htok.resolve_left h₁
            rw [if_pos h₂.1] at hr
            cases hr
            exact ⟨hj, by rw [if_pos rfl, h₂.1]; exact ⟨h₂.2, hcanon.symm⟩⟩
      · rw [if_neg hcanon] at hr
        cases hr
  · rintro ⟨hi, hb⟩
    have hfit := h.fit hi
    unfold resolve
    cases b with
    | false =>
      rw [if_neg (by decide)] at hb
      rw [hb, Token.toId_fromId hfit.token_le]
      dsimp only
      rw [if_pos rfl, (h.find _ i).mpr ⟨hi, .inl rfl⟩]
      exact if_pos rfl
    | true =>
      rw [if_pos rfl] at hb
      rw [hb.2, Token.toId_fromId hfit.nextToken_le]
      dsimp only
      rw [if_pos rfl, (h.find _ i).mpr ⟨hi, .inr ⟨rfl, hb.1⟩⟩]
      dsimp only
      rw [if_neg hfit.distinct, if_pos rfl]

/-- The part of a handler that `active_order` decides. -/
theorem Handled.of_activeOrder (h : Tokens m) {t : Token} {out : OrderManager × Option α} {bad : Nat → Prop}
    {applied : Nat → Prop} {k : Nat → OrderManager × Option α}
    (hk : (match m.activeOrder t with
      | .inr m' => (m', none)
      | .inl i => k i) = out)
    (hbad : ∀ i < m.fresh, (m.slots i).working = true → k i = out → (bad i ∧ out = (m.invalid, none)) ∨
      (¬bad i ∧ applied i)) :
    Handled m t out (fun i b => b = true ∨ bad i) (fun i _ => applied i) := by
  unfold activeOrder at hk
  cases hr : m.resolve t with
  | none =>
    rw [hr] at hk
    exact .unknown hr hk.symm
  | some p =>
    obtain ⟨i, b⟩ := p
    rw [hr] at hk
    dsimp only at hk
    by_cases h₁ : isTerminal (m.slots i).info.status = true
    · rw [if_pos h₁] at hk
      exact .late i b hr (by simp [Entry.working, h₁]) hk.symm
    · have hw : (m.slots i).working = true := by simpa [Entry.working] using h₁
      rw [if_neg h₁] at hk
      cases b with
      | true => exact .invalid i true hr hw (.inl rfl) hk.symm
      | false =>
        rcases hbad i ((resolve_some h).mp hr).1 hw hk with ⟨hb, hout⟩ | ⟨hb, happ⟩
        · exact .invalid i false hr hw (.inr hb) hout
        · exact .applied i false hr hw (fun h' => h'.elim (by decide) hb) happ

/-! ## The report handlers -/

/-- The settled state together with the update that is sent. -/
def settled (m : OrderManager) (i : Nat) (e : Entry) (o : Option OrderStatus) :
    OrderManager × Option OrderInfo :=
  (m.settle i e o, some ((m.settle i e o).slots i).info)

theorem set_set (m : OrderManager) (i : Nat) (e e' : Entry) : (m.set i e).set i e' = m.set i e' := by
  simp [set]

@[simp] theorem set_slots_self (m : OrderManager) (i : Nat) (e : Entry) : (m.set i e).slots i = e := by
  simp [set]

theorem endOfLife_set_congr (m : OrderManager) (i : Nat) {e e' : Entry} (o : Option OrderStatus)
    (h : e.finish o = e'.finish o) (ht : e.nextToken = e'.nextToken) (hr : e.reserved = e'.reserved) :
    (m.set i e).endOfLife i o = (m.set i e').endOfLife i o := by
  have hloc : e.info.req = e'.info.req := congrArg (fun x => x.info.req) h
  rw [endOfLife_eq, endOfLife_eq]
  simp only [set_slots_self, h, ht, hr, hloc]
  simp [set]

theorem settle_eq_set {i : Nat} {e : Entry} (o : Option OrderStatus) (hl : e.info.leavesQty ≠ 0)
    (hr : e.reserved = e.want) : m.settle i e o = m.set i e := by
  have hsync : e.synced = e := by
    unfold Entry.synced
    rw [← hr]
  have hrisk : syncedRisk m.risk e = m.risk := by
    unfold syncedRisk
    rw [if_neg (by omega), if_neg (by omega)]
  rw [settle_live hl, hsync, hrisk]
  rfl

theorem settled_intro {i : Nat} {e : Entry} {o : Option OrderStatus} {m₁ m' : OrderManager}
    (h : m' = m₁.settle i e o) : (m', some (m'.slots i).info) = m₁.settled i e o := by
  rw [h]
  rfl

theorem set_confirm (m : OrderManager) (i : Nat) (e : Entry) :
    (if ((m.set i e).slots i).info.status = .pendingNew then
      (m.set i e).set i
        { (m.set i e).slots i with info := { ((m.set i e).slots i).info with status := .live } }
    else m.set i e) = m.set i { e with info := { e.info with status := confirm e.info.status } } := by
  rw [set_slots_self, confirm_eq]
  split_ifs with h
  · rw [set_set]
  · rfl

theorem settle_confirm (m : OrderManager) (i : Nat) (e : Entry) (o : Option OrderStatus) :
    (if ((m.set i e).slots i).info.leavesQty = 0 then (m.set i e).endOfLife i o
    else
      (if ((m.set i e).slots i).info.status = .pendingNew then
        (m.set i e).set i
          { (m.set i e).slots i with info := { ((m.set i e).slots i).info with status := .live } }
      else m.set i e).syncLedger i) =
      m.settle i { e with info := { e.info with status := confirm e.info.status } } o := by
  rw [set_confirm, set_slots_self, settle]
  by_cases hl : e.info.leavesQty = 0
  · rw [if_pos hl, if_pos (show _ = 0 from hl)]
    exact endOfLife_set_congr m i o rfl rfl rfl
  · rw [if_neg hl, if_neg (show ¬_ = 0 from hl)]

theorem onAccepted_handled (h : Inv m) (a : Ouch.Accepted) (now : Nat) :
    Handled m a.token (m.onAccepted a now)
      (fun i b => b = true ∨ (m.slots i).accepted = true ∨
        (a.orderState ≠ ascii 'L' ∧ a.orderState ≠ ascii 'D'))
      (fun i _ => m.onAccepted a now = m.settled i ((m.slots i).accept a now) none) := by
  refine Handled.of_activeOrder h.tokens rfl fun i hi hw hout => ?_
  have hleaves := ((h.entries i hi).phase.working_iff).mp hw
  have hres := (h.entries i hi).reserved
  rw [if_pos hw] at hres
  rw [← hout]
  dsimp only
  by_cases hbad : (m.slots i).accepted = true ∨ (a.orderState ≠ ascii 'L' ∧ a.orderState ≠ ascii 'D')
  · exact .inl ⟨hbad, if_pos (by simpa using hbad)⟩
  · refine .inr ⟨hbad, ?_⟩
    rw [if_neg (by simpa using hbad)]
    refine settled_intro ?_
    by_cases hd : a.orderState = ascii 'D'
    · rw [if_pos hd, settle, if_pos (by simp [Entry.accept, hd])]
      exact endOfLife_set_congr m i none rfl rfl rfl
    · rw [if_neg hd, set_confirm, settle_eq_set none (by simp [Entry.accept, hd]; omega)]
      · simp [Entry.accept, hd]
      · exact hres.trans (by simp [Entry.accept, Entry.want, hd])

/-- The report is not one that can be booked on this order. -/
def badExecution (e : Entry) (x : Ouch.Executed) : Prop :=
  x.shares = 0 ∨ x.price ≤ 0 ∨ kMaxWirePrice < x.price ∨ sub32 kMaxOrderQty e.info.cumQty < x.shares ∨
    e.seenMatch x.matchNo = true

/-- The manager with a clamp counted when `c` holds. -/
def noteClamp (m : OrderManager) (c : Prop) [Decidable c] : OrderManager := if c then m.clamped else m

/-- The manager when the risk engine has booked an execution of the order in slot `i`. -/
def booked (m : OrderManager) (i : Nat) (x : Ouch.Executed) : OrderManager :=
  let m₁ := m.noteClamp ((m.slots i).info.leavesQty < x.shares)
  { m₁ with risk := m₁.risk.onFill (m.slots i).info.req.locate (m.slots i).info.req.side x.shares x.price }

theorem onExecuted_handled (h : Inv m) (x : Ouch.Executed) (now : Nat) :
    Handled m x.token (m.onExecuted x now)
      (fun i b => b = true ∨ badExecution (m.slots i) x)
      (fun i _ => m.onExecuted x now =
        let m' := (m.booked i x).settle i ((m.slots i).execute x now) (some .filled)
        let info := (m'.slots i).info
        (m', some (⟨info.id, info.req.locate, info.req.side, x.shares, x.price, now, x.matchNo⟩, info))) := by
  refine Handled.of_activeOrder h.tokens rfl fun i hi hw hout => ?_
  rw [← hout]
  dsimp only
  by_cases h₁ : x.shares = 0 ∨ x.price ≤ 0 ∨ kMaxWirePrice < x.price ∨
      sub32 kMaxOrderQty (m.slots i).info.cumQty < x.shares
  · exact .inl ⟨by unfold badExecution; tauto, if_pos h₁⟩
  rw [if_neg h₁]
  by_cases h₂ : (m.slots i).seenMatch x.matchNo = true
  · exact .inl ⟨by unfold badExecution; tauto, if_pos h₂⟩
  refine .inr ⟨by unfold badExecution; tauto, ?_⟩
  rw [if_neg h₂]
  exact congrArg (fun m' : OrderManager => (m', some (Fill.mk (m'.slots i).info.id (m'.slots i).info.req.locate
    (m'.slots i).info.req.side x.shares x.price now x.matchNo, (m'.slots i).info)))
    (settle_confirm (m.booked i x) i ((m.slots i).book x now) (some .filled))

theorem onCanceled_handled (h : Inv m) (c : Ouch.Canceled) (now : Nat) :
    Handled m c.token (m.onCanceled c now)
      (fun _ b => b = true ∨ c.decrement = 0)
      (fun i _ => m.onCanceled c now =
        (m.noteClamp (min c.decrement (m.slots i).info.leavesQty ≠ c.decrement)).settled i
          ((m.slots i).reduce c now) none) := by
  refine Handled.of_activeOrder h.tokens rfl fun i hi hw hout => ?_
  rw [← hout]
  dsimp only
  by_cases hbad : c.decrement = 0
  · exact .inl ⟨hbad, if_pos hbad⟩
  · refine .inr ⟨hbad, ?_⟩
    rw [if_neg hbad]
    have hent : (m.slots i).reduce c now =
        { (m.slots i).shrink c now with
          info := { ((m.slots i).shrink c now).info with
            status := confirm ((m.slots i).shrink c now).info.status } } := rfl
    rw [hent]
    exact settled_intro (settle_confirm (m.noteClamp _) i ((m.slots i).shrink c now) none)

/-- The part of a handler that `resolve` decides. -/
theorem Handled.of_resolve (h : Tokens m) {t : Token} {out : OrderManager × Option α} {bad : Nat → Bool → Prop}
    {applied : Nat → Bool → Prop} {k : Nat → Bool → OrderManager × Option α}
    (hk : (match m.resolve t with
      | none => (m.unknown, none)
      | some (i, b) => if isTerminal (m.slots i).info.status then (m.late, none) else k i b) = out)
    (hbad : ∀ i < m.fresh, ∀ b, (m.slots i).working = true → (b = true → (m.slots i).nextToken ≠ 0) →
      k i b = out → (bad i b ∧ out = (m.invalid, none)) ∨ (¬bad i b ∧ applied i b)) :
    Handled m t out bad applied := by
  cases hr : m.resolve t with
  | none =>
    rw [hr] at hk
    exact .unknown hr hk.symm
  | some p =>
    obtain ⟨i, b⟩ := p
    rw [hr] at hk
    dsimp only at hk
    obtain ⟨hi, hb⟩ := (resolve_some h).mp hr
    by_cases h₁ : isTerminal (m.slots i).info.status = true
    · rw [if_pos h₁] at hk
      exact .late i b hr (by simp [Entry.working, h₁]) hk.symm
    · have hw : (m.slots i).working = true := by simpa [Entry.working] using h₁
      rw [if_neg h₁] at hk
      have hn : b = true → (m.slots i).nextToken ≠ 0 := fun hb' => by
        rw [if_pos hb'] at hb
        exact hb.1
      rcases hbad i hi b hw hn hk with ⟨hb, hout⟩ | ⟨hb, happ⟩
      · exact .invalid i b hr hw hb hout
      · exact .applied i b hr hw hb happ

theorem onRejected_handled (h : Inv m) (r : Ouch.Rejected) (now : Nat) :
    Handled m r.token (m.onRejected r now)
      (fun i b => b = false ∧ (m.slots i).acked = true)
      (fun i b => m.onRejected r now =
        if b = true then
          { m with tokens := m.tokens.erase (m.slots i).nextToken }.settled i ((m.slots i).revert r now) none
        else m.settled i ((m.slots i).refuse r now) (some .rejected)) := by
  refine Handled.of_resolve h.tokens rfl fun i hi b hw hn hout => ?_
  have hleaves := ((h.entries i hi).phase.working_iff).mp hw
  rw [← hout]
  dsimp only
  cases b with
  | true =>
    refine .inr ⟨by simp, ?_⟩
    rw [if_neg (by simp), if_pos rfl, if_pos rfl, settled, settle, if_neg (by simp [Entry.revert]; omega)]
    simp [dropReplacement, hn rfl, syncLedger, set, Entry.revert, Entry.want]
  | false =>
    by_cases hbad : (m.slots i).acked = true
    · exact .inl ⟨⟨rfl, hbad⟩, if_pos (by simpa using hbad)⟩
    · refine .inr ⟨by simp [hbad], ?_⟩
      rw [if_neg (by simpa using hbad), if_neg (by decide), if_neg (by decide), settled, settle,
        if_pos (by simp [Entry.refuse]), endOfLife_eq, endOfLife_eq]
      simp [set, Entry.refuse, Entry.finish]

theorem onReplaced_handled (h : Inv m) (rp : Ouch.Replaced) (now : Nat) :
    Handled m rp.a.token (m.onReplaced rp now)
      (fun i b => b = false ∨ rp.previous ≠ Token.fromId (m.slots i).token ∨
        (rp.a.orderState ≠ ascii 'L' ∧ rp.a.orderState ≠ ascii 'D'))
      (fun i _ => m.onReplaced rp now =
        ({ m with tokens := m.tokens.erase (m.slots i).token }.noteClamp
          (¬rp.a.orderState = ascii 'D' ∧ (m.slots i).asked < rp.a.shares)).settled i
            ((m.slots i).swap rp now) none) := by
  refine Handled.of_resolve h.tokens rfl fun i hi b hw hn hout => ?_
  rw [← hout]
  dsimp only
  by_cases hbad : b = false ∨ rp.previous ≠ Token.fromId (m.slots i).token ∨
      (rp.a.orderState ≠ ascii 'L' ∧ rp.a.orderState ≠ ascii 'D')
  · refine .inl ⟨hbad, if_pos ?_⟩
    cases b with
    | false => simp
    | true => simpa using hbad
  · refine .inr ⟨hbad, ?_⟩
    have hb : b = true := by simpa using fun h' => hbad (.inl h')
    rw [if_neg (by simpa [hb] using hbad)]
    refine settled_intro ?_
    rw [set_slots_self, settle]
    by_cases hl : ((m.slots i).swap rp now).info.leavesQty = 0
    · rw [if_pos hl, if_pos (by simpa [Entry.swap, Entry.asked] using hl)]
      exact endOfLife_set_congr _ i _ rfl rfl rfl
    · rw [if_neg hl, if_neg (by simpa [Entry.swap, Entry.asked] using hl)]
      by_cases hp : (m.slots i).info.status = .pendingReplace
      · rw [if_pos hp, set_set]
        simp [Entry.swap, Entry.asked, hp]
        rfl
      · rw [if_neg hp]
        simp [Entry.swap, Entry.asked, hp]
        rfl

/-! ## Order entry -/

theorem cancelEntry_cases (h : Inv m) {i : Nat} (hi : i < m.fresh) (now : Nat) (gateway : Ouch.Inbound → Bool)
    {out : Outcome SubmitStatus} (hout : m.cancelEntry i now gateway = out) :
    (out.state = m ∧ out.update = none ∧ ∀ msg, out.sent = some msg → gateway msg = false) ∨
    ((m.slots i).working = true ∧ (m.slots i).info.status ≠ .pendingCancel ∧
      gateway (.cancel ⟨Token.fromId (m.slots i).target, 0⟩) = true ∧
      out = ⟨.ok, m.settle i ((m.slots i).askCancel now) none,
        some (.cancel ⟨Token.fromId (m.slots i).target, 0⟩), some ((m.slots i).askCancel now).info⟩) := by
  unfold cancelEntry at hout
  dsimp only at hout
  by_cases h₁ : isTerminal (m.slots i).info.status = true ∨ (m.slots i).info.status = .pendingCancel
  · rw [if_pos (by simpa using h₁)] at hout
    exact .inl (hout ▸ ⟨rfl, rfl, by simp⟩)
  · rw [if_neg (by simpa using h₁)] at hout
    have hw : (m.slots i).working = true := by
      have : ¬isTerminal (m.slots i).info.status = true := fun h' => h₁ (.inl h')
      simpa [Entry.working] using this
    by_cases h₂ : gateway (.cancel ⟨Token.fromId (m.slots i).target, 0⟩) = true
    · right
      rw [if_neg (by simpa [Entry.target] using h₂)] at hout
      have hleaves := ((h.entries i hi).phase.working_iff).mp hw
      have hres := (h.entries i hi).reserved
      rw [if_pos hw] at hres
      refine ⟨hw, fun h' => h₁ (.inr h'), h₂, ?_⟩
      rw [settle_eq_set (e := (m.slots i).askCancel now) none (by simp [Entry.askCancel]; omega) hres, ← hout]
      rfl
    · rw [if_pos (by simpa [Entry.target] using h₂)] at hout
      subst hout
      refine .inl ⟨rfl, rfl, fun msg hmsg => ?_⟩
      rw [← Option.some.inj hmsg]
      simpa [Entry.target] using h₂

/-- What has to hold for `replace` to reach the gateway. -/
structure Replaceable (m : OrderManager) (i : Nat) (newPrice : Int) (newQty now : Nat) (reference : Nat → Int)
    (tokens : BoundedMap Nat Nat) : Prop where
  live : (m.slots i).info.status = .live
  price_pos : 0 < newPrice
  price_le : newPrice ≤ kMaxWirePrice
  qty_le : newQty ≤ kMaxOrderQty
  cum_lt : (m.slots i).info.cumQty < newQty
  token_le : m.nextToken ≤ Token.kMaxId
  verdict : m.risk.evaluateReplace (m.slots i).info.req.locate (m.slots i).info.req.side newPrice
    (sub32 newQty (m.slots i).info.cumQty) ((m.slots i).growth newQty)
    (reference (m.slots i).info.req.locate) now = .none
  inserted : m.tokens.insert m.nextToken i = (tokens, true)

def replaceMsg (m : OrderManager) (i : Nat) (newPrice : Int) (newQty : Nat) : Ouch.ReplaceOrder :=
  { existing := Token.fromId (m.slots i).token, replacement := Token.fromId m.nextToken
    shares := newQty, price := newPrice, timeInForce := wireTif (m.slots i).info.req.tif }

/-- The manager when the replacement token is minted and the rate budget spent. -/
def offered (m : OrderManager) (i : Nat) (newQty now : Nat) (tokens : BoundedMap Nat Nat) : OrderManager :=
  { m with
    tokens := tokens, nextToken := m.nextToken + 1
    risk := if (m.slots i).growth newQty ≠ 0 then m.risk.admitOrder now else m.risk }

theorem replace_cases (h : Inv m) (id : Nat) (newPrice : Int) (newQty now : Nat) (reference : Nat → Int)
    (gateway : Ouch.Inbound → Bool) {out : Outcome SubmitStatus}
    (hout : m.replace id newPrice newQty now reference gateway = out) :
    (out.state = m ∧ out.update = none ∧ ∀ msg, out.sent = some msg → gateway msg = false) ∨
    ∃ i tokens, m.slotOf id = some i ∧ Replaceable m i newPrice newQty now reference tokens ∧
      gateway (.replace (m.replaceMsg i newPrice newQty)) = true ∧
      out = ⟨.ok, (m.offered i newQty now tokens).settle i
          ((m.slots i).askReplace m.nextToken newPrice newQty now) none,
        some (.replace (m.replaceMsg i newPrice newQty)),
        some ((m.slots i).askReplace m.nextToken newPrice newQty now).info⟩ := by
  unfold replace at hout
  cases hslot : m.slotOf id with
  | none =>
    rw [hslot] at hout
    exact .inl (hout ▸ ⟨rfl, rfl, by simp⟩)
  | some i =>
    rw [hslot] at hout
    dsimp only at hout
    have hi : i < m.fresh := ((h.ids.find id i).mp hslot).1
    by_cases h₁ : (m.slots i).info.status ≠ .live
    · rw [if_pos h₁] at hout
      exact .inl (hout ▸ ⟨rfl, rfl, by simp⟩)
    rw [if_neg h₁] at hout
    by_cases h₂ : newPrice ≤ 0 ∨ kMaxWirePrice < newPrice ∨ newQty = 0 ∨ kMaxOrderQty < newQty ∨
        newQty ≤ (m.slots i).info.cumQty
    · rw [if_pos h₂] at hout
      exact .inl (hout ▸ ⟨rfl, rfl, by simp⟩)
    rw [if_neg h₂] at hout
    by_cases h₃ : m.tokenAvailable = true
    swap
    · rw [if_pos (by simpa using h₃)] at hout
      exact .inl (hout ▸ ⟨rfl, rfl, by simp⟩)
    rw [if_neg (by simpa using h₃)] at hout
    by_cases h₄ : m.risk.evaluateReplace (m.slots i).info.req.locate (m.slots i).info.req.side newPrice
        (sub32 newQty (m.slots i).info.cumQty) ((m.slots i).growth newQty)
        (reference (m.slots i).info.req.locate) now = .none
    swap
    · rw [if_pos (by simpa [Entry.growth] using h₄)] at hout
      exact .inl (hout ▸ ⟨rfl, rfl, by simp⟩)
    rw [if_neg (by simpa [Entry.growth] using h₄)] at hout
    by_cases h₅ : (m.tokens.insert m.nextToken i).2 = true
    swap
    · rw [if_pos (by simpa using h₅)] at hout
      exact .inl (hout ▸ ⟨rfl, rfl, by simp⟩)
    rw [if_neg (by simpa using h₅)] at hout
    have hins : m.tokens.insert m.nextToken i = ((m.tokens.insert m.nextToken i).1, true) := by
      ext1
      · rfl
      · exact h₅
    by_cases h₆ : gateway (.replace (m.replaceMsg i newPrice newQty)) = true
    · right
      rw [if_neg (by simpa [replaceMsg] using h₆)] at hout
      have htok := h₃
      simp only [tokenAvailable, Bool.and_eq_true, decide_eq_true_eq] at htok
      have hw : (m.slots i).working = true := by
        rw [Entry.working, not_not.mp h₁]
        rfl
      have hleaves := ((h.entries i hi).phase.working_iff).mp hw
      refine ⟨i, (m.tokens.insert m.nextToken i).1, rfl,
        ⟨not_not.mp h₁, by omega, by omega, by omega, by omega, htok.1, h₄, hins⟩, h₆, ?_⟩
      rw [← hout, settle_live (by simp [Entry.askReplace]; omega), syncLedger_eq]
      simp only [set, Function.update_self, Function.update_idem]
      rfl
    · rw [if_pos (by simpa [replaceMsg] using h₆)] at hout
      subst hout
      refine .inl ⟨?_, rfl, fun msg hmsg => ?_⟩
      · show { m with tokens := _ } = m
        rw [BoundedMap.erase_insert hins]
      · rw [← Option.some.inj hmsg]
        simpa [replaceMsg] using h₆

end OrderManager
end OptiTrade.Oms
