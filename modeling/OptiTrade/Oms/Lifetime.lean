import OptiTrade.Oms.Exposure
import OptiTrade.Oms.Overflow
import OptiTrade.Risk.Limits

/-! # An order from submission to the reuse of its slot -/

namespace OptiTrade.Oms
set_option autoImplicit false

open Runs
open Risk.RiskEngine (SameLedger)

namespace OrderManager
variable {m : OrderManager}

/-- What executions are booked in stays as it is. -/
structure SameBook (e e' : Entry) : Prop where
  cumQty : e'.info.cumQty = e.info.cumQty
  avgPrice : e'.info.avgPrice = e.info.avgPrice
  notional : e'.notional = e.notional
  matches_ : e'.matches_ = e.matches_
  matchCount : e'.matchCount = e.matchCount

/-- The positions of two risk engines are the same. -/
def SamePositions (r r' : Risk.RiskEngine) : Prop := ∀ k, (r'.slots k).pos = (r.slots k).pos

/-- The four ways an operation can touch the table. -/
inductive Touched (m : OrderManager) (c : Call) (m' : OrderManager) : Prop
  | none : SameTable m m' → m'.slots = m.slots → SameLedger m.risk m'.risk →
      SamePositions m.risk m'.risk → Touched m c m'
  | settled (i : Nat) (m₁ : OrderManager) (e : Entry) (o : Option OrderStatus) : i < m.fresh →
      (m.slots i).working = true → Near m m₁ → SamePositions m.risk m₁.risk → SameOrder (m.slots i) e →
      SameBook (m.slots i) e → m' = m₁.settle i e o → Touched m c m'
  | executed (i : Nat) (x : Ouch.Executed) (now : Nat) : c = .report (.executed x) now → i < m.fresh →
      (m.slots i).working = true → ¬badExecution (m.slots i) x →
      m' = (m.booked i x).settle i ((m.slots i).execute x now) (some .filled) → Touched m c m'
  | admitted (req : OrderRequest) (now : Nat) (reference : Nat → Int) (tokens : BoundedMap Nat Nat) :
      Submittable m req now reference tokens → m' = m.admitted req now tokens → Touched m c m'

theorem SamePositions.refl (r : Risk.RiskEngine) : SamePositions r r := fun _ => rfl

theorem noteClamp_positions (m : OrderManager) (c : Prop) [Decidable c] :
    SamePositions m.risk (m.noteClamp c).risk := by
  rw [(noteClamp_tokens m c).2.2]
  exact .refl _

theorem admitOrder_positions (r : Risk.RiskEngine) (now : Nat) : SamePositions r (r.admitOrder now) := by
  unfold Risk.RiskEngine.admitOrder Risk.RiskEngine.rateRecord
  by_cases hz : r.rateSize = 0
  · rw [if_pos hz]
    exact .refl _
  · rw [if_neg hz]
    exact fun _ => rfl

theorem offered_positions (m : OrderManager) (i newQty now : Nat) (tokens : BoundedMap Nat Nat) :
    SamePositions m.risk (m.offered i newQty now tokens).risk := by
  show SamePositions m.risk (if _ then _ else _)
  split_ifs
  · exact admitOrder_positions m.risk now
  · exact .refl _

theorem Handled.touched (h : Inv m) {c : Call} {α : Type} {t : Ouch.Token} {out : OrderManager × Option α}
    {bad applied : Nat → Bool → Prop} (hh : Handled m t out bad applied)
    (ha : ∀ i b, i < m.fresh → (m.slots i).working = true → ¬bad i b → applied i b → Touched m c out.1) :
    Touched m c out.1 := by
  refine hh.preserve (P := Touched m c) (.none ⟨rfl, rfl, rfl, rfl⟩ rfl (.refl _) (.refl _))
    (.none ⟨rfl, rfl, rfl, rfl⟩ rfl (.refl _) (.refl _)) (.none ⟨rfl, rfl, rfl, rfl⟩ rfl (.refl _) (.refl _))
    fun i b hr hw hb happ => ?_
  exact ha i b ((resolve_some h.tokens).mp hr).1 hw hb happ

theorem Inv.touched_onReport (h : Inv m) (r : Ouch.Outbound) (now : Nat) :
    Touched m (.report r now) (m.onReport r now) := by
  cases r with
  | accepted a =>
    refine (onAccepted_handled h a now).touched h fun i b hi hw _ hout => ?_
    exact .settled i m ((m.slots i).accept a now) none hi hw (.refl m) (.refl _) ⟨rfl, rfl, rfl, rfl⟩
      ⟨rfl, rfl, rfl, rfl, rfl⟩ (congrArg Prod.fst hout)
  | executed x =>
    refine (onExecuted_handled h x now).touched h fun i b hi hw hb hout => ?_
    exact .executed i x now rfl hi hw (fun h' => hb (.inr h')) (congrArg Prod.fst hout)
  | canceled c =>
    refine (onCanceled_handled h c now).touched h fun i b hi hw _ hout => ?_
    exact .settled i _ ((m.slots i).reduce c now) none hi hw ((Near.refl m).noteClamp _)
      (noteClamp_positions m _) ⟨rfl, rfl, rfl, rfl⟩ ⟨rfl, rfl, rfl, rfl, rfl⟩ (congrArg Prod.fst hout)
  | rejected r =>
    refine (onRejected_handled h r now).touched h fun i b hi hw _ hout => ?_
    cases b with
    | true =>
      rw [if_pos rfl] at hout
      have hnear : Near m { m with tokens := m.tokens.erase (m.slots i).nextToken } :=
        ⟨⟨rfl, rfl, rfl, rfl⟩, ⟨rfl, rfl, rfl, rfl⟩, rfl, .refl _⟩
      exact .settled i _ ((m.slots i).revert r now) none hi hw hnear (.refl _) ⟨rfl, rfl, rfl, rfl⟩
        ⟨rfl, rfl, rfl, rfl, rfl⟩ (congrArg Prod.fst hout)
    | false =>
      rw [if_neg (by decide)] at hout
      exact .settled i m ((m.slots i).refuse r now) (some .rejected) hi hw (.refl m) (.refl _)
        ⟨rfl, rfl, rfl, rfl⟩ ⟨rfl, rfl, rfl, rfl, rfl⟩ (congrArg Prod.fst hout)
  | replaced rp =>
    refine (onReplaced_handled h rp now).touched h fun i b hi hw _ hout => ?_
    have hnear : Near m { m with tokens := m.tokens.erase (m.slots i).token } :=
      ⟨⟨rfl, rfl, rfl, rfl⟩, ⟨rfl, rfl, rfl, rfl⟩, rfl, .refl _⟩
    exact .settled i _ ((m.slots i).swap rp now) none hi hw (hnear.noteClamp _)
      (noteClamp_positions { m with tokens := m.tokens.erase (m.slots i).token } _) ⟨rfl, rfl, rfl, rfl⟩
      ⟨rfl, rfl, rfl, rfl, rfl⟩ (congrArg Prod.fst hout)

/-- **What one operation does to the table.** -/
theorem Inv.touched (h : Inv m) {c : Call} (hc : m.Fits c) : Touched m c (m.perform c) := by
  cases c with
  | submit req now w =>
    rcases submit_cases m req now w.symbol w.reference w.gateway rfl with
      ⟨hs, _, _⟩ | ⟨tokens, hs, _, hout⟩
    · rw [OrderManager.perform, hs]
      exact .none ⟨rfl, rfl, rfl, rfl⟩ rfl (.refl _) (.refl _)
    · exact .admitted req now w.reference tokens hs (by rw [OrderManager.perform, hout])
  | cancelEntry i now w =>
    rcases cancelEntry_cases h hc now w.gateway rfl with
      ⟨hs, _, _⟩ | ⟨hw, _, _, hout⟩
    · rw [OrderManager.perform, hs]
      exact .none ⟨rfl, rfl, rfl, rfl⟩ rfl (.refl _) (.refl _)
    · exact .settled i m ((m.slots i).askCancel now) none hc hw (.refl m) (.refl _) ⟨rfl, rfl, rfl, rfl⟩
        ⟨rfl, rfl, rfl, rfl, rfl⟩ (by rw [OrderManager.perform, hout])
  | replace id p q now w =>
    rcases replace_cases h id p q now w.reference w.gateway rfl with
      ⟨hs, _, _⟩ | ⟨i, tokens, hid, hr, _, hout⟩
    · rw [OrderManager.perform, hs]
      exact .none ⟨rfl, rfl, rfl, rfl⟩ rfl (.refl _) (.refl _)
    · exact .settled i _ ((m.slots i).askReplace m.nextToken p q now) none ((h.ids.find id i).mp hid).1 hr.working
        (Near.offered m i q now tokens) (offered_positions m i q now tokens) ⟨rfl, rfl, rfl, rfl⟩
        ⟨rfl, rfl, rfl, rfl, rfl⟩ (by rw [OrderManager.perform, hout])
  | report r now => exact h.touched_onReport r now
  | mark l p =>
    exact .none ⟨rfl, rfl, rfl, rfl⟩ rfl (Risk.RiskEngine.mark_sameLedger _ l p)
      (fun k => Risk.RiskEngine.mark_pos p k)
  | killSwitch on =>
    exact .none ⟨rfl, rfl, rfl, rfl⟩ rfl (Risk.RiskEngine.setKillSwitch_sameLedger _ on) (.refl _)

theorem Touched.cases {c : Call} {m' : OrderManager} (h : Touched m c m') :
    (SameTable m m' ∧ m'.slots = m.slots ∧ SameLedger m.risk m'.risk) ∨
    (∃ i m₁ e o, i < m.fresh ∧ (m.slots i).working = true ∧ Near m m₁ ∧ SameOrder (m.slots i) e ∧
      m' = m₁.settle i e o) ∨
    ∃ req now reference tokens, Submittable m req now reference tokens ∧ m' = m.admitted req now tokens := by
  cases h with
  | none ht hs hl _ => exact .inl ⟨ht, hs, hl⟩
  | settled i m₁ e o hi hw hm _ hs _ hout => exact .inr (.inl ⟨i, m₁, e, o, hi, hw, hm, hs, hout⟩)
  | executed i x now _ hi hw _ hout =>
    exact .inr (.inl ⟨i, _, (m.slots i).execute x now, _, hi, hw, Near.booked m i x, ⟨rfl, rfl, rfl, rfl⟩, hout⟩)
  | admitted req now reference tokens hs hout => exact .inr (.inr ⟨req, now, reference, tokens, hs, hout⟩)

theorem settle_slots (m : OrderManager) (i : Nat) (e : Entry) (o : Option OrderStatus) :
    ∃ e' : Entry, e'.info.id = e.info.id ∧ (m.settle i e o).slots = Function.update m.slots i e' := by
  by_cases hl : e.info.leavesQty = 0
  · exact ⟨e.finish o, rfl, by rw [settle_dead hl]⟩
  · exact ⟨e.synced, rfl, by rw [settle_live hl]⟩

theorem settle_table (m : OrderManager) (i : Nat) (e : Entry) (o : Option OrderStatus) :
    SameTable m (m.settle i e o) := by
  by_cases hl : e.info.leavesQty = 0
  · rw [settle_dead hl]
    exact ⟨rfl, rfl, rfl, rfl⟩
  · rw [settle_live hl]
    exact ⟨rfl, rfl, rfl, rfl⟩

theorem settle_stats (m : OrderManager) (i : Nat) (e : Entry) (o : Option OrderStatus) :
    (m.settle i e o).stats = m.stats := by
  by_cases hl : e.info.leavesQty = 0
  · rw [settle_dead hl]
  · rw [settle_live hl]

theorem settle_nextToken (m : OrderManager) (i : Nat) (e : Entry) (o : Option OrderStatus) :
    (m.settle i e o).nextToken = m.nextToken := by
  by_cases hl : e.info.leavesQty = 0
  · rw [settle_dead hl]
  · rw [settle_live hl]

theorem settle_slots_dead {m₁ : OrderManager} (hm : Near m m₁) {i : Nat} {e : Entry} {o : Option OrderStatus} (hl : e.info.leavesQty = 0) :
    (m₁.settle i e o).slots = Function.update m.slots i (e.finish o) := by
  rw [settle_dead hl, ← hm.slots]

theorem settle_slots_live {m₁ : OrderManager} (hm : Near m m₁) {i : Nat} {e : Entry} {o : Option OrderStatus} (hl : e.info.leavesQty ≠ 0) :
    (m₁.settle i e o).slots = Function.update m.slots i e.synced := by
  rw [settle_live hl, ← hm.slots]

theorem settle_sameBook (m : OrderManager) (i : Nat) (e : Entry) (o : Option OrderStatus) :
    SameBook e ((m.settle i e o).slots i) := by
  by_cases hl : e.info.leavesQty = 0
  · rw [settle_slots_dead (.refl m) hl, Function.update_self]
    exact ⟨rfl, rfl, rfl, rfl, rfl⟩
  · rw [settle_slots_live (.refl m) hl, Function.update_self]
    exact ⟨rfl, rfl, rfl, rfl, rfl⟩

/-- What a slot can turn into: it keeps its order (unchanged if that was terminal), or it held a
terminal order and got the newest one. -/
theorem Inv.slot_evolves (h : Inv m) {c : Call} (hc : m.Fits c) {i : Nat} (hi : i < m.fresh) :
    m.nextId ≤ (m.perform c).nextId ∧ i < (m.perform c).fresh ∧
      (((m.perform c).slots i).info.id = (m.slots i).info.id ∧
        ((m.slots i).working = false → (m.perform c).slots i = m.slots i) ∨
      (m.slots i).working = false ∧ ((m.perform c).slots i).info.id = m.nextId) := by
  rcases (h.touched hc).cases with ⟨ht, hs, _⟩ | ⟨j, m₁, e, o, hj, hw, hm, hsame, hout⟩ |
    ⟨req, now, reference, tokens, hs, hout⟩
  · rw [ht.nextId, ht.fresh, hs]
    exact ⟨le_refl _, hi, .inl ⟨rfl, fun _ => rfl⟩⟩
  · obtain ⟨e', hid, hsl⟩ := m₁.settle_slots j e o
    have ht := m₁.settle_table j e o
    rw [hout, ht.nextId, ht.fresh, hm.table.nextId, hm.table.fresh, hsl, hm.slots]
    refine ⟨le_refl _, hi, .inl ?_⟩
    by_cases hij : i = j
    · subst hij
      rw [Function.update_self, hid, hsame.id, hw]
      exact ⟨rfl, fun h' => by cases h'⟩
    · rw [Function.update_of_ne hij]
      exact ⟨rfl, fun _ => rfl⟩
  · rw [hout]
    refine ⟨Nat.le_succ _, ?_, ?_⟩
    · rw [admitted_fresh]
      split_ifs <;> omega
    · show ((Function.update m.slots m.nextSlot _ i).info.id = _ ∧ _) ∨ _
      by_cases hij : i = m.nextSlot
      · right
        subst hij
        rcases h.nextSlot_cases hs.slot with ⟨_, h₂⟩ | ⟨_, _, h₃, _⟩
        · omega
        · exact ⟨h₃, by show (Function.update m.slots m.nextSlot _ m.nextSlot).info.id = _
                        rw [Function.update_self]; rfl⟩
      · left
        show _ ∧ (_ → Function.update m.slots m.nextSlot _ i = _)
        rw [Function.update_of_ne hij]
        exact ⟨rfl, fun _ => rfl⟩

end OrderManager

namespace Session

/-- A terminal order stays as it is until its slot goes to a younger one. -/
theorem Ok.frozen {s t : Session} (h : Ok s) {es : List Event} (hr : Runs.run next s es = some t)
    {i : Nat} (hi : i < s.manager.fresh) (hw : (s.manager.slots i).working = false) :
    i < t.manager.fresh ∧
      (t.manager.slots i = s.manager.slots i ∨ s.manager.nextId ≤ (t.manager.slots i).info.id) := by
  have hinv := run_invariant
    (P := fun u => Ok u ∧ s.manager.nextId ≤ u.manager.nextId ∧ i < u.manager.fresh ∧
      (u.manager.slots i = s.manager.slots i ∨ s.manager.nextId ≤ (u.manager.slots i).info.id))
    (fun u e u' ⟨hok, hn, hf, hsl⟩ hstep => ?_) hr ⟨h, le_refl _, hi, .inl rfl⟩
  · exact hinv.2.2
  · obtain ⟨fx, hstep⟩ := next_some hstep
    obtain ⟨hmv, hok'⟩ := hok.step hstep
    refine ⟨hok', ?_⟩
    cases hmv with
    | stack hm _ _ => rw [hm]; exact ⟨hn, hf, hsl⟩
    | call c hc hm _ _ =>
      obtain ⟨h₁, h₂, h₃⟩ := hok.inv.slot_evolves hc hf
      rw [hm]
      refine ⟨hn.trans h₁, h₂, ?_⟩
      rcases h₃ with ⟨hid, hsame⟩ | ⟨_, hid⟩
      · rcases hsl with hsl | hsl
        · rw [hsl] at hsame
          exact .inl (hsame hw)
        · exact .inr (hid ▸ hsl)
      · exact .inr (hid ▸ hn)

end Session

/-! ## The lifecycle of every tabled order -/

/-- What holds of every tabled order. -/
structure OrderInvariant (e : Entry) : Prop where
  qty_pos : 1 ≤ e.info.req.qty
  qty_le : e.info.req.qty ≤ 999999
  fits : e.info.leavesQty + e.info.cumQty ≤ e.info.req.qty
  working_iff : isTerminal e.info.status = false ↔ 1 ≤ e.info.leavesQty
  reserved_working : isTerminal e.info.status = false → e.info.leavesQty ≤ e.reserved
  reserved_terminal : isTerminal e.info.status = true → e.reserved = 0
  repl_status : e.nextToken ≠ 0 → e.info.status = .pendingReplace ∨ e.info.status = .pendingCancel
  repl_some : e.info.status = .pendingReplace → e.nextToken ≠ 0
  repl_terminal : isTerminal e.info.status = true → e.nextToken = 0
  /-- A pending order is exactly as `submit` left it. -/
  pendingNew : e.info.status = .pendingNew → e.info.cumQty = 0 ∧ e.accepted = false ∧ e.acked = false ∧ e =
    { info := { id := e.info.id, req := e.info.req, leavesQty := e.info.req.qty, lastUpdate := e.info.lastUpdate }
      token := e.token, reserved := e.info.req.qty }
  notional_lt : e.notional < 2 ^ 64

theorem Lifecycle.orderInvariant {e : Entry} (h : Lifecycle e) : OrderInvariant e := by
  have hres := h.reserved
  have hterm : isTerminal e.info.status = true → e.working = false := fun ht => by simp [Entry.working, ht]
  have hwork : isTerminal e.info.status = false → e.working = true := fun ht => by simp [Entry.working, ht]
  refine ⟨h.sizes.qty_pos, h.sizes.qty_le, h.sizes.fits, ?_, ?_, ?_, h.phase.repl_status, h.phase.repl_some, ?_,
    ?_, ?_⟩
  · rw [← h.phase.working_iff]
    simp [Entry.working]
  · intro ht
    rw [hwork ht, if_pos rfl, want_eq h.phase] at hres
    omega
  · intro ht
    rw [hterm ht] at hres
    exact hres
  · intro ht
    by_contra hne
    rcases h.phase.repl_status hne with h' | h' <;> rw [h'] at ht <;> cases ht
  · intro hp
    have he := h.phase.untouched hp
    exact ⟨congrArg (fun x => x.info.cumQty) he, congrArg Entry.accepted he, congrArg Entry.acked he, he⟩
  · have hnot := h.sizes.notional_le
    have hcum := h.sizes.cum_le
    unfold kMaxOrderQty at hcum
    omega

/-- **The per-order lifecycle invariant.** In every state a session reaches, every tabled order
satisfies `OrderInvariant`; the next event, whatever it is, computes with the sizes of the orders without a wrap;
and whatever the session does from there on, a terminal order keeps its `OrderInfo` until its slot holds an order
submitted later. -/
theorem order_lifecycle (config : Config) (limits : Risk.Limits) (maxLocates : Nat) (es : List Event)
    (s : Session) (h : run Session.next (Session.new config limits maxLocates) es = some s) :
    (∀ id e, s.manager.entry id = some e → OrderInvariant e) ∧
    (∀ e, Checked.step s e = some (s.step e)) ∧
    ∀ id i info, s.manager.slotOf id = some i → s.manager.find id = some info →
      isTerminal info.status = true → ∀ es' t, run Session.next s es' = some t →
        t.manager.find id = some info ∨ id < (t.manager.slots i).info.id := by
  have hok := (Session.Ok.new config limits maxLocates).run h
  refine ⟨?_, fun e => Checked.step_eq hok.inv e, ?_⟩
  · intro id e he
    obtain ⟨i, hi, _, rfl⟩ := hok.inv.entry_some.mp he
    exact (hok.inv.entries i hi).orderInvariant
  · intro id i info hslot hfind hterm es' t hr
    obtain ⟨hi, hid⟩ := (hok.inv.ids.find id i).mp hslot
    have hinfo : (s.manager.slots i).info = info := by
      rw [OrderManager.find, OrderManager.entry, hslot] at hfind
      exact Option.some.inj hfind
    obtain ⟨hi', h₁ | h₁⟩ := hok.frozen hr hi (by simp [Entry.working, hinfo, hterm])
    · left
      exact (hok.run hr).inv.find_some.mpr ⟨i, hi', by rw [h₁, hid], by rw [h₁, hinfo]⟩
    · right
      have := hok.inv.ids.id_lt i hi
      omega

/-- The partly filled order with its replace in flight. -/
theorem order_lifecycle_replace_in_flight :
    ∃ s e, run Session.next (Session.new {} {} 4) Session.replaceInFlight = some s ∧
      s.manager.entry 1 = some e ∧ e.info.status = .pendingReplace ∧ OrderInvariant e :=
  ⟨_, _, rfl, rfl, rfl, (order_lifecycle {} {} 4 Session.replaceInFlight _ rfl).1 1 _ rfl⟩

end OptiTrade.Oms
