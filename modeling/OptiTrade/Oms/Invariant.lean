import OptiTrade.Oms.Admission
import OptiTrade.Oms.Reports

/-! # Every operation keeps the invariant

One lemma per new entry (its sizes and its phase), then one per operation. -/

namespace OptiTrade.Oms
set_option autoImplicit false

open Ouch (Token)
open Risk (RiskEngine)
open Risk.RiskEngine (SameLedger)

/-! ## The new entries -/

theorem working_confirm {s : OrderStatus} (h : isTerminal s = false) : isTerminal (confirm s) = false := by
  cases s <;> first | rfl | cases h

theorem confirm_ne_pendingNew (s : OrderStatus) : confirm s ≠ .pendingNew := by
  cases s <;> simp [confirm]

theorem confirm_eq_pendingReplace {s : OrderStatus} : confirm s = .pendingReplace ↔ s = .pendingReplace := by
  cases s <;> simp [confirm]

theorem confirm_eq_pendingCancel {s : OrderStatus} : confirm s = .pendingCancel ↔ s = .pendingCancel := by
  cases s <;> simp [confirm]

section
variable {e : Entry} (hs : Sizes e) (hp : Phase e) (hw : e.working = true)

include hs

theorem Sizes.accept (a : Ouch.Accepted) (now : Nat) : Sizes (e.accept a now) := by
  refine ⟨hs.qty_pos, hs.qty_le, ?_, hs.price_pos, hs.price_le, hs.notional_le, hs.match_le⟩
  have := hs.fits
  simp only [Entry.accept]
  split_ifs <;> omega

theorem reduce_leaves (c : Ouch.Canceled) (now : Nat) :
    (e.reduce c now).info.leavesQty = e.info.leavesQty - min c.decrement e.info.leavesQty := by
  have := hs.leaves_le
  exact sub32_eq (by omega) (by unfold kMaxOrderQty at this; unfold u32Max; omega)

theorem Sizes.reduce (c : Ouch.Canceled) (now : Nat) : Sizes (e.reduce c now) := by
  refine ⟨hs.qty_pos, hs.qty_le, ?_, hs.price_pos, hs.price_le, hs.notional_le, hs.match_le⟩
  have h₁ := hs.fits
  have h₂ : (e.reduce c now).info.cumQty = e.info.cumQty := rfl
  have h₃ : (e.reduce c now).info.req.qty = e.info.req.qty := rfl
  rw [reduce_leaves hs, h₂, h₃]
  omega

theorem Sizes.revert (r : Ouch.Rejected) (now : Nat) : Sizes (e.revert r now) :=
  ⟨hs.qty_pos, hs.qty_le, hs.fits, hs.price_pos, hs.price_le, hs.notional_le, hs.match_le⟩

theorem Sizes.refuse (r : Ouch.Rejected) (now : Nat) : Sizes (e.refuse r now) := by
  refine ⟨hs.qty_pos, hs.qty_le, ?_, hs.price_pos, hs.price_le, hs.notional_le, hs.match_le⟩
  have := hs.fits
  simp only [Entry.refuse]
  omega

theorem Sizes.askCancel (now : Nat) : Sizes (e.askCancel now) :=
  ⟨hs.qty_pos, hs.qty_le, hs.fits, hs.price_pos, hs.price_le, hs.notional_le, hs.match_le⟩

theorem Sizes.askReplace (t : Nat) (price : Int) (qty now : Nat) : Sizes (e.askReplace t price qty now) :=
  ⟨hs.qty_pos, hs.qty_le, hs.fits, hs.price_pos, hs.price_le, hs.notional_le, hs.match_le⟩

/-- What booking an execution does to the numbers of the order, without the machine arithmetic. -/
theorem execute_numbers {x : Ouch.Executed} (now : Nat) (hx : ¬OrderManager.badExecution e x) :
    1 ≤ x.shares ∧ 0 < x.price ∧ x.price ≤ kMaxWirePrice ∧ e.info.cumQty + x.shares ≤ kMaxOrderQty ∧
      (e.execute x now).info.cumQty = e.info.cumQty + x.shares ∧
      (e.execute x now).info.leavesQty = e.info.leavesQty - x.shares ∧
      (e.execute x now).info.req.qty = max e.info.req.qty (e.info.cumQty + x.shares) ∧
      (e.execute x now).notional = e.notional + x.price.toNat * x.shares ∧
      (e.execute x now).matchCount = e.matchCount + 1 ∧
      (e.execute x now).info.avgPrice =
        ((e.notional + x.price.toNat * x.shares) / (e.info.cumQty + x.shares) : Nat) := by
  unfold OrderManager.badExecution at hx
  push Not at hx
  obtain ⟨h₁, h₂, h₃, h₄, _⟩ := hx
  have hcum := hs.cum_le
  have hlv := hs.leaves_le
  rw [sub32_eq hcum (by unfold u32Max kMaxOrderQty; omega)] at h₄
  have hprice : x.price.toNat ≤ 4294967295 := by unfold kMaxWirePrice at h₃; omega
  have hmul : x.price.toNat * x.shares ≤ 4294967295 * x.shares := Nat.mul_le_mul_right _ hprice
  have hnot := hs.notional_le
  have hmatch := hs.match_le
  unfold kMaxOrderQty at *
  have hadd : add32 e.info.cumQty x.shares = e.info.cumQty + x.shares :=
    add32_eq (by unfold u32Max; omega)
  have hadd64 : add64 e.notional (x.price.toNat * x.shares) = e.notional + x.price.toNat * x.shares :=
    add64_eq (by unfold u64Max; omega)
  have hsub : sub32 e.info.leavesQty (min x.shares e.info.leavesQty) = e.info.leavesQty - x.shares := by
    rw [sub32_eq (by omega) (by unfold u32Max; omega)]
    omega
  refine ⟨by omega, h₂, h₃, by omega, hadd, hsub, ?_, hadd64, add32_eq (by unfold u32Max; omega), ?_⟩
  · show max e.info.req.qty (add32 e.info.cumQty x.shares) = _
    rw [hadd]
  · show ((add64 e.notional (x.price.toNat * x.shares) / add32 e.info.cumQty x.shares : Nat) : Int) = _
    rw [hadd64, hadd]

theorem Sizes.execute {x : Ouch.Executed} (now : Nat) (hx : ¬OrderManager.badExecution e x) :
    Sizes (e.execute x now) := by
  obtain ⟨h₁, h₂, h₃, h₄, hcum, hlv, hqty, hnot, hmatch, _⟩ := execute_numbers hs now hx
  have hprice : x.price.toNat ≤ 4294967295 := by unfold kMaxWirePrice at h₃; omega
  have hmul : x.price.toNat * x.shares ≤ 4294967295 * x.shares := Nat.mul_le_mul_right _ hprice
  have hf := hs.fits
  have hq := hs.qty_le
  have hp := hs.qty_pos
  have hn := hs.notional_le
  have hm := hs.match_le
  refine ⟨?_, ?_, ?_, hs.price_pos, hs.price_le, ?_, ?_⟩
  · rw [hqty]; omega
  · rw [hqty]; omega
  · rw [hqty, hlv, hcum]; omega
  · rw [hnot, hcum]; omega
  · rw [hmatch, hcum]; omega

include hp

omit hs in
theorem asked_eq (hn : e.nextToken ≠ 0) : e.asked = e.replaceQty - e.info.cumQty := by
  unfold Entry.asked
  have := (hp.repl_qty hn).2
  unfold kMaxOrderQty at this
  split_ifs with h
  · exact sub32_eq (by omega) (by unfold u32Max; omega)
  · omega

theorem Sizes.swap (hn : e.nextToken ≠ 0) (rp : Ouch.Replaced) (now : Nat) : Sizes (e.swap rp now) := by
  have h₁ := hp.repl_qty hn
  have h₂ := hs.cum_le
  have h₃ := hp.repl_price hn
  have h₄ := asked_eq hp hn
  refine ⟨?_, ?_, ?_, ?_, ?_, hs.notional_le, hs.match_le⟩
  · simp only [Entry.swap]; omega
  · simp only [Entry.swap]; omega
  · simp only [Entry.swap, h₄]
    split_ifs <;> omega
  · simp only [Entry.swap]
    split_ifs with h
    · exact h.1
    · exact h₃.1
  · simp only [Entry.swap]
    split_ifs with h
    · exact h.2
    · exact h₃.2

end

section
variable {e : Entry} (hs : Sizes e) (hp : Phase e) (hw : e.working = true)

include hp hw

/-- A report that confirms the order keeps its phase. -/
theorem Phase.confirmed {e' : Entry} (hst : e'.info.status = confirm e.info.status)
    (hnt : e'.nextToken = e.nextToken) (hrq : e'.replaceQty = e.replaceQty)
    (hrp : e'.replacePrice = e.replacePrice) (hack : e'.acked = true) (hl : e'.info.leavesQty ≠ 0) :
    Phase e' := by
  have hterm : isTerminal e.info.status = false := by simpa [Entry.working] using hw
  refine ⟨?_, ?_, ?_, ?_, ?_, ?_, ?_, fun _ => hack⟩
  · refine iff_of_true ?_ (Nat.pos_of_ne_zero hl)
    rw [Entry.working, hst, working_confirm hterm]
    rfl
  · rw [hnt, hst, confirm_eq_pendingReplace, confirm_eq_pendingCancel]
    exact hp.repl_status
  · rw [hnt, hst, confirm_eq_pendingReplace]
    exact hp.repl_some
  · rw [hnt, hrq]
    exact hp.repl_qty
  · rw [hnt, hrp]
    exact hp.repl_price
  · rw [hnt, hrq]
    exact hp.repl_none
  · rw [hst]
    exact fun h => absurd h (confirm_ne_pendingNew _)

theorem Phase.accept (a : Ouch.Accepted) (now : Nat) (hl : (e.accept a now).info.leavesQty ≠ 0) :
    Phase (e.accept a now) :=
  hp.confirmed hw rfl rfl rfl rfl rfl hl

theorem Phase.execute (x : Ouch.Executed) (now : Nat) (hl : (e.execute x now).info.leavesQty ≠ 0) :
    Phase (e.execute x now) :=
  hp.confirmed hw rfl rfl rfl rfl rfl hl

theorem Phase.reduce (c : Ouch.Canceled) (now : Nat) (hl : (e.reduce c now).info.leavesQty ≠ 0) :
    Phase (e.reduce c now) :=
  hp.confirmed hw rfl rfl rfl rfl rfl hl

theorem Phase.revert (r : Ouch.Rejected) (now : Nat) : Phase (e.revert r now) := by
  have hleaves := hp.working_iff.mp hw
  refine ⟨iff_of_true rfl hleaves, ?_, ?_, ?_, ?_, ?_, ?_, hp.accepted_acked⟩ <;> simp [Entry.revert]

theorem Phase.askCancel (now : Nat) : Phase (e.askCancel now) := by
  have hleaves := hp.working_iff.mp hw
  refine ⟨iff_of_true rfl hleaves, ?_, ?_, hp.repl_qty, hp.repl_price, hp.repl_none, ?_, hp.accepted_acked⟩
  · exact fun _ => .inr rfl
  · simp [Entry.askCancel]
  · simp [Entry.askCancel]

theorem Phase.askReplace {t : Nat} {price : Int} {qty : Nat} (now : Nat) (ht : t ≠ 0) (hq : 1 ≤ qty)
    (hq' : qty ≤ kMaxOrderQty) (h₁ : 0 < price) (h₂ : price ≤ kMaxWirePrice) :
    Phase (e.askReplace t price qty now) := by
  have hleaves := hp.working_iff.mp hw
  refine ⟨iff_of_true rfl hleaves, fun _ => .inl rfl, fun _ => ht, fun _ => ⟨hq, hq'⟩, fun _ => ⟨h₁, h₂⟩, ?_, ?_,
    hp.accepted_acked⟩
  · exact fun h => absurd h ht
  · simp [Entry.askReplace]

omit hw in
theorem Phase.swap (hn : e.nextToken ≠ 0) (rp : Ouch.Replaced) (now : Nat)
    (hl : (e.swap rp now).info.leavesQty ≠ 0) : Phase (e.swap rp now) := by
  have hst := hp.repl_status hn
  refine ⟨iff_of_true ?_ (Nat.pos_of_ne_zero hl), ?_, ?_, ?_, ?_, ?_, ?_, hp.accepted_acked⟩
  · rcases hst with h | h <;> simp [Entry.working, Entry.swap, h, isTerminal]
  · simp [Entry.swap]
  · rcases hst with h | h <;> simp [Entry.swap, h]
  · simp [Entry.swap]
  · simp [Entry.swap]
  · simp [Entry.swap]
  · rcases hst with h | h <;> simp [Entry.swap, h]

end

/-! ## The operations -/

namespace OrderManager
variable {m : OrderManager}

theorem Near.refl (m : OrderManager) : Near m m :=
  ⟨⟨rfl, rfl, rfl, rfl⟩, ⟨rfl, rfl, rfl, rfl⟩, rfl, .refl _⟩

theorem Near.noteClamp {m' : OrderManager} (h : Near m m') (c : Prop) [Decidable c] : Near m (m'.noteClamp c) := by
  unfold OrderManager.noteClamp
  split_ifs
  · exact ⟨⟨h.table.fresh, h.table.capacity, h.table.byId, h.table.nextId⟩,
      ⟨h.places.finished, h.places.links, h.places.working, h.places.opened⟩, h.slots, h.ledger⟩
  · exact h

theorem noteClamp_tokens (m : OrderManager) (c : Prop) [Decidable c] :
    (m.noteClamp c).tokens = m.tokens ∧ (m.noteClamp c).nextToken = m.nextToken ∧
      (m.noteClamp c).risk = m.risk := by
  unfold noteClamp
  split_ifs <;> exact ⟨rfl, rfl, rfl⟩

theorem Near.booked (m : OrderManager) (i : Nat) (x : Ouch.Executed) : Near m (m.booked i x) := by
  have h := (Near.refl m).noteClamp ((m.slots i).info.leavesQty < x.shares)
  refine ⟨⟨h.table.fresh, h.table.capacity, h.table.byId, h.table.nextId⟩,
    ⟨h.places.finished, h.places.links, h.places.working, h.places.opened⟩, h.slots, ?_⟩
  have h' := RiskEngine.onFill_sameLedger m.risk (m.slots i).info.req.locate (m.slots i).info.req.side
    x.shares x.price
  show SameLedger m.risk ((m.noteClamp _).risk.onFill _ _ _ _)
  rw [(noteClamp_tokens m _).2.2]
  exact h'

theorem Tokens.set_same (h : Tokens m) {m₁ : OrderManager} (hm : Near m m₁) (ht : m₁.tokens = m.tokens)
    (hn : m₁.nextToken = m.nextToken) {i : Nat} {e : Entry} (h₁ : e.token = (m.slots i).token)
    (h₂ : e.nextToken = (m.slots i).nextToken) : Tokens (m₁.set i e) := by
  refine h.congr hm.table.fresh hm.table.capacity ht hn fun j _ => ?_
  by_cases hj : j = i
  · subst hj
    simp [set, h₁, h₂]
  · simp [set, hj, hm.slots]

theorem Inv.unknown (h : Inv m) : Inv m.unknown :=
  h.keep ⟨rfl, rfl, rfl, rfl⟩ ⟨rfl, rfl, rfl, rfl⟩ rfl rfl rfl (.refl _)

theorem Inv.late (h : Inv m) : Inv m.late :=
  h.keep ⟨rfl, rfl, rfl, rfl⟩ ⟨rfl, rfl, rfl, rfl⟩ rfl rfl rfl (.refl _)

theorem Inv.invalid (h : Inv m) : Inv m.invalid :=
  h.keep ⟨rfl, rfl, rfl, rfl⟩ ⟨rfl, rfl, rfl, rfl⟩ rfl rfl rfl (.refl _)

theorem Handled.preserve {α : Type} {P : OrderManager → Prop} {t : Token} {out : OrderManager × Option α}
    {bad applied : Nat → Bool → Prop} (h : Handled m t out bad applied) (hu : P m.unknown) (hl : P m.late)
    (hi : P m.invalid)
    (ha : ∀ i b, m.resolve t = some (i, b) → (m.slots i).working = true → ¬bad i b → applied i b → P out.1) :
    P out.1 := by
  cases h with
  | unknown _ ho => rw [ho]; exact hu
  | late _ _ _ _ ho => rw [ho]; exact hl
  | invalid _ _ _ _ _ ho => rw [ho]; exact hi
  | applied i b hr hw hb happ => exact ha i b hr hw hb happ

theorem Inv.onAccepted (h : Inv m) (a : Ouch.Accepted) (now : Nat) : Inv (m.onAccepted a now).1 := by
  refine (onAccepted_handled h a now).preserve h.unknown h.late h.invalid fun i b hr hw _ hout => ?_
  have hi := ((resolve_some h.tokens).mp hr).1
  have hlife := h.entries i hi
  rw [hout]
  exact h.settle hi hw (.refl m) (h.tokens.set_same (.refl m) rfl rfl rfl rfl) ⟨rfl, rfl, rfl, rfl⟩
    (hlife.sizes.accept a now) (hlife.phase.accept hw a now) (fun _ => rfl) (by simp)

theorem Inv.onExecuted (h : Inv m) (x : Ouch.Executed) (now : Nat) : Inv (m.onExecuted x now).1 := by
  refine (onExecuted_handled h x now).preserve h.unknown h.late h.invalid fun i b hr hw hb hout => ?_
  have hi := ((resolve_some h.tokens).mp hr).1
  have hlife := h.entries i hi
  have hnear := Near.booked m i x
  have htok := noteClamp_tokens m ((m.slots i).info.leavesQty < x.shares)
  rw [hout]
  refine h.settle hi hw hnear (h.tokens.set_same hnear htok.1 htok.2.1 rfl rfl) ⟨rfl, rfl, rfl, rfl⟩
    (hlife.sizes.execute now fun h' => hb (.inr h')) (hlife.phase.execute hw x now) (fun _ => rfl) ?_
  intro s hs
  rw [← Option.some.inj hs]
  rfl

theorem Inv.onCanceled (h : Inv m) (c : Ouch.Canceled) (now : Nat) : Inv (m.onCanceled c now).1 := by
  refine (onCanceled_handled h c now).preserve h.unknown h.late h.invalid fun i b hr hw _ hout => ?_
  have hi := ((resolve_some h.tokens).mp hr).1
  have hlife := h.entries i hi
  have hnear := (Near.refl m).noteClamp (min c.decrement (m.slots i).info.leavesQty ≠ c.decrement)
  have htok := noteClamp_tokens m (min c.decrement (m.slots i).info.leavesQty ≠ c.decrement)
  rw [hout]
  exact h.settle hi hw hnear (h.tokens.set_same hnear htok.1 htok.2.1 rfl rfl) ⟨rfl, rfl, rfl, rfl⟩
    (hlife.sizes.reduce c now) (hlife.phase.reduce hw c now) (fun _ => rfl) (by simp)

theorem Inv.onRejected (h : Inv m) (r : Ouch.Rejected) (now : Nat) : Inv (m.onRejected r now).1 := by
  refine (onRejected_handled h r now).preserve h.unknown h.late h.invalid fun i b hr hw _ hout => ?_
  obtain ⟨hi, hb⟩ := (resolve_some h.tokens).mp hr
  have hlife := h.entries i hi
  rw [hout]
  cases b with
  | true =>
    rw [if_pos rfl] at hb ⊢
    have hnear : Near m { m with tokens := m.tokens.erase (m.slots i).nextToken } :=
      ⟨⟨rfl, rfl, rfl, rfl⟩, ⟨rfl, rfl, rfl, rfl⟩, rfl, .refl _⟩
    refine h.settle hi hw hnear ?_ ⟨rfl, rfl, rfl, rfl⟩ (hlife.sizes.revert r now)
      (fun _ => hlife.phase.revert hw r now) hlife.phase.accepted_acked (by simp)
    exact h.tokens.drop hi rfl rfl rfl rfl rfl rfl (if_pos hb.1).symm
  | false =>
    rw [if_neg (by decide)]
    refine h.settle (e := (m.slots i).refuse r now) hi hw (.refl m)
      (h.tokens.set_same (.refl m) rfl rfl rfl rfl) ⟨rfl, rfl, rfl, rfl⟩ (hlife.sizes.refuse r now) (fun h' => absurd rfl h') hlife.phase.accepted_acked ?_
    intro s hs
    rw [← Option.some.inj hs]
    rfl

theorem Inv.onReplaced (h : Inv m) (rp : Ouch.Replaced) (now : Nat) : Inv (m.onReplaced rp now).1 := by
  refine (onReplaced_handled h rp now).preserve h.unknown h.late h.invalid fun i b hr hw hbad hout => ?_
  obtain ⟨hi, hb⟩ := (resolve_some h.tokens).mp hr
  have hlife := h.entries i hi
  have hbt : b = true := by
    cases b with
    | true => rfl
    | false => exact absurd (.inl rfl) hbad
  rw [if_pos hbt] at hb
  rw [hout]
  have hnear : Near m { m with tokens := m.tokens.erase (m.slots i).token } :=
    ⟨⟨rfl, rfl, rfl, rfl⟩, ⟨rfl, rfl, rfl, rfl⟩, rfl, .refl _⟩
  have htok := noteClamp_tokens { m with tokens := m.tokens.erase (m.slots i).token }
    (¬rp.a.orderState = ascii 'D' ∧ (m.slots i).asked < rp.a.shares)
  have hnear' := hnear.noteClamp (¬rp.a.orderState = ascii 'D' ∧ (m.slots i).asked < rp.a.shares)
  refine h.settle hi hw hnear' ?_ ⟨rfl, rfl, rfl, rfl⟩ (hlife.sizes.swap hlife.phase hb.1 rp now)
    (hlife.phase.swap hb.1 rp now) hlife.phase.accepted_acked (by simp)
  refine h.tokens.swap (e := (m.slots i).swap rp now) hi ?_ rfl rfl hb.1 hnear'.table.fresh hnear'.table.capacity htok.2.1 htok.1
  rw [set, hnear'.slots]

theorem Inv.submit (h : Inv m) (req : OrderRequest) (now : Nat) (symbol : Nat → Symbol)
    (reference : Nat → Int) (gateway : Ouch.Inbound → Bool) :
    Inv (m.submit req now symbol reference gateway).state := by
  rcases submit_cases m req now symbol reference gateway rfl with ⟨hs, _, _⟩ | ⟨tokens, hs, _, hout⟩
  · rw [hs]; exact h
  · rw [hout]; exact h.admitted hs

theorem Inv.cancelEntry (h : Inv m) {i : Nat} (hi : i < m.fresh) (now : Nat) (gateway : Ouch.Inbound → Bool) :
    Inv (m.cancelEntry i now gateway).state := by
  rcases cancelEntry_cases h hi now gateway rfl with ⟨hs, _, _⟩ | ⟨hw, _, _, hout⟩
  · rw [hs]; exact h
  · have hlife := h.entries i hi
    rw [hout]
    exact h.settle hi hw (.refl m) (h.tokens.set_same (.refl m) rfl rfl rfl rfl) ⟨rfl, rfl, rfl, rfl⟩
      (hlife.sizes.askCancel now) (fun _ => hlife.phase.askCancel hw now) hlife.phase.accepted_acked (by simp)

theorem Near.offered (m : OrderManager) (i newQty now : Nat) (tokens : BoundedMap Nat Nat) :
    Near m (m.offered i newQty now tokens) := by
  refine ⟨⟨rfl, rfl, rfl, rfl⟩, ⟨rfl, rfl, rfl, rfl⟩, rfl, ?_⟩
  show SameLedger m.risk (if _ then _ else _)
  split_ifs
  · exact RiskEngine.admitOrder_sameLedger m.risk now
  · exact .refl _

theorem Replaceable.working {i now newQty : Nat} {newPrice : Int} {reference : Nat → Int}
    {tokens : BoundedMap Nat Nat} (h : Replaceable m i newPrice newQty now reference tokens) :
    (m.slots i).working = true := by
  rw [Entry.working, h.live]
  rfl

theorem Inv.replace (h : Inv m) (id : Nat) (newPrice : Int) (newQty now : Nat) (reference : Nat → Int)
    (gateway : Ouch.Inbound → Bool) :
    Inv (m.replace id newPrice newQty now reference gateway).state := by
  rcases replace_cases h id newPrice newQty now reference gateway rfl with
    ⟨hs, _, _⟩ | ⟨i, tokens, hid, hr, _, hout⟩
  · rw [hs]; exact h
  · have hi := ((h.ids.find id i).mp hid).1
    have hlife := h.entries i hi
    have hw := hr.working
    have hnt : (m.slots i).nextToken = 0 := by
      by_contra hne
      rcases hlife.phase.repl_status hne with h' | h' <;> rw [hr.live] at h' <;> cases h'
    have hcum := hr.cum_lt
    rw [hout]
    refine h.settle hi hw (Near.offered m i newQty now tokens) ?_ ⟨rfl, rfl, rfl, rfl⟩
      (hlife.sizes.askReplace _ _ _ now)
      (fun _ => hlife.phase.askReplace hw now h.tokens.next_pos.ne' (by omega) hr.qty_le hr.price_pos hr.price_le)
      hlife.phase.accepted_acked (by simp)
    exact h.tokens.offer hi rfl rfl rfl hnt rfl rfl rfl hr.token_le hr.inserted

/-- **A fresh manager over a fresh risk engine.** -/
theorem Inv.new (config : Config) (limits : Risk.Limits) (maxLocates : Nat) :
    Inv (new config (RiskEngine.new limits maxLocates)) where
  ids := by
    refine ⟨Nat.zero_le _, ?_, rfl, rfl, ?_, ?_, ?_⟩
    · show min config.maxOrders (kNone - 1) < kNone
      unfold kNone
      omega
    · intro id i
      exact iff_of_false (by simp [OrderManager.new]) fun h' => absurd h'.1 (Nat.not_lt_zero _)
    · exact fun i hi => absurd hi (Nat.not_lt_zero _)
    · exact fun i hi => absurd hi (Nat.not_lt_zero _)
  tokens := by
    refine ⟨rfl, ?_, ?_, ?_, ?_, ?_, ?_, ?_, ?_⟩
    · intro t i
      exact iff_of_false (by simp [OrderManager.new]) fun h' => absurd h'.1 (Nat.not_lt_zero _)
    · show 0 < if config.firstToken ≠ 0 then config.firstToken else 1
      split_ifs <;> omega
    all_goals exact fun i hi => absurd hi (Nat.not_lt_zero _)
  places := by
    refine ⟨rfl, id, by simp [OrderManager.new], ?_, [], Linked.empty _, ?_, List.Pairwise.nil, rfl⟩
    · intro i
      exact iff_of_false (by simp [OrderManager.new]) fun h' => absurd h'.1 (Nat.not_lt_zero _)
    · intro i
      exact iff_of_false (by simp) fun h' => absurd h'.1 (Nat.not_lt_zero _)
  ledger := by
    refine ⟨?_, ?_, fun l sd => rfl, fun l sd => rfl, rfl⟩
    · exact fun i hi => absurd hi (Nat.not_lt_zero _)
    · exact fun i hi => absurd hi (Nat.not_lt_zero _)
  nextId_pos := le_refl _
  entries := fun i hi => absurd hi (Nat.not_lt_zero _)

end OrderManager
end OptiTrade.Oms
