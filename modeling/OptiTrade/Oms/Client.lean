import OptiTrade.Protocol.Conformance
import OptiTrade.Oms.Lifetime

/-! # The order manager as a client of the order-entry protocol

The working orders of the manager are a view in the sense of the protocol, its tokens the minted ones.
A report that is legal for this view is applied by the manager exactly as the protocol says, and is
neither counted as invalid nor clamped; an order-entry call is a new request. -/

namespace OptiTrade.Oms
set_option autoImplicit false

open Ouch (Token)
open Protocol (Row View Request Report Legal)

/-! ## Messages -/

/-- What a message asks for, in the words of the protocol. -/
def requestOf : Ouch.Inbound → Request Token
  | .enter m => .enter m.token m.shares
  | .replace m => .replace m.existing m.replacement m.shares
  | .cancel m => .cancel m.token

/-- What a report says, in the words of the protocol. -/
def reportOf : Ouch.Outbound → Report Token
  | .accepted a => if a.orderState = ascii 'D' then .dead a.token else .accepted a.token
  | .executed x => .executed x.token x.shares
  | .canceled c => .canceled c.token c.decrement
  | .rejected r => .rejected r.token
  | .replaced rp => .replaced rp.a.token rp.previous rp.a.shares

/-- The fields of a report the protocol does not look at are as an exchange sends them. -/
def Proper : Ouch.Outbound → Prop
  | .accepted a => a.orderState = ascii 'L' ∨ a.orderState = ascii 'D'
  | .executed x => 0 < x.price ∧ x.price ≤ kMaxWirePrice
  | .replaced rp => rp.a.orderState = ascii 'L'
  | _ => True

/-! ## The view of the manager -/

/-- The order as the protocol sees it. -/
def Entry.row (e : Entry) : Row Token where
  leaves := e.info.leavesQty
  cum := e.info.cumQty
  accepted := e.accepted
  repl := if e.nextToken ≠ 0 then some (Token.fromId e.nextToken, e.replaceQty) else none
  cancel := e.info.status = .pendingCancel

namespace OrderManager

/-- The working orders by the tokens they work under. -/
def view (m : OrderManager) : View Token := fun t =>
  match m.resolve t with
  | some (i, false) => if (m.slots i).working then some (m.slots i).row else none
  | _ => none

/-- The tokens minted so far. -/
def minted (m : OrderManager) : Set Token := {t | ∃ k < m.nextToken, k ≤ Token.kMaxId ∧ t = Token.fromId k}

variable {m m' m₁ : OrderManager} {i : Nat} {t : Token}

theorem view_some (h : Tokens m) {r : Row Token} :
    m.view t = some r ↔
      ∃ i < m.fresh, (m.slots i).working = true ∧ t = Token.fromId (m.slots i).token ∧ r = (m.slots i).row := by
  unfold view
  constructor
  · intro hv
    rcases hr : m.resolve t with _ | ⟨i, _ | _⟩
    · rw [hr] at hv
      cases hv
    · rw [hr] at hv
      dsimp only at hv
      by_cases hw : (m.slots i).working = true
      · rw [if_pos hw] at hv
        obtain ⟨hi, htok⟩ := (resolve_some h).mp hr
        exact ⟨i, hi, hw, htok, (Option.some.inj hv).symm⟩
      · rw [if_neg hw] at hv
        cases hv
    · rw [hr] at hv
      cases hv
  · rintro ⟨i, hi, hw, ht, rfl⟩
    have hr : m.resolve t = some (i, false) := (resolve_some h).mpr ⟨hi, ht⟩
    rw [hr]
    exact if_pos hw

theorem Tokens.fromId_unique (h : Tokens m) {j : Nat} (hi : i < m.fresh) (hj : j < m.fresh)
    (ht : Token.fromId (m.slots i).token = Token.fromId (m.slots j).token) : i = j := by
  have := Token.fromId_injective (h.token_le i hi) (h.token_le j hj) ht
  exact h.slot_unique hi hj (.inl rfl) (.inl this.symm)

/-- The view after one slot got a new entry. -/
theorem view_put (h : Tokens m) (h' : Tokens m') {e : Entry} (hs : m'.slots = Function.update m.slots i e)
    (hi : i < m'.fresh) (hj : ∀ j, j ≠ i → (j < m'.fresh ↔ j < m.fresh)) (t : Token) :
    m'.view t =
      if t = Token.fromId e.token then (if e.working then some e.row else none)
      else if i < m.fresh ∧ t = Token.fromId (m.slots i).token then none else m.view t := by
  have hself : m'.slots i = e := by rw [hs, Function.update_self]
  have hslot : ∀ j, j ≠ i → m'.slots j = m.slots j := fun j hj => by rw [hs, Function.update_of_ne hj]
  by_cases h₁ : t = Token.fromId e.token
  · have hr : m'.resolve t = some (i, false) := (resolve_some h').mpr ⟨hi, by rw [hself]; exact h₁⟩
    rw [if_pos h₁, view, hr]
    dsimp only
    rw [hself]
  rw [if_neg h₁]
  by_cases h₂ : i < m.fresh ∧ t = Token.fromId (m.slots i).token
  · rw [if_pos h₂]
    cases hv : m'.view t with
    | none => rfl
    | some r =>
      obtain ⟨j, hjf, _, hjt, _⟩ := (view_some h').mp hv
      have hji : j ≠ i := by
        rintro rfl
        rw [hself] at hjt
        exact h₁ hjt
      rw [hslot j hji] at hjt
      exact absurd (h.fromId_unique ((hj j hji).mp hjf) h₂.1 (hjt.symm.trans h₂.2)) hji
  · rw [if_neg h₂]
    ext r
    rw [view_some h', view_some h]
    constructor
    · rintro ⟨j, hjf, hw, hjt, hr⟩
      have hji : j ≠ i := by
        rintro rfl
        rw [hself] at hjt
        exact h₁ hjt
      rw [hslot j hji] at hw hjt hr
      exact ⟨j, (hj j hji).mp hjf, hw, hjt, hr⟩
    · rintro ⟨j, hjf, hw, hjt, hr⟩
      have hji : j ≠ i := by
        rintro rfl
        exact h₂ ⟨hjf, hjt⟩
      exact ⟨j, (hj j hji).mpr hjf, by rw [hslot j hji]; exact ⟨hw, hjt, hr⟩⟩

/-- The view after an order was settled. -/
theorem view_settle (h : Inv m) (hi : i < m.fresh) (hm : Near m m₁) {e : Entry} {o : Option OrderStatus}
    (h' : Inv (m₁.settle i e o)) (t : Token) :
    (m₁.settle i e o).view t =
      if t = Token.fromId e.token then (if e.info.leavesQty = 0 then none else some e.row)
      else if t = Token.fromId (m.slots i).token then none else m.view t := by
  have hf : (m₁.settle i e o).fresh = m.fresh := (m₁.settle_table i e o).fresh.trans hm.table.fresh
  have hi' : i < (m₁.settle i e o).fresh := by rw [hf]; exact hi
  by_cases hl : e.info.leavesQty = 0
  · have hs := settle_slots_dead (i := i) (o := o) hm hl
    have hw : (e.finish o).working = false := by
      have hlife := (h'.entries i hi').phase.working_iff
      rw [hs, Function.update_self] at hlife
      cases hc : (e.finish o).working with
      | false => rfl
      | true =>
        have := hlife.mp hc
        simp [Entry.finish] at this
    rw [view_put h.tokens h'.tokens hs hi' (fun j _ => by rw [hf]) t, hw, if_pos hl]
    simp [hi, Entry.finish]
  · have hs := settle_slots_live (i := i) (o := o) hm hl
    have hw : e.synced.working = true := by
      have hlife := (h'.entries i hi').phase.working_iff
      rw [hs, Function.update_self] at hlife
      exact hlife.mpr (Nat.pos_of_ne_zero hl)
    rw [view_put h.tokens h'.tokens hs hi' (fun j _ => by rw [hf]) t, hw, if_neg hl]
    simp only [hi, true_and, if_true]
    rfl

theorem view_settle_same (h : Inv m) (hi : i < m.fresh) (hm : Near m m₁) {e : Entry} {o : Option OrderStatus}
    (h' : Inv (m₁.settle i e o)) (he : e.token = (m.slots i).token) :
    (m₁.settle i e o).view = Function.update m.view (Token.fromId (m.slots i).token)
      (if e.info.leavesQty = 0 then none else some e.row) := by
  funext t
  rw [view_settle h hi hm h', he]
  by_cases ht : t = Token.fromId (m.slots i).token
  · subst ht
    rw [if_pos rfl, Function.update_self]
  · rw [if_neg ht, if_neg ht, Function.update_of_ne ht]

theorem view_congr (ht : m'.tokens = m.tokens) (hs : m'.slots = m.slots) : m'.view = m.view := by
  funext t
  unfold view resolve
  rw [ht, hs]

/-! ## Reports -/

/-- The order has seen the reports an exchange sends first. -/
structure Acknowledged (e : Entry) : Prop where
  acked : e.acked = true → e.accepted = true
  status : e.info.status = .live ∨ e.info.status = .pendingReplace → e.accepted = true
  repl : e.nextToken ≠ 0 → e.accepted = true

/-- Every working order is acknowledged, and no report was called invalid or clamped. -/
structure Client (m : OrderManager) : Prop where
  orders : ∀ i < m.fresh, (m.slots i).working = true → Acknowledged (m.slots i)
  invalid : m.stats.invalidReports = 0
  clamped : m.stats.clampedReports = 0

theorem Client.settle (hc : Client m) (hm : Near m m₁) {e : Entry} {o : Option OrderStatus}
    (hst : m₁.stats = m.stats) (he : e.info.leavesQty ≠ 0 → Acknowledged e)
    (ho : ∀ s, o = some s → isTerminal s = true) : Client (m₁.settle i e o) := by
  refine ⟨fun j hj hw => ?_, ?_, ?_⟩
  · rw [(m₁.settle_table i e o).fresh, hm.table.fresh] at hj
    by_cases hl : e.info.leavesQty = 0
    · rw [settle_slots_dead hm hl] at hw ⊢
      by_cases hji : j = i
      · subst hji
        rw [Function.update_self] at hw
        cases o with
        | some s =>
          have := ho s rfl
          simp [Entry.working, Entry.finish, this] at hw
        | none =>
          simp only [Entry.working, Entry.finish, Option.getD_none] at hw
          split_ifs at hw <;> simp [isTerminal] at hw
      · rw [Function.update_of_ne hji] at hw ⊢
        exact hc.orders j hj hw
    · rw [settle_slots_live hm hl] at hw ⊢
      by_cases hji : j = i
      · subst hji
        rw [Function.update_self]
        obtain ⟨h₁, h₂, h₃⟩ := he hl
        exact ⟨h₁, h₂, h₃⟩
      · rw [Function.update_of_ne hji] at hw ⊢
        exact hc.orders j hj hw
  · rw [settle_stats, hst]
    exact hc.invalid
  · rw [settle_stats, hst]
    exact hc.clamped

theorem noteClamp_of_not (m : OrderManager) {c : Prop} [Decidable c] (h : ¬c) : m.noteClamp c = m := if_neg h

theorem view_active (h : Inv m) {r : Row Token} (hv : m.view t = some r) :
    ∃ i < m.fresh, m.resolve t = some (i, false) ∧ (m.slots i).working = true ∧
      t = Token.fromId (m.slots i).token ∧ r = (m.slots i).row := by
  obtain ⟨i, hi, hw, ht, hr⟩ := (view_some h.tokens).mp hv
  exact ⟨i, hi, (resolve_some h.tokens).mpr ⟨hi, ht⟩, hw, ht, hr⟩

theorem view_repl (h : Inv m) {r : Row Token} (hv : m.view t = some r) {t₂ : Token} {n : Nat}
    (hr : r.repl = some (t₂, n)) :
    ∃ i < m.fresh, m.resolve t₂ = some (i, true) ∧ (m.slots i).working = true ∧ (m.slots i).nextToken ≠ 0 ∧
      t = Token.fromId (m.slots i).token ∧ t₂ = Token.fromId (m.slots i).nextToken ∧
      n = (m.slots i).replaceQty ∧ r = (m.slots i).row := by
  obtain ⟨i, hi, _, hw, ht, rfl⟩ := view_active h hv
  by_cases hn : (m.slots i).nextToken = 0
  · simp [Entry.row, hn] at hr
  · simp only [Entry.row, ne_eq, hn, not_false_eq_true, if_true, Option.some.injEq, Prod.mk.injEq] at hr
    exact ⟨i, hi, (resolve_some h.tokens).mpr ⟨hi, hn, hr.1.symm⟩, hw, hn, ht, hr.1.symm, hr.2.symm, rfl⟩

/-- A handler applies the report when it finds a working order and sees nothing wrong. -/
theorem Handled.applied_of {α : Type} {out : OrderManager × Option α} {bad applied : Nat → Bool → Prop}
    (hh : Handled m t out bad applied) {b : Bool} (hr : m.resolve t = some (i, b))
    (hw : (m.slots i).working = true) (hb : ¬bad i b) : applied i b := by
  cases hh with
  | unknown hr' _ =>
    rw [hr] at hr'
    cases hr'
  | late j b' hr' hw' _ =>
    rw [hr] at hr'
    cases hr'
    rw [hw] at hw'
    cases hw'
  | invalid j b' hr' _ hb' _ =>
    rw [hr] at hr'
    cases hr'
    exact absurd hb' hb
  | applied j b' hr' _ _ ha =>
    rw [hr] at hr'
    cases hr'
    exact ha

theorem Client.onAccepted (hc : Client m) (h : Inv m) {a : Ouch.Accepted} (now : Nat) {w : View Token}
    (hp : Proper (.accepted a)) (hl : Legal m.view (reportOf (.accepted a)) w) :
    (m.onAccepted a now).1.view = w ∧ Client (m.onAccepted a now).1 := by
  -- both answers to an enter settle the order the same way
  have key : ∀ {r : Row Token}, m.view a.token = some r → r.accepted = false →
      (m.onAccepted a now).1.view = Function.update m.view a.token
        (if a.orderState = ascii 'D' then none else some { r with accepted := true }) ∧
      Client (m.onAccepted a now).1 := by
    intro r hv hacc
    obtain ⟨i, hi, hr, hw, ht, rfl⟩ := view_active h hv
    have hleaves := ((h.entries i hi).phase.working_iff).mp hw
    have hout := (onAccepted_handled h a now).applied_of hr hw (by
      rintro (h' | h' | h')
      · cases h'
      · rw [show (m.slots i).accepted = false from hacc] at h'
        cases h'
      · exact hp.elim h'.1 h'.2)
    have hinv := h.onAccepted a now
    rw [hout] at hinv ⊢
    refine ⟨?_, hc.settle (.refl m) rfl (fun _ => ⟨fun _ => rfl, fun _ => rfl, fun _ => rfl⟩) (by simp)⟩
    show (m.settle i _ none).view = _
    rw [view_settle_same h hi (.refl m) hinv rfl, ← ht]
    by_cases hd : a.orderState = ascii 'D'
    · rw [if_pos hd, if_pos (by simp [Entry.accept, hd])]
    · have hne : ((m.slots i).accept a now).info.leavesQty ≠ 0 := by
        simp only [Entry.accept, hd, if_false]
        omega
      rw [if_neg hd, if_neg hne]
      congr 2
      simp only [Entry.row, Entry.accept, hd, if_false, Row.mk.injEq, true_and, decide_eq_decide]
      exact confirm_eq_pendingCancel
  simp only [reportOf] at hl
  by_cases hd : a.orderState = ascii 'D'
  · rw [if_pos hd] at hl
    cases hl with
    | dead hv hacc => simpa only [hd, if_true] using key hv hacc
  · rw [if_neg hd] at hl
    cases hl with
    | accepted hv hacc => simpa only [hd, if_false] using key hv hacc

/-- A legal execution finds a working order with enough open, and is booked. -/
theorem execution_booked (h : Inv m) {x : Ouch.Executed} (now : Nat) {w : View Token} (hp : Proper (.executed x))
    (hl : Legal m.view (reportOf (.executed x)) w) (hseen : ∀ i < m.fresh, (m.slots i).seenMatch x.matchNo = false) :
    ∃ i < m.fresh, (m.slots i).working = true ∧ x.token = Token.fromId (m.slots i).token ∧ (m.slots i).accepted = true ∧
      x.shares ≤ (m.slots i).info.leavesQty ∧ ¬badExecution (m.slots i) x ∧
      w = m.view.settle x.token ((m.slots i).row.execute x.shares) ∧
      (m.onExecuted x now).1 = (m.booked i x).settle i ((m.slots i).execute x now) (some .filled) := by
  simp only [reportOf] at hl
  cases hl with
  | executed hv hacc hq₁ hq₂ =>
    obtain ⟨i, hi, hr, hw, ht, rfl⟩ := view_active h hv
    have hlife := h.entries i hi
    have hq₂ : x.shares ≤ (m.slots i).info.leavesQty := hq₂
    have hbad : ¬badExecution (m.slots i) x := by
      have hcum := hlife.sizes.cum_le
      have hfits := hlife.sizes.fits
      have hqle := hlife.sizes.qty_le
      unfold badExecution
      rw [sub32_eq hcum (by unfold u32Max kMaxOrderQty; omega), hseen i hi]
      have h₁ := hp.1
      have h₂ := hp.2
      push Not
      exact ⟨by omega, h₁, h₂, by omega, by simp⟩
    have hout := (onExecuted_handled h x now).applied_of hr hw (by
      rintro (h' | h')
      · cases h'
      · exact hbad h')
    exact ⟨i, hi, hw, ht, hacc, hq₂, hbad, rfl, congrArg Prod.fst hout⟩

theorem Client.onExecuted (hc : Client m) (h : Inv m) {x : Ouch.Executed} (now : Nat) {w : View Token}
    (hp : Proper (.executed x)) (hl : Legal m.view (reportOf (.executed x)) w)
    (hseen : ∀ i < m.fresh, (m.slots i).seenMatch x.matchNo = false) :
    (m.onExecuted x now).1.view = w ∧ Client (m.onExecuted x now).1 := by
  obtain ⟨i, hi, hw, ht, hacc, hq₂, hbad, rfl, hout⟩ := execution_booked h now hp hl hseen
  have hlife := h.entries i hi
  have hinv := h.onExecuted x now
  rw [hout] at hinv ⊢
  have hst : (m.booked i x).stats = m.stats := by
    unfold booked
    rw [noteClamp_of_not m (by omega)]
  obtain ⟨_, _, _, _, hcum, hleaves, _⟩ := execute_numbers hlife.sizes now hbad
  refine ⟨?_, hc.settle (.booked m i x) hst (fun _ => ⟨fun _ => hacc, fun _ => hacc, fun _ => hacc⟩) ?_⟩
  · show ((m.booked i x).settle i _ _).view = _
    rw [view_settle_same h hi (.booked m i x) hinv rfl, ← ht]
    unfold View.settle
    congr 1
    show _ = if (m.slots i).info.leavesQty - x.shares = 0 then none else _
    rw [hleaves]
    by_cases hz : (m.slots i).info.leavesQty - x.shares = 0
    · rw [if_pos hz, if_pos hz]
    · rw [if_neg hz, if_neg hz]
      congr 1
      simp only [Entry.row, Row.execute, Row.mk.injEq, decide_eq_decide]
      exact ⟨hleaves, hcum, rfl, rfl, confirm_eq_pendingCancel⟩
  · rintro s hs
    cases hs
    rfl

theorem Client.onCanceled (hc : Client m) (h : Inv m) {c : Ouch.Canceled} (now : Nat) {w : View Token}
    (hl : Legal m.view (reportOf (.canceled c)) w) :
    (m.onCanceled c now).1.view = w ∧ Client (m.onCanceled c now).1 := by
  simp only [reportOf] at hl
  cases hl with
  | canceled hv hacc hq₁ hq₂ =>
    obtain ⟨i, hi, hr, hw, ht, rfl⟩ := view_active h hv
    have hq₂ : c.decrement ≤ (m.slots i).info.leavesQty := hq₂
    have hout := (onCanceled_handled h c now).applied_of hr hw (by
      rintro (h' | h')
      · cases h'
      · omega)
    have hinv := h.onCanceled c now
    rw [noteClamp_of_not m (by omega)] at hout
    rw [hout] at hinv ⊢
    have hleaves := reduce_leaves (h.entries i hi).sizes c now
    rw [min_eq_left hq₂] at hleaves
    refine ⟨?_, hc.settle (.refl m) rfl (fun _ => ⟨fun _ => hacc, fun _ => hacc, fun _ => hacc⟩) (by simp)⟩
    show (m.settle i _ none).view = _
    rw [view_settle_same h hi (.refl m) hinv rfl, ← ht]
    unfold View.settle
    congr 1
    show _ = if (m.slots i).info.leavesQty - c.decrement = 0 then none else _
    rw [hleaves]
    by_cases hz : (m.slots i).info.leavesQty - c.decrement = 0
    · rw [if_pos hz, if_pos hz]
    · rw [if_neg hz, if_neg hz]
      congr 1
      simp only [Entry.row, Row.reduce, Row.mk.injEq, decide_eq_decide]
      exact ⟨hleaves, rfl, rfl, rfl, confirm_eq_pendingCancel⟩

theorem Client.onRejected (hc : Client m) (h : Inv m) {r : Ouch.Rejected} (now : Nat) {w : View Token}
    (hl : Legal m.view (reportOf (.rejected r)) w) :
    (m.onRejected r now).1.view = w ∧ Client (m.onRejected r now).1 := by
  have hinv := h.onRejected r now
  simp only [reportOf] at hl
  cases hl with
  | refused hv hacc =>
    obtain ⟨i, hi, hr, hw, ht, rfl⟩ := view_active h hv
    have hout := (onRejected_handled h r now).applied_of hr hw (by
      rintro ⟨_, h'⟩
      rw [show (m.slots i).row.accepted = true from (hc.orders i hi hw).acked h'] at hacc
      cases hacc)
    rw [if_neg (by decide)] at hout
    have hout : (m.onRejected r now).1 = m.settle i ((m.slots i).refuse r now) (some .rejected) := by
      rw [hout]
      rfl
    rw [hout] at hinv ⊢
    refine ⟨?_, ?_⟩
    · rw [view_settle_same h hi (.refl m) hinv rfl, ← ht, if_pos (by simp [Entry.refuse])]
    · refine hc.settle (.refl m) rfl (fun h' => absurd rfl h') fun s hs => ?_
      cases hs
      rfl
  | reverted hv hrepl =>
    obtain ⟨i, hi, hr, hw, hn, ht, ht₂, hqty, rfl⟩ := view_repl h hv hrepl
    have hout := (onRejected_handled h r now).applied_of hr hw (by simp)
    rw [if_pos rfl] at hout
    rw [hout] at hinv ⊢
    have hacc := (hc.orders i hi hw).repl hn
    have hleaves := ((h.entries i hi).phase.working_iff).mp hw
    have hnear : Near m { m with tokens := m.tokens.erase (m.slots i).nextToken } :=
      ⟨⟨rfl, rfl, rfl, rfl⟩, ⟨rfl, rfl, rfl, rfl⟩, rfl, .refl _⟩
    refine ⟨?_, hc.settle hnear rfl (fun _ => ⟨fun _ => hacc, fun _ => hacc, fun _ => hacc⟩) (by simp)⟩
    show (OrderManager.settle _ i _ _).view = _
    have hne : ((m.slots i).revert r now).info.leavesQty ≠ 0 := by
      show (m.slots i).info.leavesQty ≠ 0
      omega
    rw [view_settle_same h hi hnear hinv rfl, ← ht, if_neg hne]
    rfl
  | stale hno =>
    -- nothing answers to this token: the report is counted and dropped
    have hun : ∀ i b, m.resolve r.token = some (i, b) → (m.slots i).working = false := by
      intro i b hr
      cases hw : (m.slots i).working with
      | false => rfl
      | true =>
        obtain ⟨hi, htok⟩ := (resolve_some h.tokens).mp hr
        have hv := (view_some h.tokens).mpr ⟨i, hi, hw, rfl, rfl⟩
        refine absurd ⟨_, _, hv, ?_⟩ hno
        cases b with
        | false => exact .inl htok
        | true =>
          rw [if_pos rfl] at htok
          refine .inr ⟨(m.slots i).replaceQty, ?_⟩
          simp [Entry.row, htok.1, htok.2]
    have hdrop : ∀ m' : OrderManager, m'.fresh = m.fresh → m'.tokens = m.tokens → m'.slots = m.slots →
        m'.stats.invalidReports = m.stats.invalidReports → m'.stats.clampedReports = m.stats.clampedReports →
        m'.view = m.view ∧ Client m' := by
      intro m' hf ht hs h₁ h₂
      refine ⟨view_congr ht hs, fun i hi hw => ?_, h₁.trans hc.invalid, h₂.trans hc.clamped⟩
      rw [hf] at hi
      rw [hs] at hw ⊢
      exact hc.orders i hi hw
    cases onRejected_handled h r now with
    | unknown _ hout =>
      rw [hout]
      exact hdrop _ rfl rfl rfl rfl rfl
    | late i b _ _ hout =>
      rw [hout]
      exact hdrop _ rfl rfl rfl rfl rfl
    | invalid i b hr hw _ _ =>
      rw [hun i b hr] at hw
      cases hw
    | applied i b hr hw _ _ =>
      rw [hun i b hr] at hw
      cases hw

theorem Client.onReplaced (hc : Client m) (h : Inv m) {rp : Ouch.Replaced} (now : Nat) {w : View Token}
    (hp : Proper (.replaced rp)) (hl : Legal m.view (reportOf (.replaced rp)) w) :
    (m.onReplaced rp now).1.view = w ∧ Client (m.onReplaced rp now).1 := by
  have hinv := h.onReplaced rp now
  have hp : rp.a.orderState = ascii 'L' := hp
  have hd : ¬rp.a.orderState = ascii 'D' := by rw [hp]; decide
  simp only [reportOf] at hl
  generalize hrow : rp.a.shares = shares at hl
  cases hl with
  | @replaced _ _ r n hv hrepl hlt =>
    obtain ⟨i, hi, hr, hw, hn, ht, ht₂, rfl, rfl⟩ := view_repl h hv hrepl
    have hlife := h.entries i hi
    have hacc := (hc.orders i hi hw).repl hn
    have hasked : (m.slots i).asked = (m.slots i).replaceQty - (m.slots i).info.cumQty := asked_eq hlife.phase hn
    have hshares : rp.a.shares = (m.slots i).replaceQty - (m.slots i).info.cumQty := hrow
    have hlt : (m.slots i).info.cumQty < (m.slots i).replaceQty := hlt
    have hout := (onReplaced_handled h rp now).applied_of hr hw (by
      rintro (h' | h' | h')
      · cases h'
      · exact h' ht
      · exact h'.1 hp)
    rw [noteClamp_of_not _ (by rintro ⟨_, h'⟩; omega)] at hout
    rw [hout] at hinv ⊢
    have hnear : Near m { m with tokens := m.tokens.erase (m.slots i).token } :=
      ⟨⟨rfl, rfl, rfl, rfl⟩, ⟨rfl, rfl, rfl, rfl⟩, rfl, .refl _⟩
    have hleaves : ((m.slots i).swap rp now).info.leavesQty =
        (m.slots i).replaceQty - (m.slots i).info.cumQty := by
      show (if rp.a.orderState = ascii 'D' then 0 else min rp.a.shares (m.slots i).asked) = _
      rw [if_neg hd, hasked, hshares, min_self]
    refine ⟨?_, hc.settle hnear rfl (fun _ => ⟨fun _ => hacc, fun _ => hacc, fun _ => hacc⟩) (by simp)⟩
    show (OrderManager.settle _ i _ _).view = _
    funext t
    have hpos : ¬((m.slots i).replaceQty - (m.slots i).info.cumQty = 0) := by omega
    have htok : ((m.slots i).swap rp now).token = (m.slots i).nextToken := rfl
    rw [view_settle h hi hnear hinv, hleaves, if_neg hpos, htok, ← ht₂, ← ht]
    by_cases h₁ : t = rp.a.token
    · subst h₁
      rw [if_pos rfl, Function.update_self]
      congr 1
      simp only [Entry.row, Row.swap, Row.mk.injEq, decide_eq_decide]
      refine ⟨hleaves, rfl, rfl, rfl, ?_⟩
      show (if (m.slots i).info.status = .pendingReplace then OrderStatus.live else (m.slots i).info.status) = _ ↔ _
      by_cases hpr : (m.slots i).info.status = .pendingReplace
      · simp [hpr]
      · simp [hpr]
    · rw [if_neg h₁, Function.update_of_ne h₁]
      by_cases h₂ : t = rp.previous
      · subst h₂
        rw [if_pos rfl, Function.update_self]
      · rw [if_neg h₂, Function.update_of_ne h₂]

/-- **A legal report is applied as the protocol says.** -/
theorem Client.onReport (hc : Client m) (h : Inv m) {ρ : Ouch.Outbound} (now : Nat) {w : View Token}
    (hp : Proper ρ) (hl : Legal m.view (reportOf ρ) w)
    (hseen : ∀ x, ρ = .executed x → ∀ i < m.fresh, (m.slots i).seenMatch x.matchNo = false) :
    (m.onReport ρ now).view = w ∧ Client (m.onReport ρ now) := by
  cases ρ with
  | accepted a => exact hc.onAccepted h now hp hl
  | executed x => exact hc.onExecuted h now hp hl (hseen x rfl)
  | canceled c => exact hc.onCanceled h now hl
  | rejected r => exact hc.onRejected h now hl
  | replaced rp => exact hc.onReplaced h now hp hl

/-! ## Requests -/

theorem minted_congr (h : m'.nextToken = m.nextToken) : m'.minted = m.minted := by
  unfold minted
  rw [h]

theorem minted_succ (hle : m.nextToken ≤ Token.kMaxId) (h : m'.nextToken = m.nextToken + 1) :
    m'.minted = insert (Token.fromId m.nextToken) m.minted := by
  ext t
  simp only [minted, h, Set.mem_ofPred_eq, Set.mem_insert_iff]
  constructor
  · rintro ⟨k, hk, hkle, rfl⟩
    by_cases hkm : k = m.nextToken
    · exact .inl (by rw [hkm])
    · exact .inr ⟨k, by omega, hkle, rfl⟩
  · rintro (rfl | ⟨k, hk, hkle, rfl⟩)
    · exact ⟨m.nextToken, by omega, hle, rfl⟩
    · exact ⟨k, by omega, hkle, rfl⟩

theorem next_not_minted (hle : m.nextToken ≤ Token.kMaxId) : Token.fromId m.nextToken ∉ m.minted := by
  rintro ⟨k, hk, hkle, h⟩
  have := Token.fromId_injective hle hkle h
  omega

/-- A report mints no token. -/
theorem nextToken_onReport (h : Inv m) (ρ : Ouch.Outbound) (now : Nat) :
    (m.onReport ρ now).nextToken = m.nextToken := by
  cases ρ with
  | accepted a =>
    refine (onAccepted_handled h a now).preserve (P := fun m' => m'.nextToken = m.nextToken) rfl rfl rfl
      fun i b _ _ _ hout => ?_
    rw [hout]
    exact settle_nextToken m i _ _
  | executed x =>
    refine (onExecuted_handled h x now).preserve (P := fun m' => m'.nextToken = m.nextToken) rfl rfl rfl
      fun i b _ _ _ hout => ?_
    rw [hout]
    exact (settle_nextToken (m.booked i x) i _ _).trans (noteClamp_tokens m _).2.1
  | canceled c =>
    refine (onCanceled_handled h c now).preserve (P := fun m' => m'.nextToken = m.nextToken) rfl rfl rfl
      fun i b _ _ _ hout => ?_
    rw [hout]
    exact (settle_nextToken _ i _ _).trans (noteClamp_tokens m _).2.1
  | rejected r =>
    refine (onRejected_handled h r now).preserve (P := fun m' => m'.nextToken = m.nextToken) rfl rfl rfl
      fun i b _ _ _ hout => ?_
    rw [hout]
    split_ifs
    · exact settle_nextToken { m with tokens := m.tokens.erase (m.slots i).nextToken } i _ _
    · exact settle_nextToken m i _ _
  | replaced rp =>
    refine (onReplaced_handled h rp now).preserve (P := fun m' => m'.nextToken = m.nextToken) rfl rfl rfl
      fun i b _ _ _ hout => ?_
    rw [hout]
    exact (settle_nextToken _ i _ _).trans
      (noteClamp_tokens { m with tokens := m.tokens.erase (m.slots i).token } _).2.1

theorem row_reserve {e : Entry} (h : Lifecycle e) (hw : e.working = true) : e.row.reserve = e.reserved := by
  rw [h.reserved, if_pos hw, want_eq h.phase]
  unfold Row.reserve Entry.row
  by_cases hn : e.nextToken = 0
  · simp [hn, h.phase.repl_none hn]
  · simp [hn]

theorem row_target (e : Entry) : e.row.target (Token.fromId e.token) = Token.fromId e.target := by
  unfold Row.target Entry.row Entry.target
  by_cases hn : e.nextToken = 0
  · simp [hn]
  · simp [hn]

theorem sent_none {o : Option Ouch.Inbound} {gateway : Ouch.Inbound → Bool}
    (h : ∀ msg, o = some msg → gateway msg = false) : (o.filter gateway).toList = [] := by
  cases o with
  | none => rfl
  | some msg => simp [Option.filter, h msg rfl]

theorem sent_some {msg : Ouch.Inbound} {gateway : Ouch.Inbound → Bool} (h : gateway msg = true) :
    ((some msg).filter gateway).toList = [msg] := by
  simp [Option.filter, h]

open Protocol (Conforms Book)

/-- **An order-entry call is a new request.** -/
theorem Client.perform (hc : Client m) (h : Inv m) {c : Call} (hfit : m.Fits c)
    (hnr : ∀ r now, c ≠ .report r now) {outbox : List (Report Token)} {b : Book Token}
    {inbox : List (Request Token)} (hcf : Conforms m.minted m.view outbox b inbox) :
    Client (m.perform c) ∧
      Conforms (m.perform c).minted (m.perform c).view outbox b (inbox ++ (m.sends c).map requestOf) := by
  have hinv := h.perform hfit
  -- nothing happened
  have hquiet : ∀ {m' : OrderManager}, m'.fresh = m.fresh → m'.tokens = m.tokens → m'.slots = m.slots →
      m'.nextToken = m.nextToken → m'.stats = m.stats →
      Client m' ∧ Conforms m'.minted m'.view outbox b (inbox ++ List.map requestOf []) := by
    intro m' hf ht hs hn hst
    refine ⟨⟨fun i hi hw => ?_, by rw [hst]; exact hc.invalid, by rw [hst]; exact hc.clamped⟩, ?_⟩
    · rw [hf] at hi
      rw [hs] at hw ⊢
      exact hc.orders i hi hw
    · rw [view_congr ht hs, minted_congr hn, List.map_nil, List.append_nil]
      exact hcf
  cases c with
  | report r now => exact absurd rfl (hnr r now)
  | mark l p => exact hquiet rfl rfl rfl rfl rfl
  | killSwitch on => exact hquiet rfl rfl rfl rfl rfl
  | submit req now w =>
    rcases submit_cases m req now w.symbol w.reference w.gateway rfl with
      ⟨hs, _, hsent⟩ | ⟨tokens, hs, hg, hout⟩
    · rw [OrderManager.perform, hs, sends, sent_none hsent]
      exact hquiet rfl rfl rfl rfl rfl
    · rw [OrderManager.perform, hout] at hinv ⊢
      rw [sends, hout, sent_some hg]
      dsimp only at hinv ⊢
      have hi : m.nextSlot < (m.admitted req now tokens).fresh := by
        rw [admitted_fresh]
        rcases h.nextSlot_cases hs.slot with ⟨h₁, h₂⟩ | ⟨h₁, h₂, _⟩
        · rw [if_pos h₁]; omega
        · rw [if_neg (by omega)]; exact h₂
      have hj : ∀ j, j ≠ m.nextSlot → (j < (m.admitted req now tokens).fresh ↔ j < m.fresh) := by
        intro j hji
        rw [admitted_fresh]
        rcases h.nextSlot_cases hs.slot with ⟨h₁, h₂⟩ | ⟨h₁, _⟩
        · rw [if_pos h₁]; omega
        · rw [if_neg (by omega)]
      have hview : (m.admitted req now tokens).view =
          Function.update m.view (Token.fromId m.nextToken) (some ⟨req.qty, 0, false, none, false⟩) := by
        funext t
        rw [view_put h.tokens hinv.tokens rfl hi hj t]
        by_cases h₁ : t = Token.fromId m.nextToken
        · subst h₁
          rw [Function.update_self]
          exact if_pos rfl
        · rw [Function.update_of_ne h₁, if_neg (show ¬t = Token.fromId (m.newEntry req now).token from h₁)]
          split_ifs with h₂
          · -- the order whose slot is reused was finished
            cases hv : m.view t with
            | none => rfl
            | some r =>
              obtain ⟨j, hjf, hw, hjt, _⟩ := (view_some h.tokens).mp hv
              obtain rfl := h.tokens.fromId_unique hjf h₂.1 (hjt.symm.trans h₂.2)
              rcases h.nextSlot_cases hs.slot with ⟨_, h₃⟩ | ⟨_, _, h₃, _⟩
              · omega
              · rw [hw] at h₃
                cases h₃
          · rfl
      refine ⟨⟨fun j hjf hw => ?_, hc.invalid, hc.clamped⟩, ?_⟩
      · by_cases hji : j = m.nextSlot
        · subst hji
          rw [show (m.admitted req now tokens).slots m.nextSlot = m.newEntry req now from Function.update_self ..]
          refine ⟨fun h' => ?_, ?_, fun h' => absurd rfl h'⟩
          · cases h'
          · rintro (h' | h') <;> cases h'
        · have hsl : (m.admitted req now tokens).slots j = m.slots j := Function.update_of_ne hji _ _
          rw [hsl] at hw ⊢
          exact hc.orders j ((hj j hji).mp hjf) hw
      · have hmint : (m.admitted req now tokens).minted = insert (Token.fromId m.nextToken) m.minted :=
          minted_succ hs.token_le rfl
        rw [hview, hmint]
        exact hcf.enter (next_not_minted hs.token_le) hs.qty_pos
  | cancelEntry i now w =>
    rcases cancelEntry_cases h hfit now w.gateway rfl with ⟨hs, _, hsent⟩ | ⟨hw, hst, hg, hout⟩
    · rw [OrderManager.perform, hs, sends, sent_none hsent]
      exact hquiet rfl rfl rfl rfl rfl
    · have hi : i < m.fresh := hfit
      have hleaves := ((h.entries i hi).phase.working_iff).mp hw
      rw [OrderManager.perform, hout] at hinv ⊢
      rw [sends, hout, sent_some hg]
      dsimp only at hinv ⊢
      have hne : ¬((m.slots i).askCancel now).info.leavesQty = 0 := by
        show ¬(m.slots i).info.leavesQty = 0
        omega
      refine ⟨hc.settle (.refl m) rfl (fun _ => ?_) (by simp), ?_⟩
      · obtain ⟨h₁, _, h₃⟩ := hc.orders i hi hw
        refine ⟨h₁, ?_, h₃⟩
        rintro (h' | h') <;> cases h'
      · rw [view_settle_same h hi (.refl m) hinv rfl, if_neg hne, minted_congr (settle_nextToken m i _ _)]
        have hv := (view_some h.tokens).mpr ⟨i, hi, hw, rfl, rfl⟩
        have hcan := hcf.cancel hv (by simpa [Entry.row] using hst)
        rw [row_target] at hcan
        exact hcan
  | replace id p q now w =>
    rcases replace_cases h id p q now w.reference w.gateway rfl with
      ⟨hs, _, hsent⟩ | ⟨i, tokens, hid, hr, hg, hout⟩
    · rw [OrderManager.perform, hs, sends, sent_none hsent]
      exact hquiet rfl rfl rfl rfl rfl
    · have hi := ((h.ids.find id i).mp hid).1
      have hw := hr.working
      have hphase := (h.entries i hi).phase
      have hleaves := hphase.working_iff.mp hw
      have hacc := (hc.orders i hi hw).status (.inl hr.live)
      have hn : (m.slots i).nextToken = 0 := by
        by_contra hne
        rcases hphase.repl_status hne with h' | h' <;> rw [hr.live] at h' <;> cases h'
      rw [OrderManager.perform, hout] at hinv ⊢
      rw [sends, hout, sent_some hg]
      dsimp only at hinv ⊢
      have hne : ¬((m.slots i).askReplace m.nextToken p q now).info.leavesQty = 0 := by
        show ¬(m.slots i).info.leavesQty = 0
        omega
      have hnear := Near.offered m i q now tokens
      refine ⟨hc.settle hnear rfl (fun _ => ⟨fun _ => hacc, fun _ => hacc, fun _ => hacc⟩) (by simp), ?_⟩
      rw [view_settle_same h hi hnear hinv rfl, if_neg hne,
        minted_succ (m := m) hr.token_le (settle_nextToken (m.offered i q now tokens) i _ _)]
      have hv := (view_some h.tokens).mpr ⟨i, hi, hw, rfl, rfl⟩
      have hrow : ((m.slots i).askReplace m.nextToken p q now).row =
          { (m.slots i).row with repl := some (Token.fromId m.nextToken, q) } := by
        have hpos := h.tokens.next_pos
        have hnz : m.nextToken ≠ 0 := by omega
        simp [Entry.row, Entry.askReplace, hnz, hr.live]
      rw [hrow]
      exact hcf.replace (next_not_minted hr.token_le) hv hacc (by simp [Entry.row, hn])
        (by simp [Entry.row, hr.live])

end OrderManager
end OptiTrade.Oms
