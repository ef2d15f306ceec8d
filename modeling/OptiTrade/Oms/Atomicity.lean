import OptiTrade.Oms.Lifetime

/-! # A call that fails leaves no trace

`Handled` describes the reports one handler at a time; `Processed` says of any report what becomes of
the manager and which callback starts. -/

namespace OptiTrade.Oms
set_option autoImplicit false

open Runs

namespace OrderManager

/-- The counters of reports that were not applied are as before. -/
structure SameFailures (m m' : OrderManager) : Prop where
  unknown : m'.stats.unknownTokens = m.stats.unknownTokens
  late : m'.stats.lateReports = m.stats.lateReports
  invalid : m'.stats.invalidReports = m.stats.invalidReports

variable {m m₁ : OrderManager}

theorem SameFailures.refl (m : OrderManager) : SameFailures m m := ⟨rfl, rfl, rfl⟩

theorem SameFailures.noteClamp (h : SameFailures m m₁) (c : Prop) [Decidable c] : SameFailures m (m₁.noteClamp c) := by
  unfold OrderManager.noteClamp
  split_ifs
  · exact ⟨h.unknown, h.late, h.invalid⟩
  · exact h

theorem SameFailures.settle (h : SameFailures m m₁) (i : Nat) (e : Entry) (o : Option OrderStatus) :
    SameFailures m (m₁.settle i e o) := by
  have hs := m₁.settle_stats i e o
  exact ⟨hs ▸ h.unknown, hs ▸ h.late, hs ▸ h.invalid⟩

theorem SameFailures.booked (m : OrderManager) (i : Nat) (x : Ouch.Executed) : SameFailures m (m.booked i x) := by
  have h := (SameFailures.refl m).noteClamp ((m.slots i).info.leavesQty < x.shares)
  exact ⟨h.unknown, h.late, h.invalid⟩

/-- The report was counted once and nothing else happened. -/
def Ignored (m m' : OrderManager) : Prop := m' = m.unknown ∨ m' = m.late ∨ m' = m.invalid

end OrderManager

namespace Session

/-- What a report does: it is counted and dropped, it settles an order and shows it, or it books an
execution and shows the fill. -/
inductive Processed (m : OrderManager) (r : Ouch.Outbound) (now : Nat) : Session × List Effect → Prop
  | ignored (m' : OrderManager) : m.Ignored m' → Processed m r now (⟨m', []⟩, [])
  | updated (i : Nat) (m₁ : OrderManager) (e : Entry) (o : Option OrderStatus) : i < m.fresh →
      (m.slots i).working = true → OrderManager.Near m m₁ → OrderManager.SameOrder (m.slots i) e →
      OrderManager.SameBook (m.slots i) e → (∀ t, e.hasToken t → (m.slots i).hasToken t) →
      m₁.nextToken = m.nextToken → m.SameFailures m₁ → (∀ x, r ≠ .executed x) →
      Processed m r now (⟨m₁.settle i e o, [.update]⟩, [.update ((m₁.settle i e o).slots i).info])
  | booked (i : Nat) (x : Ouch.Executed) (m' : OrderManager) : r = .executed x → i < m.fresh →
      (m.slots i).working = true → ¬OrderManager.badExecution (m.slots i) x →
      m' = (m.booked i x).settle i ((m.slots i).execute x now) (some .filled) →
      Processed m r now (⟨m', [.fill (m'.slots i).info]⟩,
        [.fill ⟨(m'.slots i).info.id, (m'.slots i).info.req.locate, (m'.slots i).info.req.side, x.shares,
          x.price, now, x.matchNo⟩])

variable {m : OrderManager}

/-- A handler that ends with an update. -/
theorem Processed.of_handled (h : m.Inv) {r : Ouch.Outbound} {now : Nat} {t : Ouch.Token}
    {out : OrderManager × Option OrderInfo} {bad applied : Nat → Bool → Prop}
    (hh : OrderManager.Handled m t out bad applied)
    (ha : ∀ i b, i < m.fresh → (b = true → (m.slots i).nextToken ≠ 0) → (m.slots i).working = true → ¬bad i b →
      applied i b → Processed m r now (finishReport out)) : Processed m r now (finishReport out) := by
  cases hh with
  | unknown _ hout =>
    subst hout
    exact .ignored _ (.inl rfl)
  | late i b _ _ hout =>
    subst hout
    exact .ignored _ (.inr (.inl rfl))
  | invalid i b _ _ _ hout =>
    subst hout
    exact .ignored _ (.inr (.inr rfl))
  | applied i b hr hw hb happ =>
    obtain ⟨hi, hid⟩ := (OrderManager.resolve_some h.tokens).mp hr
    refine ha i b hi (fun hb' => ?_) hw hb happ
    rw [if_pos hb'] at hid
    exact hid.1

theorem Processed.settled {r : Ouch.Outbound} {now i : Nat} {m₁ : OrderManager} {e : Entry} {o : Option OrderStatus}
    (hi : i < m.fresh) (hw : (m.slots i).working = true) (hm : OrderManager.Near m m₁)
    (he : OrderManager.SameOrder (m.slots i) e) (hb : OrderManager.SameBook (m.slots i) e)
    (ht : ∀ t, e.hasToken t → (m.slots i).hasToken t) (hn : m₁.nextToken = m.nextToken)
    (hf : m.SameFailures m₁) (hr : ∀ x, r ≠ .executed x) :
    Processed m r now (finishReport (m₁.settled i e o)) :=
  .updated i m₁ e o hi hw hm he hb ht hn hf hr

theorem processed (s : Session) (h : s.manager.Inv) (r : Ouch.Outbound) (now : Nat) :
    Processed s.manager r now (s.report r now) := by
  cases r with
  | accepted a =>
    refine Processed.of_handled h (OrderManager.onAccepted_handled h a now) fun i b hi _ hw _ hout => ?_
    rw [hout]
    exact .settled hi hw (.refl _) ⟨rfl, rfl, rfl, rfl⟩ ⟨rfl, rfl, rfl, rfl, rfl⟩ (fun _ ht => ht) rfl (.refl _)
        (by simp)
  | canceled c =>
    refine Processed.of_handled h (OrderManager.onCanceled_handled h c now) fun i b hi _ hw _ hout => ?_
    rw [hout]
    exact .settled hi hw ((OrderManager.Near.refl _).noteClamp _) ⟨rfl, rfl, rfl, rfl⟩
      ⟨rfl, rfl, rfl, rfl, rfl⟩ (fun _ ht => ht) (OrderManager.noteClamp_tokens _ _).2.1
      ((OrderManager.SameFailures.refl _).noteClamp _) (by simp)
  | rejected x =>
    refine Processed.of_handled h (OrderManager.onRejected_handled h x now) fun i b hi _ hw _ hout => ?_
    rw [hout]
    cases b with
    | true =>
      rw [if_pos rfl]
      refine .settled hi hw ⟨⟨rfl, rfl, rfl, rfl⟩, ⟨rfl, rfl, rfl, rfl⟩, rfl, .refl _⟩
        ⟨rfl, rfl, rfl, rfl⟩ ⟨rfl, rfl, rfl, rfl, rfl⟩ (fun t ht => ?_) rfl ⟨rfl, rfl, rfl⟩ (by simp)
      rcases ht with ht | ⟨ht, hne⟩
      · exact .inl ht
      · exact absurd ht.symm hne
    | false =>
      rw [if_neg (by decide)]
      exact .settled hi hw (.refl _) ⟨rfl, rfl, rfl, rfl⟩ ⟨rfl, rfl, rfl, rfl, rfl⟩ (fun _ ht => ht) rfl (.refl _)
        (by simp)
  | replaced rp =>
    refine Processed.of_handled h (OrderManager.onReplaced_handled h rp now) fun i b hi hn hw hb hout => ?_
    rw [hout]
    have hnear : OrderManager.Near s.manager
        { s.manager with tokens := s.manager.tokens.erase (s.manager.slots i).token } :=
      ⟨⟨rfl, rfl, rfl, rfl⟩, ⟨rfl, rfl, rfl, rfl⟩, rfl, .refl _⟩
    have hsame : s.manager.SameFailures
        { s.manager with tokens := s.manager.tokens.erase (s.manager.slots i).token } := ⟨rfl, rfl, rfl⟩
    have hrepl : b = true := by
      cases b with
      | true => rfl
      | false => exact absurd (.inl rfl) hb
    refine .settled hi hw (hnear.noteClamp _) ⟨rfl, rfl, rfl, rfl⟩ ⟨rfl, rfl, rfl, rfl, rfl⟩ (fun t ht => ?_)
      (OrderManager.noteClamp_tokens _ _).2.1 (hsame.noteClamp _) (by simp)
    -- the replacement token is the only one left
    rcases ht with ht | ⟨ht, hne⟩
    · exact .inr ⟨ht, fun h0 => hn hrepl (show (s.manager.slots i).nextToken = 0 from ht.trans h0)⟩
    · exact absurd ht.symm hne
  | executed x =>
    simp only [report]
    cases OrderManager.onExecuted_handled h x now with
    | unknown _ hout =>
      rw [hout]
      exact .ignored _ (.inl rfl)
    | late i b _ _ hout =>
      rw [hout]
      exact .ignored _ (.inr (.inl rfl))
    | invalid i b _ _ _ hout =>
      rw [hout]
      exact .ignored _ (.inr (.inr rfl))
    | applied i b hr hw hb hout =>
      rw [hout]
      exact .booked i x _ rfl ((OrderManager.resolve_some h.tokens).mp hr).1 hw (fun h' => hb (.inr h')) rfl

theorem Processed.dropped_or_applied {r : Ouch.Outbound} {now : Nat} {out : Session × List Effect}
    (h : Processed m r now out) :
    (out.2 = [] ∧ out.1.stack = [] ∧ m.Ignored out.1.manager) ∨
    (m.SameFailures out.1.manager ∧ ∃ i < m.fresh, (m.slots i).working = true ∧
      ((out.2 = [.update (out.1.manager.slots i).info] ∧ out.1.stack = [.update]) ∨
        ∃ f, out.2 = [.fill f] ∧ f.id = (out.1.manager.slots i).info.id ∧
          out.1.stack = [.fill (out.1.manager.slots i).info])) := by
  cases h with
  | ignored m' hi => exact .inl ⟨rfl, rfl, hi⟩
  | updated i m₁ e o hi hw _ _ _ _ _ hs _ => exact .inr ⟨hs.settle i e o, i, hi, hw, .inl ⟨rfl, rfl⟩⟩
  | booked i x m' _ hi hw _ hm =>
    subst hm
    exact .inr ⟨(OrderManager.SameFailures.booked m i x).settle i _ _, i, hi, hw, .inr ⟨_, rfl, rfl, rfl⟩⟩

end Session

/-- **Failure atomicity.** In every reachable state a `submit`, `cancel` or `replace` that returns
anything but ok leaves the whole manager, its risk engine included, as it was and calls no listener,
also when the gateway refused after the token was inserted. Every report either adds one to exactly
one of the counters of reports that were not applied, calls no listener and changes nothing else, or
is applied to a working order: it leaves these counters alone and calls the listener about that order. -/
theorem failures_leave_no_trace (config : Config) (limits : Risk.Limits) (maxLocates : Nat) (es : List Event)
    (s : Session) (h : run Session.next (Session.new config limits maxLocates) es = some s) :
    (∀ req now (w : World), let out := s.manager.submit req now w.symbol w.reference w.gateway
      out.result.status ≠ .ok → out.state = s.manager ∧ out.update = none) ∧
    (∀ id now (w : World), let out := s.manager.cancel id now w.gateway
      out.result ≠ .ok → out.state = s.manager ∧ out.update = none) ∧
    (∀ id price qty now (w : World), let out := s.manager.replace id price qty now w.reference w.gateway
      out.result ≠ .ok → out.state = s.manager ∧ out.update = none) ∧
    ∀ r now, let out := s.report r now
      (out.2 = [] ∧ out.1.stack = [] ∧ s.manager.Ignored out.1.manager) ∨
      (s.manager.SameFailures out.1.manager ∧ ∃ i < s.manager.fresh, (s.manager.slots i).working = true ∧
        ((out.2 = [.update (out.1.manager.slots i).info] ∧ out.1.stack = [.update]) ∨
          ∃ f, out.2 = [.fill f] ∧ f.id = (out.1.manager.slots i).info.id ∧
            out.1.stack = [.fill (out.1.manager.slots i).info])) := by
  have hinv := ((Session.Ok.new config limits maxLocates).run h).inv
  refine ⟨fun req now w hne => ?_, fun id now w hne => ?_, fun id price qty now w hne => ?_, fun r now => ?_⟩
  · rcases OrderManager.submit_cases s.manager req now w.symbol w.reference w.gateway rfl with
      ⟨hs, hu, _⟩ | ⟨tokens, _, _, hout⟩
    · exact ⟨hs, hu⟩
    · rw [hout] at hne
      exact absurd rfl hne
  · unfold OrderManager.cancel at hne ⊢
    cases hslot : s.manager.slotOf id with
    | none => exact ⟨rfl, rfl⟩
    | some i =>
      rw [hslot] at hne
      have hi := ((hinv.ids.find id i).mp hslot).1
      rcases OrderManager.cancelEntry_cases hinv hi now w.gateway rfl with ⟨hs, hu, _⟩ | ⟨_, _, _, hout⟩
      · exact ⟨hs, hu⟩
      · dsimp only at hne
        rw [hout] at hne
        exact absurd rfl hne
  · rcases OrderManager.replace_cases hinv id price qty now w.reference w.gateway rfl with
      ⟨hs, hu, _⟩ | ⟨i, tokens, _, _, _, hout⟩
    · exact ⟨hs, hu⟩
    · rw [hout] at hne
      exact absurd rfl hne
  · exact (s.processed hinv r now).dropped_or_applied

/-- With a replace in flight, a gateway that takes nothing leaves the manager as it was. -/
theorem failures_leave_no_trace_gateway_busy :
    ∃ s, run Session.next (Session.new {} {} 2) Session.replaceInFlight = some s ∧
      (s.manager.submit { locate := 1, price := 10, qty := 5 } 9 Session.openWorld.symbol
        Session.openWorld.reference fun _ => false).result.status = .gatewayBusy ∧
      (s.manager.submit { locate := 1, price := 10, qty := 5 } 9 Session.openWorld.symbol
        Session.openWorld.reference fun _ => false).state = s.manager := by
  have hrun : (run Session.next (Session.new {} {} 2) Session.replaceInFlight).map (fun s =>
      (s.manager.submit { locate := 1, price := 10, qty := 5 } 9 Session.openWorld.symbol
        Session.openWorld.reference fun _ => false).result.status) = some .gatewayBusy := rfl
  obtain ⟨s, hs, hres⟩ := Option.map_eq_some_iff.mp hrun
  refine ⟨s, hs, hres, ?_⟩
  exact ((failures_leave_no_trace {} {} 2 Session.replaceInFlight s hs).1
    { locate := 1, price := 10, qty := 5 } 9 { Session.openWorld with gateway := fun _ => false }
    (by show _ ≠ _; rw [hres]; decide)).1

end OptiTrade.Oms
