import OptiTrade.Foundations.Runs
import OptiTrade.Sim.ExchangeSim

/-! # The two queues of the simulator

Both ring buffers stand for lists. A call of the venue appends to the queue of reports what it said, at
the time of the event clock, less what did not fit. -/

namespace OptiTrade.Sim
set_option autoImplicit false

open Runs

namespace ExchangeSim
variable {s : ExchangeSim}

/-- The rings are within their bounds. -/
structure Rings (s : ExchangeSim) : Prop where
  requests_le : s.requests.count ≤ s.requests.size
  requests_head : s.requests.size ≠ 0 → s.requests.head < s.requests.size
  reports_le : s.reports.count ≤ s.reports.size
  reports_head : s.reports.size ≠ 0 → s.reports.head < s.reports.size

theorem Rings.new (config : SimConfig) : (new config).Rings where
  requests_le := Nat.zero_le _
  requests_head := fun h => Nat.pos_of_ne_zero h
  reports_le := Nat.zero_le _
  reports_head := fun h => Nat.pos_of_ne_zero h

/-- The report for what was said at time `clock`. -/
def reportAt (s : ExchangeSim) (clock : Nat) (m : Said) : Report :=
  ⟨saturatingAdd clock s.config.reportLatencyNs, m.msg, m.about⟩

/-! ## Reports -/

/-- `s'` is `s` with the reports `rs` queued and `dropped` more of them dropped. -/
structure Queued (s s' : ExchangeSim) (rs : List Report) (dropped : Nat) : Prop where
  config : s'.config = s.config
  venue : s'.venue = s.venue
  requests : s'.requests = s.requests
  reserved : s'.reserved = s.reserved
  processed : s'.processed = s.processed
  generated : s'.generated = s.generated ++ rs
  reports : s'.reports.toList = s.reports.toList ++ rs
  dropped : s'.droppedReports = s.droppedReports + dropped
  rings : s'.Rings

theorem Queued.refl (h : s.Rings) : Queued s s [] 0 :=
  ⟨rfl, rfl, rfl, rfl, rfl, by simp, by simp, rfl, h⟩

theorem Queued.trans {s₁ s₂ : ExchangeSim} {rs rs' : List Report} {d d' : Nat} (h : Queued s s₁ rs d)
    (h' : Queued s₁ s₂ rs' d') : Queued s s₂ (rs ++ rs') (d + d') where
  config := h'.config.trans h.config
  venue := h'.venue.trans h.venue
  requests := h'.requests.trans h.requests
  reserved := h'.reserved.trans h.reserved
  processed := h'.processed.trans h.processed
  generated := by rw [h'.generated, h.generated, List.append_assoc]
  reports := by rw [h'.reports, h.reports, List.append_assoc]
  dropped := by rw [h'.dropped, h.dropped, Nat.add_assoc]
  rings := h'.rings

theorem emit_queued (h : s.Rings) (m : Said) :
    Queued s (s.emit m) [] 1 ∨ (s.reports.count < s.reports.size ∧ (Ouch.encode m.msg).isSome ∧
      Queued s (s.emit m) [s.reportAt s.venue.clock m] 0) := by
  have hdrop : Queued s { s with droppedReports := s.droppedReports + 1 } [] 1 :=
    ⟨rfl, rfl, rfl, rfl, rfl, by simp, by simp, rfl, ⟨h.requests_le, h.requests_head, h.reports_le, h.reports_head⟩⟩
  unfold emit
  split_ifs with hfull henc
  · exact .inl hdrop
  · exact .inl hdrop
  · have hroom : s.reports.count < s.reports.size := Nat.lt_of_le_of_ne h.reports_le hfull
    refine .inr ⟨hroom, by simpa [Option.isSome_iff_ne_none] using henc, ⟨rfl, rfl, rfl, rfl, rfl, rfl, ?_, rfl, ?_⟩⟩
    · exact RingBuffer.toList_push _ _ hroom
    · exact ⟨h.requests_le, h.requests_head, hroom, h.reports_head⟩

/-- What was said is queued in order, less what was dropped. -/
theorem foldl_emit_queued (h : s.Rings) (ms : List Said) :
    ∃ rs d, Queued s (ms.foldl emit s) rs d ∧ rs.Sublist (ms.map (s.reportAt s.venue.clock)) ∧
      rs.length + d = ms.length := by
  induction ms generalizing s with
  | nil => exact ⟨[], 0, .refl h, .refl _, rfl⟩
  | cons m ms ih =>
    have hrest : ∀ {rs d}, Queued s (s.emit m) rs d → ∃ rs' d', Queued s (ms.foldl emit (s.emit m)) (rs ++ rs') (d + d') ∧
        rs'.Sublist (ms.map (s.reportAt s.venue.clock)) ∧ rs'.length + d' = ms.length := by
      intro rs d hq
      obtain ⟨rs', d', hq', hsub, hlen⟩ := ih hq.rings
      have hat : (s.emit m).reportAt (s.emit m).venue.clock = s.reportAt s.venue.clock := by
        funext x
        unfold reportAt
        rw [hq.config, hq.venue]
      rw [hat] at hsub
      exact ⟨rs', d', hq.trans hq', hsub, hlen⟩
    rcases emit_queued h m with hq | ⟨_, _, hq⟩
    · obtain ⟨rs', d', hq', hsub, hlen⟩ := hrest hq
      refine ⟨rs', 1 + d', hq', ?_, by simp only [List.length_cons]; omega⟩
      rw [List.map_cons]
      exact hsub.cons _
    · obtain ⟨rs', d', hq', hsub, hlen⟩ := hrest hq
      refine ⟨_, 0 + d', hq', ?_, by simp only [List.length_cons, List.singleton_append]; omega⟩
      rw [List.map_cons]
      exact hsub.cons_cons _

/-- `s'` is `s` with a venue that has published what it said. -/
structure Published (s : ExchangeSim) (v : Venue) (s' : ExchangeSim) (rs : List Report) (dropped : Nat) : Prop where
  queued : Queued { s with venue := { v with said := [] } } s' rs dropped
  sublist : rs.Sublist (v.said.map (s.reportAt v.clock))
  length : rs.length + dropped = v.said.length

theorem publish_published (h : s.Rings) (v : Venue) : ∃ rs d, Published s v (s.publish v) rs d := by
  obtain ⟨rs, d, hq, hsub, hlen⟩ := foldl_emit_queued (s := { s with venue := { v with said := [] } })
    ⟨h.requests_le, h.requests_head, h.reports_le, h.reports_head⟩ v.said
  exact ⟨rs, d, hq, hsub, hlen⟩

theorem Published.all {v : Venue} {s' : ExchangeSim} {rs : List Report} (h : Published s v s' rs 0) :
    rs = v.said.map (s.reportAt v.clock) :=
  h.sublist.eq_of_length (by rw [List.length_map, ← h.length, Nat.add_zero])

/-! ## Requests -/

/-- The simulator after the first request has been taken off the queue. -/
def popped (s : ExchangeSim) : ExchangeSim :=
  { s with
    requests := s.requests.pop
    reserved := sub64 s.reserved (s.reportCost s.requests.front.msg)
    processed := s.processed ++ [s.requests.front] }

theorem process_eq (s : ExchangeSim) : s.process =
    s.popped.publish ({ s.venue with clock := max s.venue.clock s.requests.front.arrival }.onRequest
      s.requests.front.msg s.requests.front.sent) := rfl

theorem Rings.popped (h : s.Rings) : s.popped.Rings where
  requests_le := by
    show s.requests.count - 1 ≤ s.requests.size
    have := h.requests_le
    omega
  requests_head := fun hs => s.requests.head_pop_lt (Nat.pos_of_ne_zero hs)
  reports_le := h.reports_le
  reports_head := h.reports_head

theorem Rings.toList_requests (h : s.Rings) (hc : s.requests.count ≠ 0) :
    s.requests.toList = s.requests.front :: s.requests.pop.toList :=
  RingBuffer.toList_pop hc (h.requests_head (by have := h.requests_le; omega))

theorem arrived_count {now : Nat} (h : s.arrived now = true) :
    s.requests.count ≠ 0 ∧ s.requests.front.arrival ≤ now := by
  simpa [arrived] using h

theorem process_published (h : s.Rings) :
    ∃ rs d, Published s.popped ({ s.venue with clock := max s.venue.clock s.requests.front.arrival }.onRequest
      s.requests.front.msg s.requests.front.sent) s.process rs d :=
  publish_published h.popped _

theorem process_count (h : s.Rings) : s.process.requests.count = s.requests.count - 1 := by
  obtain ⟨rs, d, hp⟩ := process_published h
  rw [hp.queued.requests]
  rfl

theorem send_taken {m : Ouch.Inbound} {now : Nat} (h : s.Rings) (ht : (s.send m now).2 = true) :
    (s.send m now).1 =
      { s with
        reserved := add64 s.reserved (s.reportCost m)
        requests := s.requests.push ⟨saturatingAdd now s.config.orderLatencyNs, m, now⟩ } ∧
      s.requests.count < s.requests.size := by
  unfold send at ht ⊢
  split_ifs at ht ⊢ with h₁ h₂
  exact ⟨rfl, Nat.lt_of_le_of_ne h.requests_le h₁⟩

theorem send_refused {m : Ouch.Inbound} {now : Nat} (ht : (s.send m now).2 = false) : (s.send m now).1 = s := by
  unfold send at ht ⊢
  split_ifs at ht ⊢
  · rfl
  · rfl

theorem send_frame (s : ExchangeSim) (m : Ouch.Inbound) (now : Nat) :
    (s.send m now).1.venue = s.venue ∧ (s.send m now).1.generated = s.generated ∧
      (s.send m now).1.droppedReports = s.droppedReports := by
  unfold send
  split_ifs
  · exact ⟨rfl, rfl, rfl⟩
  · exact ⟨rfl, rfl, rfl⟩
  · exact ⟨rfl, rfl, rfl⟩

theorem Rings.send (h : s.Rings) (m : Ouch.Inbound) (now : Nat) : (s.send m now).1.Rings := by
  cases ht : (s.send m now).2 with
  | false =>
    rw [send_refused ht]
    exact h
  | true =>
    obtain ⟨he, hroom⟩ := send_taken h ht
    rw [he]
    exact ⟨hroom, h.requests_head, h.reports_le, h.reports_head⟩

/-- **The loop of `advance`.** What processing one request keeps the whole call keeps. -/
theorem advance_invariant {P : ExchangeSim → Prop} {now : Nat}
    (hstep : ∀ s, P s → s.arrived now = true → P s.process) (hs : P s) : P (s.advance now) := by
  have hloop : ∀ n s, P s → P (advanceUpTo now n s) := by
    intro n
    induction n with
    | zero => exact fun s hs => hs
    | succ n ih =>
      intro s hs
      unfold advanceUpTo
      split_ifs with ha
      · exact ih s.process (hstep s hs ha)
      · exact hs
  exact hloop _ s hs

theorem Rings.process (h : s.Rings) : s.process.Rings := by
  obtain ⟨rs, d, hp⟩ := process_published h
  exact hp.queued.rings

theorem Rings.advance (h : s.Rings) (now : Nat) : (s.advance now).Rings :=
  advance_invariant (fun _ hs _ => hs.process) h

theorem Rings.onItch (h : s.Rings) (m : Option Itch.Message) (now : Nat) : (s.onItch m now).Rings := by
  unfold ExchangeSim.onItch
  cases m with
  | none =>
    obtain ⟨rs, d, hp⟩ := publish_published (h.advance now)
      { (s.advance now).venue with clock := max (s.advance now).venue.clock now }
    exact hp.queued.rings
  | some m =>
    obtain ⟨rs, d, hp⟩ := publish_published (h.advance now)
      ({ (s.advance now).venue with clock := max (s.advance now).venue.clock now }.apply m)
    exact hp.queued.rings

theorem due_count {now : Nat} (h : s.due now = true) : s.reports.count ≠ 0 ∧ s.reports.front.deliver ≤ now := by
  simpa [due] using h

theorem Rings.toList_reports (h : s.Rings) (hc : s.reports.count ≠ 0) :
    s.reports.toList = s.reports.front :: s.handed.reports.toList :=
  RingBuffer.toList_pop hc (h.reports_head (by have := h.reports_le; omega))

theorem Rings.handed (h : s.Rings) : s.handed.Rings where
  requests_le := h.requests_le
  requests_head := h.requests_head
  reports_le := by
    show s.reports.count - 1 ≤ s.reports.size
    have := h.reports_le
    omega
  reports_head := fun hs => s.reports.head_pop_lt (Nat.pos_of_ne_zero hs)

end ExchangeSim

/-! ## Runs -/

namespace State

/-- The simulator and every answer it gave, with the call. -/
def next (s : State × List (Call × Answer)) (c : Call) : Option (State × List (Call × Answer)) :=
  (s.1.step c).map fun (t, x) => (t, s.2 ++ [(c, x)])

theorem next_some {s s' : State × List (Call × Answer)} {c : Call} (h : next s c = some s') :
    ∃ t x, s.1.step c = some (t, x) ∧ s' = (t, s.2 ++ [(c, x)]) := by
  obtain ⟨⟨t, x⟩, h₁, h₂⟩ := Option.map_eq_some_iff.mp h
  exact ⟨t, x, h₁, h₂.symm⟩

/-- What one step can do. -/
inductive Steps (s : State) : Call → State → Answer → Prop
  | send (m : Ouch.Inbound) (now : Nat) : s.mayCall = true →
      Steps s (.send m now) { s with sim := (s.sim.send m now).1 } (.taken (s.sim.send m now).2)
  | onItch (m : Option Itch.Message) (now : Nat) : s.mayCall = true →
      Steps s (.onItch m now) { s with sim := s.sim.onItch m now } .none
  | advance (now : Nat) : s.mayCall = true → Steps s (.advance now) { s with sim := s.sim.advance now } .none
  | drain (now : Nat) : s.draining = none → Steps s (.drain now) { s with draining := some (now, false) } .none
  | hand (now : Nat) : s.draining = some (now, false) → s.sim.due now = true →
      Steps s .hand { s with draining := some (now, true) } (.report s.sim.reports.front)
  | handed (now : Nat) : s.draining = some (now, true) → Steps s .handed ⟨s.sim.handed, some (now, false)⟩ .none
  | drained (now : Nat) : s.draining = some (now, false) → s.sim.due now = false →
      Steps s .drained { s with draining := none } .none

theorem step_cases {s t : State} {c : Call} {x : Answer} (h : s.step c = some (t, x)) : Steps s c t x := by
  cases c with
  | send m now =>
    simp only [step, Option.ite_none_right_eq_some, Option.some.injEq, Prod.mk.injEq] at h
    obtain ⟨hm, rfl, rfl⟩ := h
    exact .send m now hm
  | onItch m now =>
    simp only [step, Option.ite_none_right_eq_some, Option.some.injEq, Prod.mk.injEq] at h
    obtain ⟨hm, rfl, rfl⟩ := h
    exact .onItch m now hm
  | advance now =>
    simp only [step, Option.ite_none_right_eq_some, Option.some.injEq, Prod.mk.injEq] at h
    obtain ⟨hm, rfl, rfl⟩ := h
    exact .advance now hm
  | drain now =>
    simp only [step, Option.ite_none_right_eq_some, Option.some.injEq, Prod.mk.injEq] at h
    obtain ⟨hd, rfl, rfl⟩ := h
    exact .drain now hd
  | hand =>
    simp only [step] at h
    split at h
    · rename_i now hd
      simp only [Option.ite_none_right_eq_some, Option.some.injEq, Prod.mk.injEq] at h
      obtain ⟨hdue, rfl, rfl⟩ := h
      exact .hand now hd hdue
    · cases h
  | handed =>
    simp only [step] at h
    split at h
    · rename_i now hd
      obtain ⟨rfl, rfl⟩ := Prod.mk.inj (Option.some.inj h)
      exact .handed now hd
    · cases h
  | drained =>
    simp only [step] at h
    split at h
    · rename_i now hd
      split_ifs at h with hdue
      obtain ⟨rfl, rfl⟩ := Prod.mk.inj (Option.some.inj h)
      exact .drained now hd (by simpa using hdue)
    · cases h

theorem Steps.rings {s t : State} {c : Call} {x : Answer} (h : Steps s c t x) (hs : s.sim.Rings) : t.sim.Rings := by
  cases h with
  | send m now _ => exact hs.send m now
  | onItch m now _ => exact hs.onItch m now
  | advance now _ => exact hs.advance now
  | drain now _ => exact hs
  | hand now _ _ => exact hs
  | handed now _ => exact hs.handed
  | drained now _ _ => exact hs

end State
end OptiTrade.Sim
