import OptiTrade.Replay.Backtest
import OptiTrade.Sim.Causality
import OptiTrade.Sim.Moves

/-! # The clock of the backtest

Reports reach the engine at their own delivery times, between the records. The times go forward as long as no request
is answered in the past: a request that a strategy sends while it is told of a report is processed with the next
message, and its answer must not be due before that message. -/

namespace OptiTrade.Sim
set_option autoImplicit false

theorem saturatingAdd_le {a b : Nat} (hb : b ≤ u64Max) : saturatingAdd a b ≤ u64Max := by
  unfold saturatingAdd
  split_ifs <;> omega

theorem le_saturatingAdd {a b : Nat} (ha : a ≤ u64Max) : a ≤ saturatingAdd a b := by
  unfold saturatingAdd
  split_ifs <;> omega

namespace ExchangeSim
variable {s : ExchangeSim} {t : Nat}

/-- When the answer to a request that is processed now or later is delivered at the earliest. -/
def answerTime (s : ExchangeSim) (q : Request) : Nat :=
  saturatingAdd (max s.venue.clock q.arrival) s.config.reportLatencyNs

/-- Nothing that is queued, and no answer to what is queued, comes before `t`. -/
structure Punctual (s : ExchangeSim) (t : Nat) : Prop where
  rings : s.Rings
  stored : ∃ hs, s.venue.Stored hs []
  latency : s.config.orderLatencyNs ≤ u64Max ∧ s.config.reportLatencyNs ≤ u64Max
  time : t ≤ u64Max
  sorted : s.reports.toList.Pairwise fun r r' => r.deliver ≤ r'.deliver
  reports : ∀ r ∈ s.reports.toList, t ≤ r.deliver ∧ r.deliver ≤ saturatingAdd s.venue.clock s.config.reportLatencyNs
  requests : ∀ q ∈ s.requests.toList, q.arrival ≤ u64Max ∧ t ≤ s.answerTime q

namespace Punctual

theorem new {config : SimConfig} (ho : config.orderLatencyNs ≤ u64Max) (hr : config.reportLatencyNs ≤ u64Max) :
    (new config).Punctual 0 where
  rings := .new config
  stored := ⟨[], .new _ _⟩
  latency := ⟨ho, hr⟩
  time := Nat.zero_le _
  sorted := .nil
  reports := fun r hr => by cases hr
  requests := fun q hq => by cases hq

/-- A venue whose clock has gone forward publishes what it said. -/
theorem publish (h : s.Punctual t) {v : Venue} (hst : ∃ hs, v.Stored hs []) (hclock : s.venue.clock ≤ v.clock)
    (hlate : t ≤ saturatingAdd v.clock s.config.reportLatencyNs) : (s.publish v).Punctual t := by
  obtain ⟨rs, d, hp⟩ := publish_published h.rings v
  have hcfg : (s.publish v).config = s.config := hp.queued.config
  have hven : (s.publish v).venue = { v with said := [] } := hp.queued.venue
  have hc : (s.publish v).venue.clock = v.clock := by rw [hven]
  have hrep : (s.publish v).reports.toList = s.reports.toList ++ rs := hp.queued.reports
  have hreq : (s.publish v).requests = s.requests := hp.queued.requests
  have hmono : ∀ q : Request, s.answerTime q ≤ saturatingAdd (max v.clock q.arrival) s.config.reportLatencyNs :=
    fun q => saturatingAdd_mono (max_le_max hclock (Nat.le_refl _)) h.latency.2
  have hrs : ∀ r ∈ rs, r.deliver = saturatingAdd v.clock s.config.reportLatencyNs := by
    intro r hr
    obtain ⟨m, -, rfl⟩ := List.mem_map.mp (hp.sublist.subset hr)
    rfl
  have hold : ∀ r ∈ s.reports.toList, r.deliver ≤ saturatingAdd v.clock s.config.reportLatencyNs :=
    fun r hr => (h.reports r hr).2.trans (saturatingAdd_mono hclock h.latency.2)
  refine ⟨hp.queued.rings, ?_, by rw [hcfg]; exact h.latency, h.time, ?_, ?_, ?_⟩
  · obtain ⟨hs, hst⟩ := hst
    have hk : v.Keeps { v with said := [] } := ⟨rfl, rfl, rfl, rfl, fun _ => rfl, fun _ => rfl, fun _ => rfl⟩
    rw [hven]
    exact ⟨hs, hk.stored hst⟩
  · rw [hrep]
    refine List.pairwise_append.mpr ⟨h.sorted, ?_, fun r hr r' hr' => ?_⟩
    · exact List.pairwise_of_forall_mem_list fun r hr r' hr' => by rw [hrs r hr, hrs r' hr']
    · rw [hrs r' hr']
      exact hold r hr
  · rw [hrep, hc, hcfg]
    intro r hr
    rcases List.mem_append.mp hr with hr | hr
    · exact ⟨(h.reports r hr).1, hold r hr⟩
    · rw [hrs r hr]
      exact ⟨hlate, Nat.le_refl _⟩
  · intro q hq
    rw [hreq] at hq
    refine ⟨(h.requests q hq).1, ?_⟩
    unfold answerTime
    rw [hc, hcfg]
    exact (h.requests q hq).2.trans (hmono q)

/-- A request is processed. -/
theorem process {now : Nat} (h : s.Punctual t) (ha : s.arrived now = true) : s.process.Punctual t := by
  have hlist := h.rings.toList_requests (arrived_count ha).1
  have hpop : s.popped.Punctual t := by
    refine ⟨h.rings.popped, h.stored, h.latency, h.time, h.sorted, h.reports, fun q hq => h.requests q ?_⟩
    rw [hlist]
    exact List.mem_cons_of_mem _ hq
  have hfront := (h.requests s.requests.front (by rw [hlist]; exact List.mem_cons_self)).2
  obtain ⟨hs, hst⟩ := h.stored
  have hk : s.venue.Keeps s.reached := ⟨rfl, rfl, rfl, rfl, fun _ => rfl, fun _ => rfl, fun _ => rfl⟩
  have hst' := hk.stored hst
  have hclock : (s.reached.onRequest s.requests.front.msg s.requests.front.sent).clock =
      max s.venue.clock s.requests.front.arrival := hst'.clock_onRequest _ _
  obtain ⟨hs', hst'', -⟩ := Venue.onRequest_refines hst' s.requests.front.msg s.requests.front.sent
  rw [process_eq]
  refine hpop.publish ⟨hs', hst''⟩ ?_ ?_
  · show s.venue.clock ≤ (s.reached.onRequest _ _).clock
    rw [hclock]
    exact Nat.le_max_left _ _
  · show t ≤ saturatingAdd (s.reached.onRequest _ _).clock _
    rw [hclock]
    exact hfront

theorem advance (h : s.Punctual t) (now : Nat) : (s.advance now).Punctual t :=
  advance_invariant (P := fun s => s.Punctual t) (fun _ hs ha => hs.process ha) h

/-- A market message. -/
theorem onItch (h : s.Punctual t) (m : Option Itch.Message) {now : Nat} (hle : t ≤ now) (hnow : now ≤ u64Max) :
    (s.onItch m now).Punctual t := by
  have hadv := h.advance now
  obtain ⟨hs, hst⟩ := hadv.stored
  have hk : (s.advance now).venue.Keeps (s.marketAt now) := ⟨rfl, rfl, rfl, rfl, fun _ => rfl, fun _ => rfl, fun _ => rfl⟩
  have hst' := hk.stored hst
  have hlate : ∀ v : Venue, v.clock = max (s.advance now).venue.clock now →
      (s.advance now).venue.clock ≤ v.clock ∧ t ≤ saturatingAdd v.clock (s.advance now).config.reportLatencyNs := by
    intro v hv
    rw [hv]
    refine ⟨Nat.le_max_left _ _, ?_⟩
    calc t ≤ now := hle
      _ ≤ saturatingAdd now (s.advance now).config.reportLatencyNs := le_saturatingAdd hnow
      _ ≤ _ := saturatingAdd_mono (Nat.le_max_right _ _) hadv.latency.2
  cases m with
  | none => exact hadv.publish ⟨hs, hst'⟩ (hlate _ rfl).1 (hlate _ rfl).2
  | some m =>
    obtain ⟨hs', hst'', -⟩ := Venue.apply_refines hst' m
    have hclock : ((s.marketAt now).apply m).clock = max (s.advance now).venue.clock now := hst'.clock_apply m
    exact hadv.publish ⟨hs', hst''⟩ (hlate _ hclock).1 (hlate _ hclock).2

/-- A request is sent at the time of the latest call. -/
theorem send (h : s.Punctual t) (m : Ouch.Inbound) : (s.send m t).1.Punctual t := by
  cases ht : (s.send m t).2 with
  | false =>
    rw [send_refused ht]
    exact h
  | true =>
    have hrings := h.rings.send m t
    obtain ⟨he, hroom⟩ := send_taken h.rings ht
    rw [he] at hrings ⊢
    refine ⟨hrings, h.stored, h.latency, h.time, h.sorted, h.reports, fun q hq => ?_⟩
    dsimp only at hq
    rw [RingBuffer.toList_push _ _ hroom] at hq
    rcases List.mem_append.mp hq with hq | hq
    · exact h.requests q hq
    · rw [List.mem_singleton.mp hq]
      have harr : saturatingAdd t s.config.orderLatencyNs ≤ u64Max := saturatingAdd_le h.latency.1
      refine ⟨harr, ?_⟩
      calc t ≤ saturatingAdd t s.config.orderLatencyNs := le_saturatingAdd h.time
        _ ≤ saturatingAdd (saturatingAdd t s.config.orderLatencyNs) s.config.reportLatencyNs := le_saturatingAdd harr
        _ ≤ _ := saturatingAdd_mono (Nat.le_max_right _ _) h.latency.2

theorem hand (h : s.Punctual t) (hc : s.reports.count ≠ 0) : s.Punctual s.reports.front.deliver ∧ t ≤ s.reports.front.deliver := by
  have hlist := h.rings.toList_reports hc
  have hmem : s.reports.front ∈ s.reports.toList := by rw [hlist]; exact List.mem_cons_self
  obtain ⟨hle, hlatest⟩ := h.reports _ hmem
  refine ⟨⟨h.rings, h.stored, h.latency, hlatest.trans (saturatingAdd_le h.latency.2), h.sorted, fun r hr => ⟨?_, (h.reports r hr).2⟩,
    fun q hq => ⟨(h.requests q hq).1, ?_⟩⟩, hle⟩
  · have hsorted := h.sorted
    rw [hlist] at hr hsorted
    rcases List.mem_cons.mp hr with rfl | hr
    · exact Nat.le_refl _
    · exact (List.pairwise_cons.mp hsorted).1 r hr
  · exact hlatest.trans (saturatingAdd_mono (Nat.le_max_left _ _) h.latency.2)

theorem handed (h : s.Punctual t) (hc : s.reports.count ≠ 0) : s.handed.Punctual t := by
  have hlist := h.rings.toList_reports hc
  refine ⟨h.rings.handed, h.stored, h.latency, h.time, ?_, fun r hr => h.reports r ?_, h.requests⟩
  · have hsorted := h.sorted
    rw [hlist] at hsorted
    exact (List.pairwise_cons.mp hsorted).2
  · rw [hlist]
    exact List.mem_cons_of_mem _ hr

/-- Time goes on to `now`: no report is due, and what has arrived is not answered before. -/
theorem raise {now : Nat} (h : s.Punctual t) (hnow : now ≤ u64Max) (hdue : s.due now = false)
    (hreq : ∀ q ∈ s.requests.toList, q.arrival ≤ now → now ≤ s.answerTime q) : s.Punctual now := by
  refine ⟨h.rings, h.stored, h.latency, hnow, h.sorted, fun r hr => ⟨?_, (h.reports r hr).2⟩,
    fun q hq => ⟨(h.requests q hq).1, ?_⟩⟩
  · have hc : s.reports.count ≠ 0 := fun h0 => by
      rw [RingBuffer.toList_eq_nil.mpr h0] at hr
      cases hr
    have hfront : now < s.reports.front.deliver := by
      have : ¬(s.reports.count ≠ 0 ∧ s.reports.front.deliver ≤ now) := by simpa [due] using hdue
      omega
    have hsorted := h.sorted
    rw [h.rings.toList_reports hc] at hr hsorted
    rcases List.mem_cons.mp hr with rfl | hr
    · exact hfront.le
    · exact hfront.le.trans ((List.pairwise_cons.mp hsorted).1 r hr)
  · by_cases ha : q.arrival ≤ now
    · exact hreq q hq ha
    · calc now ≤ q.arrival := by omega
        _ ≤ saturatingAdd q.arrival s.config.reportLatencyNs := le_saturatingAdd (h.requests q hq).1
        _ ≤ _ := saturatingAdd_mono (Nat.le_max_right _ _) h.latency.2

end Punctual
end ExchangeSim
end OptiTrade.Sim

namespace OptiTrade
set_option autoImplicit false

open Oms (Session Frame Event)
open Runs

/-- The sweeps of a session began at their own times. -/
theorem Oms.Session.step_sweeps {s s' : Session} {ev : Event} {fx : List Oms.Effect} (hs : s.step ev = some (s', fx))
    {c : Option Nat} {l k n : Nat} (hm : Frame.sweep c l k n ∈ s'.stack) :
    (∃ c' l' k', Frame.sweep c' l' k' n ∈ s.stack) ∨ ev = .cancelAll n := by
  have hcall : ∀ {α : Type} (t : Session) (out : Oms.OrderManager.Outcome α) (now : Nat) (w : Oms.World),
      Frame.sweep c l k n ∈ (t.finishCall out now w).1.stack → Frame.sweep c l k n ∈ t.stack := by
    intro α t out now w h
    unfold Session.finishCall at h
    split at h
    · exact (List.mem_cons.mp h).resolve_left (by simp)
    · exact h
  cases ev with
  | submit req now w =>
    simp only [Session.step, Option.ite_none_right_eq_some, Option.some.injEq] at hs
    rw [show s' = _ from (congrArg Prod.fst hs.2).symm] at hm
    exact .inl ⟨c, l, k, hcall s _ _ _ hm⟩
  | cancel id now w =>
    simp only [Session.step, Option.ite_none_right_eq_some, Option.some.injEq] at hs
    rw [show s' = _ from (congrArg Prod.fst hs.2).symm] at hm
    exact .inl ⟨c, l, k, hcall s _ _ _ hm⟩
  | replace id price qty now w =>
    simp only [Session.step, Option.ite_none_right_eq_some, Option.some.injEq] at hs
    rw [show s' = _ from (congrArg Prod.fst hs.2).symm] at hm
    exact .inl ⟨c, l, k, hcall s _ _ _ hm⟩
  | cancelAll now =>
    simp only [Session.step, Option.ite_none_right_eq_some, Option.some.injEq] at hs
    rw [show s' = _ from (congrArg Prod.fst hs.2).symm] at hm
    rcases List.mem_cons.mp hm with hm | hm
    · cases hm
      exact .inr rfl
    · exact .inl ⟨c, l, k, hm⟩
  | advance w =>
    simp only [Session.step] at hs
    split at hs
    · rename_i c' l' k' now rest hst
      rw [show s' = _ from (congrArg Prod.fst (Option.some.inj hs)).symm] at hm
      have hrest : Frame.sweep c l k n ∈ rest → ∃ c' l' k', Frame.sweep c' l' k' n ∈ s.stack :=
        fun h => ⟨c, l, k, by rw [hst]; exact List.mem_cons_of_mem _ h⟩
      have hnext : ∀ {c'' k''}, Frame.sweep c l k n ∈ Frame.sweep c'' l' k'' now :: rest →
          ∃ c' l' k', Frame.sweep c' l' k' n ∈ s.stack := by
        intro c'' k'' h
        rcases List.mem_cons.mp h with h | h
        · cases h
          exact ⟨c', l, k', by rw [hst]; exact List.mem_cons_self⟩
        · exact hrest h
      unfold Session.sweep at hm
      refine .inl ?_
      split at hm
      · exact hrest hm
      · dsimp only at hm
        split_ifs at hm
        · exact hrest hm
        · exact hnext (hcall _ _ _ _ hm)
        · exact hnext (hcall _ _ _ _ hm)
        · exact hnext hm
    · cases hs
  | ret =>
    simp only [Session.step] at hs
    split at hs
    · rename_i rest hst
      rw [show s' = _ from (congrArg Prod.fst (Option.some.inj hs)).symm] at hm
      exact .inl ⟨c, l, k, by rw [hst]; exact List.mem_cons_of_mem _ hm⟩
    · rename_i before rest hst
      rw [show s' = _ from (congrArg Prod.fst (Option.some.inj hs)).symm] at hm
      have hm : Frame.sweep c l k n ∈ rest := (List.mem_cons.mp hm).resolve_left (by simp)
      exact .inl ⟨c, l, k, by rw [hst]; exact List.mem_cons_of_mem _ hm⟩
    · cases hs
  | report r now =>
    simp only [Session.step, Option.ite_none_right_eq_some, Option.some.injEq] at hs
    rw [show s' = _ from (congrArg Prod.fst hs.2).symm] at hm
    have hfin : ∀ out, Frame.sweep c l k n ∉ (Session.finishReport out).1.stack := by
      intro out h
      unfold Session.finishReport at h
      split at h
      · simp at h
      · cases h
    cases r with
    | accepted a => exact absurd hm (hfin _)
    | canceled x => exact absurd hm (hfin _)
    | rejected x => exact absurd hm (hfin _)
    | replaced x => exact absurd hm (hfin _)
    | executed x =>
      unfold Session.report at hm
      dsimp only at hm
      split at hm
      · simp at hm
      · cases hm
  | mark locate price =>
    simp only [Session.step, Option.ite_none_right_eq_some, Option.some.injEq] at hs
    rw [show s' = _ from (congrArg Prod.fst hs.2).symm] at hm
    exact .inl ⟨c, l, k, hm⟩
  | killSwitch on =>
    simp only [Session.step, Option.ite_none_right_eq_some, Option.some.injEq] at hs
    rw [show s' = _ from (congrArg Prod.fst hs.2).symm] at hm
    exact .inl ⟨c, l, k, hm⟩

namespace Engine
variable {e e' : Engine} {a : Act} {fx : List Shown} {t : Nat}

/-- The call in progress, and the sweeps in it, are of time `t`. -/
structure Timed (e : Engine) (t : Nat) : Prop where
  phase : ∀ now book, e.phase = .handling now book → now = t
  sweeps : ∀ c l k now, Frame.sweep c l k now ∈ e.session.stack → now = t

theorem Moves.sweeps (hm : Moves e a fx e') (h : e.Timed t) (ha : ∀ now, e.Asks a (.cancelAll now) → now = t) :
    ∀ c l k now, Frame.sweep c l k now ∈ e'.session.stack → now = t := by
  intro c l k now hf
  cases hm with
  | still hsame _ =>
    rw [hsame] at hf
    exact h.sweeps c l k now hf
  | session ev gx hask hstep _ =>
    rcases Session.step_sweeps hstep hf with ⟨c', l', k', hold⟩ | rfl
    · exact h.sweeps c' l' k' now hold
    · exact ha now hask

/-- A step inside a call. -/
theorem Timed.inside (h : e.Timed t) (hok : e.Ok) (ha : a.inner = true ∨ a = .finish) (hs : e.step a = some (e', fx)) :
    e'.Timed t := by
  have hmoves := hok.step_moves hs
  rcases ha with ha | rfl
  · refine ⟨fun now book hp => ?_, hmoves.sweeps h fun now hask => ?_⟩
    · rcases (step_inner ha hs).2.2.2 with hsame | ⟨now', hp', hp''⟩
      · exact h.phase now book (hsame ▸ hp)
      · rw [hp''] at hp
        cases hp
        exact h.phase now true hp'
    · cases hask with
      | gap => cases ha
      | retry => cases ha
  · simp only [step] at hs
    split at hs
    · rename_i now hst hp
      have hnow := h.phase now false hp
      obtain ⟨rfl, rfl⟩ := Prod.mk.inj (Option.some.inj hs)
      unfold retryGapCancels
      split_ifs
      · exact ⟨fun now book hp => (by cases hp), fun c l k n hf => h.sweeps c l k n hf⟩
      · refine ⟨fun now book hp => (by cases hp), fun c l k n hf => ?_⟩
        rcases List.mem_cons.mp hf with hf | hf
        · cases hf
          exact hnow
        · exact h.sweeps c l k n hf
    · obtain ⟨rfl, rfl⟩ := Prod.mk.inj (Option.some.inj hs)
      exact ⟨fun now book hp => (by cases hp), fun c l k n hf => h.sweeps c l k n hf⟩
    · cases hs

/-- A call of the engine sets the time. -/
theorem Ok.timed (h : e.Ok) {now : Nat} (ha : (∃ m, a = .itch m now) ∨ ∃ r, a = .ouch r now)
    (hs : e.step a = some (e', fx)) : e'.Timed now := by
  have hidle : e.phase = .idle := by
    rcases ha with ⟨m, rfl⟩ | ⟨r, rfl⟩
    · simp only [Engine.step, Option.ite_none_right_eq_some] at hs
      exact hs.1
    · simp only [Engine.step, Option.ite_none_right_eq_some] at hs
      exact hs.1
  have hempty : ∀ c l k n, Frame.sweep c l k n ∉ e.session.stack := by
    intro c l k n hf
    rw [h.calm hidle] at hf
    cases hf
  have hquiet : e.Timed now := ⟨fun n book hp => (by rw [hidle] at hp; cases hp), fun c l k n hf => absurd hf (hempty c l k n)⟩
  refine ⟨fun n book hp => ?_, (h.step_moves hs).sweeps hquiet fun n hask => ?_⟩
  · rcases ha with ⟨m, rfl⟩ | ⟨r, rfl⟩
    · simp only [Engine.step, Option.ite_none_right_eq_some, Option.some.injEq] at hs
      have hm := onItch_marked (h.calm hidle) m now
      rw [hs.2] at hm
      obtain ⟨book', hp'⟩ := hm.phase
      rw [hp'] at hp
      cases hp
      rfl
    · simp only [Engine.step, Option.ite_none_right_eq_some, Option.some.injEq] at hs
      rw [show e' = _ from (congrArg Prod.fst hs.2).symm] at hp
      unfold onOuch at hp
      cases r with
      | none =>
        cases hp
        rfl
      | some r =>
        cases hp
        rfl
  · rcases ha with ⟨m, rfl⟩ | ⟨r, rfl⟩
    · cases hask
    · cases hask

end Engine

namespace Replay
open Sim (ExchangeSim saturatingAdd_mono le_saturatingAdd)
open Ouch (Inbound)

/-- Whatever is sent inside a call is sent at its time. -/
theorem offers_time {e : Engine} {t : Nat} (h : e.Timed t) (m : Move) (gateway : Inbound → Bool) :
    ∀ x ∈ offers e (m.act t gateway), x.2 = t := by
  have hpair : ∀ (o : Option Inbound) (n : Nat), ∀ x ∈ (o.map fun q => (q, n)).toList, x.2 = n := by
    intro o n x hx
    obtain ⟨q, -, rfl⟩ := Option.map_eq_some_iff.mp (Option.mem_toList.mp hx)
    rfl
  intro x hx
  cases m with
  | submit req =>
    simp only [Move.act, offers] at hx
    split_ifs at hx
    · exact hpair _ _ x hx
    · cases hx
  | cancel id => exact hpair _ _ x hx
  | replace id price qty =>
    simp only [Move.act, offers] at hx
    split_ifs at hx
    · exact hpair _ _ x hx
    · cases hx
  | advance =>
    simp only [Move.act, offers] at hx
    split at hx
    · rename_i i last k now rest hst
      split_ifs at hx
      · cases hx
      · rw [hpair _ _ x hx]
        exact h.sweeps (some i) last k now (by rw [hst]; exact List.mem_cons_self)
    · cases hx
  | ret => cases hx
  | finish => cases hx

theorem forward_punctual {t : Nat} (ms : List (Inbound × Nat)) (hms : ∀ x ∈ ms, x.2 = t) {s : ExchangeSim} (h : s.Punctual t) :
    (Backtest.forward s ms).Punctual t ∧ (Backtest.forward s ms).reports = s.reports := by
  induction ms generalizing s with
  | nil => exact ⟨h, rfl⟩
  | cons x ms ih =>
    have hx : x.2 = t := hms x List.mem_cons_self
    have hsend : (s.send x.1 x.2).1.Punctual t := by
      rw [hx]
      exact h.send x.1
    obtain ⟨h₁, h₂⟩ := ih (fun y hy => hms y (List.mem_cons_of_mem _ hy)) hsend
    refine ⟨h₁, h₂.trans ?_⟩
    unfold ExchangeSim.send
    split_ifs
    · rfl
    · rfl
    · rfl

/-- The times go forward, up to `t`. -/
structure Forward (ts : List Nat) (t : Nat) : Prop where
  sorted : ts.Pairwise (· ≤ ·)
  upto : ∀ x ∈ ts, x ≤ t

theorem Forward.append {ts : List Nat} {t u : Nat} (h : Forward ts t) (hle : t ≤ u) (us : List Nat) (hus : ∀ x ∈ us, x = u) :
    Forward (ts ++ us) u where
  sorted := by
    refine List.pairwise_append.mpr ⟨h.sorted, ?_, fun x hx y hy => ?_⟩
    · exact List.pairwise_of_forall_mem_list fun x hx y hy => by rw [hus x hx, hus y hy]
    · rw [hus y hy]
      exact (h.upto x hx).trans hle
  upto := by
    intro x hx
    rcases List.mem_append.mp hx with hx | hx
    · exact (h.upto x hx).trans hle
    · exact (hus x hx).le

/-- The loop over the records is not over. -/
def Stage.looping : Stage → Bool
  | .reading | .delivering _ | .playing => true
  | .flushing .. | .done => false

/-- Reports are being delivered. -/
def Stage.delivers : Stage → Bool
  | .delivering _ | .flushing .. => true
  | .reading | .playing | .done => false

namespace Backtest
variable {b b' : Backtest}

/-- The invariant of a run. -/
structure Orderly (b : Backtest) : Prop where
  engine : b.engine.Ok
  timed : b.engine.Timed b.clock
  exchange : b.exchange.Punctual b.clock
  now : b.now ≤ u64Max
  looping : b.stage.looping = true → b.clock ≤ b.now
  handing : b.handing = true → b.stage.delivers = true ∧ b.exchange.reports.count ≠ 0
  calls : Forward b.calls b.clock
  sends : Forward b.sends b.clock

/-- The reports due now are delivered and the record is played next. -/
def plays (b : Backtest) : Bool :=
  match b.stage with
  | .delivering _ => !b.handing && !b.exchange.due b.now
  | _ => false

/-- Every request that has arrived when the record is played, and was left for that, is answered at the time of the record
or later. -/
def Prompt (b : Backtest) : Input → Prop
  | .go => b.plays = true → ∀ q ∈ b.exchange.requests.toList, q.arrival ≤ b.now → b.now ≤ b.exchange.answerTime q
  | _ => True

/-- A time stamp is a 64-bit number. -/
def Stamped : Input → Prop
  | .record r => r.ts ≤ u64Max
  | _ => True

theorem Orderly.new (config : BacktestConfig) (ho : config.sim.orderLatencyNs ≤ u64Max)
    (hr : config.sim.reportLatencyNs ≤ u64Max) : (new config).Orderly where
  engine := .new config.engine
  timed := ⟨fun _ _ h => (by cases h), fun _ _ _ _ h => (by cases h)⟩
  exchange := .new ho hr
  now := Nat.zero_le _
  looping := fun _ => Nat.le_refl _
  handing := fun h => by cases h
  calls := ⟨.nil, fun _ h => by cases h⟩
  sends := ⟨.nil, fun _ h => by cases h⟩

namespace Orderly

/-- The engine is called at a time that is not in the past. -/
theorem call {t : Nat} {a : Engine.Act} (h : b.Orderly) {x : Backtest} (hx : x.engine = b.engine ∧ x.now = b.now ∧
      x.calls = b.calls ∧ x.sends = b.sends) (hle : b.clock ≤ t) (hex : x.exchange.Punctual t)
    (hloop : x.stage.looping = true → t ≤ b.now) (hhand : x.handing = true → x.stage.delivers = true ∧ x.exchange.reports.count ≠ 0)
    (ha : (∃ m, a = .itch m t) ∨ ∃ r, a = .ouch r t) (hs : x.call t a = some b') : b'.Orderly := by
  obtain ⟨heng, hnow, hcalls, hsends⟩ := hx
  obtain ⟨⟨e, fx⟩, hstep, rfl⟩ := Option.map_eq_some_iff.mp hs
  rw [heng] at hstep
  refine ⟨h.engine.step hstep, h.engine.timed ha hstep, hex, (show x.now ≤ u64Max by rw [hnow]; exact h.now), ?_, hhand, ?_, ?_⟩
  · intro hl
    show t ≤ x.now
    rw [hnow]
    exact hloop hl
  · show Forward (x.calls ++ [t]) t
    rw [hcalls]
    exact h.calls.append hle _ fun y hy => List.mem_singleton.mp hy
  · show Forward x.sends t
    rw [hsends]
    have := h.sends.append hle [] fun y hy => by cases hy
    rwa [List.append_nil] at this

theorem hand {now : Nat} (h : b.Orderly) {x : Backtest} (hx : x.engine = b.engine ∧ x.now = b.now ∧ x.calls = b.calls ∧
      x.sends = b.sends) (hex : x.exchange = b.exchange) (hdel : x.stage.delivers = true) (hdue : b.exchange.due now = true)
    (hloop : x.stage.looping = true → now = b.now) (hs : x.hand = some b') : b'.Orderly := by
  obtain ⟨hcount, hfront⟩ := Sim.ExchangeSim.due_count hdue
  obtain ⟨hpunct, hle⟩ := h.exchange.hand hcount
  refine h.call (x := { x with handing := true }) hx ?_ ?_ ?_ ?_ (.inr ⟨_, rfl⟩) hs
  · rw [hex]
    exact hle
  · show x.exchange.Punctual x.exchange.reports.front.deliver
    rw [hex]
    exact hpunct
  · intro hl
    rw [← hloop hl, hex]
    exact hfront
  · intro _
    refine ⟨hdel, ?_⟩
    show x.exchange.reports.count ≠ 0
    rw [hex]
    exact hcount

theorem handed (h : b.Orderly) (hh : b.handing = true) (hs : b.handed = some b') : b'.Orderly := by
  unfold Backtest.handed at hs
  split_ifs at hs
  cases hs
  exact ⟨h.engine, h.timed, h.exchange.handed (h.handing hh).2, h.now, h.looping, fun hc => (by cases hc), h.calls, h.sends⟩

theorem play {payload : List Byte} (h : b.Orderly) (hst : b.stage = .delivering payload) (hh : b.handing = false)
    (hdue : b.exchange.due b.now = false)
    (hreq : ∀ q ∈ b.exchange.requests.toList, q.arrival ≤ b.now → b.now ≤ b.exchange.answerTime q)
    (hs : b.play payload = some b') : b'.Orderly := by
  have hraise := h.exchange.raise h.now hdue hreq
  have hle : b.clock ≤ b.now := h.looping (by rw [hst]; rfl)
  refine h.call (x := { b with exchange := b.exchange.onItch (Itch.decode payload).toOption b.now, stage := .playing })
    ⟨rfl, rfl, rfl, rfl⟩ hle (hraise.onItch _ (Nat.le_refl _) h.now) (fun _ => Nat.le_refl _) (fun hc => ?_) (.inl ⟨_, rfl⟩) hs
  rw [show ({ b with exchange := _, stage := _ } : Backtest).handing = b.handing from rfl, hh] at hc
  cases hc

theorem flush (h : b.Orderly) (hh : b.handing = false) (round : Nat) : (b.flush round).Orderly := by
  have hno : ∀ {p : Prop}, b.handing = true → p := fun hc => by
    rw [hh] at hc
    cases hc
  unfold Backtest.flush
  split_ifs
  · exact ⟨h.engine, h.timed, h.exchange.advance _, h.now, fun hc => (by cases hc), hno, h.calls, h.sends⟩
  · exact ⟨h.engine, h.timed, h.exchange, h.now, fun hc => (by cases hc), hno, h.calls, h.sends⟩

theorem go (h : b.Orderly) (hp : b.Prompt .go) (hs : b.go = some b') : b'.Orderly := by
  have hno : b.handing = false → ∀ {p : Prop}, b.handing = true → p := fun hh p hc => by
    rw [hh] at hc
    cases hc
  unfold Backtest.go at hs
  cases hst : b.stage with
  | reading =>
    rw [hst] at hs
    cases hs
  | done =>
    rw [hst] at hs
    cases hs
  | delivering payload =>
    rw [hst] at hs
    dsimp only at hs
    split_ifs at hs with hh hdue
    · exact h.handed hh hs
    · exact h.hand ⟨rfl, rfl, rfl, rfl⟩ rfl (by rw [hst]; rfl) hdue (fun _ => rfl) hs
    · have hh : b.handing = false := by simpa using hh
      have hdue : b.exchange.due b.now = false := by simpa using hdue
      exact h.play hst hh hdue (hp (by unfold plays; rw [hst, hh, hdue]; rfl)) hs
  | playing =>
    rw [hst] at hs
    dsimp only at hs
    split_ifs at hs
    cases hs
    have hh : b.handing = false := by
      by_contra hc
      have := (h.handing (by simpa using hc)).1
      rw [hst] at this
      cases this
    exact ⟨h.engine, h.timed, h.exchange, h.now, fun _ => h.looping (by rw [hst]; rfl), hno hh, h.calls, h.sends⟩
  | flushing round delivered =>
    rw [hst] at hs
    dsimp only at hs
    split_ifs at hs with hh hdue hzero
    · exact h.handed hh hs
    · exact h.hand (x := { b with stage := .flushing round (delivered + 1) }) ⟨rfl, rfl, rfl, rfl⟩ rfl rfl hdue
        (fun hc => by cases hc) hs
    · cases hs
      exact ⟨h.engine, h.timed, h.exchange, h.now, fun hc => (by cases hc), hno (by simpa using hh), h.calls, h.sends⟩
    · cases hs
      exact h.flush (by simpa using hh) _

theorem move (h : b.Orderly) (m : Move) (hs : b.move m = some b') : b'.Orderly := by
  obtain ⟨⟨e, fx⟩, hstep, rfl⟩ := Option.map_eq_some_iff.mp hs
  have htimes := offers_time h.timed m b.gateway
  obtain ⟨hpunct, hreports⟩ := forward_punctual _ htimes h.exchange
  have ha : (m.act b.clock b.gateway).inner = true ∨ m.act b.clock b.gateway = .finish := by
    cases m with
    | finish => exact .inr rfl
    | submit req => exact .inl rfl
    | cancel id => exact .inl rfl
    | replace id price qty => exact .inl rfl
    | advance => exact .inl rfl
    | ret => exact .inl rfl
  refine ⟨h.engine.step hstep, h.timed.inside h.engine ha hstep, hpunct, h.now, h.looping, fun hh => ?_, h.calls, ?_⟩
  · obtain ⟨h₁, h₂⟩ := h.handing hh
    refine ⟨h₁, ?_⟩
    show (forward b.exchange _).reports.count ≠ 0
    rw [hreports]
    exact h₂
  · refine h.sends.append (Nat.le_refl _) _ fun x hx => ?_
    obtain ⟨y, hy, rfl⟩ := List.mem_map.mp hx
    exact htimes y hy

/-- **Step.** -/
theorem step {i : Input} (h : b.Orderly) (hp : b.Prompt i) (hts : Stamped i) (hs : b.step i = some b') : b'.Orderly := by
  have hread : b.stage = .reading → b.handing = false := by
    intro hst
    by_contra hc
    have := (h.handing (by simpa using hc)).1
    rw [hst] at this
    cases this
  cases i with
  | record r =>
    simp only [Backtest.step] at hs
    split at hs
    · rename_i hst
      cases hs
      have hle : b.clock ≤ b.now := h.looping (by rw [hst]; rfl)
      refine ⟨h.engine, h.timed, h.exchange.advance _, max_le h.now hts, fun _ => hle.trans (Nat.le_max_left _ _), fun hc => ?_,
        h.calls, h.sends⟩
      rw [show ({ b with now := _, exchange := _, stage := _ } : Backtest).handing = b.handing from rfl, hread hst] at hc
      cases hc
    · cases hs
  | eof =>
    simp only [Backtest.step] at hs
    split at hs
    · rename_i hst
      cases hs
      exact h.flush (hread hst) 0
    · cases hs
  | move m => exact h.move m hs
  | go => exact h.go hp hs

end Orderly

/-- **The clock never steps back**, in every run in which no request is answered in the past. -/
theorem clock_never_steps_back (config : BacktestConfig) (is : List Input) (b : Backtest)
    (hlat : config.sim.orderLatencyNs ≤ u64Max ∧ config.sim.reportLatencyNs ≤ u64Max) (hts : ∀ i ∈ is, Stamped i)
    (hr : run step (new config) is = some b) (hp : Along step Prompt (new config) is) :
    b.calls.Pairwise (· ≤ ·) ∧ b.sends.Pairwise (· ≤ ·) := by
  have h : b.Orderly := by
    refine run_invariant_along (P := Orderly) (Q := fun b i => Prompt b i ∧ Stamped i) ?_ hr (hp.and (along_of_forall hts _))
      (.new config hlat.1 hlat.2)
    exact fun b i b' h hq hs => h.step hq.1 hq.2 hs
  exact ⟨h.calls.sorted, h.sends.sorted⟩

/-- A listing, a bid, and an order that the strategy enters when it is told of it. When it is told that the order was
accepted, with the record stamped `ts`, it cancels the order. The canceled report comes with the record stamped `ts'`. -/
def cancelOnAccept (ts ts' : Nat) : List Input :=
  [.record ⟨0, [82, 0, 1, 0, 0, 0, 0, 0, 0, 0, 0, 65, 66, 67, 68, 32, 32, 32, 32, 0, 0, 0, 0, 0, 100, 0, 0, 0, 0, 0, 0, 0, 0, 0,
      0, 0, 0, 0, 0]⟩, .go, .move .finish, .go,
    .record ⟨0, [65, 0, 1, 0, 0, 0, 0, 0, 0, 0, 0, 0, 0, 0, 0, 0, 0, 0, 1, 66, 0, 0, 0, 100, 65, 66, 67, 68, 32, 32, 32, 32, 0, 0,
      0, 10]⟩, .go, .move (.submit { locate := 1, price := 10, qty := 100 }), .move .ret, .move .ret, .move .finish, .go,
    .record ⟨ts, []⟩, .go, .move (.cancel 1), .move .ret, .move .ret, .move .finish, .go, .go, .move .finish, .go,
    .record ⟨ts', []⟩, .go]

def smallBacktest : BacktestConfig where
  engine := { books := ⟨4, 4, 4⟩, maxLocates := 2 }
  sim := { maxOrders := 4, books := ⟨4, 4, 4⟩ }

theorem cancelOnAccept_stamped {ts ts' : Nat} (h : ts ≤ u64Max) (h' : ts' ≤ u64Max) :
    ∀ i ∈ cancelOnAccept ts ts', Stamped i := by
  intro i hi
  cases i with
  | record r =>
    simp only [cancelOnAccept, List.mem_cons, Input.record.injEq, List.not_mem_nil, reduceCtorEq, or_false, false_or] at hi
    rcases hi with rfl | rfl | rfl | rfl
    · exact Nat.zero_le _
    · exact Nat.zero_le _
    · exact h
    · exact h'
  | eof => trivial
  | move m => trivial
  | go => trivial

/-- The cancel is processed with the record at 300000 and answered at 200000. -/
theorem clock_steps_back_after_callback :
    ∃ b, run step (new smallBacktest) (cancelOnAccept 300000 300000) = some b ∧
      (∀ i ∈ cancelOnAccept 300000 300000, Stamped i) ∧ b.calls = [0, 0, 100000, 300000, 200000] ∧ ¬b.calls.Pairwise (· ≤ ·) := by
  have hview : (run step (new smallBacktest) (cancelOnAccept 300000 300000)).map calls = some [0, 0, 100000, 300000, 200000] := by
    decide +kernel
  obtain ⟨b, hr, hv⟩ := Option.map_eq_some_iff.mp hview
  refine ⟨b, hr, cancelOnAccept_stamped (by decide) (by decide), hv, ?_⟩
  rw [hv]
  decide

instance (b : Backtest) : (i : Input) → Decidable (b.Prompt i)
  | .go => inferInstanceAs (Decidable (_ → _))
  | .record _ | .eof | .move _ => isTrue trivial

theorem clock_never_steps_back_close_records :
    ∃ b, run step (new smallBacktest) (cancelOnAccept 120000 260000) = some b ∧ b.calls = [0, 0, 100000, 120000, 200000] ∧
      b.calls.Pairwise (· ≤ ·) := by
  have hview : (run step (new smallBacktest) (cancelOnAccept 120000 260000)).map calls = some [0, 0, 100000, 120000, 200000] := by
    decide +kernel
  obtain ⟨b, hr, hv⟩ := Option.map_eq_some_iff.mp hview
  have hp : Along step Prompt (new smallBacktest) (cancelOnAccept 120000 260000) := by decide +kernel
  exact ⟨b, hr, hv, (clock_never_steps_back smallBacktest _ b ⟨by decide, by decide⟩
    (cancelOnAccept_stamped (by decide) (by decide)) hr hp).1⟩

end Backtest
end Replay
end OptiTrade
