import OptiTrade.Sim.Queues
import OptiTrade.Sim.Refinement
import OptiTrade.Sim.Sources

/-! # Causality and delivery order

The event clock only moves forward, and past the arrival of every request that is processed. A report is
queued at the time of the clock plus the report latency, so the queue of reports is ordered by delivery time
and no report comes earlier than the two latencies after the requests it is about. -/

namespace OptiTrade.Sim
set_option autoImplicit false

open Runs

theorem saturatingAdd_mono {a a' b : Nat} (h : a ≤ a') (hb : b ≤ u64Max) : saturatingAdd a b ≤ saturatingAdd a' b := by
  unfold saturatingAdd
  split_ifs <;> omega

namespace ExchangeSim
variable {s : ExchangeSim} {v : Venue}

/-- The report comes no earlier than the latencies allow, and says so of requests that were processed. -/
structure Reported (s : ExchangeSim) (r : Report) : Prop where
  sourced : Sourced s.processed r.msg.token r.about
  late : ∀ t ∈ r.about, saturatingAdd (saturatingAdd t s.config.orderLatencyNs) s.config.reportLatencyNs ≤ r.deliver

/-- The simulator, with venue `v` in the place of its own. -/
structure Ready (s : ExchangeSim) (v : Venue) : Prop where
  rings : s.Rings
  latency : s.config.reportLatencyNs ≤ u64Max
  venue : ∃ hs, v.Stored hs [] ∧ (v.floor hs).Sourced s.processed v.clock
  arrival : ∀ q ∈ s.processed ++ s.requests.toList, q.arrival = saturatingAdd q.sent s.config.orderLatencyNs
  clocked : ∀ q ∈ s.processed, q.arrival ≤ v.clock
  reports : ∀ r ∈ s.generated, s.Reported r
  latest : ∀ r ∈ s.generated, r.deliver ≤ saturatingAdd v.clock s.config.reportLatencyNs
  sorted : s.generated.Pairwise fun r r' => r.deliver ≤ r'.deliver

theorem Ready.reportAt (h : s.Ready v) {m : Said} (hm : m ∈ v.said) : s.Reported (s.reportAt v.clock m) := by
  obtain ⟨hs, -, hsrc⟩ := h.venue
  have hsm := hsrc.tape.said m hm
  refine ⟨hsm, fun t ht => ?_⟩
  obtain ⟨q, hq, rfl⟩ := hsm.all t ht
  rw [← h.arrival q (List.mem_append_left _ hq)]
  exact saturatingAdd_mono (h.clocked q hq) h.latency

/-- Publishing keeps everything. -/
theorem Ready.publish (h : s.Ready v) : (s.publish v).Ready (s.publish v).venue := by
  obtain ⟨rs, d, hp⟩ := publish_published h.rings v
  have hcfg : (s.publish v).config = s.config := hp.queued.config
  have hproc : (s.publish v).processed = s.processed := hp.queued.processed
  have hven : (s.publish v).venue = { v with said := [] } := hp.queued.venue
  have hreq : (s.publish v).requests = s.requests := hp.queued.requests
  have hgen : (s.publish v).generated = s.generated ++ rs := hp.queued.generated
  have hclock : (s.publish v).venue.clock = v.clock := by rw [hven]
  have hrs : ∀ r ∈ rs, ∃ m ∈ v.said, s.reportAt v.clock m = r := fun r hr => List.mem_map.mp (hp.sublist.subset hr)
  have hrep : ∀ r, s.Reported r → (s.publish v).Reported r := by
    intro r hr
    exact ⟨by rw [hproc]; exact hr.sourced, by rw [hcfg]; exact hr.late⟩
  refine ⟨hp.queued.rings, by rw [hcfg]; exact h.latency, ?_, by rw [hproc, hreq, hcfg]; exact h.arrival,
    by rw [hproc, hclock]; exact h.clocked, fun r hr => ?_, fun r hr => ?_, ?_⟩
  · obtain ⟨hs, hst, hsrc⟩ := h.venue
    have hk : v.Keeps { v with said := [] } := ⟨rfl, rfl, rfl, rfl, fun _ => rfl, fun _ => rfl, fun _ => rfl⟩
    rw [hven, hproc]
    exact ⟨hs, hk.stored hst, hsrc.orders, hsrc.tape.clock_eq, by intro m hm; cases hm⟩
  · rw [hgen] at hr
    rcases List.mem_append.mp hr with hr | hr
    · exact hrep r (h.reports r hr)
    · obtain ⟨m, hm, rfl⟩ := hrs r hr
      exact hrep _ (h.reportAt hm)
  · rw [hcfg, hclock]
    rw [hgen] at hr
    rcases List.mem_append.mp hr with hr | hr
    · exact h.latest r hr
    · obtain ⟨m, hm, rfl⟩ := hrs r hr
      exact Nat.le_refl _
  · rw [hgen]
    refine List.pairwise_append.mpr ⟨h.sorted, ?_, fun r hr r' hr' => ?_⟩
    · refine List.Pairwise.sublist hp.sublist (List.pairwise_map.mpr ?_)
      exact List.pairwise_of_forall fun _ _ => Nat.le_refl _
    · obtain ⟨m, hm, rfl⟩ := hrs r' hr'
      exact h.latest r hr

theorem publish_clock (h : s.Rings) (v : Venue) : (s.publish v).venue.clock = v.clock := by
  obtain ⟨rs, d, hp⟩ := publish_published h v
  rw [hp.queued.venue]

theorem Ready.tick (h : s.Ready v) {clock : Nat} (hle : v.clock ≤ clock) : s.Ready { v with clock := clock } := by
  obtain ⟨hs, hst, hsrc⟩ := h.venue
  have hk : v.Keeps { v with clock := clock } := ⟨rfl, rfl, rfl, rfl, fun _ => rfl, fun _ => rfl, fun _ => rfl⟩
  exact ⟨h.rings, h.latency, ⟨hs, hk.stored hst, hsrc.orders, rfl, hsrc.tape.said⟩, h.arrival,
    fun q hq => (h.clocked q hq).trans hle, h.reports,
    fun r hr => (h.latest r hr).trans (saturatingAdd_mono hle h.latency), h.sorted⟩

theorem Ready.popped (h : s.Ready v) (hc : s.requests.count ≠ 0) (hle : s.requests.front.arrival ≤ v.clock) :
    s.popped.Ready v := by
  have hqueue : s.processed ++ [s.requests.front] ++ s.requests.pop.toList = s.processed ++ s.requests.toList := by
    rw [h.rings.toList_requests hc, List.append_assoc]
    rfl
  obtain ⟨hs, hst, hsrc⟩ := h.venue
  refine ⟨h.rings.popped, h.latency, ⟨hs, hst, hsrc.mono (List.subset_append_left _ _)⟩, ?_, fun q hq => ?_, ?_, h.latest,
    h.sorted⟩
  · show ∀ q ∈ s.processed ++ [s.requests.front] ++ s.requests.pop.toList, _
    rw [hqueue]
    exact h.arrival
  · rcases List.mem_append.mp hq with hq | hq
    · exact h.clocked q hq
    · rw [List.mem_singleton.mp hq]
      exact hle
  · intro r hr
    exact ⟨(h.reports r hr).sourced.mono (List.subset_append_left _ _), (h.reports r hr).late⟩

theorem Ready.call {w : Venue} {f : Floor → Floor} (h : s.Ready v)
    (href : ∀ hs, v.Stored hs [] → w.Refines (f (v.floor hs)))
    (hsrc : ∀ d, d.Sourced s.processed v.clock → (f d).Sourced s.processed v.clock) :
    s.Ready w ∧ w.clock = v.clock := by
  obtain ⟨hs, hst, hs₁⟩ := h.venue
  obtain ⟨hs', hst', hfl⟩ := href hs hst
  have hs₂ := hsrc _ hs₁
  rw [← hfl] at hs₂
  have hclock : w.clock = v.clock := hs₂.tape.clock_eq
  refine ⟨⟨h.rings, h.latency, ⟨hs', hst', ?_⟩, h.arrival, ?_, h.reports, ?_, h.sorted⟩, hclock⟩
  · rw [hclock]
    exact hs₂
  · rw [hclock]
    exact h.clocked
  · rw [hclock]
    exact h.latest

/-- **Step of `advance`.** -/
theorem Ready.process {now : Nat} (h : s.Ready s.venue) (ha : s.arrived now = true) :
    s.process.Ready s.process.venue ∧ s.venue.clock ≤ s.process.venue.clock := by
  have htick := h.tick (Nat.le_max_left s.venue.clock s.requests.front.arrival)
  have hpop := htick.popped (arrived_count ha).1 (Nat.le_max_right _ _)
  obtain ⟨hcall, hclock⟩ := hpop.call (f := fun d => d.onRequest s.requests.front.msg s.requests.front.sent)
    (fun hs hst => Venue.onRequest_refines hst _ _) (fun d hd => hd.onRequest (by simp [ExchangeSim.popped]))
  rw [process_eq]
  refine ⟨hcall.publish, ?_⟩
  rw [publish_clock hcall.rings, hclock]
  exact Nat.le_max_left _ _

theorem Ready.advance (h : s.Ready s.venue) (now : Nat) :
    (s.advance now).Ready (s.advance now).venue ∧ s.venue.clock ≤ (s.advance now).venue.clock := by
  refine advance_invariant (P := fun t => t.Ready t.venue ∧ s.venue.clock ≤ t.venue.clock) ?_ ⟨h, Nat.le_refl _⟩
  intro t ht ha
  obtain ⟨hr, hc⟩ := ht.1.process ha
  exact ⟨hr, ht.2.trans hc⟩

/-- **Market message.** -/
theorem Ready.onItch (h : s.Ready s.venue) (m : Option Itch.Message) (now : Nat) :
    (s.onItch m now).Ready (s.onItch m now).venue ∧ s.venue.clock ≤ (s.onItch m now).venue.clock := by
  obtain ⟨hadv, hle⟩ := h.advance now
  have htick := hadv.tick (Nat.le_max_left (s.advance now).venue.clock now)
  have hpub : ∀ w, (s.advance now).Ready w → w.clock = max (s.advance now).venue.clock now →
      ((s.advance now).publish w).Ready ((s.advance now).publish w).venue ∧
        s.venue.clock ≤ ((s.advance now).publish w).venue.clock := by
    intro w hw hclock
    refine ⟨hw.publish, ?_⟩
    rw [publish_clock hw.rings, hclock]
    exact hle.trans (Nat.le_max_left _ _)
  cases m with
  | none => exact hpub _ htick rfl
  | some m =>
    obtain ⟨hcall, hclock⟩ := htick.call (f := fun d => d.apply m) (fun hs hst => Venue.apply_refines hst m)
      (fun d hd => hd.apply m)
    exact hpub _ hcall hclock

/-! ## The queues along a call -/

/-- What a call adds to the queue of reports; requests only move from the queue to those processed. -/
structure Grew (s s' : ExchangeSim) : Prop where
  config : s'.config = s.config
  reports : ∃ rs, s'.generated = s.generated ++ rs ∧ s'.reports.toList = s.reports.toList ++ rs
  queue : s'.processed ++ s'.requests.toList = s.processed ++ s.requests.toList

theorem Grew.refl (s : ExchangeSim) : Grew s s := ⟨rfl, ⟨[], by simp, by simp⟩, rfl⟩

theorem Grew.trans {s₁ s₂ : ExchangeSim} (h : Grew s s₁) (h' : Grew s₁ s₂) : Grew s s₂ := by
  obtain ⟨rs, hg, hr⟩ := h.reports
  obtain ⟨rs', hg', hr'⟩ := h'.reports
  refine ⟨h'.config.trans h.config, ⟨rs ++ rs', ?_, ?_⟩, h'.queue.trans h.queue⟩
  · rw [hg', hg, List.append_assoc]
  · rw [hr', hr, List.append_assoc]

theorem Grew.publish (h : s.Rings) (v : Venue) : Grew s (s.publish v) := by
  obtain ⟨rs, d, hp⟩ := publish_published h v
  refine ⟨hp.queued.config, ⟨rs, hp.queued.generated, hp.queued.reports⟩, ?_⟩
  rw [hp.queued.processed, hp.queued.requests]

theorem Grew.process {now : Nat} (h : s.Rings) (ha : s.arrived now = true) : Grew s s.process := by
  have hpop : Grew s s.popped := by
    refine ⟨rfl, ⟨[], by simp [popped], by simp [popped]⟩, ?_⟩
    rw [h.toList_requests (arrived_count ha).1]
    show s.processed ++ [s.requests.front] ++ s.requests.pop.toList = _
    rw [List.append_assoc]
    rfl
  rw [process_eq]
  exact hpop.trans (.publish h.popped _)

theorem Grew.advance (h : s.Rings) (now : Nat) : Grew s (s.advance now) := by
  refine (advance_invariant (P := fun t => t.Rings ∧ Grew s t) ?_ ⟨h, .refl s⟩).2
  intro t ht ha
  exact ⟨ht.1.process, ht.2.trans (.process ht.1 ha)⟩

theorem Grew.onItch (h : s.Rings) (m : Option Itch.Message) (now : Nat) : Grew s (s.onItch m now) := by
  unfold ExchangeSim.onItch
  cases m with
  | none => exact (Grew.advance h now).trans (.publish (h.advance now) _)
  | some m => exact (Grew.advance h now).trans (.publish (h.advance now) _)

end ExchangeSim

/-! ## Runs -/

/-- The report an answer hands out. -/
def Answer.handed : Answer → Option Report
  | .report r => some r
  | .none | .taken _ => Option.none

/-- The request a send put into the queue. -/
def sentBy (config : SimConfig) : Call × Answer → Option Request
  | (.send m now, .taken true) => some ⟨saturatingAdd now config.orderLatencyNs, m, now⟩
  | _ => none

/-- The reports handed out, in order. -/
def handedOut (log : List (Call × Answer)) : List Report := log.filterMap fun e => e.2.handed

/-- The requests that were taken, in order. -/
def sends (config : SimConfig) (log : List (Call × Answer)) : List Request := log.filterMap (sentBy config)

/-- The time of the last drain. -/
def drainTime (log : List (Call × Answer)) : Option Nat :=
  log.foldl (fun t e => match e.1 with
    | .drain now => some now
    | _ => t) none

theorem handedOut_concat (log : List (Call × Answer)) (e : Call × Answer) :
    handedOut (log ++ [e]) = handedOut log ++ e.2.handed.toList := by
  unfold handedOut
  rw [List.filterMap_append]
  cases h : e.2.handed <;> simp [h]

theorem sends_concat (config : SimConfig) (log : List (Call × Answer)) (e : Call × Answer) :
    sends config (log ++ [e]) = sends config log ++ (sentBy config e).toList := by
  unfold sends
  rw [List.filterMap_append]
  cases h : sentBy config e <;> simp [h]

theorem drainTime_concat (log : List (Call × Answer)) (c : Call) (x : Answer) :
    drainTime (log ++ [(c, x)]) = match c with
      | .drain now => some now
      | _ => drainTime log := by
  unfold drainTime
  rw [List.foldl_append]
  cases c <;> rfl

namespace State
open ExchangeSim
variable {config : SimConfig} {s t : State} {log : List (Call × Answer)} {c : Call} {x : Answer}

/-- The reports that are queued and not handed out: the one whose callback runs still stands in the queue. -/
def pending (s : State) : List Report :=
  match s.draining with
  | some (_, true) => s.sim.reports.toList.tail
  | _ => s.sim.reports.toList

/-- The invariant of a run. -/
structure Caused (config : SimConfig) (s : State) (log : List (Call × Answer)) : Prop where
  ready : s.sim.Ready s.sim.venue
  config_eq : s.sim.config = config
  queue : s.sim.processed ++ s.sim.requests.toList = sends config log
  reports : handedOut log ++ s.pending = s.sim.generated
  drain : ∀ now b, s.draining = some (now, b) → drainTime log = some now
  callback : ∀ now, s.draining = some (now, true) → s.sim.reports.toList ≠ []

theorem Caused.new (config : SimConfig) (hlat : config.reportLatencyNs ≤ u64Max) :
    Caused config ⟨.new config, none⟩ [] := by
  have hsrc : ((Venue.new config.maxOrders config.books).floor []).Sourced [] 0 :=
    ⟨by simp [Venue.floor], rfl, by simp [Venue.floor, Venue.tape, Venue.new]⟩
  refine ⟨⟨.new config, hlat, ⟨[], .new _ _, hsrc⟩, ?_, ?_, ?_, ?_, .nil⟩, rfl, rfl, rfl, ?_, ?_⟩
  · exact fun q hq => by cases hq
  · exact fun q hq => by cases hq
  · exact fun q hq => by cases hq
  · exact fun q hq => by cases hq
  · exact fun now b h => by cases h
  · exact fun now h => by cases h

/-- A call that grows the queues and answers nothing. -/
theorem Caused.grow {sim : ExchangeSim} (h : Caused config s log) (hg : Grew s.sim sim) (hr : sim.Ready sim.venue)
    (hx : x.handed = none) (hc : sentBy config (c, x) = none) (hd : drainTime (log ++ [(c, x)]) = drainTime log) :
    Caused config { s with sim := sim } (log ++ [(c, x)]) := by
  obtain ⟨rs, hgen, hrep⟩ := hg.reports
  refine ⟨hr, hg.config.trans h.config_eq, ?_, ?_, fun now b hdr => ?_, fun now hdr => ?_⟩
  · rw [sends_concat, hc, Option.toList_none, List.append_nil, ← h.queue]
    exact hg.queue
  · rw [handedOut_concat, hx, Option.toList_none, List.append_nil]
    show handedOut log ++ pending { s with sim := sim } = sim.generated
    rw [hgen, ← h.reports, List.append_assoc]
    congr 1
    unfold pending
    dsimp only
    split
    · rename_i now hdr
      rw [hrep, List.tail_append_of_ne_nil (h.callback now hdr)]
    · exact hrep
  · rw [hd]
    exact h.drain now b hdr
  · have hne := h.callback now hdr
    show sim.reports.toList ≠ []
    rw [hrep]
    simp [hne]

theorem Caused.quiet {draining : Option (Nat × Bool)} (h : Caused config s log)
    (hpend : s.pending = s.sim.reports.toList) (hidle : ∀ now, draining ≠ some (now, true)) (hx : x.handed = none)
    (hc : sentBy config (c, x) = none)
    (hd : ∀ now b, draining = some (now, b) → drainTime (log ++ [(c, x)]) = some now) :
    Caused config { s with draining := draining } (log ++ [(c, x)]) := by
  have hpend' : pending { s with draining := draining } = s.sim.reports.toList := by
    unfold pending
    split
    · rename_i now hdr
      exact absurd hdr (hidle now)
    · rfl
  refine ⟨h.ready, h.config_eq, ?_, ?_, hd, fun now hdr => absurd hdr (hidle now)⟩
  · rw [sends_concat, hc, Option.toList_none, List.append_nil]
    exact h.queue
  · rw [handedOut_concat, hx, Option.toList_none, List.append_nil, hpend', ← hpend]
    exact h.reports

/-- A request that is taken. -/
theorem Caused.sent {m : Ouch.Inbound} {now reserved : Nat} (h : Caused config s log)
    (hroom : s.sim.requests.count < s.sim.requests.size) :
    Caused config
      { s with sim := { s.sim with
        reserved := reserved
        requests := s.sim.requests.push ⟨saturatingAdd now s.sim.config.orderLatencyNs, m, now⟩ } }
      (log ++ [(.send m now, .taken true)]) := by
  have hr := h.ready
  have hlist := RingBuffer.toList_push s.sim.requests ⟨saturatingAdd now s.sim.config.orderLatencyNs, m, now⟩ hroom
  refine ⟨⟨⟨hroom, hr.rings.requests_head, hr.rings.reports_le, hr.rings.reports_head⟩, hr.latency, hr.venue, ?_, hr.clocked,
    fun r hm => ⟨(hr.reports r hm).sourced, (hr.reports r hm).late⟩, hr.latest, hr.sorted⟩, h.config_eq, ?_, ?_, ?_,
    h.callback⟩
  · dsimp only
    rw [hlist, ← List.append_assoc]
    intro q hq
    rcases List.mem_append.mp hq with hq | hq
    · exact hr.arrival q hq
    · rw [List.mem_singleton.mp hq]
  · dsimp only
    rw [sends_concat, hlist, ← List.append_assoc, h.queue, h.config_eq]
    rfl
  · rw [handedOut_concat]
    exact (congrArg (· ++ _) (List.append_nil _)).trans h.reports
  · intro now' b hdr
    rw [drainTime_concat]
    exact h.drain now' b hdr

theorem Steps.caused (hstep : Steps s c t x) (h : Caused config s log) :
    Caused config t (log ++ [(c, x)]) ∧ s.sim.venue.clock ≤ t.sim.venue.clock := by
  have hrings := h.ready.rings
  cases hstep with
  | send m now _ =>
    cases ht : (s.sim.send m now).2 with
    | false =>
      rw [send_refused ht]
      exact ⟨h.grow (.refl _) h.ready rfl rfl (drainTime_concat ..), Nat.le_refl _⟩
    | true =>
      obtain ⟨he, hroom⟩ := send_taken hrings ht
      rw [he]
      exact ⟨h.sent hroom, Nat.le_refl _⟩
  | onItch m now _ =>
    obtain ⟨hr, hle⟩ := h.ready.onItch m now
    exact ⟨h.grow (.onItch hrings m now) hr rfl rfl (drainTime_concat ..), hle⟩
  | advance now _ =>
    obtain ⟨hr, hle⟩ := h.ready.advance now
    exact ⟨h.grow (.advance hrings now) hr rfl rfl (drainTime_concat ..), hle⟩
  | drain now hd =>
    refine ⟨h.quiet (by unfold pending; rw [hd]) (by simp) rfl rfl fun now' b hdr => ?_, Nat.le_refl _⟩
    rw [drainTime_concat]
    cases hdr
    rfl
  | hand now hd hdue =>
    have hlist := hrings.toList_reports (due_count hdue).1
    refine ⟨⟨h.ready, h.config_eq, ?_, ?_, fun now' b hdr => ?_, fun now' _ => ?_⟩, Nat.le_refl _⟩
    · rw [sends_concat]
      exact h.queue.trans (List.append_nil _).symm
    · have hpend : s.pending = s.sim.reports.toList := by unfold pending; rw [hd]
      rw [handedOut_concat, ← h.reports, hpend]
      show handedOut log ++ [s.sim.reports.front] ++ s.sim.reports.toList.tail = _
      rw [List.append_assoc, hlist]
      rfl
    · cases hdr
      rw [drainTime_concat]
      exact h.drain now false hd
    · show s.sim.reports.toList ≠ []
      rw [hlist]
      simp
  | handed now hd =>
    have hne := h.callback now hd
    have hcount : s.sim.reports.count ≠ 0 := fun h0 => hne (RingBuffer.toList_eq_nil.mpr h0)
    have hr := h.ready
    refine ⟨⟨⟨hr.rings.handed, hr.latency, hr.venue, hr.arrival, hr.clocked, ?_, hr.latest, hr.sorted⟩, h.config_eq, ?_, ?_,
      fun now' b hdr => ?_, fun now' hdr => by cases hdr⟩, Nat.le_refl _⟩
    · exact fun r hm => ⟨(hr.reports r hm).sourced, (hr.reports r hm).late⟩
    · rw [sends_concat]
      exact h.queue.trans (List.append_nil _).symm
    · have hpend : s.pending = s.sim.handed.reports.toList := by
        unfold pending
        rw [hd, hrings.toList_reports hcount]
        rfl
      rw [handedOut_concat]
      show handedOut log ++ [] ++ s.sim.handed.reports.toList = s.sim.generated
      rw [List.append_nil, ← hpend, h.reports]
    · cases hdr
      rw [drainTime_concat]
      exact h.drain now true hd
  | drained now hd hdue =>
    exact ⟨h.quiet (by unfold pending; rw [hd]) (by simp) rfl rfl (by simp), Nat.le_refl _⟩

/-- **Run lemma.** -/
theorem run_caused {cs : List Call} (hlat : config.reportLatencyNs ≤ u64Max)
    (hr : run next (⟨.new config, none⟩, []) cs = some (s, log)) : Caused config s log := by
  refine run_invariant (P := fun p => Caused config p.1 p.2) ?_ hr (.new config hlat)
  intro p c p' hp hn
  obtain ⟨t, x, hstep, rfl⟩ := next_some hn
  exact ((step_cases hstep).caused hp).1

/-- No report that is left when a drain ends was due. -/
theorem Caused.not_due (h : Caused config s log) {now : Nat} (hd : s.draining = some (now, false))
    (hdue : s.sim.due now = false) : ∀ r ∈ s.pending, now < r.deliver := by
  have hpend : s.pending = s.sim.reports.toList := by unfold pending; rw [hd]
  intro r hr
  rw [hpend] at hr
  have hcount : s.sim.reports.count ≠ 0 := by
    intro h0
    rw [RingBuffer.toList_eq_nil.mpr h0] at hr
    cases hr
  have hfront : now < s.sim.reports.front.deliver := by
    by_contra hle
    rw [show s.sim.due now = true by simp [ExchangeSim.due, hcount]; omega] at hdue
    cases hdue
  -- the first report is not due, and the others come later
  have hsorted : s.sim.reports.toList.Pairwise fun r r' => r.deliver ≤ r'.deliver := by
    have := h.ready.sorted
    rw [← h.reports, hpend] at this
    exact (List.pairwise_append.mp this).2.1
  rw [h.ready.rings.toList_reports hcount] at hr hsorted
  rcases List.mem_cons.mp hr with rfl | hr
  · exact hfront
  · exact hfront.trans_le ((List.pairwise_cons.mp hsorted).1 r hr)

/-- **Causality and delivery order.** In every state that can be reached, whatever times the calls carry: the
clock does not step back, reports are generated in the order of their delivery times, none is delivered less
than the two latencies after a request it is about was sent, requests are processed in the order they were
sent, and the reports handed out are the first ones generated. A drain hands out a report only when it is due
and ends only when none is left that is. -/
theorem causality_and_delivery_order (config : SimConfig) (hlat : config.reportLatencyNs ≤ u64Max) (cs : List Call)
    (s : State) (log : List (Call × Answer)) (hr : run next (⟨.new config, none⟩, []) cs = some (s, log)) :
    (∀ c t x, s.step c = some (t, x) → s.sim.venue.clock ≤ t.sim.venue.clock) ∧
    (s.sim.generated.Pairwise fun r r' => r.deliver ≤ r'.deliver) ∧
    (∀ r ∈ s.sim.generated, Sourced s.sim.processed r.msg.token r.about ∧ ∀ t ∈ r.about,
      saturatingAdd (saturatingAdd t config.orderLatencyNs) config.reportLatencyNs ≤ r.deliver) ∧
    s.sim.processed ++ s.sim.requests.toList = sends config log ∧
    handedOut log ++ s.pending = s.sim.generated ∧
    (∀ t r, s.step .hand = some (t, .report r) → ∃ now, drainTime log = some now ∧ r.deliver ≤ now) ∧
    (∀ t x, s.step .drained = some (t, x) → ∃ now, drainTime log = some now ∧ ∀ r ∈ s.pending, now < r.deliver) := by
  have h := run_caused hlat hr
  refine ⟨fun c t x hstep => ((step_cases hstep).caused h).2, h.ready.sorted, fun r hm => ?_, h.queue, h.reports, ?_, ?_⟩
  · have hrep := h.ready.reports r hm
    exact ⟨hrep.sourced, by rw [← h.config_eq]; exact hrep.late⟩
  · intro t r hstep
    cases step_cases hstep with
    | hand now hd hdue => exact ⟨now, h.drain now false hd, (due_count hdue).2⟩
  · intro t x hstep
    cases step_cases hstep with
    | drained now hd hdue => exact ⟨now, h.drain now false hd, h.not_due hd hdue⟩

/-- An order is sent at 3, and its acceptance drained once it is due. -/
def oneAcceptance : List Call :=
  [.onItch (some (.stockDirectory ⟨⟨1, 0, 0⟩, .ofText [65, 66, 67, 68], 0, 0, 100, 0, 0, [], 0, 0, 0, 0,
      0, 0, 0⟩)) 1,
    .send (.enter ⟨Ouch.Token.fromId 1, .buy, false, 100, .ofText [65, 66, 67, 68], 10, 99999,
      Ouch.Firm.blank, 89, 80, 78, 0, 78, 32⟩) 3,
    .advance 60000, .drain 100002, .drained, .drain 100003, .hand, .handed, .drained]

theorem causality_and_delivery_order_one_acceptance :
    ∃ s log, run next (⟨.new { maxOrders := 4 }, none⟩, []) oneAcceptance = some (s, log) ∧
      s.sim.generated.map (fun r => (r.deliver, r.about)) = [(100003, [3])] ∧ handedOut log = s.sim.generated ∧
      s.sim.processed ++ s.sim.requests.toList = sends { maxOrders := 4 } log := by
  have hview : (run next (⟨.new { maxOrders := 4 }, none⟩, []) oneAcceptance).map
      (fun p => (p.1.sim.generated.map (fun r => (r.deliver, r.about)), p.1.pending.length)) =
      some ([(100003, [3])], 0) := rfl
  obtain ⟨⟨s, log⟩, hr, hv⟩ := Option.map_eq_some_iff.mp hview
  obtain ⟨hg, hp⟩ := Prod.mk.inj hv
  obtain ⟨-, -, -, hqueue, hreports, -⟩ :=
    causality_and_delivery_order { maxOrders := 4 } (by decide) oneAcceptance s log hr
  refine ⟨s, log, hr, hg, ?_, hqueue⟩
  rw [List.length_eq_zero_iff.mp hp, List.append_nil] at hreports
  exact hreports

end State
end OptiTrade.Sim
