import OptiTrade.Replay.Report
import OptiTrade.Sim.Causality

/-! # The conversation of a backtest

The log of a backtest is all that the engine and the exchange have said to each other. Every message the gateway took is in
the exchange once, in order, and every report that was queued is handed over once, in order, so when the backtest is over the
log has them all. And when none was dropped every execution among them is one fill of the order manager. -/

namespace OptiTrade
set_option autoImplicit false

open Runs
open Ouch (Inbound)
open Sim (ExchangeSim SimConfig)
open Sim.ExchangeSim (Grew)

namespace Replay

namespace Logged

/-- The request that the exchange got. -/
def request (config : SimConfig) : Logged → Option Sim.Request
  | .order m now true => some ⟨saturatingAdd now config.orderLatencyNs, m, now⟩
  | _ => none

/-- The report that was handed over, and when. -/
def handed : Logged → Option (List Byte × Nat)
  | .report bs deliver => some (bs, deliver)
  | _ => none

end Logged

/-- What a report looks like to the one who gets it. -/
def seen (x : Sim.Report) : List Byte × Nat := (x.bytes, x.deliver)

/-- What is forwarded is queued when it is taken. -/
theorem forwarded_queued {s : ExchangeSim} (h : s.Rings) (xs : List (Inbound × Nat)) :
    (Backtest.forward s xs).Rings ∧ (Backtest.forward s xs).config = s.config ∧ (Backtest.forward s xs).processed = s.processed ∧
      (Backtest.forward s xs).generated = s.generated ∧ (Backtest.forward s xs).reports = s.reports ∧
      (Backtest.forward s xs).requests.toList = s.requests.toList ++ (forwarded s xs).filterMap (Logged.request s.config) := by
  induction xs generalizing s with
  | nil => exact ⟨h, rfl, rfl, rfl, rfl, (List.append_nil _).symm⟩
  | cons x xs ih =>
    obtain ⟨h₁, h₂, h₃, h₄, h₅, h₆⟩ := ih (h.send x.1 x.2)
    have hone : (s.send x.1 x.2).1.config = s.config ∧ (s.send x.1 x.2).1.processed = s.processed ∧
        (s.send x.1 x.2).1.generated = s.generated ∧ (s.send x.1 x.2).1.reports = s.reports ∧
        (s.send x.1 x.2).1.requests.toList = s.requests.toList ++
          ((Logged.order x.1 x.2 (s.send x.1 x.2).2).request s.config).toList := by
      cases ht : (s.send x.1 x.2).2 with
      | false =>
        rw [ExchangeSim.send_refused ht]
        exact ⟨rfl, rfl, rfl, rfl, (List.append_nil _).symm⟩
      | true =>
        obtain ⟨he, hroom⟩ := ExchangeSim.send_taken h ht
        rw [he]
        exact ⟨rfl, rfl, rfl, rfl, RingBuffer.toList_push _ _ hroom⟩
    obtain ⟨g₁, g₂, g₃, g₄, g₅⟩ := hone
    refine ⟨h₁, h₂.trans g₁, h₃.trans g₂, h₄.trans g₃, h₅.trans g₄, ?_⟩
    show (Backtest.forward (s.send x.1 x.2).1 xs).requests.toList = _
    rw [h₆, g₅, g₁, List.append_assoc]
    congr 1
    show _ = List.filterMap _ (Logged.order x.1 x.2 (s.send x.1 x.2).2 :: forwarded (s.send x.1 x.2).1 xs)
    rw [List.filterMap_cons]
    cases (Logged.order x.1 x.2 (s.send x.1 x.2).2).request s.config <;> rfl

theorem forwarded_handed (s : ExchangeSim) (xs : List (Inbound × Nat)) : (forwarded s xs).filterMap Logged.handed = [] := by
  refine List.filterMap_eq_nil_iff.mpr fun y hy => ?_
  obtain ⟨x, -, accepted, rfl⟩ := mem_forwarded hy
  rfl

namespace Backtest
variable {b b' : Backtest} {r r' : Recorder} {i : Input} {config : SimConfig}

/-- The reports that are still to be handed over. -/
def undelivered (b : Backtest) : List Sim.Report := if b.handing then b.exchange.reports.toList.tail else b.exchange.reports.toList

/-- The log is what was said so far. -/
structure Talks (config : SimConfig) (b : Backtest) (log : List Logged) : Prop where
  settings : b.exchange.config = config
  requests : log.filterMap (Logged.request config) = b.exchange.processed ++ b.exchange.requests.toList
  reports : log.filterMap Logged.handed ++ b.undelivered.map seen = b.exchange.generated.map seen

variable {log : List Logged}

theorem Talks.grew (h : Talks config b log) (hh : b.handing = false) (hh' : b'.handing = false) (hg : Grew b.exchange b'.exchange) :
    Talks config b' log := by
  obtain ⟨rs, hgen, hrep⟩ := hg.reports
  refine ⟨hg.config.trans h.settings, h.requests.trans hg.queue.symm, ?_⟩
  have hold := h.reports
  unfold undelivered at hold ⊢
  rw [hh] at hold
  rw [hh', if_neg (by decide), hgen, hrep, List.map_append, List.map_append, ← List.append_assoc]
  rw [if_neg (by decide)] at hold
  rw [hold]

theorem Talks.same (h : Talks config b log) (hx : b'.exchange = b.exchange) (hh : b'.handing = b.handing) : Talks config b' log := by
  refine ⟨by rw [hx]; exact h.settings, by rw [hx]; exact h.requests, ?_⟩
  have hold := h.reports
  unfold undelivered at hold ⊢
  rw [hx, hh]
  exact hold

theorem Talks.flush (h : Talks config b log) (hr : b.exchange.Rings) (hh : b.handing = false) (round : Nat) :
    Talks config (b.flush round) log := by
  unfold Backtest.flush
  split_ifs
  · exact h.grew hh hh (.advance hr _)
  · exact h.same rfl rfl

theorem Talks.hand (h : Talks config b log) (hr : b.exchange.Rings) (hh : b.handing = false) (hc : b.exchange.reports.count ≠ 0)
    (hs : b.hand = some b') : Talks config b' (log ++ [.report b.exchange.reports.front.bytes b.exchange.reports.front.deliver]) := by
  obtain ⟨⟨e, fx⟩, hstep, rfl⟩ := Option.map_eq_some_iff.mp hs
  refine ⟨h.settings, ?_, ?_⟩
  · rw [List.filterMap_append]
    exact (List.append_nil _).trans h.requests
  · have hold := h.reports
    unfold undelivered at hold ⊢
    rw [hh, if_neg (by decide), hr.toList_reports hc, List.map_cons] at hold
    rw [List.filterMap_append, List.append_assoc]
    rw [← hold, if_pos rfl]
    show _ ++ ([seen b.exchange.reports.front] ++ List.map seen b.exchange.reports.toList.tail) = _
    rw [hr.toList_reports hc]
    rfl

/-- **Step lemma.** -/
theorem Talks.step (h : Talks config b log) (hset : Settled (fun _ => True) b) (hs : b.step i = some b') :
    Talks config b' (log ++ b.logs i) := by
  have hr := hset.exchange.rings
  have hread : b.stage = .reading → b.handing = false := by
    intro hst
    by_contra hc
    have := (hset.handing (by simpa using hc)).1
    rw [hst] at this
    cases this
  have hquiet : ∀ {i : Input}, b.logs i = [] → Talks config b' log → Talks config b' (log ++ b.logs i) := by
    intro i hlog h
    rwa [hlog, List.append_nil]
  cases i with
  | record rec =>
    refine hquiet rfl ?_
    simp only [Backtest.step] at hs
    split at hs
    · rename_i hst
      cases hs
      exact h.grew (hread hst) (hread hst) (.advance hr _)
    · cases hs
  | eof =>
    refine hquiet rfl ?_
    simp only [Backtest.step] at hs
    split at hs
    · rename_i hst
      cases hs
      exact h.flush hr (hread hst) 0
    · cases hs
  | move m =>
    obtain ⟨⟨e, fx⟩, hstep, rfl⟩ := Option.map_eq_some_iff.mp (show b.move m = some b' from hs)
    obtain ⟨-, hcfg, hproc, hgen, hrep, hreq⟩ := forwarded_queued hr (offers b.engine (m.act b.clock b.gateway))
    refine ⟨hcfg.trans h.settings, ?_, ?_⟩
    · show _ = (forward b.exchange _).processed ++ (forward b.exchange _).requests.toList
      rw [hproc, hreq, ← List.append_assoc, ← h.requests, h.settings, List.filterMap_append]
      rfl
    · have hold := h.reports
      unfold undelivered at hold ⊢
      rw [List.filterMap_append, show b.logs (.move m) = forwarded b.exchange _ from rfl, forwarded_handed, List.append_nil]
      show _ ++ List.map seen (if b.handing then (forward b.exchange _).reports.toList.tail else _) =
        List.map seen (forward b.exchange _).generated
      rw [hrep, hgen]
      exact hold
  | go =>
    cases go_cases hs with
    | handed hdel hh hs =>
      refine hquiet (logs_handing hh) ?_
      unfold Backtest.handed at hs
      split_ifs at hs
      cases hs
      refine ⟨h.settings, h.requests, ?_⟩
      have hold := h.reports
      unfold undelivered at hold ⊢
      rw [hh, if_pos rfl, hr.toList_reports (hset.handing hh).2.2, List.tail_cons] at hold
      exact hold
    | hand hst hh hdue hs =>
      rw [logs_draining (draining_delivering hst hh), if_pos hdue]
      exact h.hand hr hh (ExchangeSim.due_count hdue).1 hs
    | play hst hh hdue hs =>
      obtain ⟨⟨e, fx⟩, hstep, rfl⟩ := Option.map_eq_some_iff.mp hs
      rw [logs_draining (draining_delivering hst hh), hdue, if_neg (by decide), List.append_nil]
      exact h.grew hh hh (.onItch hr _ _)
    | read hst _ =>
      rw [logs_playing hst, List.append_nil]
      exact h.same rfl rfl
    | @empty round delivered _ hst hh hdue hs =>
      rw [logs_draining (draining_flushing hst hh), if_pos hdue]
      have hnext : Talks config { b with stage := .flushing round (delivered + 1) } log := h.same rfl rfl
      exact hnext.hand hr hh (ExchangeSim.due_count hdue).1 hs
    | stop hst hh hdue =>
      rw [logs_draining (draining_flushing hst hh), hdue, if_neg (by decide), List.append_nil]
      exact h.same rfl rfl
    | again hst hh hdue _ =>
      rw [logs_draining (draining_flushing hst hh), hdue, if_neg (by decide), List.append_nil]
      exact h.flush hr hh _

theorem Talks.new (config : BacktestConfig) : Talks config.sim (new config) [] := ⟨rfl, rfl, rfl⟩

theorem Talks.done (h : Talks config b log) (hset : Settled (fun _ => True) b) (hst : b.stage = .done) :
    log.filterMap Logged.handed = b.exchange.generated.map seen := by
  have hh : b.handing = false := by
    by_contra hc
    have := (hset.handing (by simpa using hc)).1
    rw [hst] at this
    cases this
  have hold := h.reports
  unfold undelivered at hold
  rw [hh, if_neg (by decide), RingBuffer.toList_eq_nil.mpr (hset.done hst), List.map_nil, List.append_nil] at hold
  exact hold

/-- **Run lemma.** -/
theorem conversation {config : BacktestConfig} {is : List Input}
    (hlat : config.sim.orderLatencyNs ≤ u64Max ∧ config.sim.reportLatencyNs ≤ u64Max)
    (hr : run (beside step observe) (new config, {}) is = some (b, r)) :
    Settled (fun _ => True) b ∧ Talks config.sim b r.log := by
  refine run_invariant (P := fun p : Backtest × Recorder => Settled (fun _ => True) p.1 ∧ Talks config.sim p.1 p.2.log)
    (fun p i p' hp hs => ?_) hr ⟨.new hlat.1 hlat.2, .new config⟩
  obtain ⟨hstep, hobs⟩ := beside_some hs
  have hmeets : Settled.Meets (fun _ => True) i := by
    cases i with
    | record rec => trivial
    | eof => trivial
    | move m => trivial
    | go => trivial
  refine ⟨(hp.1.step (o := fun _ => none) hmeets hstep).1, ?_⟩
  rw [hobs, observe_log]
  exact hp.2.step hp.1 hstep

end Backtest

/-- An execution. -/
def isExecuted : Ouch.Outbound → Bool
  | .executed _ => true
  | _ => false

namespace Logged

theorem shares_handed (log : List Logged) : (log.map shares).sum = ((log.filterMap handed).map fun x => executedShares x.1).sum := by
  induction log with
  | nil => rfl
  | cons x log ih =>
    cases x with
    | order m now accepted =>
      rw [List.map_cons, List.sum_cons, ih]
      exact Nat.zero_add _
    | report bs deliver =>
      rw [List.map_cons, List.sum_cons, ih]
      rfl

/-- The bytes are those of an execution. -/
def executes (bs : List Byte) : Bool :=
  match Ouch.decodeOutbound bs with
  | .ok ρ => isExecuted ρ
  | .error _ => false

def isExecution : Logged → Bool
  | .report bs _ => executes bs
  | _ => false

theorem countP_handed (log : List Logged) : log.countP isExecution = (log.filterMap handed).countP fun x => executes x.1 := by
  induction log with
  | nil => rfl
  | cons x log ih =>
    cases x with
    | order m now accepted =>
      rw [List.countP_cons, ih]
      rfl
    | report bs deliver =>
      show _ = ((bs, deliver) :: log.filterMap handed).countP _
      rw [List.countP_cons, List.countP_cons, ih]
      rfl

end Logged

namespace Backtest
variable {b : Backtest} {r : Recorder}

/-- **Nothing is lost on the way, and nothing is said twice.** In every state of every backtest the messages the gateway took
are, in order and each with its time of arrival, those the exchange has processed and those in its queue; the reports handed
over are, in order and each with its own time, the first ones generated, and the others are still to come. When the backtest
is over they are all of them, and `volume` is the sum of the shares of all executions generated, as long as it fits. -/
theorem log_is_the_conversation (config : BacktestConfig) (is : List Input) (b : Backtest) (r : Recorder)
    (hlat : config.sim.orderLatencyNs ≤ u64Max ∧ config.sim.reportLatencyNs ≤ u64Max) (hts : ∀ i ∈ is, Stamped i)
    (hr : run (beside step observe) (new config, {}) is = some (b, r)) :
    r.log.filterMap (Logged.request config.sim) = b.exchange.processed ++ b.exchange.requests.toList ∧
      r.log.filterMap Logged.handed ++ b.undelivered.map seen = b.exchange.generated.map seen ∧
      (b.stage = .done → r.log.filterMap Logged.handed = b.exchange.generated.map seen ∧
        (b.report r).volume = (b.exchange.generated.map fun x => executedShares x.bytes).sum % 2 ^ 64) := by
  obtain ⟨hset, htalks⟩ := conversation hlat hr
  obtain ⟨hfaith, -⟩ := observed hlat hts hr
  refine ⟨htalks.requests, htalks.reports, fun hst => ?_⟩
  have hall := htalks.done hset hst
  refine ⟨hall, hfaith.shares.trans ?_⟩
  rw [Logged.shares_handed, hall, List.map_map]
  rfl

theorem log_is_the_conversation_resting_order :
    ∃ b r, run (beside step observe) (new smallBacktest, {}) restingOrder = some (b, r) ∧ b.exchange.processed.length = 1 ∧
      (r.log.filterMap Logged.handed).length = 1 ∧ (b.report r).volume = 0 := by
  have hview : (run (beside step observe) (new smallBacktest, {}) restingOrder).map (fun p =>
      (p.1.stage.looping || p.1.stage.delivers, p.1.exchange.processed.length,
        p.1.exchange.generated.map fun x => executedShares x.bytes)) = some (false, 1, [0]) := by
    decide +kernel
  obtain ⟨⟨b, r⟩, hr, hv⟩ := Option.map_eq_some_iff.mp hview
  simp only [Prod.mk.injEq] at hv
  obtain ⟨hst, hproc, hgen⟩ := hv
  have hdone : b.stage = .done := by
    cases hst' : b.stage with
    | done => rfl
    | _ =>
      rw [hst'] at hst
      cases hst
  obtain ⟨-, -, hall⟩ := log_is_the_conversation smallBacktest restingOrder b r ⟨by decide, by decide⟩ restingOrder_stamped hr
  obtain ⟨hrep, hvol⟩ := hall hdone
  refine ⟨b, r, hr, hproc, ?_, by rw [hvol, hgen]; rfl⟩
  have hlen := congrArg List.length hgen
  rw [List.length_map] at hlen
  rw [hrep, List.length_map]
  exact hlen

end Backtest
end Replay

/-! ## Executions and fills -/

namespace Agreement
open Oms (Effect)

theorem accept_frame (s : ExchangeSim) (fx : List Effect) :
    (accept s fx).venue = s.venue ∧ (accept s fx).droppedReports = s.droppedReports := by
  induction fx generalizing s with
  | nil => exact ⟨rfl, rfl⟩
  | cons f fx ih =>
    cases f with
    | sent m now =>
      obtain ⟨hv, -, hd⟩ := s.send_frame m now
      obtain ⟨hv', hd'⟩ := ih (s.send m now).1
      exact ⟨hv'.trans hv, hd'.trans hd⟩
    | fill f => exact ih s
    | update info => exact ih s

/-- In every step reports stay dropped, and executions are counted upwards. -/
theorem System.Ok.counts {n : Nat} {s s' : System} {e : Step} (h : System.Ok n s) (hs : s.next e = some s') :
    s.sim.sim.droppedReports ≤ s'.sim.sim.droppedReports ∧ s.sim.sim.venue.matchNo ≤ s'.sim.sim.venue.matchNo := by
  have hmoved : ∀ {c : Sim.Call}, s.moved c = some s' →
      s.sim.sim.droppedReports ≤ s'.sim.sim.droppedReports ∧ s.sim.sim.venue.matchNo ≤ s'.sim.sim.venue.matchNo := by
    intro c hs
    obtain ⟨⟨t, x⟩, hstep, rfl⟩ := Option.map_eq_some_iff.mp hs
    have hc := Sim.State.step_cases hstep
    exact ⟨steps_dropped hc h.rings, steps_matchNo hc h.rings h.chronicled⟩
  cases e with
  | call ev =>
    simp only [System.next, Option.ite_none_left_eq_some, Option.map_eq_some_iff] at hs
    obtain ⟨-, ⟨t, fx⟩, -, rfl⟩ := hs
    obtain ⟨hv, hd⟩ := accept_frame s.sim.sim fx
    exact ⟨hd.ge, (congrArg Sim.Venue.matchNo hv).ge⟩
  | onItch bytes now => exact hmoved hs
  | advance now => exact hmoved hs
  | drain now => exact hmoved hs
  | hand now =>
    simp only [System.next] at hs
    split at hs
    · rename_i t x hstep
      have hc := Sim.State.step_cases hstep
      have hle := And.intro (steps_dropped hc h.rings) (steps_matchNo hc h.rings h.chronicled)
      split at hs
      · obtain ⟨⟨u, fx⟩, -, rfl⟩ := Option.map_eq_some_iff.mp hs
        exact hle
      · cases hs
        exact hle
    · cases hs
  | handed =>
    simp only [System.next, Option.ite_none_right_eq_some] at hs
    exact hmoved hs.2
  | drained => exact hmoved hs

end Agreement

namespace Oms
open OrderManager (badExecution)

/-- **A report that the protocol allows shows a fill exactly when it is an execution.** -/
theorem Wired.fills {s : Session} {ρ : Ouch.Outbound} {out : List Ouch.Outbound} {b : Protocol.Book Ouch.Token}
    {inbox : List Inbound} {used : List Nat} (hw : Wired s.manager (ρ :: out) b inbox used) (h : s.manager.Inv) (now : Nat) :
    Engine.fillCount (s.report ρ now).2 = if Replay.isExecuted ρ then 1 else 0 := by
  have hquiet : ∀ o : OrderManager × Option OrderInfo, Engine.fillCount (Session.finishReport o).2 = 0 := by
    rintro ⟨m, _ | info⟩
    · rfl
    · rfl
  cases ρ with
  | executed x =>
    obtain ⟨w, hl, -⟩ := hw.conforms.deliver
    obtain ⟨i, hi, hwork, ht, -, -, hbad, -⟩ :=
      OrderManager.execution_booked h now (hw.proper _ List.mem_cons_self) hl hw.unseen
    have hres : s.manager.resolve x.token = some (i, false) := (OrderManager.resolve_some h.tokens).mpr ⟨hi, ht⟩
    have hout := (OrderManager.onExecuted_handled h x now).applied_of hres hwork (by
      rintro (hc | hc)
      · cases hc
      · exact hbad hc)
    unfold Session.report
    dsimp only
    rw [hout]
    rfl
  | accepted a => exact hquiet _
  | canceled c => exact hquiet _
  | rejected x => exact hquiet _
  | replaced x => exact hquiet _

end Oms

namespace Replay.Backtest
variable {b b' : Backtest} {i : Input} {log : List Logged} {n : Nat} {o : Oms.Owners}

/-- Every report decoded, and every execution was a fill. -/
structure Filled (b : Backtest) (log : List Logged) : Prop where
  decoded : b.engine.stats.ouchErrors = 0
  fills : b.engine.stats.fills = log.countP Logged.isExecution

/-- The report that is handed over decodes, and is a fill when it is an execution. -/
theorem Filled.hand {st : Stage} {now : Nat} (h : Filled b log) (hok : (b.system o).Ok n) (hd : b.draining = some (now, false))
    (hdue : b.exchange.due now = true) (hdrop : b.exchange.droppedReports = 0) (hlt : b.exchange.venue.matchNo < 2 ^ 64)
    (hs : ({ b with stage := st } : Backtest).hand = some b') :
    Filled b' (log ++ [.report b.exchange.reports.front.bytes b.exchange.reports.front.deliver]) := by
  obtain ⟨taken, held, hl⟩ := hok.linked hdrop hlt
  obtain rfl := hl.idle fun now' hc => by
    rw [show (b.system o).sim.draining = b.draining from rfl, hd] at hc
    cases hc
  obtain ⟨hdec, ⟨out, bk, inbox, used, hw⟩, -⟩ := hl.agreed.deliver hok.rings (ExchangeSim.due_count hdue).1 hlt hok.session.inv
    b.exchange.reports.front.deliver
  have hdec : Ouch.decodeOutbound b.exchange.reports.front.bytes = .ok (Agreement.cut b.exchange.reports.front.msg) := hdec
  have hw : Oms.Wired b.engine.session.manager (Agreement.cut b.exchange.reports.front.msg :: out) bk inbox used := hw
  generalize Agreement.cut b.exchange.reports.front.msg = ρ at hdec hw
  obtain ⟨⟨e, fx⟩, hstep, rfl⟩ := Option.map_eq_some_iff.mp hs
  simp only [Engine.step, Option.ite_none_right_eq_some, Option.some.injEq] at hstep
  have he := (congrArg Prod.fst hstep.2).symm
  dsimp only at he
  rw [hdec] at he
  have hfills := Oms.Wired.fills (s := b.engine.session) hw hok.session.inv b.exchange.reports.front.deliver
  have hexec : Logged.isExecution (.report b.exchange.reports.front.bytes b.exchange.reports.front.deliver) = isExecuted ρ := by
    show Logged.executes _ = _
    unfold Logged.executes
    rw [hdec]
  refine ⟨?_, ?_⟩
  · rw [he]
    exact h.decoded
  · rw [List.countP_append, List.countP_singleton, hexec, ← h.fills, he]
    exact congrArg (b.engine.stats.fills + ·) hfills

/-- **Step lemma.** -/
theorem Filled.step (h : Filled b log) (hok : (b.system o).Ok n) (hdrop : b.exchange.droppedReports = 0)
    (hlt : b.exchange.venue.matchNo < 2 ^ 64) (hs : b.step i = some b') : Filled b' (log ++ b.logs i) := by
  cases step_shows hs with
  | quiet hlog ho =>
    simp only [Engine.Stats.orders, Prod.mk.injEq] at ho
    rw [hlog, List.append_nil]
    exact ⟨ho.2.2.1.trans h.decoded, ho.2.2.2.trans h.fills⟩
  | @moved m _ hs =>
    obtain ⟨⟨e, fx⟩, hstep, rfl⟩ := Option.map_eq_some_iff.mp hs
    have ho := move_counts b.exchange m b.clock rfl hstep
    simp only [Engine.Stats.orders, Prod.mk.injEq] at ho
    refine ⟨ho.2.2.1.trans h.decoded, ?_⟩
    rw [Logged.countP_handed, List.filterMap_append, show b.logs (.move m) = forwarded b.exchange _ from rfl, forwarded_handed,
      List.append_nil, ← Logged.countP_handed]
    exact ho.2.2.2.trans h.fills
  | report hlog hd hdue hs =>
    rw [hlog]
    exact h.hand hok hd hdue hdrop hlt hs

theorem step_counts (hset : Settled Costs b) (hok : (b.system o).Ok n) (hi : Settled.Meets Costs i) (hs : b.step i = some b') :
    Settled Costs b' ∧ (∃ o', (b'.system o').Ok n) ∧ b.exchange.droppedReports ≤ b'.exchange.droppedReports ∧
      b.exchange.venue.matchNo ≤ b'.exchange.venue.matchNo := by
  obtain ⟨hset', o', hreach⟩ := hset.step (o := o) hi hs
  obtain ⟨hok', hd, hm⟩ := hreach.invariant (Q := fun u => u.Ok n ∧ b.exchange.droppedReports ≤ u.sim.sim.droppedReports ∧
      b.exchange.venue.matchNo ≤ u.sim.sim.venue.matchNo) (fun u e u' hu he hs => by
    obtain ⟨hd, hm⟩ := hu.1.counts hs
    exact ⟨hu.1.step hs fun bytes now m heq hm => he bytes now heq m hm, hu.2.1.trans hd, hu.2.2.trans hm⟩) ⟨hok, le_refl _, le_refl _⟩
  exact ⟨hset', ⟨o', hok'⟩, hd, hm⟩

/-- **Every execution is one fill.** At every moment of every backtest on priced and time-stamped records in which no report was
dropped, every report handed over was decoded, and `fills` is the number of executions among them; when the backtest is
over it is the number of all executions that the exchange has reported. -/
theorem every_execution_is_a_fill (config : BacktestConfig) (hmax : config.engine.limits.maxPosition ≤ Risk.kInt64Max)
    (hlat : config.sim.orderLatencyNs ≤ u64Max ∧ config.sim.reportLatencyNs ≤ u64Max) (is : List Input) (b : Backtest)
    (r : Recorder) (hr : run (beside step observe) (new config, {}) is = some (b, r)) (hp : ∀ i ∈ is, Settled.Meets Costs i)
    (hd : b.exchange.droppedReports = 0) (hlt : b.exchange.venue.matchNo < 2 ^ 64) :
    b.engine.stats.ouchErrors = 0 ∧ (b.report r).fills = r.log.countP Logged.isExecution ∧
      (b.stage = .done → (b.report r).fills = b.exchange.generated.countP fun x => Logged.executes x.bytes) := by
  have hinv : Settled Costs b ∧ (∃ o, (b.system o).Ok config.sim.books.maxLevelsPerSide) ∧
      (b.exchange.droppedReports = 0 → b.exchange.venue.matchNo < 2 ^ 64 → Filled b r.log) := by
    refine run_history (H := fun _ (p : Backtest × Recorder) => Settled Costs p.1 ∧
      (∃ o, (p.1.system o).Ok config.sim.books.maxLevelsPerSide) ∧
      (p.1.exchange.droppedReports = 0 → p.1.exchange.venue.matchNo < 2 ^ 64 → Filled p.1 p.2.log)) (Q := Settled.Meets Costs)
      (fun past p i p' h hi hs => ?_) hr hp ⟨.new hlat.1 hlat.2, ⟨fun _ => none, .new config.engine.oms hmax _ config.sim⟩,
        fun _ _ => ⟨rfl, rfl⟩⟩
    obtain ⟨hset, ⟨o, hok⟩, hfill⟩ := h
    obtain ⟨hstep, hobs⟩ := beside_some hs
    obtain ⟨hset', hok', hdrop, hmatch⟩ := step_counts hset hok hi hstep
    refine ⟨hset', hok', fun hd hlt => ?_⟩
    rw [hobs, observe_log]
    exact (hfill (by omega) (by omega)).step hok (by omega) (by omega) hstep
  obtain ⟨-, -, hfill⟩ := hinv
  obtain ⟨hdec, hfills⟩ := hfill hd hlt
  refine ⟨hdec, hfills, fun hst => ?_⟩
  obtain ⟨hset, htalks⟩ := conversation hlat hr
  show b.engine.stats.fills = _
  rw [hfills, Logged.countP_handed, htalks.done hset hst, List.countP_map]
  rfl

/-- An instrument is listed, an offer comes, and the strategy takes a part of it. -/
def takenOffer : List Input :=
  [.record ⟨0, [82, 0, 1, 0, 0, 0, 0, 0, 0, 0, 0, 65, 66, 67, 68, 32, 32, 32, 32, 0, 0, 0, 0, 0, 100, 0, 0, 0, 0, 0, 0, 0, 0, 0,
      0, 0, 0, 0, 0]⟩, .go, .move .finish, .go,
    .record ⟨5, [65, 0, 1, 0, 0, 0, 0, 0, 0, 0, 0, 0, 0, 0, 0, 0, 0, 0, 1, 83, 0, 0, 0, 100, 65, 66, 67, 68, 32, 32, 32, 32, 0, 0,
      0, 10]⟩, .go, .move (.submit { locate := 1, price := 10, qty := 40 }), .move .ret, .move .ret, .move .finish, .go,
    .eof, .go, .move .ret, .move .finish, .go, .go, .move .ret, .move .ret, .move .finish, .go, .go, .go]

theorem takenOffer_costs : ∀ i ∈ takenOffer, Settled.Meets Costs i := by
  intro i hi
  cases i with
  | record rec =>
    simp only [takenOffer, List.mem_cons, Input.record.injEq, List.not_mem_nil, reduceCtorEq, or_false, false_or] at hi
    rcases hi with rfl | rfl
    · intro m hm
      cases hm
      trivial
    · intro m hm
      have hadd : Itch.decode [65, 0, 1, 0, 0, 0, 0, 0, 0, 0, 0, 0, 0, 0, 0, 0, 0, 0, 1, 83, 0, 0, 0, 100, 65, 66, 67, 68, 32, 32, 32, 32,
          0, 0, 0, 10] = .ok (.addOrder ⟨⟨1, 0, 0⟩, 1, .sell, 100, .ofText [65, 66, 67, 68], 10, false, [0, 0, 0, 0]⟩) := by
        decide +kernel
      obtain rfl := Except.ok.inj (hadd.symm.trans hm)
      exact (by decide : (1 : Int) ≤ 10)
  | eof => trivial
  | move m => trivial
  | go => trivial

theorem every_execution_is_a_fill_taken_offer :
    ∃ b r, run (beside step observe) (new smallBacktest, {}) takenOffer = some (b, r) ∧ (b.report r).fills = 1 ∧
      (b.exchange.generated.countP fun x => Logged.executes x.bytes) = 1 := by
  have hview : (run (beside step observe) (new smallBacktest, {}) takenOffer).map (fun p =>
      ([p.1.exchange.droppedReports, p.1.exchange.venue.matchNo, p.2.log.countP Logged.isExecution],
        p.1.stage.looping || p.1.stage.delivers)) = some ([0, 1, 1], false) := by
    decide +kernel
  obtain ⟨⟨b, r⟩, hr, hv⟩ := Option.map_eq_some_iff.mp hview
  simp only [Prod.mk.injEq, List.cons.injEq, and_true] at hv
  obtain ⟨⟨hd, hn, hcount⟩, hst⟩ := hv
  have hdone : b.stage = .done := by
    cases hst' : b.stage with
    | done => rfl
    | _ =>
      rw [hst'] at hst
      cases hst
  obtain ⟨-, hfills, hall⟩ := every_execution_is_a_fill smallBacktest (by decide) ⟨by decide, by decide⟩ takenOffer b r hr
    takenOffer_costs hd (by rw [hn]; decide)
  exact ⟨b, r, hr, hfills.trans hcount, (hall hdone).symm.trans (hfills.trans hcount)⟩

end Replay.Backtest
end OptiTrade
