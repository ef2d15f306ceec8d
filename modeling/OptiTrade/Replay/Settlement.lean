import OptiTrade.Agreement.System
import OptiTrade.Foundations.Simulation
import OptiTrade.Replay.Clock

/-! # The backtest as a system of two parties

What the loop of the backtest does is what a manager and a simulator may do to each other: the engine hides nothing from its
manager and adds no message, a round of deliveries is one drain, and the simulator gets exactly what the gateway was
handed. At the end nothing is on its way any more, but for requests that the bound on the rounds has cut off. -/

namespace OptiTrade
set_option autoImplicit false

open Runs
open Oms (Session Event Effect)
open Ouch (Inbound)
open Sim (ExchangeSim)
open Agreement (takes through accept Step)

namespace Sim.ExchangeSim
variable {s : ExchangeSim}

/-- Everything in the queues comes before the end of time. -/
structure Dated (s : ExchangeSim) : Prop where
  rings : s.Rings
  latency : s.config.orderLatencyNs ≤ u64Max ∧ s.config.reportLatencyNs ≤ u64Max
  requests : ∀ q ∈ s.requests.toList, q.arrival ≤ u64Max
  reports : ∀ r ∈ s.reports.toList, r.deliver ≤ u64Max

namespace Dated

theorem new {config : SimConfig} (ho : config.orderLatencyNs ≤ u64Max) (hr : config.reportLatencyNs ≤ u64Max) :
    (new config).Dated where
  rings := .new config
  latency := ⟨ho, hr⟩
  requests := fun q hq => by cases hq
  reports := fun r hr => by cases hr

theorem publish (h : s.Dated) (v : Venue) : (s.publish v).Dated := by
  obtain ⟨rs, d, hp⟩ := publish_published h.rings v
  have hcfg : (s.publish v).config = s.config := hp.queued.config
  refine ⟨hp.queued.rings, by rw [hcfg]; exact h.latency, fun q hq => ?_, fun r hr => ?_⟩
  · rw [hp.queued.requests] at hq
    exact h.requests q hq
  · rw [hp.queued.reports] at hr
    rcases List.mem_append.mp hr with hr | hr
    · exact h.reports r hr
    · obtain ⟨m, -, rfl⟩ := List.mem_map.mp (hp.sublist.subset hr)
      exact saturatingAdd_le h.latency.2

theorem process {now : Nat} (h : s.Dated) (ha : s.arrived now = true) : s.process.Dated := by
  have hpop : s.popped.Dated := by
    refine ⟨h.rings.popped, h.latency, fun q hq => h.requests q ?_, h.reports⟩
    rw [h.rings.toList_requests (arrived_count ha).1]
    exact List.mem_cons_of_mem _ hq
  exact hpop.publish _

theorem advance (h : s.Dated) (now : Nat) : (s.advance now).Dated :=
  advance_invariant (fun _ hs ha => hs.process ha) h

theorem onItch (h : s.Dated) (m : Option Itch.Message) (now : Nat) : (s.onItch m now).Dated := by
  cases m with
  | none => exact (h.advance now).publish _
  | some m => exact (h.advance now).publish _

theorem send (h : s.Dated) (m : Inbound) (now : Nat) : (s.send m now).1.Dated := by
  cases ht : (s.send m now).2 with
  | false =>
    rw [send_refused ht]
    exact h
  | true =>
    have hrings := h.rings.send m now
    obtain ⟨he, hroom⟩ := send_taken h.rings ht
    rw [he] at hrings ⊢
    refine ⟨hrings, h.latency, fun q hq => ?_, h.reports⟩
    dsimp only at hq
    rw [RingBuffer.toList_push _ _ hroom] at hq
    rcases List.mem_append.mp hq with hq | hq
    · exact h.requests q hq
    · rw [List.mem_singleton.mp hq]
      exact saturatingAdd_le h.latency.1

theorem handed (h : s.Dated) (hc : s.reports.count ≠ 0) : s.handed.Dated := by
  refine ⟨h.rings.handed, h.latency, h.requests, fun r hr => h.reports r ?_⟩
  rw [h.rings.toList_reports hc]
  exact List.mem_cons_of_mem _ hr

theorem arrived (h : s.Dated) (hc : s.requests.count ≠ 0) : s.arrived u64Max = true := by
  have hfront : s.requests.front.arrival ≤ u64Max := by
    refine h.requests _ ?_
    rw [h.rings.toList_requests hc]
    exact List.mem_cons_self
  unfold ExchangeSim.arrived
  exact decide_eq_true ⟨hc, hfront⟩

theorem advance_end (h : s.Dated) : (s.advance u64Max).requests.count = 0 := by
  have hloop : ∀ n (t : ExchangeSim), t.Dated → t.requests.count = n → (advanceUpTo u64Max n t).requests.count = 0 := by
    intro n
    induction n with
    | zero => exact fun t _ hn => hn
    | succ n ih =>
      intro t ht hn
      have ha := ht.arrived (by omega)
      unfold advanceUpTo
      rw [if_pos ha]
      refine ih t.process (ht.process ha) ?_
      rw [process_count ht.rings, hn]
      omega
  exact hloop _ s h rfl

theorem none_due (h : s.Dated) (hd : s.due u64Max = false) : s.reports.count = 0 := by
  by_contra hc
  have hfront : s.reports.front.deliver ≤ u64Max := by
    refine h.reports _ ?_
    rw [h.rings.toList_reports hc]
    exact List.mem_cons_self
  have hdue : s.due u64Max = true := decide_eq_true ⟨hc, hfront⟩
  rw [hd] at hdue
  cases hdue

end Dated
end Sim.ExchangeSim

namespace Replay

/-! ## What the gateway is handed -/

theorem accept_taken (s : ExchangeSim) (w : Oms.World) (hw : w.gateway = takes s) (now : Nat) (o : Option Inbound)
    {rest : List Effect} (hrest : Session.sentIn rest = []) :
    accept s (Session.taken w now o ++ rest) = Backtest.forward s ((o.map fun m => (m, now)).toList) := by
  cases o with
  | none => exact Agreement.accept_nil hrest
  | some m =>
    show accept s ((if w.gateway m then [Effect.sent m now] else []) ++ rest) = (s.send m now).1
    have hsend : w.gateway m = (s.send m now).2 := by rw [hw, Agreement.send_takes]
    cases hg : w.gateway m with
    | true => exact Agreement.accept_nil (s := (s.send m now).1) hrest
    | false => exact (Agreement.accept_nil hrest).trans (ExchangeSim.send_refused (hsend.symm.trans hg)).symm

theorem accept_finishCall {α : Type} (s : ExchangeSim) (t : Session) (out : Oms.OrderManager.Outcome α) (now : Nat) (w : Oms.World)
    (hw : w.gateway = takes s) :
    accept s (t.finishCall out now w).2 = Backtest.forward s ((out.sent.map fun m => (m, now)).toList) := by
  unfold Session.finishCall
  split
  · exact accept_taken s w hw now out.sent rfl
  · rw [← List.append_nil (Session.taken w now out.sent)]
    exact accept_taken s w hw now out.sent rfl

theorem gateway_takes (b : Backtest) : b.gateway = takes b.exchange := by
  funext m
  exact Agreement.send_takes b.exchange m b.clock

/-- **What the engine hands over.** A step inside a call of the engine moves its session by at most one event, that is no
report, and the gateway is handed what the event sends. -/
theorem offered {e e' : Engine} {fx : List Engine.Shown} (s : ExchangeSim) (m : Move) (t : Nat) {gateway : Inbound → Bool}
    (hg : gateway = takes s) (hs : e.step (m.act t gateway) = some (e', fx)) :
    (e'.session = e.session ∧ Backtest.forward s (offers e (m.act t gateway)) = s) ∨
    ∃ ev gx, e.session.step ev = some (e'.session, gx) ∧ through (takes s) ev = ev ∧ Oms.System.isReport ev = false ∧
      Backtest.forward s (offers e (m.act t gateway)) = accept s gx := by
  subst hg
  have hw : (e.world (takes s)).gateway = takes s := rfl
  cases m with
  | submit req =>
    simp only [Move.act, Engine.step, Option.ite_none_right_eq_some, Option.some.injEq] at hs
    obtain ⟨hc, hs⟩ := hs
    unfold Engine.submit at hs
    by_cases ht : e.trading
    · rw [if_pos ht] at hs
      rw [show e' = _ from (congrArg Prod.fst hs).symm]
      refine .inr ⟨.submit req t (e.world (takes s)), _, if_pos (Engine.inCallback_mayCall hc), rfl, rfl, ?_⟩
      simp only [Move.act, offers, if_pos ht]
      exact (accept_finishCall s e.session _ t _ hw).symm
    · rw [if_neg ht] at hs
      obtain ⟨rfl, rfl⟩ := Prod.mk.inj hs
      refine .inl ⟨rfl, ?_⟩
      unfold offers
      simp only [Move.act, if_neg ht]
      rfl
  | cancel id =>
    simp only [Move.act, Engine.step, Option.ite_none_right_eq_some, Option.some.injEq] at hs
    obtain ⟨hc, hs⟩ := hs
    rw [show e' = _ from (congrArg Prod.fst hs).symm]
    refine .inr ⟨.cancel id t (e.world (takes s)), _, if_pos (Engine.inCallback_mayCall hc), rfl, rfl, ?_⟩
    exact (accept_finishCall s e.session _ t _ hw).symm
  | replace id price qty =>
    simp only [Move.act, Engine.step, Option.ite_none_right_eq_some, Option.some.injEq] at hs
    obtain ⟨hc, hs⟩ := hs
    unfold Engine.replace at hs
    by_cases ht : e.trading
    · rw [if_pos ht] at hs
      rw [show e' = _ from (congrArg Prod.fst hs).symm]
      refine .inr ⟨.replace id price qty t (e.world (takes s)), _, if_pos (Engine.inCallback_mayCall hc), rfl, rfl, ?_⟩
      simp only [Move.act, offers, if_pos ht]
      exact (accept_finishCall s e.session _ t _ hw).symm
    · rw [if_neg ht] at hs
      obtain ⟨rfl, rfl⟩ := Prod.mk.inj hs
      refine .inl ⟨rfl, ?_⟩
      unfold offers
      simp only [Move.act, if_neg ht]
      rfl
  | advance =>
    obtain ⟨u, gx, hstep, rfl, -⟩ := Engine.inSession_some hs
    refine .inr ⟨.advance (e.world (takes s)), gx, hstep, rfl, rfl, ?_⟩
    simp only [Session.step] at hstep
    split at hstep
    · rename_i cursor last sent now rest hst
      obtain ⟨-, rfl⟩ := Prod.mk.inj (Option.some.inj hstep)
      cases cursor with
      | none =>
        simp only [Move.act, offers, hst]
        rfl
      | some i =>
        simp only [Move.act, offers, hst]
        by_cases hlast : last < (e.session.manager.slots i).info.id
        · rw [if_pos hlast, if_pos (.inl hlast)]
          rfl
        · rw [if_neg hlast]
          by_cases hpend : (e.session.manager.slots i).info.status = .pendingCancel
          · rw [if_pos (.inr hpend), if_neg (by simpa using hpend)]
            rfl
          · rw [if_neg (by simp [hlast, hpend]), if_pos hpend]
            exact (accept_finishCall s _ _ now _ hw).symm
    · cases hstep
  | ret =>
    simp only [Move.act, Engine.step] at hs
    split at hs
    · obtain ⟨rfl, -⟩ := Prod.mk.inj (Option.some.inj hs)
      exact .inl ⟨rfl, rfl⟩
    · obtain ⟨u, gx, hstep, rfl, -⟩ := Engine.inSession_some hs
      refine .inr ⟨.ret, gx, hstep, rfl, rfl, (Agreement.accept_nil ?_).symm⟩
      simp only [Session.step] at hstep
      split at hstep
      · obtain ⟨-, rfl⟩ := Prod.mk.inj (Option.some.inj hstep)
        rfl
      · obtain ⟨-, rfl⟩ := Prod.mk.inj (Option.some.inj hstep)
        rfl
      · cases hstep
  | finish =>
    simp only [Move.act, Engine.step] at hs
    split at hs
    · rename_i now hst hp
      obtain ⟨rfl, -⟩ := Prod.mk.inj (Option.some.inj hs)
      unfold Engine.retryGapCancels
      split_ifs
      · exact .inl ⟨rfl, rfl⟩
      · exact .inr ⟨.cancelAll now, [], Engine.cancelAll_step hst now, rfl, rfl, rfl⟩
    · obtain ⟨rfl, -⟩ := Prod.mk.inj (Option.some.inj hs)
      exact .inl ⟨rfl, rfl⟩
    · cases hs

/-- A step inside a call of the engine finds the call in progress. -/
theorem act_busy {e e' : Engine} {fx : List Engine.Shown} (h : e.Ok) (m : Move) {t : Nat} {gateway : Inbound → Bool}
    (hs : e.step (m.act t gateway) = some (e', fx)) : e.phase ≠ .idle := by
  cases m with
  | finish =>
    simp only [Move.act, Engine.step] at hs
    split at hs
    · rename_i hp
      rw [hp]
      exact fun hc => by cases hc
    · rename_i hp
      rw [hp]
      exact fun hc => by cases hc
    · cases hs
  | submit req => exact h.inner_busy rfl hs
  | cancel id => exact h.inner_busy rfl hs
  | replace id price qty => exact h.inner_busy rfl hs
  | advance => exact h.inner_busy rfl hs
  | ret => exact h.inner_busy rfl hs

theorem forward_dated {s : ExchangeSim} (h : s.Dated) (ms : List (Inbound × Nat)) :
    (Backtest.forward s ms).Dated ∧ (Backtest.forward s ms).reports = s.reports := by
  induction ms generalizing s with
  | nil => exact ⟨h, rfl⟩
  | cons x ms ih =>
    obtain ⟨h₁, h₂⟩ := ih (h.send x.1 x.2)
    refine ⟨h₁, h₂.trans ?_⟩
    unfold ExchangeSim.send
    split_ifs
    · rfl
    · rfl
    · rfl

/-! ## The system of a backtest -/

namespace Backtest

/-- What the loop can do next. -/
inductive Goes (b : Backtest) : Backtest → Prop
  /-- The engine is done with a report. -/
  | handed {b' : Backtest} : b.stage.delivers = true → b.handing = true → b.handed = some b' → Goes b b'
  /-- A report is handed over before a record is played. -/
  | hand {payload : List Byte} {b' : Backtest} : b.stage = .delivering payload → b.handing = false →
      b.exchange.due b.now = true → b.hand = some b' → Goes b b'
  | play {payload : List Byte} {b' : Backtest} : b.stage = .delivering payload → b.handing = false →
      b.exchange.due b.now = false → b.play payload = some b' → Goes b b'
  | read : b.stage = .playing → b.engine.phase = .idle → Goes b { b with stage := .reading }
  /-- A report is handed over in a round of the flush. -/
  | empty {round delivered : Nat} {b' : Backtest} : b.stage = .flushing round delivered → b.handing = false →
      b.exchange.due kEndOfTime = true → ({ b with stage := .flushing round (delivered + 1) } : Backtest).hand = some b' → Goes b b'
  /-- A round has found nothing. -/
  | stop {round : Nat} : b.stage = .flushing round 0 → b.handing = false → b.exchange.due kEndOfTime = false →
      Goes b { b with stage := .done }
  | again {round delivered : Nat} : b.stage = .flushing round delivered → b.handing = false →
      b.exchange.due kEndOfTime = false → delivered ≠ 0 → Goes b (b.flush (round + 1))

theorem go_cases {b b' : Backtest} (hs : b.go = some b') : Goes b b' := by
  unfold Backtest.go at hs
  cases hst : b.stage with
  | reading =>
    rw [hst] at hs
    cases hs
  | done =>
    rw [hst] at hs
    cases hs
  | delivering payload =>
    rw [hst] at hs
    dsimp only at hs
    split_ifs at hs with hh hdue
    · exact .handed (by rw [hst]; rfl) hh hs
    · exact .hand hst (by simpa using hh) hdue hs
    · exact .play hst (by simpa using hh) (by simpa using hdue) hs
  | playing =>
    rw [hst] at hs
    dsimp only at hs
    split_ifs at hs with hp
    cases hs
    exact .read hst hp
  | flushing round delivered =>
    rw [hst] at hs
    dsimp only at hs
    split_ifs at hs with hh hdue hzero
    · exact .handed (by rw [hst]; rfl) hh hs
    · exact .empty hst (by simpa using hh) hdue hs
    · cases hs
      exact .stop (hzero ▸ hst) (by simpa using hh) (by simpa using hdue)
    · cases hs
      exact .again hst (by simpa using hh) (by simpa using hdue) hzero

/-- The drain in progress, and whether its callback runs. -/
def draining (b : Backtest) : Option (Nat × Bool) :=
  match b.stage with
  | .delivering _ => some (b.now, b.handing)
  | .flushing .. => some (kEndOfTime, b.handing)
  | .reading | .playing | .done => none

theorem draining_delivering {b : Backtest} {payload : List Byte} (hst : b.stage = .delivering payload) (hh : b.handing = false) :
    b.draining = some (b.now, false) := by
  unfold draining
  rw [hst, hh]

theorem draining_flushing {b : Backtest} {round delivered : Nat} (hst : b.stage = .flushing round delivered)
    (hh : b.handing = false) : b.draining = some (kEndOfTime, false) := by
  unfold draining
  rw [hst, hh]

/-- The manager of the engine and the simulator. -/
def system (b : Backtest) (o : Oms.Owners) : Agreement.System := ⟨b.engine.session, ⟨b.exchange, b.draining⟩, o⟩

/-- What a step brings to the market meets `W`. -/
def Brings (W : List Byte → Prop) (e : Step) : Prop := ∀ bytes now, e = .onItch bytes now → W bytes

theorem brings_of_ne {W : List Byte → Prop} {e : Step} (h : ∀ bytes now, e ≠ .onItch bytes now) : Brings W e :=
  fun bytes now he => absurd he (h bytes now)

/-- The invariant of a run on records that meet `W`. -/
structure Settled (W : List Byte → Prop) (b : Backtest) : Prop where
  engine : b.engine.Ok
  exchange : b.exchange.Dated
  handing : b.handing = true → b.stage.delivers = true ∧ (∀ round, b.stage ≠ .flushing round 0) ∧ b.exchange.reports.count ≠ 0
  idle : b.handing = false → b.stage ≠ .playing → b.engine.phase = .idle
  payload : ∀ bytes, b.stage = .delivering bytes → W bytes
  quiet : ∀ round, b.stage = .flushing round 0 → b.handing = false → b.exchange.requests.count = 0
  done : b.stage = .done → b.exchange.reports.count = 0

/-- `t` becomes the system of `b`, which is in order. -/
def Becomes (W : List Byte → Prop) (t : Agreement.System) (b : Backtest) : Prop :=
  Settled W b ∧ ∃ o, Reaches Agreement.System.next (Brings W) t (b.system o)

variable {W : List Byte → Prop} {b b' : Backtest} {o : Oms.Owners}

theorem Settled.new {config : BacktestConfig} (ho : config.sim.orderLatencyNs ≤ u64Max) (hr : config.sim.reportLatencyNs ≤ u64Max) :
    Settled W (new config) where
  engine := .new config.engine
  exchange := .new ho hr
  handing := fun h => by cases h
  idle := fun _ _ => rfl
  payload := fun _ h => by cases h
  quiet := fun _ h => by cases h
  done := fun h => by cases h

namespace Settled

theorem busy (h : Settled W b) (hp : b.engine.phase ≠ .idle) : b.handing = true ∨ b.stage = .playing := by
  by_contra hc
  obtain ⟨hh, hst⟩ := not_or.mp hc
  exact hp (h.idle (by simpa using hh) hst)

theorem mayCall (h : Settled W b) (hp : b.engine.phase ≠ .idle) : (b.system o).sim.mayCall = true := by
  show Sim.State.mayCall ⟨b.exchange, b.draining⟩ = true
  unfold draining Sim.State.mayCall
  rcases h.busy hp with hh | hst
  · rw [hh]
    cases b.stage <;> rfl
  · rw [hst]

theorem move (h : Settled W b) (m : Move) (hs : b.move m = some b') : Becomes W (b.system o) b' := by
  obtain ⟨⟨e, fx⟩, hstep, rfl⟩ := Option.map_eq_some_iff.mp hs
  have hp := act_busy h.engine m hstep
  have hbusy := h.busy hp
  have hno : ∀ {p : Prop}, b.handing = false → b.stage ≠ .playing → p := by
    intro p hh hst
    exact (hp (h.idle hh hst)).elim
  obtain ⟨hdated, hreports⟩ := forward_dated h.exchange (offers b.engine (m.act b.clock b.gateway))
  refine ⟨⟨h.engine.step hstep, hdated, fun hh => ?_, hno, h.payload, fun round hst hh => ?_, fun hst => ?_⟩, ?_⟩
  · obtain ⟨h₁, h₂, h₃⟩ := h.handing hh
    refine ⟨h₁, h₂, ?_⟩
    show (forward b.exchange _).reports.count ≠ 0
    rw [hreports]
    exact h₃
  · refine hno hh ?_
    rw [show b.stage = .flushing round 0 from hst]
    exact fun hc => by cases hc
  · show (forward b.exchange _).reports.count = 0
    rw [hreports]
    exact h.done hst
  · rcases offered b.exchange m b.clock (gateway_takes b) hstep with ⟨hsame, hfwd⟩ | ⟨ev, gx, hev, hthrough, hrep, hfwd⟩
    · refine ⟨o, ?_⟩
      have heq : ({ b with
            engine := e
            exchange := forward b.exchange (offers b.engine (m.act b.clock b.gateway))
            sends := b.sends ++ (offers b.engine (m.act b.clock b.gateway)).map Prod.snd } : Backtest).system o = b.system o := by
        show (⟨e.session, ⟨forward b.exchange _, b.draining⟩, o⟩ : Agreement.System) = _
        rw [hsame, hfwd]
        rfl
      rw [heq]
      exact .refl _
    · refine ⟨(Session.sentIn gx).foldl (Oms.Owners.note ev.request) o, .single (e := .call ev) ?_ (brings_of_ne fun _ _ he => by cases he)⟩
      unfold Agreement.System.next
      dsimp only
      rw [hrep, h.mayCall hp, if_neg (by decide)]
      show (b.engine.session.step (through (takes b.exchange) ev)).map _ = _
      rw [hthrough, hev]
      show some (⟨e.session, ⟨accept b.exchange gx, b.draining⟩, _⟩ : Agreement.System) = _
      rw [← hfwd]
      rfl

/-- A report is handed to the engine. -/
theorem hand (h : Settled W b) (now : Nat) (hd : b.draining = some (now, false)) (hh : b.handing = false)
    (hst : b.stage.delivers = true) (hnz : ∀ round, b.stage ≠ .flushing round 0) (hdue : b.exchange.due now = true) (hs : b.hand = some b') : Becomes W (b.system o) b' := by
  obtain ⟨⟨e, fx⟩, hstep, rfl⟩ := Option.map_eq_some_iff.mp hs
  have hcalm : b.engine.session.stack = [] :=
    h.engine.calm (h.idle hh fun hc => by rw [hc] at hst; cases hst)
  have hd' : ({ b with handing := true } : Backtest).draining = some (now, true) := by
    unfold draining at hd ⊢
    dsimp only
    cases hstage : b.stage with
    | delivering payload =>
      rw [hstage] at hd
      rw [(Prod.mk.inj (Option.some.inj hd)).1]
    | flushing round delivered =>
      rw [hstage] at hd
      rw [(Prod.mk.inj (Option.some.inj hd)).1]
    | reading =>
      rw [hstage] at hd
      cases hd
    | playing =>
      rw [hstage] at hd
      cases hd
    | done =>
      rw [hstage] at hd
      cases hd
  refine ⟨⟨h.engine.step hstep, h.exchange, fun _ => ⟨hst, hnz, (ExchangeSim.due_count hdue).1⟩, fun hc => (by cases hc), h.payload,
    fun _ _ hc => (by cases hc), h.done⟩, o, .single (e := .hand b.exchange.reports.front.deliver) ?_
    (brings_of_ne fun _ _ he => by cases he)⟩
  have hsim : (b.system o).sim.step .hand = some (⟨b.exchange, some (now, true)⟩, .report b.exchange.reports.front) := by
    show Sim.State.step ⟨b.exchange, b.draining⟩ .hand = _
    rw [hd]
    exact if_pos hdue
  unfold Agreement.System.next
  dsimp only
  rw [hsim]
  dsimp only
  have hend : ∀ u : Session, e.session = u → some (⟨u, ⟨b.exchange, some (now, true)⟩, o⟩ : Agreement.System) =
      some (system { b with handing := true, engine := e, clock := b.exchange.reports.front.deliver
                            calls := b.calls ++ [b.exchange.reports.front.deliver] } o) := by
    rintro u rfl
    rw [← hd']
    rfl
  have hidle : b.engine.step (.ouch (Ouch.decodeOutbound b.exchange.reports.front.bytes).toOption b.exchange.reports.front.deliver) =
      some (e, fx) := hstep
  simp only [Engine.step, Option.ite_none_right_eq_some, Option.some.injEq] at hidle
  have he := congrArg Prod.fst hidle.2
  cases hdec : Ouch.decodeOutbound b.exchange.reports.front.bytes with
  | error err =>
    rw [hdec] at he
    exact hend _ (congrArg Engine.session he).symm
  | ok ρ =>
    rw [hdec] at he
    show ((if b.engine.session.stack.isEmpty then some (b.engine.session.report ρ _) else none).map _) = _
    rw [hcalm]
    exact hend _ (congrArg Engine.session he).symm

/-- The engine is done with the report. -/
theorem handed (h : Settled W b) (hh : b.handing = true) (hs : b.handed = some b') : Becomes W (b.system o) b' := by
  unfold Backtest.handed at hs
  split_ifs at hs with hp
  cases hs
  obtain ⟨hdel, hnz, hcount⟩ := h.handing hh
  refine ⟨⟨h.engine, h.exchange.handed hcount, fun hc => (by cases hc), fun _ _ => hp, h.payload,
    fun round hst _ => absurd hst (hnz round), ?_⟩, o, .single (e := .handed) ?_ (brings_of_ne fun _ _ he => by cases he)⟩
  · intro hst
    rw [show b.stage = .done from hst] at hdel
    cases hdel
  · have hstack : b.engine.session.stack.isEmpty = true := by
      rw [h.engine.calm hp]
      rfl
    unfold Agreement.System.next
    dsimp only
    rw [if_pos (show (b.system o).session.stack.isEmpty = true from hstack)]
    show (Sim.State.step ⟨b.exchange, b.draining⟩ .handed).map _ = _
    unfold Backtest.system draining
    dsimp only
    rw [hh]
    cases hst : b.stage with
    | delivering payload => rfl
    | flushing round delivered => rfl
    | reading =>
      rw [hst] at hdel
      cases hdel
    | playing =>
      rw [hst] at hdel
      cases hdel
    | done =>
      rw [hst] at hdel
      cases hdel

theorem drained {t : Agreement.System} {now : Nat} (ht : t.sim.draining = some (now, false)) (hdue : t.sim.sim.due now = false) :
    Reaches Agreement.System.next (Brings W) t { t with sim := { t.sim with draining := none } } := by
  refine .single (e := .drained) ?_ (brings_of_ne fun _ _ he => by cases he)
  show (t.sim.step .drained).map _ = _
  unfold Sim.State.step
  rw [ht]
  dsimp only
  rw [hdue]
  rfl

/-- The record is played. -/
theorem play {payload : List Byte} (h : Settled W b) (hst : b.stage = .delivering payload) (hh : b.handing = false)
    (hdue : b.exchange.due b.now = false) (hs : b.play payload = some b') : Becomes W (b.system o) b' := by
  obtain ⟨⟨e, fx⟩, hstep, rfl⟩ := Option.map_eq_some_iff.mp hs
  have hp : b.engine.phase = .idle := h.idle hh (by rw [hst]; intro hc; cases hc)
  have hd : b.draining = some (b.now, false) := draining_delivering hst hh
  refine ⟨⟨h.engine.step hstep, h.exchange.onItch _ _, fun hc => ?_, fun _ hc => absurd rfl hc, fun _ hc => (by cases hc),
    fun _ hc => (by cases hc), fun hc => (by cases hc)⟩, o, ?_⟩
  · rw [show b.handing = true from hc] at hh
    cases hh
  · -- the drain ends, the market message comes, and the mark of the book if it changed
    have hmarket : Reaches Agreement.System.next (Brings W) (b.system o)
        ⟨b.engine.session, ⟨b.exchange.onItch (Itch.decode payload).toOption b.now, none⟩, o⟩ := by
      refine (drained (t := b.system o) hd hdue).snoc (e := .onItch payload b.now) rfl fun bytes now heq => ?_
      obtain ⟨rfl, -⟩ := Step.onItch.inj heq
      exact h.payload payload hst
    refine hmarket.trans ?_
    have hidle : b.engine.step (.itch (Itch.decode payload).toOption b.now) = some (e, fx) := hstep
    simp only [Engine.step, Option.ite_none_right_eq_some, Option.some.injEq] at hidle
    have hm := Engine.onItch_marked (h.engine.calm hp) (Itch.decode payload).toOption b.now
    rw [hidle.2] at hm
    show Reaches _ _ _ (⟨e.session, ⟨b.exchange.onItch (Itch.decode payload).toOption b.now, none⟩, o⟩ : Agreement.System)
    rcases hm.session with hsame | ⟨loc, price, hmark⟩
    · rw [hsame]
      exact .refl _
    · refine .single (e := .call (.mark loc price)) ?_ (brings_of_ne fun _ _ he => by cases he)
      show (b.engine.session.step (.mark loc price)).map _ = _
      rw [hmark]
      rfl

/-- A round of the flush begins. -/
theorem flush (h : Settled W b) (hh : b.handing = false) (hst : b.stage ≠ .playing) (round : Nat)
    (hcut : kMaxFlushRounds ≤ round → b.exchange.reports.count = 0) :
    Becomes W ⟨b.engine.session, ⟨b.exchange, none⟩, o⟩ (b.flush round) := by
  have hp := h.idle hh hst
  have hno : ∀ {p : Prop}, b.handing = true → p := fun hc => by
    rw [hh] at hc
    cases hc
  unfold Backtest.flush
  split_ifs with hround
  · refine ⟨⟨h.engine, h.exchange.advance _, hno, fun _ _ => hp, fun _ hc => (by cases hc), fun _ _ _ => h.exchange.advance_end,
      fun hc => (by cases hc)⟩, o, ?_⟩
    have hadv : Reaches Agreement.System.next (Brings W) ⟨b.engine.session, ⟨b.exchange, none⟩, o⟩
        ⟨b.engine.session, ⟨b.exchange.advance kEndOfTime, none⟩, o⟩ :=
      .single (e := .advance kEndOfTime) rfl (brings_of_ne fun _ _ he => by cases he)
    refine hadv.snoc (e := .drain kEndOfTime) ?_ (brings_of_ne fun _ _ he => by cases he)
    show some (⟨b.engine.session, ⟨b.exchange.advance kEndOfTime, some (kEndOfTime, false)⟩, o⟩ : Agreement.System) =
      some ⟨b.engine.session, ⟨b.exchange.advance kEndOfTime, some (kEndOfTime, b.handing)⟩, o⟩
    rw [hh]
  · exact ⟨⟨h.engine, h.exchange, hno, fun _ _ => hp, fun _ hc => (by cases hc), fun _ hc => (by cases hc),
      fun _ => hcut (not_lt.mp hround)⟩, o, .refl _⟩

theorem go (h : Settled W b) (hs : b.go = some b') : Becomes W (b.system o) b' := by
  have hno : b.handing = false → ∀ {p : Prop}, b.handing = true → p := fun hh p hc => by
    rw [hh] at hc
    cases hc
  have hend : ∀ {round delivered : Nat}, b.stage = .flushing round delivered → b.handing = false →
      b.draining = some (kEndOfTime, false) ∧ b.engine.phase = .idle := by
    intro round delivered hst hh
    exact ⟨draining_flushing hst hh, h.idle hh (by rw [hst]; intro hc; cases hc)⟩
  cases go_cases hs with
  | handed _ hh hs => exact h.handed hh hs
  | hand hst hh hdue hs =>
    refine h.hand b.now (draining_delivering hst hh) hh (by rw [hst]; rfl) (fun _ hc => ?_) hdue hs
    rw [hst] at hc
    cases hc
  | play hst hh hdue hs => exact h.play hst hh hdue hs
  | read hst hp =>
    have hh : b.handing = false := by
      by_contra hc
      have := (h.handing (by simpa using hc)).1
      rw [hst] at this
      cases this
    refine ⟨⟨h.engine, h.exchange, hno hh, fun _ _ => hp, fun _ hc => (by cases hc), fun _ hc => (by cases hc),
      fun hc => (by cases hc)⟩, o, ?_⟩
    have heq : ({ b with stage := .reading } : Backtest).system o = b.system o := by
      unfold Backtest.system draining
      rw [hst]
    rw [heq]
    exact .refl _
  | @empty round delivered _ hst hh hdue hs =>
    obtain ⟨hd, hidle⟩ := hend hst hh
    -- one more report of this round
    have h' : Settled W { b with stage := .flushing round (delivered + 1) } :=
      ⟨h.engine, h.exchange, hno hh, fun _ _ => hidle, fun _ hc => (by cases hc), fun _ hc => (by cases hc),
        fun hc => (by cases hc)⟩
    have heq : ({ b with stage := .flushing round (delivered + 1) } : Backtest).system o = b.system o := by
      unfold Backtest.system draining
      rw [hst]
    rw [← heq]
    refine h'.hand kEndOfTime ?_ hh rfl (fun _ hc => by cases hc) hdue hs
    exact (congrArg (fun t : Agreement.System => t.sim.draining) heq).trans hd
  | stop hst hh hdue =>
    obtain ⟨hd, hidle⟩ := hend hst hh
    exact ⟨⟨h.engine, h.exchange, hno hh, fun _ _ => hidle, fun _ hc => (by cases hc), fun _ hc => (by cases hc),
      fun _ => h.exchange.none_due hdue⟩, o, drained (t := b.system o) hd hdue⟩
  | @again round _ hst hh hdue hnz =>
    obtain ⟨hd, -⟩ := hend hst hh
    obtain ⟨h', o', hr⟩ := h.flush (o := o) hh (by rw [hst]; intro hc; cases hc) (round + 1) fun _ => h.exchange.none_due hdue
    exact ⟨h', o', (drained (t := b.system o) hd hdue).trans hr⟩

/-- The payload of a record meets `W`. -/
def Meets (W : List Byte → Prop) : Input → Prop
  | .record r => W r.payload
  | _ => True

/-- **Step lemma.** -/
theorem step {i : Input} (h : Settled W b) (hi : Meets W i) (hs : b.step i = some b') : Becomes W (b.system o) b' := by
  have hread : b.stage = .reading → b.handing = false := by
    intro hst
    by_contra hc
    have := (h.handing (by simpa using hc)).1
    rw [hst] at this
    cases this
  cases i with
  | record r =>
    simp only [Backtest.step] at hs
    split at hs
    · rename_i hst
      cases hs
      have hh := hread hst
      refine ⟨⟨h.engine, h.exchange.advance _, fun hc => ?_, fun _ _ => h.idle hh (by rw [hst]; intro hc; cases hc), fun bytes hb => ?_,
        fun _ hc => (by cases hc), fun hc => (by cases hc)⟩, o, ?_⟩
      · rw [show b.handing = true from hc] at hh
        cases hh
      · cases hb
        exact hi
      · have hadv : Reaches Agreement.System.next (Brings W) ⟨b.engine.session, ⟨b.exchange, none⟩, o⟩
            ⟨b.engine.session, ⟨b.exchange.advance (max b.now r.ts), none⟩, o⟩ :=
          .single (e := .advance (max b.now r.ts)) rfl (brings_of_ne fun _ _ he => by cases he)
        have heq : b.system o = ⟨b.engine.session, ⟨b.exchange, none⟩, o⟩ := by
          unfold Backtest.system draining
          rw [hst]
        rw [heq]
        refine hadv.snoc (e := .drain (max b.now r.ts)) ?_ (brings_of_ne fun _ _ he => by cases he)
        show some (⟨b.engine.session, ⟨_, some (max b.now r.ts, false)⟩, o⟩ : Agreement.System) =
          some ⟨b.engine.session, ⟨_, some (max b.now r.ts, b.handing)⟩, o⟩
        rw [hh]
    · cases hs
  | eof =>
    simp only [Backtest.step] at hs
    split at hs
    · rename_i hst
      cases hs
      have heq : b.system o = ⟨b.engine.session, ⟨b.exchange, none⟩, o⟩ := by
        unfold Backtest.system draining
        rw [hst]
      rw [heq]
      exact h.flush (hread hst) (by rw [hst]; intro hc; cases hc) 0 fun hc => absurd hc (by decide)
    · cases hs
  | move m => exact h.move m hs
  | go => exact h.go hs

end Settled

/-- The system that a backtest begins with. -/
def beginning (config : BacktestConfig) : Agreement.System :=
  .new config.engine.oms config.engine.limits config.engine.maxLocates config.sim

/-- **Run lemma.** -/
theorem becomes_run {config : BacktestConfig} (hlat : config.sim.orderLatencyNs ≤ u64Max ∧ config.sim.reportLatencyNs ≤ u64Max)
    {is : List Input} (hr : run step (new config) is = some b) (hw : ∀ i ∈ is, Settled.Meets W i) : Becomes W (beginning config) b := by
  obtain ⟨t, ht, hb, o', rfl⟩ := run_reaches (R := fun b t => Settled W b ∧ ∃ o, t = b.system o) (P := Brings W) (Q := Settled.Meets W)
    (fun b t i b' hrel hi hs => by
      obtain ⟨h, o, rfl⟩ := hrel
      obtain ⟨h', o', hreach⟩ := h.step hi hs
      exact ⟨b'.system o', hreach, h', o', rfl⟩)
    hr hw ⟨.new hlat.1 hlat.2, fun _ => none, rfl⟩
  exact ⟨hb, o', ht⟩

/-- **A backtest is a run of the two parties.** Whatever the strategy calls from its callbacks, the state of every backtest
is reached by steps that a manager and a simulator can take on their own, with no other market data than the records; when
the flush finds nothing to deliver no request is on its way, and when the backtest is over no report is. -/
theorem backtest_is_a_run_of_the_system (config : BacktestConfig) (is : List Input) (b : Backtest)
    (hlat : config.sim.orderLatencyNs ≤ u64Max ∧ config.sim.reportLatencyNs ≤ u64Max)
    (hr : run step (new config) is = some b) :
    (∃ es o, run Agreement.System.next (beginning config) es = some (b.system o) ∧
      ∀ bytes now, Step.onItch bytes now ∈ es → ∃ r, Input.record r ∈ is ∧ r.payload = bytes) ∧
    (∀ round, b.stage = .flushing round 0 → b.handing = false → b.exchange.requests.count = 0) ∧
    (b.stage = .done → b.exchange.reports.count = 0) := by
  have hw : ∀ i ∈ is, Settled.Meets (fun bytes => ∃ r, Input.record r ∈ is ∧ r.payload = bytes) i := by
    intro i hi
    cases i with
    | record r => exact ⟨r, hi, rfl⟩
    | eof => trivial
    | move m => trivial
    | go => trivial
  obtain ⟨h, o, es, hes, hbrings⟩ := becomes_run hlat hr hw
  exact ⟨⟨es, o, hes, fun bytes now hm => hbrings _ hm bytes now rfl⟩, h.quiet, h.done⟩

/-- The prices of a market message are at least one. -/
def Costs (bytes : List Byte) : Prop := ∀ m, Itch.decode bytes = .ok m → Agreement.Priced m

theorem system_ok {config : BacktestConfig} (hmax : config.engine.limits.maxPosition ≤ Risk.kInt64Max)
    (hlat : config.sim.orderLatencyNs ≤ u64Max ∧ config.sim.reportLatencyNs ≤ u64Max) {is : List Input}
    (hr : run step (new config) is = some b) (hp : ∀ i ∈ is, Settled.Meets Costs i) :
    Settled Costs b ∧ ∃ o, (b.system o).Ok config.sim.books.maxLevelsPerSide := by
  obtain ⟨h, o, hreach⟩ := becomes_run hlat hr hp
  refine ⟨h, o, hreach.invariant (fun t e u ht he hs => ht.step hs ?_) (.new config.engine.oms hmax config.engine.maxLocates config.sim)⟩
  exact fun bytes now m heq hm => he bytes now heq m hm

/-- **Nothing works unreserved.** At every moment of every backtest on priced records in which no report was dropped, no
report was invalid or clamped, and every order that works at the exchange is a non-terminal order of the manager, under
its token or the one it is to be replaced by, whose reserve in the risk engine covers what is left of it. When the backtest
is over and no request was cut off, the orders that work are exactly the non-terminal ones, with the same quantities. -/
theorem working_orders_are_reserved (config : BacktestConfig) (hmax : config.engine.limits.maxPosition ≤ Risk.kInt64Max)
    (hlat : config.sim.orderLatencyNs ≤ u64Max ∧ config.sim.reportLatencyNs ≤ u64Max) (is : List Input) (b : Backtest)
    (hr : run step (new config) is = some b) (hp : ∀ i ∈ is, Settled.Meets Costs i) (hd : b.exchange.droppedReports = 0)
    (hlt : b.exchange.venue.matchNo < 2 ^ 64) :
    let m := b.engine.session.manager
    (m.stats.invalidReports = 0 ∧ m.stats.clampedReports = 0) ∧
    (∀ t x, b.exchange.venue.working t = some x → ∃ id e, m.entry id = some e ∧ Oms.isTerminal e.info.status = false ∧
      (t = Ouch.Token.fromId e.token ∨ e.nextToken ≠ 0 ∧ t = Ouch.Token.fromId e.nextToken) ∧ x.left ≤ m.reservedQty id) ∧
    (b.stage = .done → b.exchange.requests.count = 0 → ∀ id e, m.entry id = some e →
      (Oms.isTerminal e.info.status = false ↔ (b.exchange.venue.working (Ouch.Token.fromId e.token)).isSome) ∧
      ∀ x, b.exchange.venue.working (Ouch.Token.fromId e.token) = some x →
        e.info.status = .live ∧ e.info.leavesQty = x.left ∧ e.info.cumQty = x.done) := by
  obtain ⟨h, o, hok⟩ := system_ok hmax hlat hr hp
  obtain ⟨taken, held, hl⟩ := hok.linked hd hlt
  obtain ⟨rest, used, hrep, -, hw⟩ := hl.agreed.wired hlt
  have hinv : Oms.OrderManager.Inv b.engine.session.manager := hok.session.inv
  refine ⟨⟨hw.client.invalid, hw.client.clamped⟩, fun t x hx => hw.reserved hinv (Agreement.bookOf_some hx),
    fun hdone hreq id e he => ?_⟩
  have hempty : held ++ rest = [] := hrep.symm.trans (RingBuffer.toList_eq_nil.mpr (h.done hdone))
  obtain ⟨-, rfl⟩ := List.append_eq_nil_iff.mp hempty
  rw [show (b.system o).sim.sim.requests.toList = [] from RingBuffer.toList_eq_nil.mpr hreq] at hw
  obtain ⟨hiff, hall⟩ := Oms.Wired.settled (show Oms.Wired _ [] _ [] used from hw) hinv he
  refine ⟨hiff.trans (Eq.to_iff (congrArg (· = true) Option.isSome_map)), fun x hx => ?_⟩
  obtain ⟨hlive, -, hleaves, hcum⟩ := hall _ (Agreement.bookOf_some hx)
  exact ⟨hlive, hleaves, hcum⟩

/-- An instrument is listed, a bid comes, and the strategy enters an order when it is told of it; the order is accepted in
the first round of the flush, and the second round finds nothing. -/
def restingOrder : List Input :=
  [.record ⟨0, [82, 0, 1, 0, 0, 0, 0, 0, 0, 0, 0, 65, 66, 67, 68, 32, 32, 32, 32, 0, 0, 0, 0, 0, 100, 0, 0, 0, 0, 0, 0, 0, 0, 0,
      0, 0, 0, 0, 0]⟩, .go, .move .finish, .go,
    .record ⟨5, [65, 0, 1, 0, 0, 0, 0, 0, 0, 0, 0, 0, 0, 0, 0, 0, 0, 0, 1, 66, 0, 0, 0, 100, 65, 66, 67, 68, 32, 32, 32, 32, 0, 0,
      0, 10]⟩, .go, .move (.submit { locate := 1, price := 10, qty := 100 }), .move .ret, .move .ret, .move .finish, .go,
    .eof, .go, .move .ret, .move .finish, .go, .go, .go]

theorem restingOrder_costs : ∀ i ∈ restingOrder, Settled.Meets Costs i := by
  intro i hi
  cases i with
  | record r =>
    simp only [restingOrder, List.mem_cons, Input.record.injEq, List.not_mem_nil, reduceCtorEq, or_false, false_or] at hi
    rcases hi with rfl | rfl
    · intro m hm
      cases hm
      trivial
    · intro m hm
      have hadd : Itch.decode [65, 0, 1, 0, 0, 0, 0, 0, 0, 0, 0, 0, 0, 0, 0, 0, 0, 0, 1, 66, 0, 0, 0, 100, 65, 66, 67, 68, 32, 32, 32, 32,
          0, 0, 0, 10] = .ok (.addOrder ⟨⟨1, 0, 0⟩, 1, .buy, 100, .ofText [65, 66, 67, 68], 10, false, [0, 0, 0, 0]⟩) := by
        decide +kernel
      obtain rfl := Except.ok.inj (hadd.symm.trans hm)
      exact (by decide : (1 : Int) ≤ 10)
  | eof => trivial
  | move m => trivial
  | go => trivial

theorem backtest_is_a_run_of_the_system_resting_order :
    ∃ b, run step (new smallBacktest) restingOrder = some b ∧ b.stage = .done ∧ b.exchange.reports.count = 0 := by
  have hview : (run step (new smallBacktest) restingOrder).map (fun b => b.stage.looping || b.stage.delivers) = some false := by
    decide +kernel
  obtain ⟨b, hr, hv⟩ := Option.map_eq_some_iff.mp hview
  have hdone : b.stage = .done := by
    cases hst : b.stage with
    | done => rfl
    | _ =>
      rw [hst] at hv
      cases hv
  exact ⟨b, hr, hdone, (backtest_is_a_run_of_the_system smallBacktest restingOrder b ⟨by decide, by decide⟩ hr).2.2 hdone⟩

theorem working_orders_are_reserved_resting_order :
    ∃ b e, run step (new smallBacktest) restingOrder = some b ∧ b.engine.session.manager.entry 1 = some e ∧
      e.info.status = .live ∧ e.info.leavesQty = 100 := by
  have hview : (run step (new smallBacktest) restingOrder).map (fun b =>
      ([b.exchange.droppedReports, b.exchange.venue.matchNo, b.exchange.requests.count], b.stage.looping || b.stage.delivers,
        (b.engine.session.manager.entry 1).map Oms.Entry.token, b.exchange.venue.working (Ouch.Token.fromId 1))) =
      some ([0, 0, 0], false, some 1, some ⟨.buy, 10, 100, 0⟩) := by
    decide +kernel
  obtain ⟨b, hr, hv⟩ := Option.map_eq_some_iff.mp hview
  simp only [Prod.mk.injEq, List.cons.injEq, and_true, Option.map_eq_some_iff] at hv
  obtain ⟨⟨hd, hn, hreq⟩, hst, ⟨e, he, htok⟩, hwork⟩ := hv
  have hdone : b.stage = .done := by
    cases hst' : b.stage with
    | done => rfl
    | _ =>
      rw [hst'] at hst
      cases hst
  obtain ⟨-, -, hall⟩ := working_orders_are_reserved smallBacktest (by decide) ⟨by decide, by decide⟩ restingOrder b hr
    restingOrder_costs hd (by rw [hn]; decide)
  obtain ⟨hlive, hleaves, -⟩ := (hall hdone hreq 1 e he).2 _ (htok ▸ hwork)
  exact ⟨b, e, hr, he, hlive, hleaves⟩

end Backtest
end Replay
end OptiTrade
