import OptiTrade.Sim.Queues

/-! # Draining and advancing do not change the simulation

Requests are served in the order they were sent, and serving one does not depend on when it is done as
long as no market message comes in between. So a run has a normal form: serve what has arrived only
right before a market message and at the end. `canon` is that form, and every run of which nothing was
refused or dropped and whose extra advances are not later than the next market message has it. -/

namespace OptiTrade.Sim
set_option autoImplicit false

open Runs

namespace Timing

/-- The venue and the reports generated so far. -/
abbrev Market := Venue × List Report

/-- The venue after a call, with what it said added to the reports. -/
def answer (latency : Nat) (x : Market) (v : Venue) : Market :=
  ({ v with said := [] }, x.2 ++ v.said.map fun m => ⟨saturatingAdd v.clock latency, m.msg, m.about⟩)

def serve (latency : Nat) (x : Market) (r : Request) : Market :=
  answer latency x ({ x.1 with clock := max x.1.clock r.arrival }.onRequest r.msg r.sent)

def itch (latency : Nat) (x : Market) (m : Option Itch.Message) (now : Nat) : Market :=
  let v := { x.1 with clock := max x.1.clock now }
  match m with
  | some m => answer latency x (v.apply m)
  | none => answer latency x v

/-- Serves the requests at the front of the queue that have arrived by `now`. -/
def flush (latency now : Nat) : List Request → Market → Market × List Request
  | [], x => (x, [])
  | r :: q, x => if r.arrival ≤ now then flush latency now q (serve latency x r) else (x, r :: q)

variable {latency : Nat}

theorem flush_flush {t now : Nat} (h : t ≤ now) (q : List Request) (x : Market) :
    flush latency now (flush latency t q x).2 (flush latency t q x).1 = flush latency now q x := by
  induction q generalizing x with
  | nil => rfl
  | cons r q ih =>
    by_cases hr : r.arrival ≤ t
    · rw [flush, if_pos hr, ih, flush, if_pos (hr.trans h)]
    · rw [flush, if_neg hr]

theorem flush_append (t : Nat) (q : List Request) (x : Market) (r : Request) :
    flush latency t ((flush latency t q x).2 ++ [r]) (flush latency t q x).1 = flush latency t (q ++ [r]) x := by
  induction q generalizing x with
  | nil => rfl
  | cons a q ih =>
    by_cases ha : a.arrival ≤ t
    · rw [flush, if_pos ha, ih, List.cons_append, flush, if_pos ha]
    · rw [flush, if_neg ha]

/-- The normal form of a run: only sends and market messages count. -/
def canon (config : SimConfig) (final : Nat) : List Call → List Request → Market → Market × List Request
  | [], q, x => flush config.reportLatencyNs final q x
  | .send m now :: cs, q, x => canon config final cs (q ++ [⟨saturatingAdd now config.orderLatencyNs, m, now⟩]) x
  | .onItch m now :: cs, q, x =>
    let r := flush config.reportLatencyNs now q x
    canon config final cs r.2 (itch config.reportLatencyNs r.1 m now)
  | _ :: cs, q, x => canon config final cs q x

/-- The time of the next market message, `final` if there is none. -/
def nextItch (final : Nat) : List Call → Nat
  | [] => final
  | .onItch _ now :: _ => now
  | _ :: cs => nextItch final cs

/-- Every advance is at most as late as the next market message. -/
def Early (final : Nat) : List Call → Prop
  | [] => True
  | .advance t :: cs => t ≤ nextItch final cs ∧ Early final cs
  | _ :: cs => Early final cs

/-- The calls that count. -/
def isMarket : Call → Bool
  | .send .. | .onItch .. => true
  | _ => false

theorem canon_filter (config : SimConfig) (final : Nat) (cs : List Call) (q : List Request) (x : Market) :
    canon config final (cs.filter isMarket) q x = canon config final cs q x := by
  induction cs generalizing q x with
  | nil => rfl
  | cons c cs ih => cases c <;> exact ih _ _

/-- Flushing early makes no difference. -/
theorem canon_flush (config : SimConfig) (final : Nat) {t : Nat} (cs : List Call) (h : t ≤ nextItch final cs)
    (q : List Request) (x : Market) :
    canon config final cs (flush config.reportLatencyNs t q x).2 (flush config.reportLatencyNs t q x).1 =
      canon config final cs q x := by
  induction cs generalizing q x with
  | nil => exact flush_flush h q x
  | cons c cs ih =>
    cases c with
    | send m now =>
      have hih := ih h
      show canon config final cs _ _ = canon config final cs _ _
      -- both sides are flushed once more, and then they are the same
      rw [← hih, flush_append, hih]
    | onItch m now =>
      show canon config final cs (flush _ now _ _).2 (itch _ (flush _ now _ _).1 m now) = _
      have hle : t ≤ now := h
      rw [flush_flush hle]
      rfl
    | advance t' => exact ih h q x
    | drain t' => exact ih h q x
    | hand => exact ih h q x
    | handed => exact ih h q x
    | drained => exact ih h q x

end Timing

namespace ExchangeSim
open Timing
variable {s : ExchangeSim}

/-- What the exchange has become, and what it has said. -/
def market (s : ExchangeSim) : Market := (s.venue, s.generated)

theorem Published.market_eq {v : Venue} {s' : ExchangeSim} {rs : List Report} {d : Nat} (h : Published s v s' rs d)
    (hd : s'.droppedReports = s.droppedReports) : s'.market = answer s.config.reportLatencyNs s.market v := by
  have hd0 : d = 0 := by
    have : s'.droppedReports = s.droppedReports + d := h.queued.dropped
    omega
  subst hd0
  have hg : s'.generated = s.generated ++ rs := h.queued.generated
  rw [h.all] at hg
  exact Prod.ext h.queued.venue hg

theorem Published.dropped_le {v : Venue} {s' : ExchangeSim} {rs : List Report} {d : Nat} (h : Published s v s' rs d) :
    s.droppedReports ≤ s'.droppedReports := by
  have : s'.droppedReports = s.droppedReports + d := h.queued.dropped
  omega

theorem process_dropped_le (h : s.Rings) : s.droppedReports ≤ s.process.droppedReports := by
  obtain ⟨rs, d, hp⟩ := process_published h
  exact hp.dropped_le

theorem process_market (h : s.Rings) (hd : s.process.droppedReports = s.droppedReports) :
    s.process.market = serve s.config.reportLatencyNs s.market s.requests.front := by
  obtain ⟨rs, d, hp⟩ := process_published h
  exact hp.market_eq hd

theorem process_config (h : s.Rings) : s.process.config = s.config ∧ s.process.requests = s.requests.pop := by
  obtain ⟨rs, d, hp⟩ := process_published h
  exact ⟨hp.queued.config, hp.queued.requests⟩

/-- The loop of `advance` is a flush, if it drops nothing. -/
theorem advanceUpTo_flush {now : Nat} (n : Nat) (h : s.Rings) (hn : s.requests.count = n) :
    s.droppedReports ≤ (advanceUpTo now n s).droppedReports ∧
      ((advanceUpTo now n s).droppedReports = s.droppedReports →
        ((advanceUpTo now n s).market, (advanceUpTo now n s).requests.toList) =
          flush s.config.reportLatencyNs now s.requests.toList s.market) := by
  induction n generalizing s with
  | zero =>
    refine ⟨Nat.le_refl _, fun _ => ?_⟩
    rw [RingBuffer.toList_eq_nil.mpr hn]
    simp only [advanceUpTo, flush, RingBuffer.toList_eq_nil.mpr hn]
  | succ n ih =>
    have hlist := h.toList_requests (by omega)
    unfold advanceUpTo
    split_ifs with ha
    · have hcfg := process_config h
      have hcount : s.process.requests.count = n := by rw [process_count h]; omega
      obtain ⟨hle, heq⟩ := ih h.process hcount
      have hle' := process_dropped_le h
      refine ⟨hle'.trans hle, fun hd => ?_⟩
      rw [heq (by omega), hcfg.1, hcfg.2, process_market h (by omega), hlist, flush, if_pos (arrived_count ha).2]
    · refine ⟨Nat.le_refl _, fun _ => ?_⟩
      have hlate : ¬s.requests.front.arrival ≤ now := by
        intro hle
        exact ha (by simp [arrived, hle]; omega)
      rw [hlist, flush, if_neg hlate, ← hlist]

theorem advance_dropped_le (h : s.Rings) (now : Nat) : s.droppedReports ≤ (s.advance now).droppedReports :=
  (advanceUpTo_flush _ h rfl).1

theorem advance_flush (h : s.Rings) (now : Nat) (hd : (s.advance now).droppedReports = s.droppedReports) :
    ((s.advance now).market, (s.advance now).requests.toList) =
      flush s.config.reportLatencyNs now s.requests.toList s.market :=
  (advanceUpTo_flush _ h rfl).2 hd

theorem advance_config (h : s.Rings) (now : Nat) : (s.advance now).config = s.config := by
  refine (advance_invariant (P := fun t => t.Rings ∧ t.config = s.config) ?_ ⟨h, rfl⟩).2
  intro t ht _
  exact ⟨ht.1.process, (process_config ht.1).1.trans ht.2⟩

theorem onItch_published (h : s.Rings) (m : Option Itch.Message) (now : Nat) :
    ∃ v rs d, Published (s.advance now) v (s.onItch m now) rs d ∧
      itch s.config.reportLatencyNs (s.advance now).market m now =
        answer s.config.reportLatencyNs (s.advance now).market v := by
  cases m with
  | none =>
    obtain ⟨rs, d, hp⟩ := publish_published (h.advance now)
      { (s.advance now).venue with clock := max (s.advance now).venue.clock now }
    exact ⟨_, rs, d, hp, rfl⟩
  | some m =>
    obtain ⟨rs, d, hp⟩ := publish_published (h.advance now)
      ({ (s.advance now).venue with clock := max (s.advance now).venue.clock now }.apply m)
    exact ⟨_, rs, d, hp, rfl⟩

end ExchangeSim

namespace State
open Timing ExchangeSim

/-- A step drops reports or leaves their number alone, and keeps the configuration. -/
theorem Steps.monotone {s t : State} {c : Call} {x : Answer} (h : Steps s c t x) (hs : s.sim.Rings) :
    s.sim.droppedReports ≤ t.sim.droppedReports ∧ t.sim.config = s.sim.config := by
  cases h with
  | send m now _ =>
    cases ht : (s.sim.send m now).2 with
    | false =>
      rw [show ({ s with sim := (s.sim.send m now).1 } : State).sim = s.sim from send_refused ht]
      exact ⟨Nat.le_refl _, rfl⟩
    | true =>
      rw [show ({ s with sim := (s.sim.send m now).1 } : State).sim = _ from (send_taken hs ht).1]
      exact ⟨Nat.le_refl _, rfl⟩
  | onItch m now _ =>
    obtain ⟨v, rs, d, hp, _⟩ := onItch_published hs m now
    exact ⟨(advance_dropped_le hs now).trans hp.dropped_le, hp.queued.config.trans (advance_config hs now)⟩
  | advance now _ => exact ⟨advance_dropped_le hs now, advance_config hs now⟩
  | drain now _ => exact ⟨Nat.le_refl _, rfl⟩
  | hand now _ _ => exact ⟨Nat.le_refl _, rfl⟩
  | handed now _ => exact ⟨Nat.le_refl _, rfl⟩
  | drained now _ _ => exact ⟨Nat.le_refl _, rfl⟩

/-- One step towards the normal form. -/
theorem Steps.canon {s t : State} {c : Call} {x : Answer} {final : Nat} {cs : List Call} (h : Steps s c t x)
    (hs : s.sim.Rings) (hx : x ≠ .taken false) (hd : t.sim.droppedReports = s.sim.droppedReports)
    (he : Early final (c :: cs)) :
    canon s.sim.config final (c :: cs) s.sim.requests.toList s.sim.market =
      canon s.sim.config final cs t.sim.requests.toList t.sim.market := by
  cases h with
  | send m now _ =>
    have ht : (s.sim.send m now).2 = true := by
      cases ht : (s.sim.send m now).2 with
      | false => exact absurd (by rw [ht]) hx
      | true => rfl
    obtain ⟨heq, hroom⟩ := send_taken hs ht
    rw [show ({ s with sim := (s.sim.send m now).1 } : State).sim = _ from heq]
    show Timing.canon _ _ cs _ _ = Timing.canon _ _ cs (RingBuffer.toList _) _
    rw [RingBuffer.toList_push _ _ hroom]
    rfl
  | onItch m now _ =>
    obtain ⟨v, rs, d, hp, hv⟩ := onItch_published hs m now
    have hd₁ := advance_dropped_le hs now
    have hd₂ := hp.dropped_le
    have hflush := advance_flush hs now (by simp only at hd; omega)
    have hmarket : (s.sim.onItch m now).market = itch s.sim.config.reportLatencyNs (s.sim.advance now).market m now := by
      rw [hv, hp.market_eq (by simp only at hd; omega), advance_config hs now]
    have hqueue : (s.sim.onItch m now).requests = (s.sim.advance now).requests := hp.queued.requests
    show Timing.canon _ _ cs _ _ = Timing.canon _ _ cs (s.sim.onItch m now).requests.toList (s.sim.onItch m now).market
    rw [hqueue, hmarket, ← hflush]
  | advance now _ =>
    have hflush := advance_flush hs now hd
    show Timing.canon _ _ cs _ _ = Timing.canon _ _ cs (s.sim.advance now).requests.toList (s.sim.advance now).market
    rw [← canon_flush s.sim.config final cs he.1, ← hflush]
  | drain now _ => rfl
  | hand now _ _ => rfl
  | handed now _ => rfl
  | drained now _ _ => rfl

theorem run_monotone {s s' : State} {log log' : List (Call × Answer)} {cs : List Call} (hs : s.sim.Rings)
    (hr : run next (s, log) cs = some (s', log')) :
    s'.sim.Rings ∧ s.sim.droppedReports ≤ s'.sim.droppedReports ∧ s'.sim.config = s.sim.config ∧
      ∃ more, log' = log ++ more := by
  induction cs generalizing s log with
  | nil =>
    obtain ⟨rfl, rfl⟩ : s = s' ∧ log = log' := by simpa using hr
    exact ⟨hs, Nat.le_refl _, rfl, [], by simp⟩
  | cons c cs ih =>
    obtain ⟨p, hn, hr⟩ := run_cons_some hr
    obtain ⟨t, x, hstep, rfl⟩ := next_some hn
    have hc : Steps s c t x := step_cases hstep
    have hm := hc.monotone hs
    obtain ⟨hrings, hle, hcfg, more, hmore⟩ := ih (hc.rings hs) hr
    exact ⟨hrings, hm.1.trans hle, hcfg.trans hm.2, (c, x) :: more, by rw [hmore, List.append_assoc]; rfl⟩

/-- **Every run has the normal form**, if none of its sends was refused, none of its reports dropped, and
its advances are early. -/
theorem run_canon {s s' : State} {log log' : List (Call × Answer)} {cs : List Call} {final : Nat} (hs : s.sim.Rings)
    (hr : run next (s, log) cs = some (s', log')) (hno : ∀ c, (c, Answer.taken false) ∉ log')
    (hd : s'.sim.droppedReports = s.sim.droppedReports) (he : Early final cs) :
    canon s.sim.config final cs s.sim.requests.toList s.sim.market =
      flush s.sim.config.reportLatencyNs final s'.sim.requests.toList s'.sim.market := by
  induction cs generalizing s log with
  | nil =>
    obtain ⟨rfl, rfl⟩ : s = s' ∧ log = log' := by simpa using hr
    rfl
  | cons c cs ih =>
    obtain ⟨p, hn, hr⟩ := run_cons_some hr
    obtain ⟨t, x, hstep, rfl⟩ := next_some hn
    have hc : Steps s c t x := step_cases hstep
    have hm := hc.monotone hs
    obtain ⟨_, hle, _, more, hmore⟩ := run_monotone (hc.rings hs) hr
    have hx : x ≠ .taken false := by
      rintro rfl
      exact hno c (by rw [hmore]; simp)
    have hrest := ih (hc.rings hs) hr (by omega) (by cases c <;> first | exact he | exact he.2)
    rw [hm.2] at hrest
    rw [hc.canon hs hx (by omega) he, hrest]

/-- The calls a drain is made of. -/
def isDrain : Call → Bool
  | .drain _ | .hand | .handed | .drained => true
  | _ => false

theorem Steps.drain_market {s t : State} {c : Call} {x : Answer} (h : Steps s c t x) (hc : isDrain c = true) :
    t.sim.market = s.sim.market := by
  cases h with
  | send m now _ => cases hc
  | onItch m now _ => cases hc
  | advance now _ => cases hc
  | drain now _ => rfl
  | hand now _ _ => rfl
  | handed now _ => rfl
  | drained now _ _ => rfl

theorem run_drain_market {s s' : State} {log log' : List (Call × Answer)} {es : List Call}
    (hr : run next (s, log) es = some (s', log')) (he : ∀ c ∈ es, isDrain c = true) :
    s'.sim.market = s.sim.market := by
  induction es generalizing s log with
  | nil =>
    obtain ⟨rfl, rfl⟩ : s = s' ∧ log = log' := by simpa using hr
    rfl
  | cons c es ih =>
    obtain ⟨p, hn, hr⟩ := run_cons_some hr
    obtain ⟨t, x, hstep, rfl⟩ := next_some hn
    rw [ih hr fun c' hc' => he c' (List.mem_cons_of_mem _ hc')]
    exact (step_cases hstep).drain_market (he c List.mem_cons_self)

/-- The market after a run, a last advance and a last drain. -/
theorem final_market {config : SimConfig} {cs es : List Call} {final : Nat} {s : State} {log : List (Call × Answer)}
    (hr : run next (⟨.new config, none⟩, []) (cs ++ .advance final :: es) = some (s, log))
    (he : Early final cs) (hes : ∀ c ∈ es, isDrain c = true) (hno : ∀ c, (c, Answer.taken false) ∉ log)
    (hd : s.sim.droppedReports = 0) :
    s.sim.market = (Timing.canon config final (cs.filter isMarket) [] (.new config.maxOrders config.books, [])).1 := by
  have h₀ : (⟨.new config, none⟩ : State).sim.Rings := .new config
  obtain ⟨⟨s₁, log₁⟩, hr₁, hr₂⟩ := run_append_some hr
  obtain ⟨p, hn, hr₃⟩ := run_cons_some hr₂
  obtain ⟨s₂, x, hstep, rfl⟩ := next_some hn
  obtain ⟨hrings₁, hle₁, hcfg₁, _⟩ := run_monotone h₀ hr₁
  have hc : Steps s₁ (.advance final) s₂ x := step_cases hstep
  obtain ⟨_, hle₃, _, more, hlog⟩ := run_monotone (hc.rings hrings₁) hr₃
  have hle₂ := (hc.monotone hrings₁).1
  have hzero : (⟨.new config, none⟩ : State).sim.droppedReports = 0 := rfl
  have hd₁ : s₁.sim.droppedReports = 0 := by omega
  have hno₁ : ∀ c, (c, Answer.taken false) ∉ log₁ := by
    intro c hc
    exact hno c (by rw [hlog]; simp [hc])
  have hcanon := run_canon h₀ hr₁ hno₁ (by omega) he
  rw [canon_filter, run_drain_market hr₃ hes]
  cases hc with
  | advance _ _ =>
    have hflush := advance_flush hrings₁ final (by simp only at hle₂ hle₃; omega)
    rw [hcfg₁] at hflush
    show (s₁.sim.advance final).market = _
    have hcanon' := hcanon.trans hflush.symm
    exact (congrArg Prod.fst hcanon').symm

/-- **Drain and advance timing do not change the simulation.** Two runs with the same sends and market
messages, in the same order, that differ in their drains and in advances that are not later than the next
market message, and that end with the same last advance and a drain: if no send was refused and no report
dropped, they generated the same bytes at the same delivery times and have the same books and orders. -/
theorem drain_and_advance_timing_irrelevant (config : SimConfig) (final : Nat) (cs cs' es es' : List Call)
    (s s' : State) (log log' : List (Call × Answer)) (hsame : cs.filter isMarket = cs'.filter isMarket)
    (hearly : Early final cs) (hearly' : Early final cs')
    (hes : ∀ c ∈ es, isDrain c = true) (hes' : ∀ c ∈ es', isDrain c = true)
    (hr : run next (⟨.new config, none⟩, []) (cs ++ .advance final :: es) = some (s, log))
    (hr' : run next (⟨.new config, none⟩, []) (cs' ++ .advance final :: es') = some (s', log'))
    (hno : ∀ c, (c, Answer.taken false) ∉ log) (hno' : ∀ c, (c, Answer.taken false) ∉ log')
    (hd : s.sim.droppedReports = 0) (hd' : s'.sim.droppedReports = 0) :
    s.sim.generated.map (fun r => (r.bytes, r.deliver)) = s'.sim.generated.map (fun r => (r.bytes, r.deliver)) ∧
      s.sim.venue = s'.sim.venue := by
  have hm : s.sim.market = s'.sim.market := by
    rw [final_market hr hearly hes hno hd, final_market hr' hearly' hes' hno' hd', hsame]
  exact ⟨by rw [show s.sim.generated = s'.sim.generated from congrArg Prod.snd hm], congrArg Prod.fst hm⟩

/-- An offer, and a buy order for it that arrives at 50003; the last message comes at 60000. -/
def buyOffer (between : List Call) : List Call :=
  [.onItch (some (.stockDirectory ⟨⟨1, 0, 0⟩, .ofText [65, 66, 67, 68], 0, 0, 100, 0, 0, [], 0, 0, 0, 0,
      0, 0, 0⟩)) 1,
    .onItch (some (.addOrder ⟨⟨1, 0, 0⟩, 1, .sell, 100, .ofText [65, 66, 67, 68], 10, false, []⟩)) 2,
    .send (.enter ⟨Ouch.Token.fromId 1, .buy, false, 100, .ofText [65, 66, 67, 68], 10, 99999,
      Ouch.Firm.blank, 89, 80, 78, 0, 78, 32⟩) 3] ++ between ++ [.onItch none 60000]

/-- The order is served early and its two reports are drained before the last message. -/
def serveEarly : List Call := [.advance 55000, .drain 200000, .hand, .handed, .hand, .handed, .drained]

theorem drain_and_advance_timing_one_fill :
    ∃ s s', (run next (⟨.new { maxOrders := 4 }, none⟩, []) (buyOffer [] ++ .advance 70000 :: [])).map Prod.fst = some s ∧
      (run next (⟨.new { maxOrders := 4 }, none⟩, []) (buyOffer serveEarly ++ .advance 70000 :: [])).map Prod.fst = some s' ∧
      s.sim.generated.length = 2 ∧
      s.sim.generated.map (fun r => (r.bytes, r.deliver)) = s'.sim.generated.map (fun r => (r.bytes, r.deliver)) ∧
      s.sim.venue = s'.sim.venue := by
  have hview : ∀ between, between = [] ∨ between = serveEarly →
      ∃ s log, run next (⟨.new { maxOrders := 4 }, none⟩, []) (buyOffer between ++ .advance 70000 :: []) = some (s, log) ∧
        s.sim.droppedReports = 0 ∧ s.sim.generated.length = 2 ∧ ∀ c, (c, Answer.taken false) ∉ log := by
    intro between hb
    have h : (run next (⟨.new { maxOrders := 4 }, none⟩, []) (buyOffer between ++ .advance 70000 :: [])).map
        (fun p => (p.1.sim.droppedReports, p.1.sim.generated.length, p.2.all fun e => e.2.succeeded)) =
        some (0, 2, true) := by
      rcases hb with rfl | rfl
      · rfl
      · rfl
    obtain ⟨⟨s, log⟩, hr, hv⟩ := Option.map_eq_some_iff.mp h
    obtain ⟨hd, hg, hall⟩ := Prod.mk.inj hv |>.imp_right Prod.mk.inj
    refine ⟨s, log, hr, hd, hg, fun c hc => ?_⟩
    have := List.all_eq_true.mp hall _ hc
    cases this
  obtain ⟨s, log, hr, hd, hg, hno⟩ := hview [] (.inl rfl)
  obtain ⟨s', log', hr', hd', _, hno'⟩ := hview serveEarly (.inr rfl)
  refine ⟨s, s', by rw [hr]; rfl, by rw [hr']; rfl, hg, ?_⟩
  exact drain_and_advance_timing_irrelevant { maxOrders := 4 } 70000 (buyOffer []) (buyOffer serveEarly) [] [] s s' log log'
    rfl trivial ⟨by decide, trivial⟩ (by simp) (by simp) hr hr' hno hno' hd hd'

end State
end OptiTrade.Sim
