import OptiTrade.Sim.Blotter
import OptiTrade.Sim.QueueSteps

/-! # The reference beside the simulator, over whole runs

The reference moves on with every request that is processed and every market message that is applied. Of the
simulator it is told which orders a request changed and what the books display, and nothing of `ahead`. -/

namespace OptiTrade.Sim
set_option autoImplicit false

open Runs
open Ouch (Token Inbound)
open ShareQueue (Mark)

/-- The working order with the token. -/
def Venue.lookup (v : Venue) (token : Token) : Option Order := (v.byToken.find token).map v.order

theorem Venue.Stored.lookup_eq {v : Venue} {hs : List Nat} (h : v.Stored hs []) : v.lookup = (v.floor hs).find := by
  funext token
  unfold Venue.lookup
  cases hf : v.byToken.find token with
  | none => exact (Venue.find_none h hf).symm
  | some x =>
    obtain ⟨as, bs, rfl, -, -, hfind⟩ := Venue.find_some h hf
    exact hfind.symm

namespace Reference

/-- The first request is processed. -/
def process (q : Reference) (s : ExchangeSim) : Reference :=
  q.onRequest s.venue.lookup s.process.venue.lookup (displayedIn s.venue.books) s.requests.front.msg

/-- At most `n` requests are. -/
def advanceUpTo (now : Nat) : Nat → ExchangeSim → Reference → Reference
  | 0, _, q => q
  | n + 1, s, q => if s.arrived now then advanceUpTo now n s.process (q.process s) else q

def advance (q : Reference) (s : ExchangeSim) (now : Nat) : Reference := advanceUpTo now s.requests.count s q

/-- One call of the simulator. -/
def call (s : State × List (Call × Answer)) (q : Reference) : Call → Reference
  | .onItch (some m) now => (q.advance s.1.sim now).apply (s.1.sim.advance now).venue.books m
  | .onItch none now => q.advance s.1.sim now
  | .advance now => q.advance s.1.sim now
  | .send _ _ | .drain _ | .hand | .handed | .drained => q

/-- The orders agree with the reference, and what was said of their fills is what it filled. -/
structure Explains (q : Reference) (d : Floor) : Prop where
  agrees : Agrees d.orders q
  fills : d.tape.added = q.fills

theorem added_after (xs : List Said) (t : Tape) : (t.after xs).added = xs.filterMap Said.added ++ t.added :=
  List.filterMap_append

theorem Explains.follows {q q' : Reference} {d d' : Floor} {xs : List Said} (h : q.Explains (d.after xs)) (hf : Follows d q d' q') :
    q'.Explains (d'.after xs) := by
  obtain ⟨hagrees, fs, hfills, hadded⟩ := hf
  refine ⟨hagrees, ?_⟩
  have hbefore : (d.tape.after xs).added = q.fills := h.fills
  show (d'.tape.after xs).added = q'.fills
  rw [added_after] at hbefore ⊢
  rw [hadded, hfills, ← hbefore, List.append_assoc]

end Reference

namespace Venue.Tells
variable {v : Venue} {xs : List Said} {q : Reference}

theorem stamp (h : v.Tells q.Explains xs) (clock : Nat) : Venue.Tells q.Explains xs { v with clock := clock } := by
  obtain ⟨hs, hst, hp⟩ := h
  have hk : v.Keeps { v with clock := clock } := ⟨rfl, rfl, rfl, rfl, fun _ => rfl, fun _ => rfl, fun _ => rfl⟩
  exact ⟨hs, hk.stored hst, hp.agrees, hp.fills⟩

theorem explained_request (h : v.Tells q.Explains xs) (m : Inbound) (sent : Nat) :
    (v.onRequest m sent).Tells (q.onRequest v.lookup (v.onRequest m sent).lookup (displayedIn v.books) m).Explains xs := by
  obtain ⟨hs, hst, hp⟩ := h
  obtain ⟨hs', hst', hfl⟩ := Venue.onRequest_refines hst m sent
  refine ⟨hs', hst', ?_⟩
  have hagrees : Agrees (v.floor hs).orders q := hp.agrees
  rw [hst.lookup_eq, hst'.lookup_eq, hfl]
  exact hp.follows (Follows.onRequest hagrees m sent)

theorem explained_market (h : v.Tells q.Explains xs) (m : Itch.Message) : (v.apply m).Tells (q.apply v.books m).Explains xs := by
  obtain ⟨hs, hst, hp⟩ := h
  obtain ⟨hs', hst', hfl⟩ := Venue.apply_refines hst m
  have hagrees : Agrees (v.floor hs).orders q := hp.agrees
  refine ⟨hs', hst', ?_⟩
  rw [hfl]
  exact hp.follows (Follows.apply hagrees m)

end Venue.Tells

namespace ExchangeSim
variable {s : ExchangeSim} {q : Reference}

theorem explained_process (h : s.Chronicled q.Explains) (hr : s.Rings) : s.process.Chronicled (q.process s).Explains := by
  obtain ⟨-, xs, hv, hsub, hlen⟩ := h
  have hnew := (hv.stamp (max s.venue.clock s.requests.front.arrival)).explained_request s.requests.front.msg s.requests.front.sent
  have hlookup : s.process.venue.lookup = (s.reached.onRequest s.requests.front.msg s.requests.front.sent).lookup := by
    rw [process_venue hr]
    rfl
  unfold Reference.process
  rw [hlookup, process_eq]
  exact .publish (s := s.popped) hr.popped hnew hsub hlen

/-- **The loop of `advance`**, beside the loop of the reference. -/
theorem explained_advance (h : s.Chronicled q.Explains) (hr : s.Rings) (now : Nat) :
    (s.advance now).Chronicled (q.advance s now).Explains := by
  have hloop : ∀ n (s : ExchangeSim) (q : Reference), s.Rings → s.Chronicled q.Explains →
      (advanceUpTo now n s).Chronicled (Reference.advanceUpTo now n s q).Explains := by
    intro n
    induction n with
    | zero => exact fun s q _ h => h
    | succ n ih =>
      intro s q hr h
      unfold advanceUpTo Reference.advanceUpTo
      split_ifs
      · exact ih s.process (q.process s) hr.process (explained_process h hr)
      · exact h
  exact hloop _ s q hr h

theorem explained_onItch (h : s.Chronicled q.Explains) (hr : s.Rings) (m : Itch.Message) (now : Nat) :
    (s.onItch (some m) now).Chronicled ((q.advance s now).apply (s.advance now).venue.books m).Explains := by
  obtain ⟨-, xs, hv, hsub, hlen⟩ := explained_advance h hr now
  exact .publish (hr.advance now) ((hv.stamp _).explained_market m) hsub hlen

theorem explained_idle (h : s.Chronicled q.Explains) (hr : s.Rings) (now : Nat) :
    (s.onItch none now).Chronicled (q.advance s now).Explains := by
  obtain ⟨-, xs, hv, hsub, hlen⟩ := explained_advance h hr now
  exact .publish (hr.advance now) (hv.stamp _) hsub hlen

end ExchangeSim

namespace State

theorem Steps.explained {s t : State} {log : List (Call × Answer)} {q : Reference} {c : Call} {x : Answer} (h : Steps s c t x)
    (hr : s.sim.Rings) (hs : s.sim.Chronicled q.Explains) : t.sim.Chronicled (Reference.call (s, log) q c).Explains := by
  cases h with
  | send m now _ =>
    obtain ⟨hv, hg, hd⟩ := s.sim.send_frame m now
    exact hs.same hv hg hd
  | onItch m now _ =>
    cases m with
    | none => exact ExchangeSim.explained_idle hs hr now
    | some m => exact ExchangeSim.explained_onItch hs hr m now
  | advance now _ => exact ExchangeSim.explained_advance hs hr now
  | drain now _ => exact hs
  | hand now _ _ => exact hs
  | handed now _ => exact hs.same rfl rfl rfl
  | drained now _ _ => exact hs

theorem run_explained {config : SimConfig} {cs : List Call} {s : State} {log : List (Call × Answer)} {q : Reference}
    (hr : run (beside next Reference.call) ((⟨.new config, none⟩, []), {}) cs = some ((s, log), q)) :
    s.sim.Rings ∧ s.sim.Chronicled q.Explains := by
  have hagrees : Agrees [] {} := ⟨List.nodup_nil, rfl, fun _ _ => rfl⟩
  refine run_invariant (P := fun p => p.1.1.sim.Rings ∧ p.1.1.sim.Chronicled p.2.Explains) ?_ hr
    ⟨.new config, rfl, [], ⟨[], .new _ _, hagrees, rfl⟩, List.Sublist.refl _, rfl⟩
  rintro ⟨⟨s, log⟩, q⟩ c ⟨⟨s', log'⟩, q'⟩ ⟨hrings, hs⟩ hn
  obtain ⟨hnext, hq⟩ := beside_some hn
  obtain ⟨t, x, hstep, heq⟩ := next_some hnext
  obtain ⟨rfl, rfl⟩ := Prod.mk.inj heq
  have h := step_cases hstep
  obtain rfl : q' = Reference.call (s, log) q c := hq
  exact ⟨h.rings hrings, h.explained hrings hs⟩

/-- **The queue model is an explicit queue.** Every run has a reference beside it. After every call the reference has our
orders where the simulator has them, at every slot and price: the same orders in the same order, `ahead` being the
offset of the segment and `leaves` its size, so that none overlaps the one before it; and it has filled what the simulator
has said it filled. A market message fills no more than the shares it tells of, and no order while one before it at its
level is left. -/
theorem ahead_is_queue_offset (config : SimConfig) (cs : List Call) (s : State) (log : List (Call × Answer))
    (hr : run next (⟨.new config, none⟩, []) cs = some (s, log)) :
    ∃ q, run (beside next Reference.call) ((⟨.new config, none⟩, []), {}) cs = some ((s, log), q) ∧
      (∃ hs, s.sim.venue.Threaded hs ∧ q.own = hs.map (fun h => (s.sim.venue.order h).place) ∧
        ∀ level price,
          ShareQueue.marks (q.queues level price) =
            ((hs.map s.sim.venue.order).filter (Order.at level price)).map Order.mark ∧
          ((hs.map s.sim.venue.order).filter (Order.at level price)).Pairwise fun o o' => o.ahead + o.leaves ≤ o'.ahead) ∧
      (∃ said, (s.sim.generated.map Report.said).Sublist said ∧
        s.sim.generated.length + s.sim.droppedReports = said.length ∧ said.filterMap Said.added = q.fills) ∧
      (s.sim.droppedReports = 0 → (s.sim.generated.map Report.said).filterMap Said.added = q.fills) ∧
      ∀ m now, ∃ hs hs', (s.sim.marketAt now).Threaded hs ∧ ((s.sim.marketAt now).apply m).Threaded hs' ∧
        Fair m (hs.map (s.sim.marketAt now).order) (hs'.map ((s.sim.marketAt now).apply m).order)
          (((s.sim.marketAt now).apply m).said.filterMap Said.added) := by
  obtain ⟨q, hq⟩ := run_beside Reference.call hr {}
  obtain ⟨hrings, hexplained⟩ := run_explained hq
  obtain ⟨hsaid, xs, ⟨hs, hst, hagrees, hfills⟩, hsub, hlen⟩ := hexplained
  have htape : xs.filterMap Said.added = q.fills := by
    have hadded : (s.sim.venue.tape.after xs).added = q.fills := hfills
    rw [Reference.added_after] at hadded
    have hnone : s.sim.venue.tape.added = [] := by
      show s.sim.venue.said.filterMap Said.added = []
      rw [hsaid]
      rfl
    rw [hnone, List.append_nil] at hadded
    exact hadded
  refine ⟨q, hq, ⟨hs, hst.toThreaded, ?_, fun level price => ⟨hagrees.marks level price, ?_⟩⟩, ⟨xs, hsub, hlen, htape⟩, fun hd => ?_,
    fun m now => ?_⟩
  · have hown := hagrees.own
    rw [hown]
    exact List.map_map
  · have hord := ShareQueue.marks_ordered (q.queues level price)
    rw [hagrees.marks, List.pairwise_map] at hord
    exact hord
  · -- nothing was dropped, so what was said is what was queued
    have hall : s.sim.generated.map Report.said = xs := hsub.eq_of_length (by rw [List.length_map]; omega)
    rw [hall]
    exact htape
  · obtain ⟨hquiet, ys, hv, -, -⟩ := ExchangeSim.explained_advance ⟨hsaid, xs, ⟨hs, hst, hagrees, hfills⟩, hsub, hlen⟩ hrings now
    obtain ⟨js, hjs, hexplains⟩ : (s.sim.marketAt now).Tells (q.advance s.sim now).Explains ys := hv.stamp _
    obtain ⟨js', hjs', hfl⟩ := Venue.apply_refines hjs m
    obtain ⟨fs, hadded, hfair⟩ := apply_fair (d := (s.sim.marketAt now).floor js) hexplains.agrees m
    rw [← hfl] at hadded hfair
    have hsilent : ((s.sim.marketAt now).floor js).tape.added = [] := by
      show (s.sim.advance now).venue.said.filterMap Said.added = []
      rw [hquiet]
      rfl
    rw [hsilent, List.nil_append] at hadded
    refine ⟨js, js', hjs.toThreaded, hjs'.toThreaded, ?_⟩
    have hfs : ((s.sim.marketAt now).apply m).said.filterMap Said.added = fs := hadded
    rw [hfs]
    exact hfair

theorem ahead_is_queue_offset_part_print :
    ∃ s log q, run (beside next Reference.call) ((⟨.new { maxOrders := 4 }, none⟩, []), {}) partPrint = some ((s, log), q) ∧
      q.fills = [(Token.fromId 1, 4)] ∧ (s.sim.venue.lookup (Token.fromId 1)).map Order.leaves = some 6 := by
  have hview : (run next (⟨.new { maxOrders := 4 }, none⟩, []) partPrint).map
      (fun p => (p.1.sim.droppedReports, (p.1.sim.generated.map Report.said).filterMap Said.added,
        (p.1.sim.venue.lookup (Token.fromId 1)).map Order.leaves)) = some (0, [(Token.fromId 1, 4)], some 6) := by
    decide +kernel
  obtain ⟨⟨s, log⟩, hr, hv⟩ := Option.map_eq_some_iff.mp hview
  obtain ⟨hd, hv⟩ := Prod.mk.inj hv
  obtain ⟨hfills, hleft⟩ := Prod.mk.inj hv
  obtain ⟨q, hq, -, -, hall, -⟩ := ahead_is_queue_offset { maxOrders := 4 } partPrint s log hr
  exact ⟨s, log, q, hq, (hall hd).symm.trans hfills, hleft⟩

end State
end OptiTrade.Sim
