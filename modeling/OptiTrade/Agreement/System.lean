import OptiTrade.Agreement.Simulator
import OptiTrade.Oms.Positions

/-! # The manager and the simulator

The manager sends to the simulator alone, and gets its reports, in order, out of the drain, as bytes. Whatever the
strategy calls, the market sends and the drain hands out, in whatever order: as long as no report is dropped the manager
finds nothing invalid in the reports and clamps none, and when both queues are empty the two agree on every order and the
positions are the signed sums of the executions. -/

namespace OptiTrade.Agreement
set_option autoImplicit false

open Runs
open Ouch (Token Inbound Outbound)
open Oms (OrderManager Session Event Effect Owners Wired isTerminal)
open Oms.Owners (note Booked)
open Risk (kInt64Max)
open Sim (ExchangeSim Report Request SimConfig Floor Chronicle Venue Charges)
open Sim.ExchangeSim (Rings Chronicled)

/-! ## Counters -/

section
variable {s : ExchangeSim}

theorem dropped_advance (hr : s.Rings) (now : Nat) : s.droppedReports ≤ (s.advance now).droppedReports := by
  refine (ExchangeSim.advance_invariant (P := fun t => t.Rings ∧ s.droppedReports ≤ t.droppedReports) ?_ ⟨hr, le_refl _⟩).2
  rintro t ⟨hr, hle⟩ -
  refine ⟨hr.process, hle.trans ?_⟩
  rw [ExchangeSim.process_eq]
  exact dropped_publish hr.popped _

theorem dropped_onItch (hr : s.Rings) (m : Option Itch.Message) (now : Nat) :
    s.droppedReports ≤ (s.onItch m now).droppedReports := by
  refine (dropped_advance hr now).trans ?_
  cases m with
  | none => exact dropped_publish (hr.advance now) _
  | some m => exact dropped_publish (hr.advance now) _

theorem steps_dropped {s t : Sim.State} {c : Sim.Call} {x : Sim.Answer} (h : s.Steps c t x) (hr : s.sim.Rings) :
    s.sim.droppedReports ≤ t.sim.droppedReports := by
  cases h with
  | send m now _ => exact (s.sim.send_frame m now).2.2.ge
  | onItch m now _ => exact dropped_onItch hr m now
  | advance now _ => exact dropped_advance hr now
  | drain now _ => exact le_refl _
  | hand now _ _ => exact le_refl _
  | handed now _ => exact le_refl _
  | drained now _ _ => exact le_refl _

theorem moves_matchNo {k : Sim.Cause} {d d' : Floor} (hm : Sim.Moves k d d') : d.tape.matchNo ≤ d'.tape.matchNo := by
  cases hm with
  | take m sent _ os o b lv ho hr hb hlv hz hc => exact Nat.le_succ _
  | sweep loc side price _ os os' o ho hr hs hc => exact Nat.le_succ _
  | fill loc side level execPrice shares _ os os' o ho hr hs hl hlt hq => exact Nat.le_succ _
  | fillAll loc side level execPrice shares _ os os' o ho hr hs hl hlt => exact Nat.le_succ _
  | _ => exact le_refl _

theorem counted (k : Nat) : Chronicle (fun _ _ => True) (fun _ => True) fun d => k ≤ d.tape.matchNo where
  tick := fun _ _ h => h
  books := fun _ _ _ h => h
  request := fun _ _ => trivial
  caused := fun _ _ _ _ _ _ => trivial
  move := fun _ _ _ _ hm h => h.trans (moves_matchNo hm)

theorem unconditional : Chronicle (fun _ _ => True) (fun _ => True) fun _ => True where
  tick := fun _ _ _ => trivial
  books := fun _ _ _ _ => trivial
  request := fun _ _ => trivial
  caused := fun _ _ _ _ _ _ => trivial
  move := fun _ _ _ _ _ _ => trivial

theorem steps_matchNo {s t : Sim.State} {c : Sim.Call} {x : Sim.Answer} (h : s.Steps c t x) (hr : s.sim.Rings)
    (hs : s.sim.Chronicled fun _ => True) : s.sim.venue.matchNo ≤ t.sim.venue.matchNo := by
  have hcounted : s.sim.Chronicled fun d => s.sim.venue.matchNo ≤ d.tape.matchNo := by
    obtain ⟨hquiet, xs, ⟨hs, hst, -⟩, hsub, hlen⟩ := hs
    exact ⟨hquiet, xs, ⟨hs, hst, le_refl _⟩, hsub, hlen⟩
  obtain ⟨-, xs, ⟨hs', -, hle⟩, -⟩ := h.chronicled (counted _) hr hcounted fun _ _ _ => trivial
  exact hle

end

/-! ## Sending -/

/-- Whether the simulator takes a message; the time does not matter. -/
def takes (s : ExchangeSim) (m : Inbound) : Bool := (s.send m 0).2

theorem send_takes (s : ExchangeSim) (m : Inbound) (now : Nat) : (s.send m now).2 = takes s m := by
  unfold takes ExchangeSim.send
  split_ifs <;> rfl

/-- The event, with `gateway` for what the manager sends to. -/
def through (gateway : Inbound → Bool) : Event → Event
  | .submit req now w => .submit req now { w with gateway := gateway }
  | .cancel id now w => .cancel id now { w with gateway := gateway }
  | .replace id newPrice newQty now w => .replace id newPrice newQty now { w with gateway := gateway }
  | .advance w => .advance { w with gateway := gateway }
  | .cancelAll now => .cancelAll now
  | .ret => .ret
  | .report r now => .report r now
  | .mark locate price => .mark locate price
  | .killSwitch on => .killSwitch on

/-- The simulator gets what the manager sent. -/
def accept (s : ExchangeSim) (fx : List Effect) : ExchangeSim :=
  fx.foldl (fun s f =>
    match f with
    | .sent msg now => (s.send msg now).1
    | .fill _ | .update _ => s) s

theorem accept_nil {s : ExchangeSim} {fx : List Effect} (h : Session.sentIn fx = []) : accept s fx = s := by
  induction fx with
  | nil => rfl
  | cons f fx ih =>
    cases f with
    | sent msg now => cases h
    | fill f => exact ih h
    | update info => exact ih h

theorem accept_one {s : ExchangeSim} {fx : List Effect} {msg : Inbound} (h : Session.sentIn fx = [msg]) :
    ∃ now, accept s fx = (s.send msg now).1 := by
  induction fx with
  | nil => cases h
  | cons f fx ih =>
    cases f with
    | sent msg' now =>
      obtain ⟨rfl, hrest⟩ := List.cons.inj (show msg' :: Session.sentIn fx = [msg] from h)
      exact ⟨now, accept_nil hrest⟩
    | fill f => exact ih h
    | update info => exact ih h

/-- An operation sends at most one message, and a cancel asks for everything. -/
theorem sends_cases {m : OrderManager} (h : m.Inv) {c : Oms.Call} (hf : m.Fits c) :
    m.sends c = [] ∨ ∃ msg, m.sends c = [msg] ∧ ∀ x, msg = .cancel x → x.shares = 0 := by
  cases c with
  | submit r now w =>
    rcases OrderManager.submit_cases m r now w.symbol w.reference w.gateway rfl with ⟨-, -, hno⟩ | ⟨tokens, hs, hg, hout⟩
    · exact .inl (OrderManager.sent_none hno)
    · rw [OrderManager.sends, hout, OrderManager.sent_some hg]
      exact .inr ⟨_, rfl, fun x hx => by cases hx⟩
  | cancelEntry i now w =>
    rcases OrderManager.cancelEntry_cases h hf now w.gateway rfl with ⟨-, -, hno⟩ | ⟨-, -, hg, hout⟩
    · exact .inl (OrderManager.sent_none hno)
    · rw [OrderManager.sends, hout, OrderManager.sent_some hg]
      exact .inr ⟨_, rfl, fun x hx => by cases hx; rfl⟩
  | replace id p q now w =>
    rcases OrderManager.replace_cases h id p q now w.reference w.gateway rfl with ⟨-, -, hno⟩ | ⟨i, tokens, -, -, hg, hout⟩
    · exact .inl (OrderManager.sent_none hno)
    · rw [OrderManager.sends, hout, OrderManager.sent_some hg]
      exact .inr ⟨_, rfl, fun x hx => by cases hx⟩
  | report r now => exact .inl rfl
  | mark l p => exact .inl rfl
  | killSwitch on => exact .inl rfl

theorem mem_filter_toList {o : Option Inbound} {g : Inbound → Bool} {msg : Inbound} (h : msg ∈ (o.filter g).toList) :
    g msg = true := by
  rw [Option.mem_toList] at h
  exact (Option.filter_eq_some_iff.mp h).2

/-- What is sent was taken. -/
theorem sends_taken {s : Session} {g : Inbound → Bool} {e : Event} {c : Oms.Call}
    (ho : s.operation (through g e) = some c) : ∀ msg ∈ s.manager.sends c, g msg = true := by
  cases e with
  | submit req now w =>
    cases ho
    exact fun msg => mem_filter_toList
  | cancel id now w =>
    obtain ⟨i, -, rfl⟩ := Option.map_eq_some_iff.mp ho
    exact fun msg => mem_filter_toList
  | replace id p q now w =>
    cases ho
    exact fun msg => mem_filter_toList
  | advance w =>
    unfold through Session.operation at ho
    dsimp only at ho
    split at ho
    · split_ifs at ho
      cases ho
      exact fun msg => mem_filter_toList
    · cases ho
  | cancelAll now => cases ho
  | ret => cases ho
  | report r now => cases ho; exact fun msg hm => by cases hm
  | mark l p => cases ho; exact fun msg hm => by cases hm
  | killSwitch on => cases ho; exact fun msg hm => by cases hm

/-! ## The system -/

/-- A session and a simulator, the gateway of the one being the `send` of the other. -/
structure System where
  session : Session
  sim : Sim.State
  /-- History: the instrument and side of the order behind each token. -/
  owners : Owners := fun _ => none

/-- One move of the strategy, of the feed or of a drain. -/
inductive Step
  /-- The strategy or a listener moves the session, which sends to the simulator. -/
  | call (e : Event)
  /-- The simulator gets the bytes of a market message. -/
  | onItch (bytes : List Byte) (now : Nat)
  | advance (now : Nat)
  /-- `drain_reports` is called. -/
  | drain (now : Nat)
  /-- The drain in progress hands out the first report, which is decoded and given to the manager. -/
  | hand (now : Nat)
  /-- The manager is done with the report. -/
  | handed
  /-- The drain in progress finds no report that is due and returns. -/
  | drained

/-- The prices of a market message are at least one. -/
def Priced : Itch.Message → Prop
  | .addOrder m => 1 ≤ m.price
  | .orderReplace m => 1 ≤ m.price
  | .orderExecutedPrice m => 1 ≤ m.price
  | _ => True

/-- The messages that a step brings to the market have prices. -/
def Step.Fair (e : Step) : Prop := ∀ bytes now m, e = .onItch bytes now → Itch.decode bytes = .ok m → Priced m

theorem Priced.charges {m : Itch.Message} (h : Priced m) (mb : Book.MarketBooks) : Charges mb m := by
  cases m with
  | addOrder m => exact fun _ => h
  | orderReplace m => exact fun _ _ _ => h
  | orderExecutedPrice m => exact fun _ _ _ => h
  | stockDirectory m => trivial
  | orderExecuted m => trivial
  | orderCancel m => trivial
  | orderDelete m => trivial
  | trade m => trivial
  | systemEvent m => trivial

namespace System

def new (config : Oms.Config) (limits : Risk.Limits) (maxLocates : Nat) (simConfig : SimConfig) : System where
  session := .new config limits maxLocates
  sim := ⟨.new simConfig, none⟩

/-- The system after the simulator took a call. -/
def moved (s : System) (c : Sim.Call) : Option System := (s.sim.step c).map fun (t, _) => { s with sim := t }

/-- `none` where the move is not possible: reports come out of a drain only, and nobody calls while it looks for the
next one. -/
def next (s : System) : Step → Option System
  | .call e =>
    if Oms.System.isReport e || !s.sim.mayCall then none
    else
      (s.session.step (through (takes s.sim.sim) e)).map fun (t, fx) =>
        { session := t
          sim := { s.sim with sim := accept s.sim.sim fx }
          owners := (Session.sentIn fx).foldl (note e.request) s.owners }
  | .onItch bytes now => s.moved (.onItch (Itch.decode bytes).toOption now)
  | .advance now => s.moved (.advance now)
  | .drain now => s.moved (.drain now)
  | .hand now =>
    match s.sim.step .hand with
    | some (t, .report r) =>
      match Ouch.decodeOutbound r.bytes with
      | .ok ρ => (s.session.step (.report ρ now)).map fun (u, _) => { s with session := u, sim := t }
      | .error _ => some { s with sim := t }
    | _ => none
  | .handed => if s.session.stack.isEmpty then s.moved .handed else none
  | .drained => s.moved .drained

/-! ## The invariant -/

variable {n : Nat} {s s' : System} {taken held : List Report}

/-- The two ends agree, `taken` being the reports that the manager has and `held` those of them still in the queue: the
one whose callback is running. -/
structure Linked (n : Nat) (s : System) (taken held : List Report) : Prop where
  agreed : Agreed n s.session.manager taken held s.sim.sim
  booked : Booked s.owners (decoded taken) s.session.manager
  idle : (∀ now, s.sim.draining ≠ some (now, true)) → held = []
  busy : ∀ now, s.sim.draining = some (now, true) → ∃ r, held = [r]

/-- What a run keeps of the two parties, and of what lies between them. -/
structure Ok (n : Nat) (s : System) : Prop where
  session : s.session.Ok
  limit : s.session.manager.risk.limits.maxPosition ≤ kInt64Max
  rings : s.sim.sim.Rings
  chronicled : s.sim.sim.Chronicled fun _ => True
  linked : s.sim.sim.droppedReports = 0 → s.sim.sim.venue.matchNo < 2 ^ 64 → ∃ taken held, Linked n s taken held

theorem Ok.moved (h : Ok n s) {c : Sim.Call} {t : Sim.State} {x : Sim.Answer} (hc : s.sim.Steps c t x)
    (hl : t.sim.droppedReports = 0 → ∀ taken held, Linked n s taken held → ∃ taken held, Linked n { s with sim := t } taken held) :
    Ok n { s with sim := t } := by
  refine ⟨h.session, h.limit, hc.rings h.rings, hc.chronicled unconditional h.rings h.chronicled fun _ _ _ => trivial,
    fun hd hlt => ?_⟩
  have hdrop := steps_dropped hc h.rings
  have hmatch := steps_matchNo hc h.rings h.chronicled
  have hd : t.sim.droppedReports = 0 := hd
  have hlt : t.sim.venue.matchNo < 2 ^ 64 := hlt
  obtain ⟨taken, held, h'⟩ := h.linked (by omega) (by omega)
  exact hl hd taken held h'

theorem Linked.sim (h : Linked n s taken held) {t : ExchangeSim} (ha : Agreed n s.session.manager taken held t) :
    Linked n { s with sim := { s.sim with sim := t } } taken held :=
  ⟨ha, h.booked, h.idle, h.busy⟩

theorem Ok.call (h : Ok n s) {e : Event} (hrep : ¬Oms.System.isReport e = true) {t : Session} {fx : List Effect}
    (hs : s.session.step (through (takes s.sim.sim) e) = some (t, fx)) :
    Ok n { session := t
           sim := { s.sim with sim := accept s.sim.sim fx }
           owners := (Session.sentIn fx).foldl (note e.request) s.owners } := by
  obtain ⟨hm, hfx⟩ := Session.step_operation hs
  have hok := (h.session.step hs).2
  have hlimit : t.manager.risk.limits.maxPosition ≤ kInt64Max := by
    rw [h.session.step_limits hs]
    exact h.limit
  cases ho : s.session.operation (through (takes s.sim.sim) e) with
  | none =>
    rw [ho] at hm hfx
    have hm : t.manager = s.session.manager := hm
    have hfx : Session.sentIn fx = [] := hfx
    rw [accept_nil hfx, hfx]
    refine ⟨hok, hlimit, h.rings, h.chronicled, fun hd hlt => ?_⟩
    obtain ⟨taken, held, h'⟩ := h.linked hd hlt
    exact ⟨taken, held, by rw [hm]; exact h'.agreed, by rw [hm]; exact h'.booked, h'.idle, h'.busy⟩
  | some c =>
    rw [ho] at hm hfx
    have hm : t.manager = s.session.manager.perform c := hm
    have hfx : Session.sentIn fx = s.session.manager.sends c := hfx
    have hf := h.session.fits ho
    have hinv := h.session.inv
    have hnr : ∀ r now, c ≠ .report r now := by
      rintro r now rfl
      have he := (Session.operation_report ho r now).mp rfl
      cases e <;> cases he
      exact hrep rfl
    have hreq : ∀ r now w, c = .submit r now w → e.request = some r := by
      rintro r now w rfl
      have he := Session.operation_submit ho
      cases e <;> cases he
      rfl
    have hlink : ∀ {u : ExchangeSim}, u.venue = s.sim.sim.venue → u.reports = s.sim.sim.reports →
        u.generated = s.sim.sim.generated → u.droppedReports = s.sim.sim.droppedReports →
        u.requests.toList.map Request.msg = s.sim.sim.requests.toList.map Request.msg ++ s.session.manager.sends c →
        (∀ q ∈ s.session.manager.sends c, ∀ x, q = .cancel x → x.shares = 0) →
        u.droppedReports = 0 → u.venue.matchNo < 2 ^ 64 → ∃ taken held, Linked n
          { session := t, sim := { s.sim with sim := u }
            owners := (Session.sentIn fx).foldl (note e.request) s.owners } taken held := by
      intro u hv hr hg hd hq hz hd₀ hlt
      obtain ⟨taken, held, h'⟩ := h.linked (by rw [← hd]; exact hd₀) (by rw [← hv]; exact hlt)
      refine ⟨taken, held, ?_, ?_, h'.idle, h'.busy⟩
      · show Agreed n t.manager taken held u
        rw [hm]
        exact h'.agreed.call hinv hf hnr hv hr hg hq hz
      · show Booked ((Session.sentIn fx).foldl (note e.request) s.owners) _ t.manager
        rw [hm, hfx]
        exact h'.booked.call hinv h.limit hf hnr hreq
    rcases sends_cases hinv hf with hnil | ⟨msg, hone, hz⟩
    · have hu : accept s.sim.sim fx = s.sim.sim := accept_nil (hfx.trans hnil)
      rw [hu]
      exact ⟨hok, hlimit, h.rings, h.chronicled,
        hlink rfl rfl rfl rfl (by rw [hnil, List.append_nil]) (by rw [hnil]; exact fun q hq => by cases hq)⟩
    · obtain ⟨now, hu⟩ := accept_one (s := s.sim.sim) (hfx.trans hone)
      have htaken : (s.sim.sim.send msg now).2 = true := by
        rw [send_takes]
        exact sends_taken ho msg (by rw [hone]; exact List.mem_singleton_self msg)
      obtain ⟨hsend, hroom⟩ := ExchangeSim.send_taken h.rings htaken
      obtain ⟨hv, hg, hd⟩ := s.sim.sim.send_frame msg now
      rw [hu]
      refine ⟨hok, hlimit, h.rings.send msg now, h.chronicled.same hv hg hd, hlink hv (by rw [hsend]) hg hd ?_ ?_⟩
      · rw [hsend, hone]
        show (s.sim.sim.requests.push _).toList.map Request.msg = _
        rw [RingBuffer.toList_push _ _ hroom, List.map_append]
        rfl
      · rw [hone]
        intro q hq x hx
        rw [List.mem_singleton.mp hq] at hx
        exact hz x hx

/-- **Step.** -/
theorem Ok.step {e : Step} (h : Ok n s) (hs : s.next e = some s') (hf : e.Fair) : Ok n s' := by
  cases e with
  | call e =>
    simp only [next, Option.ite_none_left_eq_some, Option.map_eq_some_iff, Bool.or_eq_true, not_or] at hs
    obtain ⟨⟨hrep, -⟩, ⟨t, fx⟩, hstep, rfl⟩ := hs
    exact h.call hrep hstep
  | onItch bytes now =>
    obtain ⟨⟨t, x⟩, hstep, rfl⟩ := Option.map_eq_some_iff.mp hs
    have hc := Sim.State.step_cases hstep
    refine h.moved hc fun hd taken held h' => ⟨taken, held, ?_⟩
    cases hc with
    | onItch m now' _ =>
      refine h'.sim (Agrees.onItch ⟨h.rings, fun _ => h'.agreed⟩ now (fun m hm => ?_) |>.2 hd)
      cases hdec : Itch.decode bytes with
      | error err =>
        rw [hdec] at hm
        cases hm
      | ok m' =>
        rw [hdec] at hm
        cases hm
        exact ⟨Itch.decode_wireSized hdec, (hf bytes now m rfl hdec).charges⟩
  | advance now =>
    obtain ⟨⟨t, x⟩, hstep, rfl⟩ := Option.map_eq_some_iff.mp hs
    have hc := Sim.State.step_cases hstep
    refine h.moved hc fun hd taken held h' => ⟨taken, held, ?_⟩
    cases hc with
    | advance now' _ => exact h'.sim ((Agrees.advance ⟨h.rings, fun _ => h'.agreed⟩ now).2 hd)
  | drain now =>
    obtain ⟨⟨t, x⟩, hstep, rfl⟩ := Option.map_eq_some_iff.mp hs
    have hc := Sim.State.step_cases hstep
    refine h.moved hc fun hd taken held h' => ⟨taken, held, ?_⟩
    cases hc with
    | drain now' hidle =>
      exact ⟨h'.agreed, h'.booked, fun _ => h'.idle (by simp [hidle]), fun now hd => by cases hd⟩
  | hand now =>
    simp only [next] at hs
    split at hs
    · rename_i t r hstep
      have hc := Sim.State.step_cases hstep
      cases hc with
      | hand now' hdrain hdue =>
        have hcount := (ExchangeSim.due_count hdue).1
        -- in a run that counts the bytes decode, else nothing is claimed
        split at hs
        · rename_i ρ hdec
          obtain ⟨⟨u, fx⟩, hreport, rfl⟩ := Option.map_eq_some_iff.mp hs
          obtain ⟨hm, -⟩ := Session.step_operation hreport
          have hm : u.manager = s.session.manager.onReport ρ now := hm
          refine ⟨(h.session.step hreport).2, ?_, h.rings, h.chronicled, fun hd hlt => ?_⟩
          · rw [h.session.step_limits hreport]
            exact h.limit
          · obtain ⟨taken, held, h'⟩ := h.linked hd hlt
            obtain rfl := h'.idle (by simp [hdrain])
            obtain ⟨hdec', ⟨out, b, inbox, used, hw⟩, hagreed⟩ := h'.agreed.deliver h.rings hcount hlt h.session.inv now
            obtain rfl : ρ = cut s.sim.sim.reports.front.msg := Except.ok.inj (hdec.symm.trans hdec')
            refine ⟨taken ++ [s.sim.sim.reports.front], [s.sim.sim.reports.front], ?_, ?_, fun hne => absurd rfl (hne now'),
              fun _ _ => ⟨_, rfl⟩⟩
            · show Agreed n u.manager _ _ s.sim.sim
              rw [hm]
              exact hagreed
            · show Booked s.owners (decoded (taken ++ [s.sim.sim.reports.front])) u.manager
              rw [hm, show decoded (taken ++ [s.sim.sim.reports.front]) = decoded taken ++ [cut s.sim.sim.reports.front.msg] from
                List.map_append]
              exact h'.booked.deliver h.session.inv hw h.limit now
        · rename_i err hdec
          cases hs
          refine ⟨h.session, h.limit, h.rings, h.chronicled, fun hd hlt => ?_⟩
          obtain ⟨taken, held, h'⟩ := h.linked hd hlt
          obtain rfl := h'.idle (by simp [hdrain])
          obtain ⟨hdec', -⟩ := h'.agreed.deliver h.rings hcount hlt h.session.inv now
          rw [hdec'] at hdec
          cases hdec
    · cases hs
  | handed =>
    simp only [next, Option.ite_none_right_eq_some] at hs
    obtain ⟨⟨t, x⟩, hstep, rfl⟩ := Option.map_eq_some_iff.mp hs.2
    have hc := Sim.State.step_cases hstep
    refine h.moved hc fun hd taken held h' => ⟨taken, [], ?_⟩
    cases hc with
    | handed now hdrain =>
      obtain ⟨r, rfl⟩ := h'.busy now hdrain
      exact ⟨h'.agreed.handed h.rings, h'.booked, fun _ => rfl, fun now hd => by cases hd⟩
  | drained =>
    obtain ⟨⟨t, x⟩, hstep, rfl⟩ := Option.map_eq_some_iff.mp hs
    have hc := Sim.State.step_cases hstep
    refine h.moved hc fun hd taken held h' => ⟨taken, held, ?_⟩
    cases hc with
    | drained now hdrain _ =>
      exact ⟨h'.agreed, h'.booked, fun _ => h'.idle (by simp [hdrain]), fun now hd => by cases hd⟩

theorem Ok.run {es : List Step} (h : Ok n s) (hr : run next s es = some s') (hf : ∀ e ∈ es, e.Fair) : Ok n s' :=
  run_invariant_along (P := Ok n) (Q := fun _ e => e.Fair) (fun _ _ _ h₁ hq hs => h₁.step hs hq) hr (along_of_forall hf _) h

theorem Ok.new (config : Oms.Config) {limits : Risk.Limits} (hmax : limits.maxPosition ≤ kInt64Max) (maxLocates : Nat)
    (simConfig : SimConfig) : Ok simConfig.books.maxLevelsPerSide (new config limits maxLocates simConfig) where
  session := .new config limits maxLocates
  limit := hmax
  rings := .new simConfig
  chronicled := ⟨rfl, [], ⟨[], .new _ _, trivial⟩, List.Sublist.refl _, rfl⟩
  linked := fun _ _ => ⟨[], [], .new config limits maxLocates simConfig, .new config limits maxLocates, fun _ => rfl,
    fun now hd => by cases hd⟩

/-! ## Agreement -/

theorem position_decoded (o : Owners) (l : Nat) (hsized : ∀ r ∈ taken, ∀ x, r.msg = .executed x → x.shares < 2 ^ 32) :
    o.position l (decoded taken) = o.position l (taken.map Report.msg) := by
  unfold Owners.position decoded
  rw [List.map_map, List.map_map]
  refine congrArg List.sum (List.map_congr_left fun r hr => ?_)
  show o.moved l (cut r.msg) = o.moved l r.msg
  cases hm : r.msg with
  | executed x =>
    show (o x.token).elim 0 (fun k => OrderManager.impact k l (x.shares % 2 ^ 32)) = _
    rw [Nat.mod_eq_of_lt (hsized r hr x hm)]
    rfl
  | accepted a => rfl
  | canceled c => rfl
  | rejected j => rfl
  | replaced rp => rfl

end System

/-- **The manager and the simulator agree.** Whatever the strategy and its listener call, the market sends, and the drain
hands out, in any order: in a run on prices of at least one in which no report was dropped, no report is counted as invalid
or clamped; and whenever both queues are empty, an order of the manager is non-terminal if and only if its active token is
a working order of the simulator, it is then live with the simulator's leaves and executed quantity, every working order of
the simulator is one of these, and every position is the signed sum of the executions the simulator generated for the
orders submitted on that instrument. -/
theorem manager_and_simulator_agree (config : Oms.Config) (limits : Risk.Limits) (hmax : limits.maxPosition ≤ kInt64Max)
    (maxLocates : Nat) (simConfig : SimConfig) (es : List Step) (s : System)
    (hr : run System.next (System.new config limits maxLocates simConfig) es = some s) (hf : ∀ e ∈ es, e.Fair)
    (hd : s.sim.sim.droppedReports = 0) (hlt : s.sim.sim.venue.matchNo < 2 ^ 64) :
    (s.session.manager.stats.invalidReports = 0 ∧ s.session.manager.stats.clampedReports = 0) ∧
    (s.sim.sim.requests.count = 0 → s.sim.sim.reports.count = 0 →
      (∀ id e, s.session.manager.entry id = some e →
        (isTerminal e.info.status = false ↔ (s.sim.sim.venue.working (Token.fromId e.token)).isSome) ∧
        ∀ x, s.sim.sim.venue.working (Token.fromId e.token) = some x →
          e.info.status = .live ∧ e.info.leavesQty = x.left ∧ e.info.cumQty = x.done) ∧
      (∀ t x, s.sim.sim.venue.working t = some x →
        ∃ id e, s.session.manager.entry id = some e ∧ t = Token.fromId e.token) ∧
      ∀ l, (s.session.manager.risk.position l).qty = s.owners.position l (s.sim.sim.generated.map Report.msg)) := by
  have hok := (System.Ok.new config hmax maxLocates simConfig).run hr hf
  have hinv := hok.session.inv
  obtain ⟨taken, held, h⟩ := hok.linked hd hlt
  obtain ⟨rest, used, hrep, hgen, hw⟩ := h.agreed.wired hlt
  refine ⟨⟨hw.client.invalid, hw.client.clamped⟩, fun hrequests hreports => ?_⟩
  rw [RingBuffer.toList_eq_nil.mpr hreports] at hrep
  obtain ⟨rfl, rfl⟩ := List.append_eq_nil_iff.mp hrep.symm
  rw [RingBuffer.toList_eq_nil.mpr hrequests] at hw
  have hw : Wired s.session.manager [] (bookOf s.sim.sim.venue.working) [] used := hw
  have hgen : s.sim.sim.generated = taken := by rw [hgen, List.append_nil]
  refine ⟨fun id e he => ?_, fun t x hx => ?_, fun l => ?_⟩
  · obtain ⟨hiff, hall⟩ := hw.settled hinv he
    have hsome : (bookOf s.sim.sim.venue.working (Token.fromId e.token)).isSome =
        (s.sim.sim.venue.working (Token.fromId e.token)).isSome := Option.isSome_map
    rw [hsome] at hiff
    refine ⟨hiff, fun x hx => ?_⟩
    obtain ⟨hlive, -, hleaves, hcum⟩ := hall _ (bookOf_some hx)
    exact ⟨hlive, hleaves, hcum⟩
  · obtain ⟨id, e, he, hterm, htok, -⟩ := hw.reserved hinv (bookOf_some hx)
    refine ⟨id, e, he, htok.resolve_right ?_⟩
    rintro ⟨hn, -⟩
    -- a replacement token would still be unanswered
    obtain ⟨hiff, hall⟩ := hw.settled hinv he
    obtain ⟨o, ho⟩ := Option.isSome_iff_exists.mp (hiff.mp hterm)
    exact hn (hall o ho).2.1
  · have hsized : ∀ r ∈ taken, ∀ x, r.msg = .executed x → x.shares < 2 ^ 32 := hgen ▸ h.agreed.sized
    rw [hgen, ← System.position_decoded s.owners l hsized]
    exact h.booked.position l

/-- A buy of ten finds an offer of four, takes it and rests with six; both reports are delivered. -/
def partFill : List Step :=
  [.onItch [82, 0, 1, 0, 0, 0, 0, 0, 0, 0, 0, 65, 66, 67, 68, 32, 32, 32, 32, 0, 0, 0, 0, 0, 100, 0, 0, 0, 0, 0, 0, 0, 0, 0,
      0, 0, 0, 0, 0] 1,
    .onItch [65, 0, 1, 0, 0, 0, 0, 0, 0, 0, 0, 0, 0, 0, 0, 0, 0, 0, 1, 83, 0, 0, 0, 4, 65, 66, 67, 68, 32, 32, 32, 32, 0, 0,
      0, 10] 2,
    .call (.submit { locate := 1, price := 10, qty := 10 } 3 Oms.Session.openWorld), .call .ret, .advance 60000,
    .drain 200000, .hand 200000, .call .ret, .handed, .hand 200000, .call .ret, .call .ret, .handed, .drained]

theorem partFill_fair : ∀ e ∈ partFill, e.Fair := by
  rintro e he bytes now m rfl hdec
  simp only [partFill, List.mem_cons, Step.onItch.injEq, reduceCtorEq, List.not_mem_nil, or_false] at he
  rcases he with ⟨rfl, -⟩ | ⟨rfl, -⟩
  · cases hdec
    trivial
  · have hadd : Itch.decode [65, 0, 1, 0, 0, 0, 0, 0, 0, 0, 0, 0, 0, 0, 0, 0, 0, 0, 1, 83, 0, 0, 0, 4, 65, 66, 67, 68, 32, 32, 32, 32,
        0, 0, 0, 10] = .ok (.addOrder ⟨⟨1, 0, 0⟩, 1, .sell, 4, .ofText [65, 66, 67, 68], 10, false, [0, 0, 0, 0]⟩) := by
      decide +kernel
    obtain rfl := Except.ok.inj (hadd.symm.trans hdec)
    exact (by decide : (1 : Int) ≤ 10)

theorem agree_after_part_fill :
    ∃ s e, run System.next (System.new {} {} 2 {}) partFill = some s ∧ s.session.manager.entry 1 = some e ∧
      e.info.status = .live ∧ e.info.leavesQty = 6 ∧ e.info.cumQty = 4 ∧ (s.session.manager.risk.position 1).qty = 4 := by
  have hview : (run System.next (System.new {} {} 2 {}) partFill).map (fun s =>
      ([s.sim.sim.droppedReports, s.sim.sim.venue.matchNo, s.sim.sim.requests.count, s.sim.sim.reports.count],
        (s.session.manager.entry 1).map Oms.Entry.token, s.sim.sim.venue.working (Token.fromId 1),
        s.owners.position 1 (s.sim.sim.generated.map Sim.Report.msg))) = some ([0, 1, 0, 0], some 1, some ⟨.buy, 10, 6, 4⟩, 4) := by
    decide +kernel
  obtain ⟨s, hr, hv⟩ := Option.map_eq_some_iff.mp hview
  simp only [Prod.mk.injEq, List.cons.injEq, and_true, Option.map_eq_some_iff] at hv
  obtain ⟨⟨hd, hn, hreq, hrep⟩, ⟨e, he, htok⟩, hwork, hpos⟩ := hv
  obtain ⟨-, hquiet⟩ := manager_and_simulator_agree {} {} (by decide) 2 {} partFill s hr partFill_fair hd (by rw [hn]; decide)
  obtain ⟨hall, -, hposition⟩ := hquiet hreq hrep
  obtain ⟨hlive, hleaves, hcum⟩ := (hall 1 e he).2 _ (htok ▸ hwork)
  exact ⟨s, e, hr, he, hlive, hleaves, hcum, (hposition 1).trans hpos⟩

end OptiTrade.Agreement
