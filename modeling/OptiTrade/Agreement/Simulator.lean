import OptiTrade.Agreement.Exchange

/-! # The two queues between the manager and the simulator

`Agreed` ties the whole simulator to the manager: the reports in its queue are on their way, or the first of them has
been delivered and not taken off yet; the requests in its queue are on theirs. It is about runs in which no report was
dropped, so each call is shown to keep it if nothing was dropped by its end. -/

namespace OptiTrade.Agreement
set_option autoImplicit false

open Ouch (Token Inbound Outbound)
open Oms (OrderManager Wired Proper)
open Sim (Said Floor Tape Venue ExchangeSim Report Request Caused Charges blotter Prices)
open Sim.ExchangeSim (Rings Published publish_published)

variable {n : Nat} {m m' : OrderManager} {taken held : List Report} {s : ExchangeSim}

/-! ## Time and market data -/

namespace Stands
variable {xs : List Said} {out : List Outbound} {inbox : List Inbound} {d : Floor}

theorem tick (h : Stands n xs m out inbox d) (clock : Nat) : Stands n xs m out inbox (d.tick clock) :=
  ⟨(Floor.Described.chronicle n).tick (d.after xs) clock h.described, (Floor.Payable.chronicle n).tick (d.after xs) clock h.payable,
    h.wired⟩

theorem market (h : Stands n xs m out inbox d) (hs : d.Settled) {im : Itch.Message} (hw : im.WireSized)
    (hc : ∀ mb, Charges mb im) : Stands n xs m out inbox (d.apply im) := by
  have hbooks : Stands n xs m out inbox { d with books := (d.books.on im).1 } :=
    ⟨(Floor.Described.chronicle n).books (d.after xs) im hw h.described,
      (Floor.Payable.chronicle n).books (d.after xs) im ⟨hw, hc _⟩ h.payable, h.wired⟩
  rcases Sim.apply_chain d hs im with hsame | ⟨k, hk, hchain⟩
  · rw [hsame]
    exact hbooks
  · refine hbooks.chain ?_ ((Floor.Payable.chronicle n).caused (d.after xs) im k ⟨hw, hc _⟩ h.payable hk) hchain
    cases hk with
    | add _ => trivial
    | replaced _ _ _ => trivial
    | executed _ _ _ => trivial
    | executedPrice _ _ _ => trivial

end Stands

/-! ## Agreement -/

/-- The reports of a list, as the decoder gives them. -/
def decoded (rs : List Report) : List Outbound := rs.map fun r => cut r.msg

/-- `taken` are the reports that the manager has, `held` those of them that are still in the queue. -/
structure Agreed (n : Nat) (m : OrderManager) (taken held : List Report) (s : ExchangeSim) : Prop where
  quiet : s.venue.said = []
  forms : ∀ r ∈ s.requests.toList, ∀ c, r.msg = .cancel c → c.shares = 0
  encoded : ∀ r ∈ s.reports.toList, (Ouch.encode r.msg).isSome
  sized : ∀ r ∈ s.generated, ∀ x, r.msg = .executed x → x.shares < 2 ^ 32
  stands : ∃ hs xs rest, s.venue.Stored hs [] ∧ s.reports.toList = held ++ rest ∧ s.generated = taken ++ rest ∧
    Stands n xs m (decoded rest) (s.requests.toList.map Request.msg) (s.venue.floor hs)

theorem foldl_emit_encoded (hr : s.Rings) (he : ∀ r ∈ s.reports.toList, (Ouch.encode r.msg).isSome) (ms : List Said) :
    ∀ r ∈ (ms.foldl ExchangeSim.emit s).reports.toList, (Ouch.encode r.msg).isSome := by
  induction ms generalizing s with
  | nil => exact he
  | cons x ms ih =>
    rcases ExchangeSim.emit_queued hr x with hq | ⟨-, hx, hq⟩
    · refine ih hq.rings fun r hrm => ?_
      rw [hq.reports, List.append_nil] at hrm
      exact he r hrm
    · refine ih hq.rings fun r hrm => ?_
      rw [hq.reports] at hrm
      rcases List.mem_append.mp hrm with hrm | hrm
      · exact he r hrm
      · rw [List.mem_singleton.mp hrm]
        exact hx

namespace Agreed

/-- What the venue said in a call is queued. -/
theorem publish (hr : s.Rings) {v : Venue} {hs : List Nat} {xs : List Said} {rest : List Report}
    (hforms : ∀ r ∈ s.requests.toList, ∀ c, r.msg = .cancel c → c.shares = 0)
    (henc : ∀ r ∈ s.reports.toList, (Ouch.encode r.msg).isSome)
    (hsized : ∀ r ∈ s.generated, ∀ x, r.msg = .executed x → x.shares < 2 ^ 32) (hst : v.Stored hs [])
    (hrep : s.reports.toList = held ++ rest) (hgen : s.generated = taken ++ rest)
    (h : Stands n xs m (decoded rest) (s.requests.toList.map Request.msg) (v.floor hs))
    (hd : (s.publish v).droppedReports = 0) : Agreed n m taken held (s.publish v) := by
  obtain ⟨rs, d, hp⟩ := publish_published hr v
  have hdrop : (s.publish v).droppedReports = s.droppedReports + d := hp.queued.dropped
  obtain rfl : d = 0 := by omega
  have hrs : rs = v.said.map (s.reportAt v.clock) := hp.all
  have hreq : (s.publish v).requests = s.requests := hp.queued.requests
  have hkeeps : v.Keeps { v with said := [] } := ⟨rfl, rfl, rfl, rfl, fun _ => rfl, fun _ => rfl, fun _ => rfl⟩
  have henc' := foldl_emit_encoded (s := { s with venue := { v with said := [] } })
    ⟨hr.requests_le, hr.requests_head, hr.reports_le, hr.reports_head⟩ henc v.said
  refine ⟨by rw [hp.queued.venue], by rw [hreq]; exact hforms, henc', fun r hr x hx => ?_, hs, xs ++ v.said, rest ++ rs,
    ?_, ?_, ?_, ?_⟩
  · rw [hp.queued.generated] at hr
    rcases List.mem_append.mp hr with hr | hr
    · exact hsized r hr x hx
    · rw [hrs] at hr
      obtain ⟨y, hy, rfl⟩ := List.mem_map.mp hr
      obtain ⟨-, hq, -⟩ := h.payable.tape y (List.mem_append_right _ hy) x hx
      unfold kMaxOrderQty at hq
      omega
  · rw [hp.queued.venue]
    exact hkeeps.stored hst
  · rw [hp.queued.reports, ← List.append_assoc, ← hrep]
  · rw [hp.queued.generated, ← List.append_assoc, ← hgen]
  · have hwhole : (({ v with said := [] } : Venue).floor hs).after (xs ++ v.said) = (v.floor hs).after xs := by
      unfold Floor.after Tape.after
      show ({ v.floor hs with tape := { v.tape with said := xs ++ v.said ++ [] } } : Floor) = _
      rw [List.append_nil]
      rfl
    have hsaid : decoded rs = (v.floor hs).tape.messages.map cut := by
      rw [hrs]
      show List.map _ (List.map _ v.said) = List.map _ (List.map _ v.said)
      rw [List.map_map, List.map_map]
      rfl
    rw [hp.queued.venue, hreq]
    refine ⟨hwhole ▸ h.described, hwhole ▸ h.payable, fun hlt => ?_⟩
    obtain ⟨used, hle, hw⟩ := h.wired hlt
    refine ⟨used, hle, ?_⟩
    rw [← hsaid, ← show decoded (rest ++ rs) = decoded rest ++ decoded rs from List.map_append] at hw
    show Wired m (decoded (rest ++ rs) ++ List.map cut []) _ _ used
    rw [List.map_nil, List.append_nil]
    exact hw

theorem process (hr : s.Rings) (hc : s.requests.count ≠ 0) (h : Agreed n m taken held s) (hd : s.process.droppedReports = 0) :
    Agreed n m taken held s.process := by
  obtain ⟨hs, xs, rest, hst, hrep, hgen, h'⟩ := h.stands
  have hreq := hr.toList_requests hc
  have hkeeps : s.venue.Keeps s.reached := ⟨rfl, rfl, rfl, rfl, fun _ => rfl, fun _ => rfl, fun _ => rfl⟩
  have hst' := hkeeps.stored hst
  obtain ⟨hs', hst'', hfl⟩ := Venue.onRequest_refines hst' s.requests.front.msg s.requests.front.sent
  have hanswered : Stands n xs m (decoded rest) (s.requests.pop.toList.map Request.msg)
      ((s.reached.onRequest s.requests.front.msg s.requests.front.sent).floor hs') := by
    rw [hfl]
    rw [hreq, List.map_cons] at h'
    exact (h'.tick (max s.venue.clock s.requests.front.arrival)).onRequest _ _ hst'.settled
      fun c hcm => h.forms s.requests.front (by rw [hreq]; exact List.mem_cons_self) c hcm
  rw [ExchangeSim.process_eq] at hd ⊢
  exact publish (s := s.popped) hr.popped (fun r hm => h.forms r (by rw [hreq]; exact List.mem_cons_of_mem _ hm))
    h.encoded h.sized hst'' hrep hgen hanswered hd

theorem new (config : Oms.Config) (limits : Risk.Limits) (maxLocates : Nat) (simConfig : Sim.SimConfig) :
    Agreed simConfig.books.maxLevelsPerSide (.new config (.new limits maxLocates)) [] [] (.new simConfig) where
  quiet := rfl
  forms := fun r hr => by cases hr
  encoded := fun r hr => by cases hr
  sized := fun r hr => by cases hr
  stands := by
    have hdescribed : ((Venue.new simConfig.maxOrders simConfig.books).floor []).Described simConfig.books.maxLevelsPerSide :=
      ⟨.new simConfig.books, ⟨List.nodup_nil, fun o ho => by cases ho⟩, rfl, .nil⟩
    have hpayable : ((Venue.new simConfig.maxOrders simConfig.books).floor []).Payable simConfig.books.maxLevelsPerSide :=
      ⟨.new simConfig.books, fun o ho => (by cases ho), fun x hx => (by cases hx)⟩
    exact ⟨[], [], [], .new _ _, rfl, rfl, hdescribed, hpayable,
      fun _ => ⟨[], fun k hk => (by cases hk), .new config limits maxLocates⟩⟩

theorem call (h : Agreed n m taken held s) (hinv : m.Inv) {c : Oms.Call} (hf : m.Fits c) (hnr : ∀ r now, c ≠ .report r now)
    {t : ExchangeSim} (hv : t.venue = s.venue) (hreports : t.reports = s.reports) (hgenerated : t.generated = s.generated)
    (hreq : t.requests.toList.map Request.msg = s.requests.toList.map Request.msg ++ m.sends c)
    (hz : ∀ q ∈ m.sends c, ∀ x, q = .cancel x → x.shares = 0) : Agreed n (m.perform c) taken held t := by
  obtain ⟨hs, xs, rest, hst, hrep, hgen, h'⟩ := h.stands
  refine ⟨by rw [hv]; exact h.quiet, fun r hr x hx => ?_, by rw [hreports]; exact h.encoded, by rw [hgenerated]; exact h.sized,
    hs, xs, rest, by rw [hv]; exact hst, by rw [hreports]; exact hrep, by rw [hgenerated]; exact hgen, ?_⟩
  · have hmem : r.msg ∈ t.requests.toList.map Request.msg := List.mem_map_of_mem hr
    rw [hreq] at hmem
    rcases List.mem_append.mp hmem with hmem | hmem
    · obtain ⟨r', hr', heq⟩ := List.mem_map.mp hmem
      exact h.forms r' hr' x (heq.trans hx)
    · exact hz _ hmem x hx
  · rw [hv, hreq]
    refine ⟨h'.described, h'.payable, fun hlt => ?_⟩
    obtain ⟨used, hle, hw⟩ := h'.wired hlt
    exact ⟨used, hle, hw.call hinv hf hnr⟩

theorem wired (h : Agreed n m taken held s) (hlt : s.venue.matchNo < 2 ^ 64) :
    ∃ rest used, s.reports.toList = held ++ rest ∧ s.generated = taken ++ rest ∧
      Wired m (decoded rest) (bookOf s.venue.working) (s.requests.toList.map Request.msg) used := by
  obtain ⟨hs, xs, rest, hst, hrep, hgen, h'⟩ := h.stands
  obtain ⟨used, -, hw⟩ := h'.wired hlt
  have hnone : (s.venue.floor hs).tape.messages = [] := by
    show s.venue.said.map Said.msg = []
    rw [h.quiet]
    rfl
  rw [hnone, List.map_nil, List.append_nil] at hw
  refine ⟨rest, used, hrep, hgen, ?_⟩
  rw [hst.working_eq h'.described.working]
  exact hw

/-- **Delivery**: the bytes of the first report decode, and the manager takes what they decode to. -/
theorem deliver (h : Agreed n m taken [] s) (hr : s.Rings) (hc : s.reports.count ≠ 0) (hlt : s.venue.matchNo < 2 ^ 64)
    (hinv : m.Inv) (now : Nat) : Ouch.decodeOutbound s.reports.front.bytes = .ok (cut s.reports.front.msg) ∧
      (∃ out b inbox used, Wired m (cut s.reports.front.msg :: out) b inbox used) ∧
      Agreed n (m.onReport (cut s.reports.front.msg) now) (taken ++ [s.reports.front]) [s.reports.front] s := by
  obtain ⟨rest, used, hrep, -, hw⟩ := h.wired hlt
  obtain ⟨hs, xs, rest', hst, hrep', hgen, h'⟩ := h.stands
  have hlist := hr.toList_reports hc
  have hrest : rest = s.reports.front :: s.handed.reports.toList := by
    rw [List.nil_append] at hrep
    exact hrep.symm.trans hlist
  obtain rfl : rest' = s.reports.front :: s.handed.reports.toList := by
    rw [List.nil_append] at hrep'
    exact hrep'.symm.trans hlist
  rw [hrest] at hw
  have hw : Wired m (cut s.reports.front.msg :: decoded s.handed.reports.toList) _ _ used := hw
  refine ⟨?_, ⟨_, _, _, _, hw⟩, h.quiet, h.forms, h.encoded, h.sized, hs, xs, s.handed.reports.toList, hst, hlist, ?_,
    h'.described, h'.payable, fun hlt => ?_⟩
  · obtain ⟨bs, hbs⟩ := Option.isSome_iff_exists.mp (h.encoded s.reports.front (by rw [hlist]; exact List.mem_cons_self))
    have hproper := proper_of_cut (hw.proper _ List.mem_cons_self)
    unfold Report.bytes
    rw [hbs]
    exact decode_encode (proper_encodable hproper) hbs
  · rw [hgen, List.append_assoc]
    rfl
  · obtain ⟨used, hle, hw⟩ := h'.wired hlt
    exact ⟨used, hle, hw.deliver hinv now⟩

theorem handed {r : Report} (h : Agreed n m taken [r] s) (hr : s.Rings) : Agreed n m taken [] s.handed := by
  obtain ⟨hs, xs, rest, hst, hrep, hgen, h'⟩ := h.stands
  have hc : s.reports.count ≠ 0 := by
    intro hc
    rw [RingBuffer.toList_eq_nil.mpr hc] at hrep
    cases hrep
  have hlist := hr.toList_reports hc
  have hrest : s.handed.reports.toList = rest := by
    rw [hlist] at hrep
    exact (List.cons.inj hrep).2
  exact ⟨h.quiet, h.forms, fun x hx => h.encoded x (by rw [hlist]; exact List.mem_cons_of_mem _ hx), h.sized, hs, xs, rest, hst,
    hrest, hgen, h'⟩

end Agreed

/-- Agreement, if no report has been dropped. -/
def Agrees (n : Nat) (m : OrderManager) (taken held : List Report) (s : ExchangeSim) : Prop :=
  s.Rings ∧ (s.droppedReports = 0 → Agreed n m taken held s)

theorem dropped_publish (hr : s.Rings) (v : Venue) : s.droppedReports ≤ (s.publish v).droppedReports := by
  obtain ⟨rs, d, hp⟩ := publish_published hr v
  have hdrop : (s.publish v).droppedReports = s.droppedReports + d := hp.queued.dropped
  omega

namespace Agrees

theorem advance (h : Agrees n m taken held s) (now : Nat) : Agrees n m taken held (s.advance now) := by
  refine ExchangeSim.advance_invariant (P := Agrees n m taken held) ?_ h
  rintro t ⟨hr, ht⟩ ha
  refine ⟨hr.process, fun hd => (ht ?_).process hr (ExchangeSim.arrived_count ha).1 hd⟩
  have hle : t.popped.droppedReports ≤ t.process.droppedReports := dropped_publish hr.popped _
  exact Nat.le_zero.mp (hle.trans_eq hd)

theorem onItch (h : Agrees n m taken held s) {im : Option Itch.Message} (now : Nat)
    (hm : ∀ x, im = some x → x.WireSized ∧ ∀ mb, Charges mb x) : Agrees n m taken held (s.onItch im now) := by
  obtain ⟨hr, ha⟩ := h.advance now
  refine ⟨h.1.onItch im now, fun hd => ?_⟩
  have hdrop : (s.advance now).droppedReports = 0 := by
    cases im with
    | none => exact Nat.le_zero.mp ((dropped_publish hr _).trans_eq hd)
    | some x => exact Nat.le_zero.mp ((dropped_publish hr _).trans_eq hd)
  have ha := ha hdrop
  obtain ⟨hs, xs, rest, hst, hrep, hgen, h'⟩ := ha.stands
  have hkeeps : (s.advance now).venue.Keeps (s.marketAt now) :=
    ⟨rfl, rfl, rfl, rfl, fun _ => rfl, fun _ => rfl, fun _ => rfl⟩
  have hst' := hkeeps.stored hst
  have htick := h'.tick (max (s.advance now).venue.clock now)
  cases im with
  | none => exact .publish hr ha.forms ha.encoded ha.sized hst' hrep hgen htick hd
  | some x =>
    obtain ⟨hw, hc⟩ := hm x rfl
    obtain ⟨hs', hst'', hfl⟩ := Venue.apply_refines hst' x
    have hmoved : Stands n xs m (decoded rest) ((s.advance now).requests.toList.map Request.msg)
        (((s.marketAt now).apply x).floor hs') := by
      rw [hfl]
      exact htick.market hst'.settled hw hc
    exact .publish hr ha.forms ha.encoded ha.sized hst'' hrep hgen hmoved hd

end Agrees
end OptiTrade.Agreement
