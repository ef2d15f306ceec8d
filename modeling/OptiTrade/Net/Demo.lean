import Mathlib.Data.List.Flatten
import OptiTrade.Net.Reception

/-! # From the sender to the engine

The datagrams of the sender, some of them lost on the way, through the I/O thread and the ring to the engine, with
the threads interleaved in any way. -/

namespace OptiTrade.Net
set_option autoImplicit false

/-- A run that is not aborted. -/
def never : Nat → Bool := fun _ => false

/-- The datagrams of a log. -/
def Log.datagrams (log : Log) : List Datagram := log.map Prod.fst

@[simp] theorem Log.datagrams_snoc (log : Log) (e : Datagram × Fate) :
    Log.datagrams (log ++ [e]) = log.datagrams ++ [e.1] := by
  simp [Log.datagrams]

section
variable {o : Options} {log : Log}

/-- A scheduled log is numbered upwards. -/
theorem Scheduled.ascending (h : Scheduled o log) :
    log.datagrams.Pairwise (fun a b => a.last ≤ b.number) ∧ ∀ d ∈ log.datagrams, d.last ≤ log.next := by
  have hgrow : ∀ {log : Log} {e : Datagram × Fate}, e.1.number = log.next →
      log.datagrams.Pairwise (fun a b => a.last ≤ b.number) → (∀ d ∈ log.datagrams, d.last ≤ log.next) →
      (Log.datagrams (log ++ [e])).Pairwise (fun a b => a.last ≤ b.number) ∧
        ∀ d ∈ Log.datagrams (log ++ [e]), d.last ≤ Log.next (log ++ [e]) := by
    intro log e hn hpair hbound
    have hnext : Log.next (log ++ [e]) = e.1.last := by
      unfold Log.next Datagram.last
      rw [Log.messages_snoc, List.length_append, hn]
      unfold Log.next
      omega
    rw [hnext]
    unfold Log.datagrams at hpair hbound ⊢
    rw [List.map_append, List.map_singleton]
    refine ⟨List.pairwise_append.mpr ⟨hpair, List.pairwise_singleton _ _, fun a ha b hb => ?_⟩, fun d hd => ?_⟩
    · rw [List.mem_singleton.mp hb, hn]
      exact hbound a ha
    · rcases List.mem_append.mp hd with hd | hd
      · refine (hbound d hd).trans ?_
        rw [← hn]
        exact Nat.le_add_right _ _
      · rw [List.mem_singleton.mp hd]
  induction h with
  | nil => exact ⟨.nil, by simp [Log.datagrams]⟩
  | data _ _ _ _ _ _ _ ih => exact hgrow rfl ih.1 ih.2
  | heartbeat _ _ _ ih => exact hgrow rfl ih.1 ih.2

theorem Scheduled.forms (h : Scheduled o log) : ∀ e ∈ log, 1 ≤ e.1.number ∧ ∀ n, e.1 ≠ .endOfSession n := by
  induction h with
  | nil => simp
  | data _ _ _ _ _ _ _ ih =>
    intro e he
    rcases List.mem_append.mp he with he | he
    · exact ih e he
    · rw [List.mem_singleton.mp he]
      exact ⟨Nat.le_add_right _ _, fun _ => nofun⟩
  | heartbeat _ _ _ ih =>
    intro e he
    rcases List.mem_append.mp he with he | he
    · exact ih e he
    · rw [List.mem_singleton.mp he]
      exact ⟨Nat.le_add_right _ _, fun _ => nofun⟩

theorem numbered_append {n : Nat} {ms ms' : List (List Byte)} (h : n + ms.length < 2 ^ 64) :
    numbered n (ms ++ ms') = numbered n ms ++ numbered (n + ms.length) ms' := by
  induction ms generalizing n with
  | nil => rfl
  | cons m ms ih =>
    rw [List.length_cons] at h
    have hnext : add64 n 1 = n + 1 := add64_eq (by unfold u64Max; omega)
    rw [List.cons_append, numbered, numbered, hnext, ih (by omega), List.length_cons,
      show n + (ms.length + 1) = n + 1 + ms.length by omega, List.cons_append]

theorem Scheduled.deliveries_eq (h : Scheduled o log) (hn : log.messages.length + 1 < 2 ^ 64) :
    deliveries log.datagrams = numbered 1 log.messages := by
  induction h with
  | nil => rfl
  | @data log ms f hlog _ _ _ _ _ _ ih =>
    rw [Log.messages_snoc, List.length_append] at hn
    rw [Log.datagrams_snoc, deliveries_snoc, ih (by omega), Log.messages_snoc, numbered_append (by omega)]
    rfl
  | @heartbeat log f _ _ _ ih =>
    rw [Log.messages_snoc, List.length_append] at hn
    rw [Log.datagrams_snoc, deliveries_snoc, ih (by omega), Log.messages_snoc]
    simp [Datagram.messages, numbered]

end

/-! ## The datagrams of a sender -/

section
variable {o : Options} {feed : List (List Byte)} {f : Fate} {log : Log} {s : Sender}

/-- All datagrams, the end of the session too. -/
def Log.closed (log : Log) (f : Fate) : Log := log ++ [(.endOfSession log.next, f)]

theorem Sent.inOrder (h : Sent o feed f log s) : InOrder (log.closed f).datagrams := by
  obtain ⟨hpair, hbound⟩ := h.scheduled.ascending
  refine ⟨fun d hd => ?_, ?_⟩
  · obtain ⟨e, he, rfl⟩ := List.mem_map.mp hd
    exact h.fits e he
  · unfold Log.closed Log.datagrams at *
    rw [List.map_append]
    refine List.pairwise_append.mpr ⟨hpair, List.pairwise_singleton _ _, fun a ha b hb => ?_⟩
    rw [List.mem_singleton.mp hb]
    exact hbound a ha

theorem Sent.deliveries_eq (h : Sent o feed f log s) (hfits : feed.length + 1 < 2 ^ 64) :
    deliveries (log.closed f).datagrams = numbered 1 feed := by
  have hmsgs := h.messages
  unfold Log.closed
  rw [Log.datagrams_snoc, deliveries_snoc, h.scheduled.deliveries_eq (by rw [hmsgs]; exact hfits), hmsgs]
  exact List.append_nil _

theorem Sent.sized (h : Sent o feed f log s) (hfeed : ∀ m ∈ feed, m ≠ [] ∧ m.length ≤ kMaxMsg) :
    Sized (log.closed f).datagrams := by
  intro d hd m hm
  obtain ⟨e, he, rfl⟩ := List.mem_map.mp hd
  refine hfeed m ?_
  rw [← h.messages]
  rcases List.mem_append.mp he with he | he
  · exact List.mem_flatMap.mpr ⟨e, he, hm⟩
  · rw [List.mem_singleton.mp he] at hm
    cases hm

theorem senderMain_never (o : Options) (net : Nat → Bool) (hfeed : ∀ m ∈ feed, m ≠ [] ∧ m.length ≤ kMaxMsg)
    (hfits : feed.length + 1 < 2 ^ 64) : ∃ log f, Sent o feed f log (senderMain o net never feed) := by
  obtain ⟨k, log, f, hk, hstop, -, hsent⟩ := senderMain_sent o net never (fun m hm => (hfeed m hm).2) hfits
  obtain rfl : k = feed.length := by
    by_contra hne
    have := hstop (by omega)
    cases this
  rw [List.take_length] at hsent
  exact ⟨log, f, hsent⟩

theorem length_deliveries (log : Log) : (deliveries log.datagrams).length = log.messages.length := by
  induction log using List.reverseRecOn with
  | nil => rfl
  | append_singleton log e ih =>
    rw [Log.datagrams_snoc, deliveries_snoc, List.length_append, ih, length_numbered, Log.messages_snoc, List.length_append]

theorem Sent.wire (h : Sent o feed f log s) :
    s.wire = ((log.closed f).having .sent).datagrams.map Datagram.bytes ∧
      ((log.closed f).having .sent).datagrams.Sublist (log.closed f).datagrams := by
  refine ⟨?_, List.filter_sublist.map _⟩
  rw [h.reports.wire, Log.datagrams, List.map_map]
  rfl

end

theorem Datagram.Fits.ended {d : Datagram} (h : d.Fits) (hk : d.header.kind = .endOfSession) : ∃ n, d = .endOfSession n := by
  cases d with
  | data first ms =>
    have hfew : ms.length ≤ 65534 := h.few
    have hne : ms.length ≠ 0 := fun h₀ => h.data rfl (List.length_eq_zero_iff.mp h₀)
    replace hk : kindOf ms.length = .endOfSession := hk
    unfold kindOf kEndOfSession at hk
    rw [if_neg hne, if_neg (by omega)] at hk
    cases hk
  | heartbeat next => cases hk
  | endOfSession next => exact ⟨next, rfl⟩

theorem Receiving.rest {io : Io} {ds : List Datagram} {pushed : List (Nat × List Byte)} (h : Receiving io ds pushed)
    (hnone : io.walk = none) : io.tracker = track ds ∧ pushed = deliveries ds := by
  cases h with
  | between _ ht => exact ⟨ht, rfl⟩
  | begun hw _ =>
    rw [hnone] at hw
    cases hw
  | inside hw _ _ =>
    rw [hnone] at hw
    cases hw

/-- Once the end of the session has been received, the tracker expects the number after the feed. -/
theorem Sent.expected {o : Options} {feed : List (List Byte)} {f : Fate} {log : Log} {s : Sender} {ds : List Datagram}
    {d₀ last : Datagram} (h : Sent o feed f log s) (hds : ds.Sublist (log.closed f).datagrams) (ht : Tally ds d₀ (track ds))
    (hlast : last ∈ ds.getLast?) (hk : last.header.kind = .endOfSession) :
    1 ≤ d₀.number ∧ (track ds).expected = 1 + feed.length := by
  have hmem : ∀ d ∈ ds, (∃ e ∈ log, e.1 = d) ∨ d = .endOfSession log.next := by
    intro d hd
    obtain ⟨e, he, rfl⟩ := List.mem_map.mp (hds.subset hd)
    rcases List.mem_append.mp he with he | he
    · exact .inl ⟨e, he, rfl⟩
    · rw [List.mem_singleton.mp he]
      exact .inr rfl
  have hin : last ∈ ds := List.mem_of_mem_getLast? hlast
  obtain ⟨d, hd, hexp⟩ := ht.attained
  obtain rfl : last = d := Option.some.inj (hlast.symm.trans hd)
  obtain ⟨n, hn⟩ := (h.inOrder.fits last (hds.subset hin)).ended hk
  refine ⟨?_, ?_⟩
  · rcases hmem d₀ (List.mem_of_mem_head? ht.first) with ⟨e, he, rfl⟩ | rfl
    · exact (h.scheduled.forms e he).1
    · exact Nat.le_add_right _ _
  · rcases hmem last hin with ⟨e, he, rfl⟩ | rfl
    · exact absurd hn ((h.scheduled.forms e he).2 n)
    · rw [hexp, ← h.messages]
      rfl

/-! ## Any datagrams lost -/

/-- Every loss event has its call of `on_feed_gap`, if there are fewer than the epoch can count. -/
theorem feedGaps_eq {capacity : Nat} {events : List Event} {q : Pipeline} {ds : List Datagram}
    (hrun : Runs.run Pipeline.step (Pipeline.new capacity) events = some q)
    (hrecv : received events = ds.map Datagram.bytes) (hds : InOrder ds) (hl : q.io.lossEvents < 2 ^ 32)
    (hdone : q.engine.done = true) : q.engine.feedGaps = q.io.lossEvents := by
  have hsession : ∀ e ∈ events, OfSession kSession.chars e := by
    rintro e he pkt hdr ms rfl hok
    have hmem : pkt ∈ received events := List.mem_filterMap.mpr ⟨_, he, rfl⟩
    rw [hrecv] at hmem
    obtain ⟨d, hd, rfl⟩ := List.mem_map.mp hmem
    have hfits := hds.fits d hd
    obtain ⟨rfl, -⟩ := Prod.mk.inj (Except.ok.inj (hfits.read.symm.trans hok))
    have hlast : d.header.last < 2 ^ 64 := by
      rw [hfits.header_last]
      exact hfits.number
    exact ⟨rfl, hlast⟩
  have h := Inv.run hrun hsession (inv_new kSession.chars capacity) hl
  rw [h.engine.gaps]
  exact (h.drained hdone).2.2

/-- **Every message is accounted for.** Whatever datagrams are lost on the way and however the threads interleave, once
the end of the session has arrived the messages before the first datagram that came, those received and those missing
are the feed; what the engine has been given is a part of the feed, in order and under its own numbers. -/
theorem feed_is_accounted_for (o : Options) (net : Nat → Bool) (feed : List (List Byte)) (capacity : Nat)
    (events : List Event) (q : Pipeline) (hfeed : ∀ m ∈ feed, m ≠ [] ∧ m.length ≤ kMaxMsg) (hfits : feed.length < 2 ^ 32)
    (hrun : Runs.run Pipeline.step (Pipeline.new capacity) events = some q)
    (hrecv : (received events).Sublist (senderMain o net never feed).wire) (heos : q.io.eos = true) :
    (∃ pkt hdr ms, (received events).head? = some pkt ∧ forEachMessage pkt = .ok (hdr, ms) ∧ 1 ≤ hdr.sequence ∧
      hdr.sequence - 1 + q.io.msgsReceived + q.io.tracker.missing = feed.length) ∧
    q.io.malformed = 0 ∧ q.io.oversizeMsgs = 0 ∧ q.io.tracker.duplicates = 0 ∧
    q.io.packetsReceived = (received events).length ∧
    q.io.ringPushed + q.io.ringDrops = q.io.msgsReceived ∧
    q.io.tracker.gaps ≤ q.io.lossEvents ∧ q.io.lossEvents ≤ q.io.tracker.gaps + q.io.ringDrops ∧
    (q.engine.processed.map fun s => (s.seq, s.data)).Sublist (numbered 1 feed) ∧
    (q.engine.done = true → q.engine.msgsProcessed = q.io.ringPushed ∧ q.engine.feedGaps = q.io.lossEvents) := by
  obtain ⟨log, f, hsent⟩ := senderMain_never o net hfeed (by omega)
  obtain ⟨hwire, hsub⟩ := hsent.wire
  rw [hwire] at hrecv
  obtain ⟨ds, hds, hbytes⟩ := List.sublist_map_iff.mp hrecv
  have hdsall := hds.trans hsub
  have hrs := hsent.inOrder.sublist hdsall
  have hsize : Sized ds := fun d hd => hsent.sized hfeed d (hdsall.subset hd)
  obtain ⟨pushed, harr⟩ := (Arrives.new capacity).run hrun hbytes (by exact hrs) hsize
  obtain ⟨hnone, last, hlast, hkind⟩ := harr.ended heos
  rw [List.nil_append] at harr hlast
  have hne : ds ≠ [] := by
    rintro rfl
    cases hlast
  obtain ⟨d₀, htally⟩ := hrs.tally hne
  obtain ⟨hone, hexp⟩ := hsent.expected hdsall htally hlast hkind
  have htotal := htally.total
  have hgaps := htally.gaps
  obtain ⟨htracker, rfl⟩ := harr.place.rest hnone
  obtain ⟨hmal, hover, hmsgs, hpush, hshared, hleast, hmost, -⟩ := harr.counts
  rw [htracker] at hleast hmost ⊢
  have hall : (deliveries ds).Sublist (numbered 1 feed) := by
    rw [← hsent.deliveries_eq (by omega)]
    exact hdsall.flatMap _
  refine ⟨⟨d₀.bytes, d₀.header, numbered d₀.number d₀.messages, ?_, ?_, hone, ?_⟩, hmal, hover, htally.duplicates, ?_,
    hshared, hleast, hmost, ?_, fun hdone => ⟨?_, ?_⟩⟩
  · rw [hbytes, List.head?_map, htally.first]
    rfl
  · exact (hrs.fits d₀ (List.mem_of_mem_head? htally.first)).read
  · show d₀.number - 1 + _ + _ = _
    omega
  · have hp := harr.packets
    rw [hnone] at hp
    rw [hbytes, List.length_map, ← hp]
    rfl
  · have hcarry : ((q.engine.processed ++ q.ring).map fun s => (s.seq, s.data)).Sublist (deliveries ds) := harr.carries
    rw [List.map_append] at hcarry
    exact ((List.sublist_append_left _ _).trans hcarry).trans hall
  · rw [(harr.drained hdone).1, List.append_nil] at hpush
    rw [harr.processed, hpush]
  · exact feedGaps_eq hrun hbytes hrs (by omega) hdone

/-- The first datagram is lost, the second skipped by the sender. -/
def lostStart : List Event :=
  [.recv (Datagram.data 3 [[3]]).bytes, .deliver, .packetDone, .recv (Datagram.endOfSession 4).bytes, .packetDone, .ioDone,
    .pop, .engineDone]

theorem feed_is_accounted_for_lost_start :
    ∃ q, Runs.run Pipeline.step (Pipeline.new 4) lostStart = some q ∧ q.io.msgsReceived = 1 ∧
      (q.engine.processed.map fun s => (s.seq, s.data)).Sublist (numbered 1 [[1], [2], [3]]) ∧
      q.engine.feedGaps = q.io.lossEvents := by
  refine ⟨_, rfl, rfl, ?_⟩
  have h := feed_is_accounted_for sparse (fun _ => true) [[1], [2], [3]] 4 lostStart _ (by decide) (by decide) rfl
    (by decide +kernel) rfl
  exact ⟨h.2.2.2.2.2.2.2.2.1, (h.2.2.2.2.2.2.2.2.2 rfl).2⟩

/-! ## Datagrams lost on purpose only -/

/-- What the tracker knows of the packets dropped so far: all of them, but for the messages of the last datagram if it
was dropped. -/
structure Revealed (o : Options) (log : Log) (hidden : Nat) : Prop where
  synced : (track (log.having .sent).datagrams).synced = true
  session : (track (log.having .sent).datagrams).session = kSession.chars
  expected : (track (log.having .sent).datagrams).expected + hidden = log.next
  gaps : (track (log.having .sent).datagrams).gaps + (if hidden = 0 then 0 else 1) = (log.having .dropped).length
  missing : (track (log.having .sent).datagrams).missing + hidden = (log.having .dropped).messages.length
  duplicates : (track (log.having .sent).datagrams).duplicates = 0
  dropped : hidden ≠ 0 → log.packets % o.dropEvery = 0

section
variable {o : Options} {log : Log} {hidden : Nat}

theorem datagrams_having_sent (log : Log) (d : Datagram) :
    (Log.having (log ++ [(d, .sent)]) .sent).datagrams = (log.having .sent).datagrams ++ [d] := by
  simp [Log.datagrams]

/-- A datagram that arrives shows the tracker what is hidden. -/
theorem Revealed.sent (h : Revealed o log hidden) {d : Datagram} (hd : d.Fits) (hn : d.number = log.next) :
    Revealed o (log ++ [(d, .sent)]) 0 := by
  have hlast := hd.header_last
  have hfits := hd.number
  have hexp := h.expected
  have hgaps := h.gaps
  have hmissing := h.missing
  have hseq : d.header.sequence = log.next := hn
  have hstart : d.last = d.number + d.messages.length := rfl
  obtain ⟨heq, -⟩ := SequenceTracker.onPacket_ahead h.synced h.session.symm (by rw [hlast]; exact hfits)
    (show (track (log.having .sent).datagrams).expected ≤ d.header.sequence by omega)
  have htrack := track_snoc (log.having .sent).datagrams d
  rw [← datagrams_having_sent, heq] at htrack
  have hdrop : Log.having (log ++ [(d, .sent)]) .dropped = log.having .dropped := by simp
  refine ⟨by rw [htrack]; exact h.synced, by rw [htrack]; exact h.session, ?_, ?_, ?_, by rw [htrack]; exact h.duplicates,
    fun h₀ => absurd rfl h₀⟩
  · rw [htrack]
    show d.header.last + 0 = _
    unfold Log.next at *
    rw [Log.messages_snoc, List.length_append, hlast]
    dsimp only
    omega
  · rw [htrack, hdrop, if_pos rfl]
    dsimp only
    rw [hseq]
    split_ifs at hgaps ⊢ <;> omega
  · rw [htrack, hdrop]
    dsimp only
    rw [hseq]
    split_ifs
    · have hsmall : (log.having .dropped).messages.length ≤ log.messages.length := by
        have hsub : (log.having .dropped).Sublist log := List.filter_sublist
        exact (hsub.flatMap _).length_le
      unfold saturatingAdd u64Max Log.next at *
      rw [if_neg (by omega)]
      omega
    · omega

theorem Revealed.first {d : Datagram} (hd : d.Fits) (hn : d.number = 1) : Revealed o [(d, .sent)] 0 := by
  have hseq : d.header.sequence = d.number := rfl
  have htrack : track (Log.having [(d, .sent)] .sent).datagrams =
      { synced := true, session := kSession.chars, expected := d.last } := by
    show (({} : SequenceTracker).onPacket d.header).1 = _
    rw [SequenceTracker.onPacket_first d.header (by rw [hd.header_last]; exact hd.number), hd.header_last]
    rfl
  refine ⟨by rw [htrack], by rw [htrack], ?_, by rw [htrack]; rfl, by rw [htrack]; rfl, by rw [htrack], fun h₀ => absurd rfl h₀⟩
  rw [htrack]
  show d.number + d.messages.length = 1 + (d.messages ++ []).length
  rw [List.append_nil, hn]

/-- A packet that is dropped is hidden from it, if nothing else is. -/
theorem Revealed.dropped_packet (h : Revealed o log 0) {d : Datagram} (hd : d.isData = true) (hms : d.messages ≠ [])
    (hdrop : (log.packets + 1) % o.dropEvery = 0) : Revealed o (log ++ [(d, .dropped)]) d.messages.length := by
  have hlen : d.messages.length ≠ 0 := fun h₀ => hms (List.length_eq_zero_iff.mp h₀)
  have hsent : Log.having (log ++ [(d, .dropped)]) .sent = log.having .sent := by simp
  have hexp := h.expected
  have hgaps := h.gaps
  have hmissing := h.missing
  rw [if_pos rfl] at hgaps
  refine ⟨by rw [hsent]; exact h.synced, by rw [hsent]; exact h.session, ?_, ?_, ?_, by rw [hsent]; exact h.duplicates,
    fun _ => ?_⟩
  · rw [hsent]
    unfold Log.next at *
    rw [Log.messages_snoc, List.length_append]
    dsimp only
    omega
  · rw [hsent, if_neg hlen]
    simp
    omega
  · rw [hsent]
    simp
    omega
  · rw [Log.packets_snoc, hd]
    exact hdrop

/-- Nothing but a skipped packet is hidden, and it is shown by the next datagram. -/
theorem Scheduled.revealed (h : Scheduled o log) (hone : o.dropEvery ≠ 1) (hfail : log.having .failed = [])
    (hn : log.messages.length + 1 < 2 ^ 64) : log = [] ∨ ∃ hidden, Revealed o log hidden := by
  have hstep : ∀ n, n % o.dropEvery = 0 → (n + 1) % o.dropEvery = 0 → False := by
    intro n h₁ h₂
    have hdvd := (Nat.dvd_add_right (Nat.dvd_of_mod_eq_zero h₁)).mp (Nat.dvd_of_mod_eq_zero h₂)
    exact hone (Nat.dvd_one.mp hdvd)
  induction h with
  | nil => exact .inl rfl
  | @data log ms f hlog hq hms hsmall hroom hspread hf ih =>
    have hfits := (Scheduled.data hlog hq hms hsmall hroom hspread hf).fits hn (.data log.next ms, f) (by simp)
    rw [Log.messages_snoc, List.length_append] at hn
    rw [Log.having_snoc, List.append_eq_nil_iff] at hfail
    refine .inr ?_
    cases f with
    | sent =>
      rcases ih hfail.1 (by omega) with rfl | ⟨hidden, hr⟩
      · exact ⟨0, Revealed.first hfits rfl⟩
      · exact ⟨0, hr.sent hfits rfl⟩
    | dropped =>
      obtain ⟨-, hdrop⟩ := hf.mp rfl
      rcases ih hfail.1 (by omega) with rfl | ⟨hidden, hr⟩
      · exact (hstep 0 (Nat.zero_mod _) hdrop).elim
      · obtain rfl : hidden = 0 := by
          by_contra h₀
          exact hstep _ (hr.dropped h₀) hdrop
        exact ⟨_, hr.dropped_packet rfl hms hdrop⟩
    | failed => simp at hfail
  | @heartbeat log f hlog hdue hf ih =>
    have hfits := (Scheduled.heartbeat hlog hdue hf).fits hn (.heartbeat log.next, f) (by simp)
    rw [Log.messages_snoc, List.length_append] at hn
    rw [Log.having_snoc, List.append_eq_nil_iff] at hfail
    refine .inr ?_
    cases f with
    | sent =>
      rcases ih hfail.1 (by omega) with rfl | ⟨hidden, hr⟩
      · obtain ⟨⟨e, he, -⟩, -⟩ := hdue
        cases he
      · exact ⟨0, hr.sent hfits rfl⟩
    | dropped => exact absurd rfl hf
    | failed => simp at hfail

theorem Scheduled.dropped_length (h : Scheduled o log) : (log.having .dropped).length = log.packets / o.dropEvery := by
  induction h with
  | nil => exact (Nat.zero_div _).symm
  | @data log ms f _ _ _ _ _ _ hf ih =>
    have hpackets : Log.packets (log ++ [(.data log.next ms, f)]) = log.packets + 1 := by simp [Datagram.isData]
    rw [hpackets, Nat.succ_div, ← ih, Log.having_snoc, List.length_append]
    congr 1
    by_cases hd : f = .dropped
    · obtain ⟨-, hmod⟩ := hf.mp hd
      rw [if_pos hd, if_pos (Nat.dvd_of_mod_eq_zero hmod)]
      rfl
    · rw [if_neg hd, if_neg fun hdvd => hd (hf.mpr ⟨fun h₀ => ?_, Nat.mod_eq_zero_of_dvd hdvd⟩)]
      · rfl
      · rw [h₀, Nat.zero_dvd] at hdvd
        cases hdvd
  | @heartbeat log f _ _ hf ih =>
    rw [Log.packets_snoc, Log.having_snoc, if_neg (by exact hf), List.append_nil]
    exact ih

/-- The heartbeats of a log. -/
def Log.beats (log : Log) : Nat := (log.having .sent).countP fun e => e.1.count = 0

/-- In a log without failures a heartbeat has followed every sixteenth packet, but for one that is due. -/
theorem Scheduled.beats (h : Scheduled o log) (hfail : log.having .failed = []) :
    (¬log.beatDue → log.beats = log.packets / kHeartbeatEvery) ∧
      (log.beatDue → log.beats + 1 = log.packets / kHeartbeatEvery) ∧
      (log.having .sent).length + (log.having .dropped).length = log.packets + log.beats := by
  induction h with
  | nil =>
    refine ⟨fun _ => rfl, ?_, rfl⟩
    rintro ⟨⟨e, he, -⟩, -⟩
    cases he
  | @data log ms f _ hq hms _ _ _ _ ih =>
    rw [Log.having_snoc, List.append_eq_nil_iff] at hfail
    obtain ⟨ih₁, -, ih₂⟩ := ih hfail.1
    have hpackets : Log.packets (log ++ [(.data log.next ms, f)]) = log.packets + 1 := by simp [Datagram.isData]
    have hdue : Log.beatDue (log ++ [(.data log.next ms, f)]) ↔ (log.packets + 1) % kHeartbeatEvery = 0 := by
      unfold Log.beatDue
      rw [hpackets]
      exact ⟨And.right, fun h => ⟨⟨_, List.getLast?_concat, rfl⟩, h⟩⟩
    have hbeats : Log.beats (log ++ [(.data log.next ms, f)]) = log.beats := by
      have hlen : ms.length ≠ 0 := fun h₀ => hms (List.length_eq_zero_iff.mp h₀)
      unfold Log.beats
      rw [Log.having_snoc, List.countP_append]
      by_cases hf : f = .sent
      · simp [hf, Datagram.count, hms]
      · simp [hf]
    have hquiet := ih₁ hq
    have hlength : (Log.having (log ++ [(.data log.next ms, f)]) .sent).length +
        (Log.having (log ++ [(.data log.next ms, f)]) .dropped).length = log.packets + log.beats + 1 := by
      rw [Log.having_snoc, Log.having_snoc, ← ih₂]
      cases f with
      | sent =>
        simp
        omega
      | dropped =>
        simp
        omega
      | failed => simp at hfail
    rw [hdue, hpackets, hbeats, hlength]
    unfold kHeartbeatEvery at *
    exact ⟨fun _ => by omega, fun _ => by omega, by omega⟩
  | @heartbeat log f _ hdue hf ih =>
    rw [Log.having_snoc, List.append_eq_nil_iff] at hfail
    obtain ⟨-, ih₁, ih₂⟩ := ih hfail.1
    have hpackets : Log.packets (log ++ [(.heartbeat log.next, f)]) = log.packets := by simp [Datagram.isData]
    have hquiet : ¬Log.beatDue (log ++ [(.heartbeat log.next, f)]) := by
      rintro ⟨⟨e, he, hdata⟩, -⟩
      rw [List.getLast?_concat] at he
      obtain rfl := Option.some.inj he
      cases hdata
    cases f with
    | sent =>
      have hbeats : Log.beats (log ++ [(.heartbeat log.next, .sent)]) = log.beats + 1 := by
        unfold Log.beats
        rw [Log.having_snoc, List.countP_append]
        rfl
      rw [hpackets, hbeats, ih₁ hdue]
      refine ⟨fun _ => rfl, fun h => absurd h hquiet, ?_⟩
      simp
      have := ih₁ hdue
      omega
    | dropped => exact absurd rfl hf
    | failed => simp at hfail

end

section
variable {o : Options} {feed : List (List Byte)} {f : Fate} {log : Log} {s : Sender}

theorem Sent.unfailing (h : Sent o feed f log s) (herrors : s.sendErrors = 0) :
    f = .sent ∧ log.having .failed = [] := by
  have hfail := List.length_eq_zero_iff.mp (h.reports.sendErrors.symm.trans herrors)
  rw [Log.having_snoc, List.append_eq_nil_iff] at hfail
  refine ⟨?_, hfail.1⟩
  cases f with
  | sent => rfl
  | dropped => exact absurd rfl h.ended
  | failed => simp at hfail

theorem Log.length_messages (log : Log) (hfail : log.having .failed = []) :
    (log.having .sent).messages.length + (log.having .dropped).messages.length = log.messages.length := by
  induction log using List.reverseRecOn with
  | nil => rfl
  | append_singleton log e ih =>
    rw [Log.having_snoc, List.append_eq_nil_iff] at hfail
    have hsum := ih hfail.1
    obtain ⟨d, f⟩ := e
    cases f with
    | sent =>
      simp
      omega
    | dropped =>
      simp
      omega
    | failed => simp at hfail

/-- The report of a sender whose datagrams were all taken. -/
theorem Sent.report (h : Sent o feed .sent log s) (hfail : log.having .failed = []) :
    s.msgsSent + s.droppedMsgs = feed.length ∧ s.droppedPackets = s.dataPackets / o.dropEvery ∧
    s.heartbeatsSent = s.dataPackets / kHeartbeatEvery ∧
    s.packetsSent + s.droppedPackets = s.dataPackets + s.heartbeatsSent + 1 := by
  have hr := h.reports
  obtain ⟨hbeats, -, hlength⟩ := h.scheduled.beats hfail
  have hdata : Log.packets (log ++ [(.endOfSession log.next, .sent)]) = log.packets := by simp [Datagram.isData]
  have hdropped : Log.having (log ++ [(.endOfSession log.next, .sent)]) .dropped = log.having .dropped := by simp
  have hsent : Log.having (log ++ [(.endOfSession log.next, .sent)]) .sent =
      log.having .sent ++ [(.endOfSession log.next, .sent)] := by simp
  have hheartbeats : s.heartbeatsSent = log.beats := by
    rw [hr.heartbeatsSent, hsent, List.countP_append]
    rfl
  rw [hr.msgsSent, hr.droppedMsgs, hr.droppedPackets, hr.packetsSent, hr.dataPackets, hheartbeats, hdata, hdropped, hsent]
  refine ⟨?_, h.scheduled.dropped_length, hbeats h.quiet, ?_⟩
  · rw [Log.messages_snoc]
    show (_ ++ []).length + _ = _
    rw [List.append_nil, Log.length_messages log hfail, h.messages]
  · rw [List.length_append, List.length_singleton]
    omega

end

/-- **A clean network.** When the kernel takes every datagram and none is lost on the way, the tracker's gaps are the
packets skipped on purpose and its missing messages those inside them, however the threads interleave; with nothing
skipped and room in the ring, the engine is given the feed, message by message, and is told of no gap. -/
theorem dropped_packets_are_exact_gaps (o : Options) (net : Nat → Bool) (feed : List (List Byte)) (capacity : Nat)
    (events : List Event) (q : Pipeline) (hnet : ∀ n, net n = true) (hone : o.dropEvery ≠ 1)
    (hfeed : ∀ m ∈ feed, m ≠ [] ∧ m.length ≤ kMaxMsg) (hfits : feed.length < 2 ^ 32)
    (hrun : Runs.run Pipeline.step (Pipeline.new capacity) events = some q)
    (hrecv : received events = (senderMain o net never feed).wire) (hdone : q.engine.done = true) :
    let s := senderMain o net never feed
    s.msgsSent + s.droppedMsgs = feed.length ∧ s.droppedPackets = s.dataPackets / o.dropEvery ∧
    s.heartbeatsSent = s.dataPackets / kHeartbeatEvery ∧
    s.packetsSent + s.droppedPackets = s.dataPackets + s.heartbeatsSent + 1 ∧
    q.io.tracker.gaps = s.droppedPackets ∧ q.io.tracker.missing = s.droppedMsgs ∧ q.io.tracker.duplicates = 0 ∧
    q.io.packetsReceived = s.packetsSent ∧ q.io.msgsReceived = s.msgsSent ∧
    q.io.ringPushed + q.io.ringDrops = q.io.msgsReceived ∧ q.engine.msgsProcessed = q.io.ringPushed ∧
    q.engine.feedGaps = q.io.lossEvents ∧
    (q.io.ringDrops = 0 → q.engine.feedGaps = s.droppedPackets) ∧
    (o.dropEvery = 0 → q.io.ringDrops = 0 → (q.engine.processed.map fun s => (s.seq, s.data)) = numbered 1 feed ∧
      q.engine.feedGaps = 0) := by
  intro s
  obtain ⟨log, f, hsent⟩ := senderMain_never o net hfeed (by omega)
  change Sent o feed f log s at hsent
  change received events = s.wire at hrecv
  have hreports : Reports s (log.closed f) := hsent.reports
  obtain ⟨hwire, hsub⟩ := hsent.wire
  have herrors : s.sendErrors = 0 := by
    show (senderMain o net never feed).sendErrors = 0
    unfold senderMain
    rw [Sender.sendControl_sendErrors hnet, Sender.flush_sendErrors hnet, Sender.loop_sendErrors hnet]
  obtain ⟨rfl, hfail⟩ := hsent.unfailing herrors
  have hlen : log.messages.length = feed.length := by rw [hsent.messages]
  -- what the tracker has seen
  have hend := hsent.fits (.endOfSession log.next, .sent) (by simp)
  have hrevealed : Revealed o (log.closed .sent) 0 := by
    rcases hsent.scheduled.revealed hone hfail (by omega) with rfl | ⟨hidden, hr⟩
    · exact Revealed.first hend rfl
    · exact hr.sent hend rfl
  have hrs := hsent.inOrder.sublist hsub
  have hsize : Sized ((log.closed .sent).having .sent).datagrams := fun d hd => hsent.sized hfeed d (hsub.subset hd)
  rw [hwire] at hrecv
  obtain ⟨pushed, harr⟩ := (Arrives.new capacity).run hrun hrecv (by exact hrs) hsize
  rw [List.nil_append] at harr
  obtain ⟨hring, hiodone⟩ := harr.drained hdone
  have hnone := harr.closed hiodone
  obtain ⟨htracker, rfl⟩ := harr.place.rest hnone
  obtain ⟨hmal, hover, hmsgs, hpush, hshared, hleast, hmost, -⟩ := harr.counts
  have hdup := hrevealed.duplicates
  have hmissing : (track ((log.closed .sent).having .sent).datagrams).missing = s.droppedMsgs := by
    rw [hreports.droppedMsgs]
    exact hrevealed.missing
  have hgaps : (track ((log.closed .sent).having .sent).datagrams).gaps = s.droppedPackets := by
    have h := hrevealed.gaps
    rw [if_pos rfl, Nat.add_zero, ← hreports.droppedPackets] at h
    exact h
  have hreceived : q.io.msgsReceived = s.msgsSent := by rw [hmsgs, hreports.msgsSent, length_deliveries]
  have hpackets : q.io.packetsReceived = s.packetsSent := by
    have h := harr.packets
    rw [hnone] at h
    rw [hreports.packetsSent, ← List.length_map, ← Log.datagrams, ← h]
    rfl
  obtain ⟨hsum, hdropped, hbeats, hsentpkts⟩ := hsent.report hfail
  obtain ⟨d₀, htally⟩ := hrs.tally (by simp [Log.closed, Log.datagrams])
  have hfew := htally.gaps
  rw [hring, List.append_nil] at hpush
  rw [htracker] at hleast hmost ⊢
  have hfeedGaps : q.engine.feedGaps = q.io.lossEvents := feedGaps_eq hrun hrecv hrs (by omega) hdone
  refine ⟨hsum, hdropped, hbeats, hsentpkts, hgaps, hmissing, hdup, hpackets, hreceived, hshared,
    by rw [harr.processed, hpush], hfeedGaps, fun h₀ => by omega, fun hdrop h₀ => ?_⟩
  have hnodrop : s.droppedPackets = 0 := by rw [hdropped, hdrop, Nat.div_zero]
  have hnomsg : s.droppedMsgs = 0 := by
    rw [hreports.droppedPackets] at hnodrop
    rw [hreports.droppedMsgs, List.length_eq_zero_iff.mp hnodrop]
    rfl
  refine ⟨?_, by omega⟩
  have hcarries : ((q.engine.processed ++ q.ring).map fun s => (s.seq, s.data)).Sublist
      (deliveries ((log.closed .sent).having .sent).datagrams) := harr.carries
  rw [hring, List.append_nil] at hcarries
  refine (hcarries.trans ?_).eq_of_length ?_
  · rw [← hsent.deliveries_eq (by omega)]
    exact hsub.flatMap _
  · rw [List.length_map, length_numbered]
    omega

/-- All datagrams of the three messages arrive. -/
def oneSkipped : List Event :=
  [.recv (Datagram.data 1 [[1]]).bytes, .deliver, .packetDone, .recv (Datagram.data 3 [[3]]).bytes, .deliver, .packetDone,
    .recv (Datagram.endOfSession 4).bytes, .packetDone, .ioDone, .pop, .pop, .engineDone]

theorem dropped_packets_are_exact_gaps_one_skipped :
    ∃ q, Runs.run Pipeline.step (Pipeline.new 4) oneSkipped = some q ∧
      q.io.tracker.gaps = (senderMain sparse (fun _ => true) never [[1], [2], [3]]).droppedPackets ∧
      q.io.tracker.missing = 1 ∧ q.engine.feedGaps = q.io.lossEvents := by
  refine ⟨_, rfl, ?_⟩
  have h := dropped_packets_are_exact_gaps sparse (fun _ => true) [[1], [2], [3]] 4 oneSkipped _ (fun _ => rfl) (by decide)
    (by decide) (by decide) rfl (by decide +kernel) rfl
  exact ⟨h.2.2.2.2.1, by decide, h.2.2.2.2.2.2.2.2.2.2.2.1⟩

end OptiTrade.Net
