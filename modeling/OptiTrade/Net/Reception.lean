import OptiTrade.Net.Losses
import OptiTrade.Net.Schedule
import OptiTrade.Net.Sequence

/-! # What the pipeline makes of datagrams that come in order

The datagrams that arrive are numbered upwards, though some of them may be missing. Then none is a duplicate, and
the I/O thread takes every message out of them; what it has taken and where it stands is read off the datagrams. -/

namespace OptiTrade.Net
set_option autoImplicit false

open Runs

/-- The datagrams a run receives. -/
def received (events : List Event) : List (List Byte) :=
  events.filterMap fun e =>
    match e with
    | .recv pkt => some pkt
    | _ => none

/-- The tracker after the datagrams. -/
def track (ds : List Datagram) : SequenceTracker :=
  ds.foldl (fun t d => (t.onPacket d.header).1) {}

/-- The messages of the datagrams with their numbers. -/
def deliveries (ds : List Datagram) : List (Nat × List Byte) := ds.flatMap fun d => numbered d.number d.messages

/-- The datagrams fit, and none reaches back behind one before it. -/
structure InOrder (ds : List Datagram) : Prop where
  fits : ∀ d ∈ ds, d.Fits
  ascending : ds.Pairwise fun a b => a.last ≤ b.number

theorem InOrder.sublist {ds es : List Datagram} (h : InOrder es) (hs : ds.Sublist es) : InOrder ds :=
  ⟨fun d hd => h.fits d (hs.subset hd), h.ascending.sublist hs⟩

theorem track_snoc (ds : List Datagram) (d : Datagram) : track (ds ++ [d]) = ((track ds).onPacket d.header).1 := by
  simp [track]

theorem deliveries_snoc (ds : List Datagram) (d : Datagram) :
    deliveries (ds ++ [d]) = deliveries ds ++ numbered d.number d.messages := by
  simp [deliveries]

theorem length_numbered (n : Nat) (ms : List (List Byte)) : (numbered n ms).length = ms.length := by
  induction ms generalizing n with
  | nil => rfl
  | cons m ms ih =>
    rw [numbered, List.length_cons, ih, List.length_cons]

theorem Datagram.Fits.header_last {d : Datagram} (h : d.Fits) : d.header.last = d.last := by
  cases d with
  | data first ms =>
    have hfew : ms.length ≤ 65534 := h.few
    have hne : ms.length ≠ 0 := fun h₀ => h.data rfl (List.length_eq_zero_iff.mp h₀)
    have hkind : (Datagram.data first ms).header.kind = .data := by
      show kindOf ms.length = .data
      unfold kindOf kEndOfSession
      rw [if_neg hne, if_neg (by omega)]
    unfold Header.last SequenceTracker.advance
    rw [if_pos hkind]
    rfl
  | heartbeat next => rfl
  | endOfSession next => rfl

theorem SequenceTracker.onPacket_ahead {t : SequenceTracker} {h : Header} (hsync : t.synced = true)
    (hs : h.session = t.session) (hfits : h.last < 2 ^ 64) (hle : t.expected ≤ h.sequence) :
    (t.onPacket h).1 =
        { t with
          expected := h.last
          gaps := t.gaps + if t.expected < h.sequence then 1 else 0
          missing := if t.expected < h.sequence then saturatingAdd t.missing (h.sequence - t.expected) else t.missing } ∧
      (t.onPacket h).2.result = if t.expected < h.sequence then .gap else .inOrder := by
  have hlast : add64 h.sequence (advance h) = h.last := add64_eq (by unfold Header.last at hfits; unfold u64Max; omega)
  unfold SequenceTracker.onPacket
  rw [hlast, hsync, hs]
  by_cases hgap : t.expected < h.sequence
  · have hne : h.sequence ≠ t.expected := by omega
    simp [hgap, hne]
  · have heq : h.sequence = t.expected := by omega
    simp [heq]

/-- The tracker after datagrams in order. -/
structure Tally (ds : List Datagram) (d₀ : Datagram) (t : SequenceTracker) : Prop where
  synced : t.synced = true
  session : t.session = kSession.chars
  first : ds.head? = some d₀
  bound : ∀ d ∈ ds, d.last ≤ t.expected
  attained : ∃ d ∈ ds.getLast?, t.expected = d.last
  small : t.expected < 2 ^ 64
  duplicates : t.duplicates = 0
  gaps : t.gaps ≤ t.missing
  total : d₀.number + (deliveries ds).length + t.missing = t.expected

theorem Tally.one {d : Datagram} (h : d.Fits) : Tally [d] d (track [d]) := by
  have hlast := h.header_last
  have hfits := h.number
  have heq : track [d] = { synced := true, session := kSession.chars, expected := d.last } := by
    show (({} : SequenceTracker).onPacket d.header).1 = _
    rw [SequenceTracker.onPacket_first d.header (by rw [hlast]; exact hfits), hlast]
    rfl
  rw [heq]
  refine ⟨rfl, rfl, rfl, by simp, ⟨d, rfl, rfl⟩, hfits, rfl, Nat.le_refl _, ?_⟩
  show d.number + (deliveries [d]).length + 0 = d.last
  rw [deliveries, List.flatMap_singleton, length_numbered]
  rfl

theorem Tally.snoc {ds : List Datagram} {d₀ d : Datagram} (h : Tally ds d₀ (track ds)) (hd : d.Fits)
    (hahead : ∀ a ∈ ds, a.last ≤ d.number) : Tally (ds ++ [d]) d₀ (track (ds ++ [d])) := by
  have hlast := hd.header_last
  have hfits := hd.number
  obtain ⟨a, ha, hexp⟩ := h.attained
  have hle : (track ds).expected ≤ d.header.sequence := by
    rw [hexp]
    exact hahead a (List.mem_of_mem_getLast? ha)
  have hup : d.number ≤ d.last := Nat.le_add_right _ _
  have htotal := h.total
  have hseq : d.header.sequence = d.number := rfl
  obtain ⟨heq, -⟩ := SequenceTracker.onPacket_ahead h.synced h.session.symm (by rw [hlast]; exact hfits) hle
  rw [track_snoc, heq]
  have hgaps := h.gaps
  refine ⟨h.synced, h.session, ?_, ?_, ⟨d, List.getLast?_concat, hlast⟩, by rw [← hlast] at hfits; exact hfits, h.duplicates,
    ?_, ?_⟩
  · rw [List.head?_append, h.first]
    rfl
  · intro a' ha'
    show a'.last ≤ d.header.last
    rw [hlast]
    rcases List.mem_append.mp ha' with ha' | ha'
    · exact (hahead a' ha').trans hup
    · rw [List.mem_singleton.mp ha']
  · dsimp only
    rw [hseq] at hle ⊢
    split_ifs with hgap
    · unfold saturatingAdd u64Max
      rw [if_neg (by omega)]
      omega
    · omega
  · show d₀.number + (deliveries (ds ++ [d])).length + _ = d.header.last
    rw [hlast, deliveries_snoc, List.length_append, length_numbered]
    have hd : d.last = d.number + d.messages.length := rfl
    dsimp only
    rw [hseq] at hle ⊢
    split_ifs with hgap
    · unfold saturatingAdd u64Max
      rw [if_neg (by omega)]
      omega
    · omega

theorem InOrder.tally {ds : List Datagram} (h : InOrder ds) (hne : ds ≠ []) : ∃ d₀, Tally ds d₀ (track ds) := by
  induction ds using List.reverseRecOn with
  | nil => exact absurd rfl hne
  | append_singleton ds d ih =>
    have hd : d.Fits := h.fits d (by simp)
    cases ds with
    | nil => exact ⟨d, Tally.one hd⟩
    | cons a ds =>
      obtain ⟨d₀, hd₀⟩ := ih (h.sublist (List.sublist_append_left _ _)) (by simp)
      refine ⟨d₀, hd₀.snoc hd fun b hb => ?_⟩
      exact (List.pairwise_append.mp h.ascending).2.2 b hb d (List.mem_singleton.mpr rfl)

/-- Where the I/O thread is in the datagrams it has received, and what it has come to push. -/
inductive Receiving (io : Io) : List Datagram → List (Nat × List Byte) → Prop
  | between {ds : List Datagram} : io.walk = none → io.tracker = track ds → Receiving io ds (deliveries ds)
  | begun {ds : List Datagram} {d : Datagram} : io.walk = some { hdr := d.header, messages := numbered d.number d.messages } →
      io.tracker = track ds → Receiving io (ds ++ [d]) (deliveries ds)
  | inside {ds : List Datagram} {d : Datagram} {rest : List (Nat × List Byte)} {pushed : List (Nat × List Byte)} :
      io.walk = some { hdr := d.header, messages := rest, tracked := true } → io.tracker = track (ds ++ [d]) →
      pushed ++ rest = deliveries (ds ++ [d]) → Receiving io (ds ++ [d]) pushed

/-- The losses the I/O thread has counted are the gaps, and drop runs. -/
structure Counts (io : Io) (gaps pushed slots : Nat) : Prop where
  malformed : io.malformed = 0
  oversize : io.oversizeMsgs = 0
  msgsReceived : io.msgsReceived = pushed
  ringPushed : io.ringPushed = slots
  shared : io.ringPushed + io.ringDrops = io.msgsReceived
  least : gaps ≤ io.lossEvents
  most : io.lossEvents ≤ gaps + io.ringDrops
  running : io.inDropRun = true → 0 < io.ringDrops

/-- The slots hold messages that have been pushed, in order. -/
def Carries (slots : List Slot) (pushed : List (Nat × List Byte)) : Prop :=
  (slots.map fun s => (s.seq, s.data)).Sublist pushed

/-- Tracking the datagram whose walk has begun. -/
theorem track_begun {io : Io} {ds : List Datagram} {d : Datagram} (hds : InOrder (ds ++ [d])) (ht : io.tracker = track ds) :
    ∃ gap : Bool,
      io.track { hdr := d.header, messages := numbered d.number d.messages } =
        (if gap then ({ io with tracker := track (ds ++ [d]) } : Io).loss else { io with tracker := track (ds ++ [d]) },
          { hdr := d.header, messages := numbered d.number d.messages, tracked := true }) ∧
      (track (ds ++ [d])).gaps = (track ds).gaps + if gap then 1 else 0 := by
  have hd : d.Fits := hds.fits d (by simp)
  have hsnoc := track_snoc ds d
  generalize hr : io.tracker.onPacket d.header = r
  obtain ⟨t, chk⟩ := r
  have hfst : track (ds ++ [d]) = t := by rw [hsnoc, ← ht, hr]
  have htrack := @track_eq io { hdr := d.header, messages := numbered d.number d.messages } t chk rfl hr
  rw [htrack, hfst]
  cases ds with
  | nil =>
    have hnew := SequenceTracker.onPacket_first d.header (by rw [hd.header_last]; exact hd.number)
    rw [ht] at hr
    obtain ⟨rfl, rfl⟩ := Prod.mk.inj (hnew.symm.trans hr)
    exact ⟨false, rfl, rfl⟩
  | cons a ds =>
    obtain ⟨d₀, htally⟩ := (hds.sublist (List.sublist_append_left _ _)).tally (by simp)
    obtain ⟨b, hb, hexp⟩ := htally.attained
    have hle : (track (a :: ds)).expected ≤ d.header.sequence := by
      rw [hexp]
      exact (List.pairwise_append.mp hds.ascending).2.2 b (List.mem_of_mem_getLast? hb) d (List.mem_singleton.mpr rfl)
    obtain ⟨heq, hres⟩ := SequenceTracker.onPacket_ahead htally.synced htally.session.symm
      (by rw [hd.header_last]; exact hd.number) hle
    rw [← ht, hr] at heq hres
    dsimp only at heq hres
    by_cases hgap : (track (a :: ds)).expected < d.header.sequence
    · refine ⟨true, ?_, ?_⟩
      · rw [hres, ht, if_pos hgap]
        rfl
      · rw [heq, ht]
        simp [hgap]
    · refine ⟨false, ?_, ?_⟩
      · rw [hres, ht, if_neg hgap]
        rfl
      · rw [heq, ht]
        simp [hgap]

/-- Fields of the I/O thread that tracking and pushing leave alone. -/
structure Io.Still (io io' : Io) : Prop where
  done : io'.done = io.done
  eos : io'.eos = io.eos
  packetsReceived : io'.packetsReceived = io.packetsReceived
  endOfSession : io'.endOfSession = io.endOfSession

/-- The walk over the last datagram has been tracked. -/
structure Enters (io io' : Io) (w w' : Walk) (rs : List Datagram) (pushed : List (Nat × List Byte)) (slots : Nat) : Prop where
  header : ∃ ds d, rs = ds ++ [d] ∧ w' = { hdr := d.header, messages := w.messages, tracked := true }
  tracker : io'.tracker = track rs
  messages : pushed ++ w.messages = deliveries rs
  counts : Counts io' (track rs).gaps pushed.length slots
  still : io.Still io'

theorem Receiving.enter {io : Io} {w : Walk} {rs : List Datagram} {pushed : List (Nat × List Byte)} {slots : Nat}
    (h : Receiving io rs pushed) (hrs : InOrder rs) (hw : io.walk = some w)
    (hc : Counts io io.tracker.gaps pushed.length slots) : Enters io (io.track w).1 w (io.track w).2 rs pushed slots := by
  cases h with
  | between hnone _ =>
    rw [hnone] at hw
    cases hw
  | @begun ds d hwalk ht =>
    obtain rfl := Option.some.inj (hwalk.symm.trans hw)
    obtain ⟨gap, htrack, hgaps⟩ := track_begun hrs ht
    rw [ht] at hc
    rw [htrack]
    refine ⟨⟨ds, d, rfl, rfl⟩, ?_, (deliveries_snoc ds d).symm, ?_, ?_⟩
    · cases gap <;> rfl
    · rw [hgaps]
      obtain ⟨h₁, h₂, h₃, h₄, h₅, h₆, h₇, h₈⟩ := hc
      cases gap with
      | false => exact ⟨h₁, h₂, h₃, h₄, h₅, h₆, h₇, h₈⟩
      | true =>
        refine ⟨h₁, h₂, h₃, h₄, h₅, Nat.succ_le_succ h₆, ?_, h₈⟩
        show io.lossEvents + 1 ≤ (track ds).gaps + 1 + io.ringDrops
        omega
    · cases gap <;> exact ⟨rfl, rfl, rfl, rfl⟩
  | @inside ds d rest pushed hwalk ht hms =>
    obtain rfl := Option.some.inj (hwalk.symm.trans hw)
    rw [ht] at hc
    exact ⟨⟨ds, d, rfl, rfl⟩, ht, hms, hc, ⟨rfl, rfl, rfl, rfl⟩⟩

/-- What pushing a message of the feed does. -/
structure PushesOne (p q : Pipeline) (seq : Nat) (msg : List Byte) (more : List Slot) : Prop where
  ring : q.ring = p.ring ++ more
  carries : Carries more [(seq, msg)]
  tracker : q.io.tracker = p.io.tracker
  walk : q.io.walk = p.io.walk
  still : p.io.Still q.io
  engine : q.engine = p.engine

theorem Pipeline.push_one {p : Pipeline} {gaps pushed slots : Nat} (seq : Nat) {msg : List Byte} (hne : msg ≠ [])
    (hsize : msg.length ≤ kMaxMsg) (hc : Counts p.io gaps pushed slots) :
    ∃ more, PushesOne p (p.push seq msg) seq msg more ∧
      Counts (p.push seq msg).io gaps (pushed + 1) (slots + more.length) := by
  obtain ⟨h₁, h₂, h₃, h₄, h₅, h₆, h₇, h₈⟩ := hc
  have hfit : ¬(msg.isEmpty ∨ kMaxMsg < msg.length) := by
    rintro (h | h)
    · exact hne (List.isEmpty_iff.mp h)
    · omega
  unfold Pipeline.push
  dsimp only
  rw [if_neg hfit]
  by_cases hroom : p.ring.length < p.capacity
  · rw [if_pos hroom]
    refine ⟨[⟨p.io.epoch, msg, seq⟩], ⟨rfl, List.Sublist.refl _, rfl, rfl, ⟨rfl, rfl, rfl, rfl⟩, rfl⟩, ?_⟩
    refine ⟨h₁, h₂, congrArg (· + 1) h₃, congrArg (· + 1) h₄, ?_, h₆, h₇, fun h => by cases h⟩
    show p.io.ringPushed + 1 + p.io.ringDrops = p.io.msgsReceived + 1
    omega
  · rw [if_neg hroom]
    by_cases hrun : p.io.inDropRun = true
    · rw [if_pos hrun]
      refine ⟨[], ⟨(List.append_nil _).symm, List.nil_sublist _, rfl, rfl, ⟨rfl, rfl, rfl, rfl⟩, rfl⟩, ?_⟩
      refine ⟨h₁, h₂, congrArg (· + 1) h₃, h₄, ?_, h₆, ?_, fun _ => Nat.succ_pos _⟩
      · show p.io.ringPushed + (p.io.ringDrops + 1) = p.io.msgsReceived + 1
        omega
      · show p.io.lossEvents ≤ gaps + (p.io.ringDrops + 1)
        omega
    · rw [if_neg hrun]
      refine ⟨[], ⟨(List.append_nil _).symm, List.nil_sublist _, rfl, rfl, ⟨rfl, rfl, rfl, rfl⟩, rfl⟩, ?_⟩
      refine ⟨h₁, h₂, congrArg (· + 1) h₃, h₄, ?_, Nat.le_succ_of_le h₆, ?_, fun _ => Nat.succ_pos _⟩
      · show p.io.ringPushed + (p.io.ringDrops + 1) = p.io.msgsReceived + 1
        omega
      · show p.io.lossEvents + 1 ≤ gaps + (p.io.ringDrops + 1)
        omega

/-- The pipeline has received the datagrams `rs` and has come to push `pushed`. -/
structure Arrives (p : Pipeline) (rs : List Datagram) (pushed : List (Nat × List Byte)) : Prop where
  place : Receiving p.io rs pushed
  counts : Counts p.io p.io.tracker.gaps pushed.length (p.engine.processed ++ p.ring).length
  carries : Carries (p.engine.processed ++ p.ring) pushed
  processed : p.engine.msgsProcessed = p.engine.processed.length
  packets : p.io.packetsReceived + (if p.io.walk.isSome then 1 else 0) = rs.length
  ended : p.io.eos = true → p.io.walk = none ∧ ∃ d ∈ rs.getLast?, d.header.kind = .endOfSession
  closed : p.io.done = true → p.io.walk = none
  drained : p.engine.done = true → p.ring = [] ∧ p.io.done = true

/-- Messages a slot holds. -/
def Sized (rs : List Datagram) : Prop := ∀ d ∈ rs, ∀ m ∈ d.messages, m ≠ [] ∧ m.length ≤ kMaxMsg

theorem Arrives.new (capacity : Nat) : Arrives (Pipeline.new capacity) [] [] := by
  refine ⟨@Receiving.between (Pipeline.new capacity).io [] rfl rfl, ⟨rfl, rfl, rfl, rfl, rfl, Nat.le_refl _, Nat.le_refl _, ?_⟩, List.Sublist.refl _, rfl, rfl, ?_, ?_, ?_⟩
  · intro h
    cases h
  · intro h
    cases h
  · intro h
    cases h
  · intro h
    cases h

theorem mem_numbered {n k : Nat} {m : List Byte} {ms : List (List Byte)} (h : (k, m) ∈ numbered n ms) : m ∈ ms := by
  induction ms generalizing n with
  | nil => cases h
  | cons b ms ih =>
    rw [numbered] at h
    rcases List.mem_cons.mp h with h | h
    · rw [(Prod.mk.inj h).2]
      exact List.mem_cons_self
    · exact List.mem_cons_of_mem _ (ih h)

theorem Sized.delivered {rs : List Datagram} (h : Sized rs) {k : Nat} {m : List Byte} (hm : (k, m) ∈ deliveries rs) :
    m ≠ [] ∧ m.length ≤ kMaxMsg := by
  obtain ⟨d, hd, hmd⟩ := List.mem_flatMap.mp hm
  exact h d hd m (mem_numbered hmd)

section
variable {p q : Pipeline} {rs : List Datagram} {pushed : List (Nat × List Byte)}

/-- A datagram is received. -/
theorem Arrives.recv (h : Arrives p rs pushed) {d : Datagram} (hd : d.Fits) (hstep : p.step (.recv d.bytes) = some q) :
    Arrives q (rs ++ [d]) pushed := by
  cases Pipeline.step_cases hstep with
  | malformed _ _ herr =>
    rw [hd.read] at herr
    cases herr
  | recv hopen hnone hok =>
    obtain ⟨rfl, rfl⟩ := Prod.mk.inj (Except.ok.inj (hd.read.symm.trans hok))
    have heos : p.io.eos = false := by
      by_contra he
      unfold Pipeline.step at hstep
      simp [he] at hstep
    have hplace := h.place
    cases hplace with
    | between _ ht =>
      refine ⟨.begun rfl ht, ?_, h.carries, h.processed, ?_, fun he => ?_, fun hdone => ?_, h.drained⟩
      · obtain ⟨h₁, h₂, h₃, h₄, h₅, h₆, h₇, h₈⟩ := h.counts
        exact ⟨h₁, h₂, h₃, h₄, h₅, h₆, h₇, h₈⟩
      · have := h.packets
        rw [hnone] at this
        rw [List.length_append, ← this]
        rfl
      · rw [show p.io.eos = true from he] at heos
        cases heos
      · rw [show p.io.done = true from hdone] at hopen
        cases hopen
    | begun hw _ =>
      rw [hnone] at hw
      cases hw
    | inside hw _ _ =>
      rw [hnone] at hw
      cases hw

/-- A message of the walk is pushed. -/
theorem Arrives.deliver (h : Arrives p rs pushed) (hrs : InOrder rs) (hsize : Sized rs) {w : Walk} {seq : Nat}
    {msg : List Byte} {rest : List (Nat × List Byte)} (hw : p.io.walk = some w) (hms : w.messages = (seq, msg) :: rest) :
    Arrives (p.deliver w seq msg rest) rs (pushed ++ [(seq, msg)]) := by
  have hent := h.place.enter hrs hw h.counts
  have hopen : p.io.done = false := by
    by_contra hd
    rw [h.closed (by simpa using hd)] at hw
    cases hw
  have heos : p.io.eos = false := by
    by_contra he
    rw [(h.ended (by simpa using he)).1] at hw
    cases hw
  obtain ⟨ds, d, hlast, hwalk⟩ := hent.header
  have hmsgs := hent.messages
  rw [hms] at hmsgs
  have hmem : (seq, msg) ∈ deliveries rs := by
    rw [← hmsgs]
    simp
  obtain ⟨hne, hle⟩ := hsize.delivered hmem
  obtain ⟨htracker, hcounts, hstill⟩ := And.intro hent.tracker (And.intro hent.counts hent.still)
  unfold Pipeline.deliver
  generalize p.io.track w = r at hwalk htracker hcounts hstill
  obtain ⟨io', w'⟩ := r
  dsimp only at hwalk htracker hcounts hstill ⊢
  rw [hwalk, hms]
  dsimp only
  rw [if_pos (Nat.zero_le _)]
  have hcounts' : Counts ({ p with io := { io' with walk := some { hdr := d.header, messages := rest, tracked := true } } } : Pipeline).io
      (track rs).gaps pushed.length (p.engine.processed ++ p.ring).length := by
    obtain ⟨h₁, h₂, h₃, h₄, h₅, h₆, h₇, h₈⟩ := hcounts
    exact ⟨h₁, h₂, h₃, h₄, h₅, h₆, h₇, h₈⟩
  obtain ⟨more, hpush, hcounts''⟩ := Pipeline.push_one seq hne hle hcounts'
  subst hlast
  refine ⟨.inside hpush.walk (hpush.tracker.trans htracker) (by rw [List.append_assoc]; exact hmsgs), ?_, ?_, ?_, ?_, ?_, ?_, ?_⟩
  · rw [congrArg SequenceTracker.gaps (hpush.tracker.trans htracker), hpush.engine, hpush.ring, ← List.append_assoc,
      List.length_append, List.length_append]
    exact hcounts''
  · rw [hpush.engine, hpush.ring, ← List.append_assoc]
    unfold Carries
    rw [List.map_append]
    exact h.carries.append hpush.carries
  · rw [hpush.engine]
    exact h.processed
  · have hp := h.packets
    rw [hw] at hp
    rw [hpush.walk, hpush.still.packetsReceived, hstill.packetsReceived]
    exact hp
  · intro he
    rw [hpush.still.eos] at he
    rw [← hstill.eos, show io'.eos = true from he] at heos
    cases heos
  · intro hd
    rw [hpush.still.done] at hd
    rw [← hstill.done, show io'.done = true from hd] at hopen
    cases hopen
  · intro hd
    rw [hpush.engine] at hd
    rw [(h.drained hd).2] at hopen
    cases hopen

/-- The walk is at its end. -/
theorem Arrives.packetDone (h : Arrives p rs pushed) (hrs : InOrder rs) {w : Walk} (hw : p.io.walk = some w)
    (hms : w.messages = []) : Arrives (p.packetDone w) rs pushed := by
  have hent := h.place.enter hrs hw h.counts
  have hopen : p.io.done = false := by
    by_contra hd
    rw [h.closed (by simpa using hd)] at hw
    cases hw
  have heos : p.io.eos = false := by
    by_contra he
    rw [(h.ended (by simpa using he)).1] at hw
    cases hw
  obtain ⟨ds, d, hlast, hwalk⟩ := hent.header
  have hpushed : pushed = deliveries rs := by
    have := hent.messages
    rwa [hms, List.append_nil] at this
  have hp := h.packets
  rw [hw] at hp
  obtain ⟨htracker, hcounts, hstill⟩ := And.intro hent.tracker (And.intro hent.counts hent.still)
  have hbusy : p.engine.done = true → p.ring = [] ∧ p.io.done = true := h.drained
  have hrest : ∀ io'' : Io, io''.walk = none → io''.tracker = track rs → Counts io'' (track rs).gaps pushed.length
      (p.engine.processed ++ p.ring).length → io''.packetsReceived = p.io.packetsReceived + 1 → io''.done = false →
      (io''.eos = true → d.header.kind = .endOfSession) → Arrives { p with io := io'' } rs pushed := by
    intro io'' hnone ht hc hpk hdone hends
    have hplace : Receiving io'' rs pushed := by
      rw [hpushed]
      exact .between hnone ht
    refine ⟨hplace, ?_, h.carries, h.processed, ?_, fun he => ⟨hnone, d, ?_, hends he⟩, fun _ => hnone, fun hd => ?_⟩
    · show Counts io'' io''.tracker.gaps _ _
      rw [ht]
      exact hc
    · show io''.packetsReceived + (if io''.walk.isSome then 1 else 0) = _
      rw [hnone, hpk]
      exact hp
    · rw [hlast]
      exact List.getLast?_concat
    · rw [(hbusy hd).2] at hopen
      cases hopen
  unfold Pipeline.packetDone
  generalize p.io.track w = r at hwalk htracker hcounts hstill
  obtain ⟨io', w'⟩ := r
  dsimp only at hwalk htracker hcounts hstill ⊢
  rw [hwalk]
  dsimp only
  obtain ⟨h₁, h₂, h₃, h₄, h₅, h₆, h₇, h₈⟩ := hcounts
  split_ifs with hkind
  · exact hrest _ rfl htracker ⟨h₁, h₂, h₃, h₄, h₅, h₆, h₇, h₈⟩ (congrArg (· + 1) hstill.packetsReceived)
      (hstill.done.trans hopen) fun _ => hkind
  · refine hrest _ rfl htracker ⟨h₁, h₂, h₃, h₄, h₅, h₆, h₇, h₈⟩ (congrArg (· + 1) hstill.packetsReceived)
      (hstill.done.trans hopen) fun he => ?_
    rw [← hstill.eos, show io'.eos = true from he] at heos
    cases heos

theorem EngineThread.handleLosses_processed (t : EngineThread) (epoch : Nat) :
    (t.handleLosses epoch).processed = t.processed := by
  unfold EngineThread.processed EngineThread.handleLosses
  dsimp only
  rw [List.filterMap_append, List.filterMap_replicate_of_none rfl, List.append_nil]

theorem EngineThread.process_processed (t : EngineThread) (s : Slot) : (t.process s).processed = t.processed ++ [s] := by
  unfold EngineThread.process
  dsimp only
  generalize (if 11 ≤ s.data.length then Be.loadAt s.data 5 6 else t.now) = now
  have h := EngineThread.handleLosses_processed { t with now := now } s.lossEpoch
  unfold EngineThread.processed at h ⊢
  dsimp only
  rw [List.filterMap_append, h]
  rfl

/-- **Step lemma.** What is not a datagram. -/
theorem Arrives.step (h : Arrives p rs pushed) (hrs : InOrder rs) (hsize : Sized rs) {e : Event}
    (he : ∀ pkt, e ≠ .recv pkt) (hstep : p.step e = some q) : ∃ pushed', Arrives q rs pushed' := by
  cases Pipeline.step_cases hstep with
  | malformed => exact absurd rfl (he _)
  | recv => exact absurd rfl (he _)
  | deliver hw hms => exact ⟨_, h.deliver hrs hsize hw hms⟩
  | packetDone hw hms => exact ⟨_, h.packetDone hrs hw hms⟩
  | ioDone hopen hnone =>
    obtain ⟨h₁, h₂, h₃, h₄, h₅, h₆, h₇, h₈⟩ := h.counts
    refine ⟨pushed, ?_, ⟨h₁, h₂, h₃, h₄, h₅, h₆, h₇, h₈⟩, h.carries, h.processed, h.packets, h.ended, fun _ => hnone, fun hd => ?_⟩
    · have hplace := h.place
      cases hplace with
      | between hw ht => exact .between hw ht
      | begun hw _ =>
        rw [hnone] at hw
        cases hw
      | inside hw _ _ =>
        rw [hnone] at hw
        cases hw
    · exact ⟨(h.drained hd).1, rfl⟩
  | @pop s ring hring hd =>
    have hslots : (p.engine.process s).processed ++ ring = p.engine.processed ++ p.ring := by
      rw [EngineThread.process_processed, hring, List.append_assoc]
      rfl
    refine ⟨pushed, h.place, ?_, ?_, ?_, h.packets, h.ended, h.closed, fun hd' => ?_⟩
    · show Counts p.io p.io.tracker.gaps _ _
      rw [hslots]
      exact h.counts
    · show Carries ((p.engine.process s).processed ++ ring) pushed
      rw [hslots]
      exact h.carries
    · show p.engine.msgsProcessed + 1 = _
      rw [EngineThread.process_processed, List.length_append, h.processed]
      rfl
    · rw [show p.engine.done = true from hd'] at hd
      cases hd
  | engineDone hd hdone hnil =>
    have hproc : ({ p.engine.handleLosses p.finalEpoch with done := true } : EngineThread).processed = p.engine.processed :=
      EngineThread.handleLosses_processed _ _
    refine ⟨pushed, h.place, ?_, ?_, ?_, h.packets, h.ended, h.closed, fun _ => ⟨hnil, hdone⟩⟩
    · show Counts p.io p.io.tracker.gaps _ (_ ++ p.ring).length
      rw [hproc]
      exact h.counts
    · show Carries (_ ++ p.ring) pushed
      rw [hproc]
      exact h.carries
    · rw [hproc]
      exact h.processed

end

/-- **Run lemma.** -/
theorem Arrives.run {p q : Pipeline} {rs ds : List Datagram} {pushed : List (Nat × List Byte)} {events : List Event}
    (h : Arrives p rs pushed) (hrun : Runs.run Pipeline.step p events = some q)
    (hrecv : received events = ds.map Datagram.bytes) (hrs : InOrder (rs ++ ds)) (hsize : Sized (rs ++ ds)) :
    ∃ pushed', Arrives q (rs ++ ds) pushed' := by
  induction events generalizing p rs ds pushed with
  | nil =>
    obtain rfl : p = q := by simpa using hrun
    obtain rfl : ds = [] := by simpa [received] using hrecv.symm
    rw [List.append_nil]
    exact ⟨pushed, h⟩
  | cons e events ih =>
    obtain ⟨p', hstep, hrest⟩ := run_cons_some hrun
    have hstays : (∀ pkt, e ≠ .recv pkt) → received events = ds.map Datagram.bytes → ∃ pushed', Arrives q (rs ++ ds) pushed' := by
      intro he hrecv'
      obtain ⟨pushed', h'⟩ := h.step (hrs.sublist (List.sublist_append_left _ _))
        (fun d hd => hsize d (List.mem_append_left _ hd)) he hstep
      exact ih h' hrest hrecv' hrs hsize
    cases e with
    | recv pkt =>
      cases ds with
      | nil => cases hrecv
      | cons d ds =>
        obtain ⟨rfl, hrecv'⟩ := List.cons.inj hrecv
        have h' := h.recv (hrs.fits d (by simp)) hstep
        rw [List.append_cons] at hrs hsize ⊢
        exact ih h' hrest hrecv' hrs hsize
    | deliver => exact hstays (fun _ => nofun) hrecv
    | packetDone => exact hstays (fun _ => nofun) hrecv
    | ioDone => exact hstays (fun _ => nofun) hrecv
    | pop => exact hstays (fun _ => nofun) hrecv
    | engineDone => exact hstays (fun _ => nofun) hrecv

end OptiTrade.Net
