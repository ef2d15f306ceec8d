import Mathlib.Data.List.Chain
import OptiTrade.Net.Pipeline

/-! # No loss goes unsignalled

The slots that have gone through the ring, popped or not, are a chain: a slot comes right after the one
before it in the sequence, or carries a higher epoch. What the I/O thread will push next relates to the
last slot in the same way; `Before` says so for the sequence number it has come to. -/

namespace OptiTrade.Net
set_option autoImplicit false

open Runs

/-- `b` may follow `a` in the ring. -/
structure Follows (a b : Slot) : Prop where
  seq : a.seq < b.seq
  epoch : a.lossEpoch ≤ b.lossEpoch
  signalled : b.seq = a.seq + 1 ∨ a.lossEpoch < b.lossEpoch

/-- A message numbered `n`, pushed in epoch `e`, may follow `a`. -/
structure Before (a : Slot) (n e : Nat) : Prop where
  seq : a.seq < n
  epoch : a.lossEpoch ≤ e
  signalled : n = a.seq + 1 ∨ a.lossEpoch < e

theorem Before.later {a : Slot} {n n' e e' : Nat} (h : Before a n e) (hn : n ≤ n') (he : e < e') : Before a n' e' :=
  ⟨h.seq.trans_le hn, by have := h.epoch; omega, .inr (by have := h.epoch; omega)⟩

/-! ## The I/O thread -/

/-- The I/O thread is at message `n` of a packet it has tracked, `len` more to come. -/
structure Inside (session : List Byte) (t : SequenceTracker) (skip n len : Nat) : Prop where
  synced : t.synced = true
  session : t.session = session
  fits : n + len < 2 ^ 64
  expected : t.expected = max (n + len) skip

/-- A walk that has not begun: all messages of a valid packet of the session. -/
structure Walk.Valid (session : List Byte) (w : Walk) : Prop where
  untracked : w.tracked = false
  skip : w.skipBelow = 0
  session : w.hdr.session = session
  messages : ∃ bs, w.messages = numbered w.hdr.sequence bs ∧ bs.length = SequenceTracker.advance w.hdr
  fits : w.hdr.sequence + SequenceTracker.advance w.hdr < 2 ^ 64

/-- Where the I/O thread is, and the next sequence number it can push. -/
inductive Place (session : List Byte) (io : Io) (slots : List Slot) : Nat → Prop
  | fresh (n : Nat) : io.tracker.synced = false → slots = [] → (∀ w, io.walk = some w → w.Valid session) →
      Place session io slots n
  | between : io.tracker.synced = true → io.tracker.session = session → (∀ w, io.walk = some w → w.Valid session) →
      Place session io slots io.tracker.expected
  | inside (w : Walk) (n : Nat) (bs : List (List Byte)) : io.walk = some w → w.tracked = true →
      w.messages = numbered n bs → Inside session io.tracker w.skipBelow n bs.length →
      Place session io slots (max n w.skipBelow)

/-- The counters of the I/O thread and the slots it has pushed. -/
structure IoOk (io : Io) (slots : List Slot) : Prop where
  epoch : io.epoch = io.lossEvents
  chain : slots.IsChain Follows
  bounded : ∀ s ∈ slots, s.lossEpoch ≤ io.epoch
  dropRun : io.inDropRun = true → ∀ l ∈ slots.getLast?, l.lossEpoch < io.epoch

variable {session : List Byte} {io : Io} {slots : List Slot}

/-- The fields the invariant is about, but for the walk. -/
structure Io.Agree (io io' : Io) : Prop where
  tracker : io'.tracker = io.tracker
  epoch : io'.epoch = io.epoch
  lossEvents : io'.lossEvents = io.lossEvents
  inDropRun : io'.inDropRun = io.inDropRun

theorem IoOk.agree {io' : Io} (h : IoOk io slots) (hag : io.Agree io') : IoOk io' slots := by
  refine ⟨by rw [hag.epoch, hag.lossEvents, h.epoch], h.chain, ?_, ?_⟩
  · rw [hag.epoch]
    exact h.bounded
  · rw [hag.epoch, hag.inDropRun]
    exact h.dropRun

theorem Io.loss_epoch (h : io.epoch = io.lossEvents) (hl : io.loss.lossEvents < 2 ^ 32) : io.loss.epoch = io.epoch + 1 := by
  have hl' : io.lossEvents + 1 < 2 ^ 32 := hl
  exact add32_eq (by rw [h]; unfold u32Max; omega)

theorem IoOk.loss {io' : Io} (h : IoOk io slots) (hep : io'.epoch = io.epoch) (hev : io'.lossEvents = io.lossEvents)
    (hl : io'.loss.lossEvents < 2 ^ 32) : IoOk io'.loss slots := by
  have he : io'.loss.epoch = io.epoch + 1 := by rw [Io.loss_epoch (by rw [hep, hev, h.epoch]) hl, hep]
  refine ⟨by rw [he, h.epoch, ← hev]; rfl, h.chain, fun s hs => ?_, fun _ l hl => ?_⟩
  · have := h.bounded s hs
    omega
  · have := h.bounded l (List.mem_of_mem_getLast? hl)
    omega

/-- The I/O thread has shown the packet of `w` to the tracker, and what it pushes next may follow the last
slot. -/
structure Entered (session : List Byte) (io : Io) (slots : List Slot) (w : Walk) (n : Nat) (bs : List (List Byte)) :
    Prop where
  ok : IoOk io slots
  messages : w.messages = numbered n bs
  tracked : w.tracked = true
  inside : Inside session io.tracker w.skipBelow n bs.length
  before : ∀ l ∈ slots.getLast?, Before l (max n w.skipBelow) io.epoch

theorem track_eq {w : Walk} {t : SequenceTracker} {chk : SequenceCheck} (hu : w.tracked = false)
    (hr : io.tracker.onPacket w.hdr = (t, chk)) :
    io.track w = (match chk.result with
      | .gap | .sessionChanged => ({ io with tracker := t }.loss, { w with tracked := true })
      | .duplicate => ({ io with tracker := t }, { w with tracked := true, skipBelow := chk.expected })
      | .inOrder => ({ io with tracker := t }, { w with tracked := true })) := by
  unfold Io.track
  rewrite [hu, if_neg (by simp), hr]
  rcases chk with ⟨_ | _ | _ | _⟩ <;> rfl

/-- Tracking a packet whose walk has not begun. -/
theorem track_valid {w : Walk} (hok : IoOk io slots) (hv : w.Valid session)
    (hnil : io.tracker.synced = false → slots = [])
    (hses : io.tracker.synced = true → io.tracker.session = session)
    (hbefore : io.tracker.synced = true → ∀ l ∈ slots.getLast?, Before l io.tracker.expected io.epoch)
    (hl : (io.track w).1.lossEvents < 2 ^ 32) : ∃ n bs, Entered session (io.track w).1 slots (io.track w).2 n bs := by
  obtain ⟨bs, hms, hlen⟩ := hv.messages
  have hfits : w.hdr.sequence + bs.length < 2 ^ 64 := by rw [hlen]; exact hv.fits
  obtain ⟨hsync, hsess, htracks⟩ := SequenceTracker.onPacket_tracks (t := io.tracker) (h := w.hdr)
    (fun h => hv.session.trans (hses h).symm) hv.fits
  rw [← hlen] at htracks
  generalize hr : io.tracker.onPacket w.hdr = r at hsync hsess htracks
  obtain ⟨t, chk⟩ := r
  dsimp only at hsync hsess htracks
  have hok' : IoOk { io with tracker := t } slots := ⟨hok.epoch, hok.chain, hok.bounded, hok.dropRun⟩
  have htrack := track_eq hv.untracked hr
  refine ⟨w.hdr.sequence, bs, ?_⟩
  cases htracks with
  | first hs hres hexp =>
    rw [htrack, hres]
    refine ⟨hok', hms, rfl, ⟨hsync, hsess.trans hv.session, hfits, by dsimp only; rw [hv.skip, hexp, Nat.max_zero]⟩, ?_⟩
    rw [hnil hs]
    simp
  | inOrder hs hseq hres hexp =>
    rw [htrack, hres]
    refine ⟨hok', hms, rfl, ⟨hsync, hsess.trans hv.session, hfits, by dsimp only; rw [hv.skip, hexp, Nat.max_zero]⟩, ?_⟩
    simp only [hv.skip, Nat.max_zero, hseq]
    exact hbefore hs
  | gap hs hgt hres hexp =>
    rw [htrack, hres] at hl ⊢
    have hep := Io.loss_epoch hok'.epoch hl
    refine ⟨hok'.loss rfl rfl hl, hms, rfl, ⟨hsync, hsess.trans hv.session, hfits, by dsimp only [Io.loss]; rw [hv.skip, hexp, Nat.max_zero]⟩, ?_⟩
    intro l hlast
    refine (hbefore hs l hlast).later ?_ ?_
    · exact Nat.le_trans (Nat.le_of_lt hgt) (Nat.le_max_left _ _)
    · rw [hep]
      exact Nat.lt_succ_self _
  | duplicate hs hlt hres hchk hexp =>
    rw [htrack, hres]
    refine ⟨hok', hms, rfl, ⟨hsync, hsess.trans hv.session, hfits, by dsimp only; rw [hexp, hchk]⟩, ?_⟩
    simp only [hchk]
    rw [Nat.max_eq_right (Nat.le_of_lt hlt)]
    exact hbefore hs

theorem track_entered {w : Walk} {n : Nat} (hok : IoOk io slots) (hplace : Place session io slots n)
    (hbefore : ∀ l ∈ slots.getLast?, Before l n io.epoch) (hw : io.walk = some w)
    (hl : (io.track w).1.lossEvents < 2 ^ 32) : ∃ n' bs, Entered session (io.track w).1 slots (io.track w).2 n' bs := by
  cases hplace with
  | fresh n hs hnil hv =>
    exact track_valid hok (hv w hw) (fun _ => hnil) (fun h => by rw [hs] at h; cases h)
      (fun h => by rw [hs] at h; cases h) hl
  | between hs hses hv =>
    exact track_valid hok (hv w hw) (fun h => by rw [hs] at h; cases h) (fun _ => hses) (fun _ => hbefore) hl
  | inside w' n bs hw' ht hms hin =>
    obtain rfl : w = w' := by rw [hw'] at hw; exact (Option.some.inj hw).symm
    have heq : io.track w = (io, w) := by simp [Io.track, ht]
    rw [heq]
    exact ⟨n, bs, hok, hms, ht, hin, hbefore⟩

/-! ## Pushing a message -/

/-- What pushing message `n` does to the pipeline: the ring takes at most that message. -/
structure Pushes (p q : Pipeline) (slots more : List Slot) (n : Nat) : Prop where
  ring : q.ring = p.ring ++ more
  io : IoOk q.io (slots ++ more)
  before : ∀ l ∈ (slots ++ more).getLast?, Before l (n + 1) q.io.epoch
  tracker : q.io.tracker = p.io.tracker
  walk : q.io.walk = p.io.walk
  done : q.io.done = p.io.done
  engine : q.engine = p.engine
  finalEpoch : q.finalEpoch = p.finalEpoch

theorem pushes_loss {p : Pipeline} {io' : Io} {n : Nat} (hok : IoOk p.io slots)
    (hbefore : ∀ l ∈ slots.getLast?, Before l n p.io.epoch) (hep : io'.epoch = p.io.epoch)
    (hev : io'.lossEvents = p.io.lossEvents) (htr : io'.tracker = p.io.tracker) (hw : io'.walk = p.io.walk)
    (hd : io'.done = p.io.done) (hl : io'.loss.lossEvents < 2 ^ 32) : Pushes p { p with io := io'.loss } slots [] n := by
  have he : io'.loss.epoch = p.io.epoch + 1 := by rw [Io.loss_epoch (by rw [hep, hev, hok.epoch]) hl, hep]
  refine ⟨by simp, by simpa using hok.loss hep hev hl, fun l hlast => ?_, htr, hw, hd, rfl, rfl⟩
  rw [List.append_nil] at hlast
  exact (hbefore l hlast).later (Nat.le_succ n) (by rw [he]; exact Nat.lt_succ_self _)

theorem Pipeline.push_pushes {p : Pipeline} {n : Nat} {msg : List Byte} (hok : IoOk p.io slots)
    (hbefore : ∀ l ∈ slots.getLast?, Before l n p.io.epoch) (hl : (p.push n msg).io.lossEvents < 2 ^ 32) :
    ∃ more, Pushes p (p.push n msg) slots more n := by
  unfold Pipeline.push at hl ⊢
  dsimp only at hl ⊢
  by_cases hsize : msg.isEmpty ∨ kMaxMsg < msg.length
  · -- an empty or oversize message is a loss of its own
    rw [if_pos hsize] at hl ⊢
    exact ⟨[], pushes_loss hok hbefore rfl rfl rfl rfl rfl hl⟩
  · rw [if_neg hsize] at hl ⊢
    by_cases hroom : p.ring.length < p.capacity
    · rw [if_pos hroom]
      refine ⟨[⟨p.io.epoch, msg, n⟩], ?_⟩
      refine ⟨rfl, ⟨hok.epoch, ?_, ?_, ?_⟩, ?_, rfl, rfl, rfl, rfl, rfl⟩
      · refine List.isChain_append.mpr ⟨hok.chain, .singleton _, fun a ha b hb => ?_⟩
        obtain rfl : _ = b := by simpa using hb
        have h := hbefore a ha
        exact ⟨h.seq, h.epoch, h.signalled⟩
      · intro s hs
        rcases List.mem_append.mp hs with hs | hs
        · exact hok.bounded s hs
        · rw [List.mem_singleton.mp hs]
      · intro h
        cases h
      · intro l hlast
        obtain rfl : _ = l := by simpa using hlast
        exact ⟨Nat.lt_succ_self n, Nat.le_refl _, .inl rfl⟩
    · rw [if_neg hroom] at hl ⊢
      refine ⟨[], ?_⟩
      by_cases hrun : p.io.inDropRun = true
      · -- the epoch has been raised by the first drop of the run
        rw [if_pos hrun]
        refine ⟨by simp, ⟨hok.epoch, by simpa using hok.chain, by simpa using hok.bounded,
          by simpa using hok.dropRun⟩, fun l hlast => ?_, rfl, rfl, rfl, rfl, rfl⟩
        rw [List.append_nil] at hlast
        have h := hbefore l hlast
        exact ⟨Nat.lt_succ_of_lt h.seq, h.epoch, .inr (hok.dropRun hrun l hlast)⟩
      · rw [if_neg hrun] at hl ⊢
        exact pushes_loss hok hbefore rfl rfl rfl rfl rfl hl

/-! ## Steps of the I/O thread -/

/-- The I/O thread, the slots and the place it has come to. -/
structure IoInv (session : List Byte) (io : Io) (slots : List Slot) : Prop where
  ok : IoOk io slots
  place : ∃ n, Place session io slots n ∧ ∀ l ∈ slots.getLast?, Before l n io.epoch

/-- A step of the I/O thread within its loop. -/
structure Writes (session : List Byte) (p q : Pipeline) (slots more : List Slot) : Prop where
  ring : q.ring = p.ring ++ more
  io : IoInv session q.io (slots ++ more)
  done : q.io.done = p.io.done
  engine : q.engine = p.engine
  finalEpoch : q.finalEpoch = p.finalEpoch

theorem Io.track_frame (io : Io) (w : Walk) :
    (io.track w).1.walk = io.walk ∧ (io.track w).1.done = io.done ∧ (io.track w).2.messages = w.messages := by
  unfold Io.track
  split_ifs
  · exact ⟨rfl, rfl, rfl⟩
  · dsimp only
    split <;> exact ⟨rfl, rfl, rfl⟩

theorem numbered_cons_inv {n seq : Nat} {bs : List (List Byte)} {msg : List Byte} {rest : List (Nat × List Byte)}
    (h : numbered n bs = (seq, msg) :: rest) : ∃ bs', bs = msg :: bs' ∧ seq = n ∧ rest = numbered (add64 n 1) bs' := by
  cases bs with
  | nil => cases h
  | cons b bs =>
    obtain ⟨h₁, rfl⟩ := List.cons.inj h
    obtain ⟨rfl, rfl⟩ := Prod.mk.inj h₁
    exact ⟨bs, rfl, rfl, rfl⟩

theorem Pipeline.deliver_writes {p : Pipeline} {w : Walk} {seq : Nat} {msg : List Byte} {rest : List (Nat × List Byte)}
    (h : IoInv session p.io slots) (hw : p.io.walk = some w) (hms : w.messages = (seq, msg) :: rest)
    (htl : (p.io.track w).1.lossEvents < 2 ^ 32) (hl : (p.deliver w seq msg rest).io.lossEvents < 2 ^ 32) :
    ∃ more, Writes session p (p.deliver w seq msg rest) slots more := by
  obtain ⟨hok, n, hplace, hbefore⟩ := h
  obtain ⟨n', bs, hent⟩ := track_entered hok hplace hbefore hw htl
  obtain ⟨-, hdone, hmsgs⟩ := p.io.track_frame w
  unfold Pipeline.deliver at hl ⊢
  generalize p.io.track w = r at hent hdone hmsgs hl
  obtain ⟨io', w'⟩ := r
  dsimp only at hent hdone hmsgs hl ⊢
  obtain ⟨bs', rfl, rfl, rfl⟩ := numbered_cons_inv (hent.messages.symm.trans (hmsgs.trans hms))
  have hin := hent.inside
  have hfits : seq + (bs'.length + 1) < 2 ^ 64 := hin.fits
  have hnext : add64 seq 1 = seq + 1 := add64_eq (by unfold u64Max; omega)
  have hin' : Inside session io'.tracker w'.skipBelow (seq + 1) bs'.length := by
    refine ⟨hin.synced, hin.session, by omega, ?_⟩
    rw [hin.expected, List.length_cons]
    omega
  rw [hnext] at hl ⊢
  have hok' : IoOk { io' with walk := some { w' with messages := numbered (seq + 1) bs' } } slots :=
    ⟨hent.ok.epoch, hent.ok.chain, hent.ok.bounded, hent.ok.dropRun⟩
  by_cases hskip : w'.skipBelow ≤ seq
  · rw [if_pos hskip] at hl ⊢
    have hbefore' : ∀ l ∈ slots.getLast?, Before l seq io'.epoch := by
      have := hent.before
      rwa [Nat.max_eq_left hskip] at this
    obtain ⟨more, hpush⟩ := Pipeline.push_pushes hok' hbefore' hl
    refine ⟨more, hpush.ring, ⟨hpush.io, max (seq + 1) w'.skipBelow, ?_, ?_⟩, hpush.done.trans hdone, hpush.engine,
      hpush.finalEpoch⟩
    · exact .inside { w' with messages := numbered (seq + 1) bs' } _ bs' hpush.walk hent.tracked rfl (by rw [hpush.tracker]; exact hin')
    · rw [Nat.max_eq_left (by omega)]
      exact hpush.before
  · -- the tail of an overlapping packet has not been reached
    rw [if_neg hskip]
    refine ⟨[], (List.append_nil _).symm, ?_, hdone, rfl, rfl⟩
    rw [List.append_nil]
    refine ⟨hok', max (seq + 1) w'.skipBelow,
      .inside { w' with messages := numbered (seq + 1) bs' } _ bs' rfl hent.tracked rfl hin', ?_⟩
    have := hent.before
    rwa [show max seq w'.skipBelow = max (seq + 1) w'.skipBelow by omega] at this

theorem Pipeline.packetDone_writes {p : Pipeline} {w : Walk} (h : IoInv session p.io slots) (hw : p.io.walk = some w)
    (hms : w.messages = []) (htl : (p.io.track w).1.lossEvents < 2 ^ 32) :
    Writes session p (p.packetDone w) slots [] := by
  obtain ⟨hok, n, hplace, hbefore⟩ := h
  obtain ⟨n', bs, hent⟩ := track_entered hok hplace hbefore hw htl
  obtain ⟨-, hdone, hmsgs⟩ := p.io.track_frame w
  unfold Pipeline.packetDone
  generalize p.io.track w = r at hent hdone hmsgs
  obtain ⟨io', w'⟩ := r
  dsimp only at hent hdone hmsgs ⊢
  obtain rfl : bs = [] := by
    have h := hent.messages.symm.trans (hmsgs.trans hms)
    cases bs with
    | nil => rfl
    | cons b bs => cases h
  have hexp : max n' w'.skipBelow = io'.tracker.expected := hent.inside.expected.symm
  have hinv : ∀ io'' : Io, io'.Agree io'' → io''.walk = none → IoInv session io'' (slots ++ []) := by
    intro io'' hag hnone
    rw [List.append_nil]
    refine ⟨hent.ok.agree hag, io''.tracker.expected, ?_, ?_⟩
    · refine .between (by rw [hag.tracker]; exact hent.inside.synced) (by rw [hag.tracker]; exact hent.inside.session) ?_
      intro w hw
      rw [hnone] at hw
      cases hw
    · rw [hag.tracker, hag.epoch, ← hexp]
      exact hent.before
  split_ifs
  · exact ⟨(List.append_nil _).symm, hinv _ ⟨rfl, rfl, rfl, rfl⟩ rfl, hdone, rfl, rfl⟩
  · exact ⟨(List.append_nil _).symm, hinv _ ⟨rfl, rfl, rfl, rfl⟩ rfl, hdone, rfl, rfl⟩

theorem IoInv.agree {io' : Io} (h : IoInv session io slots) (hag : io.Agree io') (hnone : io.walk = none)
    (hv : ∀ w, io'.walk = some w → w.Valid session) : IoInv session io' slots := by
  obtain ⟨hok, n, hplace, hbefore⟩ := h
  refine ⟨hok.agree hag, n, ?_, by rw [hag.epoch]; exact hbefore⟩
  cases hplace with
  | fresh n hs hnil _ => exact .fresh n (by rw [hag.tracker]; exact hs) hnil hv
  | between hs hses _ =>
    rw [← hag.tracker] at hs hses ⊢
    exact .between hs hses hv
  | inside w n bs hw => rw [hnone] at hw; cases hw

theorem Walk.valid_of_packet {pkt : List Byte} {hdr : Header} {ms : List (Nat × List Byte)}
    (h : forEachMessage pkt = .ok (hdr, ms)) (hses : hdr.session = session)
    (hfits : hdr.sequence + SequenceTracker.advance hdr < 2 ^ 64) :
    ({ hdr := hdr, messages := ms } : Walk).Valid session := by
  refine ⟨rfl, rfl, hses, ?_, hfits⟩
  rcases forEachMessage_ok h with ⟨hk, bs, hlen, rfl⟩ | ⟨hk, rfl⟩
  · exact ⟨bs, rfl, by rw [SequenceTracker.advance, if_pos hk, hlen]⟩
  · exact ⟨[], rfl, by rw [SequenceTracker.advance, if_neg hk]; rfl⟩

/-! ## The engine thread -/

def EngineCall.slot? : EngineCall → Option Slot
  | .onFeedGap _ => none
  | .onItch s _ => some s

/-- The messages the engine has processed, in order. -/
def EngineThread.processed (t : EngineThread) : List Slot := t.calls.filterMap EngineCall.slot?

/-- The calls of `on_feed_gap`. -/
def EngineThread.feedGaps (t : EngineThread) : Nat := t.calls.countP fun c => c.slot?.isNone

/-- Of two calls in a row, two messages are neighbours in the sequence. -/
def Near (c d : EngineCall) : Prop := ∀ a b, c.slot? = some a → d.slot? = some b → b.seq = a.seq + 1

/-- What the calls of the engine thread look like. -/
structure EngineOk (t : EngineThread) : Prop where
  near : t.calls.IsChain Near
  gaps : t.feedGaps = t.seenEpoch
  last : t.done = false → t.calls = [] ∧ t.seenEpoch = 0 ∨
    ∃ pre l now, t.calls = pre ++ [.onItch l now] ∧ t.seenEpoch = l.lossEpoch

theorem Near.of_gap (c : EngineCall) (now : Nat) : Near c (.onFeedGap now) := fun _ _ _ h => by cases h
theorem Near.gap_of (now : Nat) (d : EngineCall) : Near (.onFeedGap now) d := fun _ _ h => by cases h

variable {t : EngineThread}

theorem EngineOk.handleLosses (h : EngineOk t) (epoch : Nat) :
    (t.handleLosses epoch).calls.IsChain Near ∧ (t.handleLosses epoch).feedGaps = (t.handleLosses epoch).seenEpoch ∧
      (t.handleLosses epoch).processed = t.processed := by
  refine ⟨?_, ?_, ?_⟩
  · refine List.isChain_append.mpr ⟨h.near, List.isChain_replicate_of_rel _ (Near.of_gap _ _), fun c _ d hd => ?_⟩
    rw [List.eq_of_mem_replicate (List.mem_of_mem_head? hd)]
    exact Near.of_gap _ _
  · have hg := h.gaps
    unfold EngineThread.feedGaps at hg ⊢
    unfold EngineThread.handleLosses
    dsimp only
    rw [List.countP_append, hg, List.countP_replicate,
      if_pos (show (EngineCall.onFeedGap t.now).slot?.isNone = true from rfl)]
    omega
  · unfold EngineThread.processed EngineThread.handleLosses
    dsimp only
    rw [List.filterMap_append, List.filterMap_replicate_of_none rfl, List.append_nil]

/-- A message that may follow the last one: a loss between the two has been called. -/
theorem EngineOk.process {s : Slot} (h : EngineOk t) (hd : t.done = false)
    (hs : ∀ l ∈ t.processed.getLast?, Follows l s) :
    EngineOk (t.process s) ∧ (t.process s).processed = t.processed ++ [s] := by
  unfold EngineThread.process
  dsimp only
  generalize (if 11 ≤ s.data.length then Be.loadAt s.data 5 6 else t.now) = now
  have h₁ : EngineOk { t with now := now } := ⟨h.near, h.gaps, h.last⟩
  obtain ⟨hnear, hgaps, hproc⟩ := h₁.handleLosses s.lossEpoch
  have hprev : ∀ pre l now', t.calls = pre ++ [.onItch l now'] → Follows l s := by
    intro pre l now' hcalls
    refine hs l ?_
    rw [EngineThread.processed, hcalls, List.filterMap_append]
    simp [EngineCall.slot?]
  have hseen : ({ t with now := now }.handleLosses s.lossEpoch).seenEpoch = s.lossEpoch := by
    show max t.seenEpoch s.lossEpoch = s.lossEpoch
    rcases h.last hd with ⟨-, h₀⟩ | ⟨pre, l, now', hcalls, hep⟩
    · omega
    · have := (hprev pre l now' hcalls).epoch
      omega
  refine ⟨⟨?_, ?_, fun _ => .inr ⟨_, s, now, rfl, hseen⟩⟩, ?_⟩
  · refine List.isChain_append.mpr ⟨hnear, .singleton _, fun c hc d hd' => ?_⟩
    obtain rfl : _ = d := by simpa using hd'
    replace hc : c ∈ (t.calls ++ List.replicate (s.lossEpoch - t.seenEpoch) (EngineCall.onFeedGap now)).getLast? := hc
    cases hk : s.lossEpoch - t.seenEpoch with
    | zero =>
      rw [hk, List.replicate_zero, List.append_nil] at hc
      rcases h.last hd with ⟨hnil, -⟩ | ⟨pre, l, now', hcalls, hep⟩
      · rw [hnil] at hc
        cases hc
      · obtain rfl : .onItch l now' = c := by simpa [hcalls] using hc
        intro a b ha hb
        cases ha
        cases hb
        -- the same epoch, so no loss lies between the two
        exact (hprev pre l now' hcalls).signalled.resolve_right (by omega)
    | succ k =>
      rw [hk, List.replicate_succ', ← List.append_assoc, List.getLast?_concat] at hc
      obtain rfl := Option.some.inj hc
      exact Near.gap_of now _
  · unfold EngineThread.feedGaps at hgaps ⊢
    dsimp only
    rw [List.countP_append, hgaps]
    rfl
  · unfold EngineThread.processed at hproc ⊢
    dsimp only
    rw [List.filterMap_append, hproc]
    rfl

/-! ## Runs -/

/-- The invariant of the pipeline. -/
structure Inv (session : List Byte) (p : Pipeline) : Prop where
  io : IoInv session p.io (p.engine.processed ++ p.ring)
  engine : EngineOk p.engine
  closed : p.io.done = true → p.io.walk = none ∧ p.finalEpoch = p.io.epoch
  drained : p.engine.done = true → p.ring = [] ∧ p.io.done = true ∧ p.engine.seenEpoch = p.io.lossEvents

/-- A packet that is received and accepted is of the session, and its sequence numbers do not wrap. -/
def OfSession (session : List Byte) (e : Event) : Prop :=
  ∀ pkt hdr ms, e = .recv pkt → forEachMessage pkt = .ok (hdr, ms) →
    hdr.session = session ∧ hdr.sequence + SequenceTracker.advance hdr < 2 ^ 64

variable {p q : Pipeline}

theorem Io.track_lossEvents (io : Io) (w : Walk) : io.lossEvents ≤ (io.track w).1.lossEvents := by
  unfold Io.track
  split_ifs
  · exact Nat.le_refl _
  · dsimp only
    split <;> first | exact Nat.le_refl _ | exact Nat.le_succ _

theorem Pipeline.push_lossEvents (p : Pipeline) (n : Nat) (msg : List Byte) :
    p.io.lossEvents ≤ (p.push n msg).io.lossEvents := by
  unfold Pipeline.push
  dsimp only
  split_ifs <;> first | exact Nat.le_refl _ | exact Nat.le_succ _

theorem Pipeline.deliver_lossEvents (p : Pipeline) (w : Walk) (seq : Nat) (msg : List Byte)
    (rest : List (Nat × List Byte)) : (p.io.track w).1.lossEvents ≤ (p.deliver w seq msg rest).io.lossEvents := by
  unfold Pipeline.deliver
  dsimp only
  split_ifs
  · refine Nat.le_trans ?_ (Pipeline.push_lossEvents _ _ _)
    exact Nat.le_refl _
  · exact Nat.le_refl _

theorem Pipeline.packetDone_lossEvents (p : Pipeline) (w : Walk) :
    (p.packetDone w).io.lossEvents = (p.io.track w).1.lossEvents := by
  unfold Pipeline.packetDone
  dsimp only
  split_ifs <;> rfl

theorem Inv.writes {more : List Slot} (h : Inv session p) (hopen : p.io.done = false)
    (hw : Writes session p q (p.engine.processed ++ p.ring) more) : Inv session q := by
  refine ⟨?_, by rw [hw.engine]; exact h.engine, fun hd => ?_, fun hd => ?_⟩
  · rw [hw.engine, hw.ring, ← List.append_assoc]
    exact hw.io
  · rw [hw.done, hopen] at hd
    cases hd
  · rw [hw.engine] at hd
    rw [(h.drained hd).2.1] at hopen
    cases hopen

/-- What each event can do. -/
inductive Pipeline.Steps (p : Pipeline) : Event → Pipeline → Prop
  | malformed {pkt : List Byte} {err : DecodeError} : p.io.done = false → p.io.walk = none →
      forEachMessage pkt = .error err → Steps p (.recv pkt) { p with io := { p.io with malformed := p.io.malformed + 1 } }
  | recv {pkt : List Byte} {hdr : Header} {ms : List (Nat × List Byte)} : p.io.done = false → p.io.walk = none →
      forEachMessage pkt = .ok (hdr, ms) →
      Steps p (.recv pkt) { p with io := { p.io with walk := some { hdr := hdr, messages := ms } } }
  | deliver {w : Walk} {seq : Nat} {msg : List Byte} {rest : List (Nat × List Byte)} : p.io.walk = some w →
      w.messages = (seq, msg) :: rest → Steps p .deliver (p.deliver w seq msg rest)
  | packetDone {w : Walk} : p.io.walk = some w → w.messages = [] → Steps p .packetDone (p.packetDone w)
  | ioDone : p.io.done = false → p.io.walk = none →
      Steps p .ioDone { p with io := { p.io with done := true }, finalEpoch := p.io.epoch }
  | pop {s : Slot} {ring : List Slot} : p.ring = s :: ring → p.engine.done = false →
      Steps p .pop { p with ring := ring, engine := p.engine.process s }
  | engineDone : p.engine.done = false → p.io.done = true → p.ring = [] →
      Steps p .engineDone { p with engine := { p.engine.handleLosses p.finalEpoch with done := true } }

theorem Pipeline.step_cases {e : Event} (hstep : p.step e = some q) : p.Steps e q := by
  cases e with
  | recv pkt =>
    simp only [Pipeline.step] at hstep
    split_ifs at hstep with hopen
    simp only [Bool.or_eq_true, Option.isSome_iff_ne_none, not_or, Bool.not_eq_true, not_not] at hopen
    split at hstep
    · cases hstep
      exact .malformed hopen.1.1 hopen.2 ‹_›
    · cases hstep
      exact .recv hopen.1.1 hopen.2 ‹_›
  | deliver =>
    simp only [Pipeline.step] at hstep
    split at hstep
    · split at hstep
      · cases hstep
        exact .deliver ‹_› ‹_›
      · cases hstep
    · cases hstep
  | packetDone =>
    simp only [Pipeline.step] at hstep
    split at hstep
    · split_ifs at hstep with hnil
      cases hstep
      exact .packetDone ‹_› (List.isEmpty_iff.mp hnil)
    · cases hstep
  | ioDone =>
    simp only [Pipeline.step] at hstep
    split_ifs at hstep with hopen
    cases hstep
    simp only [Bool.or_eq_true, Option.isSome_iff_ne_none, not_or, Bool.not_eq_true, not_not] at hopen
    exact .ioDone hopen.1 hopen.2
  | pop =>
    simp only [Pipeline.step] at hstep
    split at hstep
    · split_ifs at hstep with hd
      cases hstep
      exact .pop ‹_› (by simpa using hd)
    · cases hstep
  | engineDone =>
    simp only [Pipeline.step] at hstep
    split_ifs at hstep with hd
    cases hstep
    simp only [Bool.or_eq_true, Bool.not_eq_true', not_or, Bool.not_eq_true, Bool.not_eq_false,
      List.isEmpty_iff] at hd
    exact .engineDone hd.1.1 hd.1.2 hd.2

theorem Pipeline.step_lossEvents {e : Event} (hstep : p.step e = some q) : p.io.lossEvents ≤ q.io.lossEvents := by
  cases Pipeline.step_cases hstep with
  | malformed => exact Nat.le_refl _
  | recv => exact Nat.le_refl _
  | deliver => exact (Io.track_lossEvents _ _).trans (Pipeline.deliver_lossEvents _ _ _ _ _)
  | packetDone =>
    rw [Pipeline.packetDone_lossEvents]
    exact Io.track_lossEvents _ _
  | ioDone => exact Nat.le_refl _
  | pop => exact Nat.le_refl _
  | engineDone => exact Nat.le_refl _

theorem Inv.seen_le (h : Inv session p) (hd : p.engine.done = false) : p.engine.seenEpoch ≤ p.io.epoch := by
  rcases h.engine.last hd with ⟨-, h₀⟩ | ⟨pre, l, now, hcalls, hep⟩
  · omega
  · rw [hep]
    refine h.io.ok.bounded l (List.mem_append_left _ ?_)
    rw [EngineThread.processed, hcalls, List.filterMap_append]
    simp [EngineCall.slot?]

/-- **Step lemma.** While the epoch has not wrapped, a step keeps the invariant. -/
theorem Inv.step {e : Event} (h : Inv session p) (he : OfSession session e) (hstep : p.step e = some q)
    (hl : q.io.lossEvents < 2 ^ 32) : Inv session q := by
  cases Pipeline.step_cases hstep with
  | malformed hopen hnone _ =>
    have hio : IoInv session { p.io with malformed := p.io.malformed + 1 } (p.engine.processed ++ p.ring) :=
      h.io.agree ⟨rfl, rfl, rfl, rfl⟩ hnone (fun w hw => by rw [show p.io.walk = some w from hw] at hnone; cases hnone)
    exact ⟨hio, h.engine, h.closed, h.drained⟩
  | recv hopen hnone hpkt =>
    rename_i pkt hdr ms
    obtain ⟨hses, hfits⟩ := he _ _ _ rfl hpkt
    have hio : IoInv session { p.io with walk := some { hdr := hdr, messages := ms } } (p.engine.processed ++ p.ring) :=
      h.io.agree ⟨rfl, rfl, rfl, rfl⟩ hnone (fun w hw => by cases hw; exact Walk.valid_of_packet hpkt hses hfits)
    refine ⟨hio, h.engine, fun hd => ?_, h.drained⟩
    rw [show p.io.done = true from hd] at hopen
    cases hopen
  | deliver hw hms =>
    have hopen : p.io.done = false := by
      by_contra hd
      rw [(h.closed (by simpa using hd)).1] at hw
      cases hw
    obtain ⟨more, hwr⟩ := Pipeline.deliver_writes h.io hw hms
      ((Pipeline.deliver_lossEvents _ _ _ _ _).trans_lt hl) hl
    exact h.writes hopen hwr
  | packetDone hw hms =>
    have hopen : p.io.done = false := by
      by_contra hd
      rw [(h.closed (by simpa using hd)).1] at hw
      cases hw
    exact h.writes hopen (Pipeline.packetDone_writes h.io hw hms (by rwa [← Pipeline.packetDone_lossEvents]))
  | ioDone hopen hnone =>
    have hio : IoInv session { p.io with done := true } (p.engine.processed ++ p.ring) :=
      h.io.agree ⟨rfl, rfl, rfl, rfl⟩ hnone (fun w hw => by rw [show p.io.walk = some w from hw] at hnone; cases hnone)
    refine ⟨hio, h.engine, fun _ => ⟨hnone, rfl⟩, fun hd => ?_⟩
    rw [(h.drained hd).2.1] at hopen
    cases hopen
  | pop hring hd =>
    rename_i s ring
    have hio := h.io
    rw [hring] at hio
    obtain ⟨hok, hproc⟩ := h.engine.process hd fun l hlast =>
      (List.isChain_append.mp hio.ok.chain).2.2 l hlast s rfl
    refine ⟨?_, hok, h.closed, fun hd' => ?_⟩
    · rw [hproc, List.append_assoc]
      exact hio
    · rw [show p.engine.done = true from hd'] at hd
      cases hd
  | engineDone hd hdone hnil =>
    obtain ⟨hnear, hgaps, hproc⟩ := h.engine.handleLosses p.finalEpoch
    refine ⟨?_, ⟨hnear, hgaps, fun h => by cases h⟩, h.closed, fun _ => ⟨hnil, hdone, ?_⟩⟩
    · have hio := h.io
      rw [← hproc] at hio
      exact hio
    · show max p.engine.seenEpoch p.finalEpoch = p.io.lossEvents
      have hle := h.seen_le hd
      rw [(h.closed hdone).2, ← h.io.ok.epoch]
      omega

theorem inv_new (session : List Byte) (capacity : Nat) : Inv session (Pipeline.new capacity) := by
  have hok : IoOk (Pipeline.new capacity).io [] := ⟨rfl, .nil, by simp, by simp⟩
  have hplace : Place session (Pipeline.new capacity).io [] 0 := by
    refine .fresh 0 rfl rfl ?_
    intro w hw
    cases hw
  refine ⟨⟨hok, 0, hplace, ?_⟩, ⟨.nil, rfl, fun _ => .inl ⟨rfl, rfl⟩⟩, ?_, ?_⟩
  · intro l hl
    cases hl
  · intro h
    cases h
  · intro h
    cases h

theorem Pipeline.run_lossEvents {events : List Event} (hrun : Runs.run Pipeline.step p events = some q) :
    p.io.lossEvents ≤ q.io.lossEvents :=
  run_invariant (P := fun r => p.io.lossEvents ≤ r.io.lossEvents)
    (fun _ _ _ h hstep => h.trans (Pipeline.step_lossEvents hstep)) hrun (Nat.le_refl _)

/-- **Run lemma.** The invariant holds after every run that has not come to `2 ^ 32` losses. -/
theorem Inv.run {events : List Event} (hrun : Runs.run Pipeline.step p events = some q)
    (he : ∀ e ∈ events, OfSession session e) (h : Inv session p) (hl : q.io.lossEvents < 2 ^ 32) : Inv session q := by
  induction events generalizing p with
  | nil =>
    obtain rfl : p = q := by simpa using hrun
    exact h
  | cons e events ih =>
    obtain ⟨p', hstep, hrest⟩ := run_cons_some hrun
    have hl' : p'.io.lossEvents < 2 ^ 32 := (Pipeline.run_lossEvents hrest).trans_lt hl
    refine ih hrest (fun e' he' => he e' (List.mem_cons_of_mem _ he')) ?_
    exact h.step (he e List.mem_cons_self) hstep hl'

theorem Inv.processed_sorted (h : Inv session p) : p.engine.processed.Pairwise fun a b => a.seq < b.seq := by
  have hseq : p.engine.processed.IsChain fun a b => a.seq < b.seq :=
    (List.isChain_append.mp h.io.ok.chain).1.imp fun a b hab => hab.seq
  have htrans : IsTrans Slot fun a b => a.seq < b.seq := ⟨fun a b c => Nat.lt_trans⟩
  exact List.isChain_iff_pairwise.mp hseq

theorem EngineOk.signalled {pre mid post : List EngineCall} {a b : Slot} {now now' : Nat} (h : EngineOk t)
    (hcalls : t.calls = pre ++ .onItch a now :: (mid ++ .onItch b now' :: post)) (hmid : ∀ c ∈ mid, c.slot? = none) :
    b.seq = a.seq + 1 ∨ ∃ at', .onFeedGap at' ∈ mid := by
  cases mid with
  | nil =>
    have hnear := h.near
    rw [hcalls, List.nil_append, List.isChain_append_cons_cons] at hnear
    exact .inl (hnear.2.1 a b rfl rfl)
  | cons c mid =>
    refine .inr ?_
    cases c with
    | onFeedGap at' => exact ⟨at', List.mem_cons_self⟩
    | onItch s at' => cases hmid _ List.mem_cons_self

/-- **No unsignalled loss.** Whatever datagrams of one session arrive and however the two threads interleave,
no message is processed twice or out of order, a message that does not come right after the one before it is
preceded by a call of `on_feed_gap`, and in the end there has been one such call for each loss event. -/
theorem no_unsignalled_loss (session : List Byte) (capacity : Nat) (events : List Event) (q : Pipeline)
    (hrun : Runs.run Pipeline.step (Pipeline.new capacity) events = some q)
    (hsession : ∀ e ∈ events, OfSession session e) (hlosses : q.io.lossEvents < 2 ^ 32) :
    (q.engine.processed.Pairwise fun a b => a.seq < b.seq) ∧
    (∀ pre mid post a b now now', q.engine.calls = pre ++ .onItch a now :: (mid ++ .onItch b now' :: post) →
      (∀ c ∈ mid, c.slot? = none) → b.seq = a.seq + 1 ∨ ∃ at', .onFeedGap at' ∈ mid) ∧
    (q.engine.done = true → q.engine.feedGaps = q.io.lossEvents) := by
  have h := Inv.run hrun hsession (inv_new session capacity) hlosses
  refine ⟨h.processed_sorted, ?_, fun hd => ?_⟩
  · intro pre mid post a b now now' hcalls hmid
    exact h.engine.signalled hcalls hmid
  · rw [h.engine.gaps]
    exact (h.drained hd).2.2

/-- Messages 1 and 3 of a session arrive. -/
def oneGap : List Event :=
  [.recv (List.replicate 17 0 ++ [1, 0, 1, 0, 1, 83]), .deliver, .packetDone,
    .recv (List.replicate 17 0 ++ [3, 0, 1, 0, 1, 83]), .deliver, .packetDone, .ioDone, .pop, .pop, .engineDone]

set_option maxRecDepth 2048 in
theorem no_unsignalled_loss_one_gap :
    ∃ q, Runs.run Pipeline.step (Pipeline.new 4) oneGap = some q ∧ q.engine.processed.map Slot.seq = [1, 3] ∧
      q.io.lossEvents = 1 ∧ q.engine.feedGaps = 1 := by
  refine ⟨_, rfl, rfl, rfl, ?_⟩
  refine (no_unsignalled_loss (List.replicate 10 0) 4 oneGap _ rfl ?_ (by decide)).2.2 rfl
  intro e he pkt hdr ms hrecv hpkt
  subst hrecv
  simp only [oneGap, List.mem_cons, reduceCtorEq, Event.recv.injEq, false_or, List.not_mem_nil, or_false] at he
  have h₁ : forEachMessage (List.replicate 17 0 ++ [1, 0, 1, 0, 1, 83]) =
      .ok (⟨List.replicate 10 0, 1, 1⟩, [(1, [83])]) := rfl
  have h₃ : forEachMessage (List.replicate 17 0 ++ [3, 0, 1, 0, 1, 83]) =
      .ok (⟨List.replicate 10 0, 3, 1⟩, [(3, [83])]) := rfl
  rcases he with rfl | rfl
  · rw [h₁] at hpkt
    obtain ⟨rfl, rfl⟩ := Prod.mk.inj (Except.ok.inj hpkt)
    exact ⟨rfl, by decide⟩
  · rw [h₃] at hpkt
    obtain ⟨rfl, rfl⟩ := Prod.mk.inj (Except.ok.inj hpkt)
    exact ⟨rfl, by decide⟩

end OptiTrade.Net
