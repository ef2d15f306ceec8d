import OptiTrade.Core.Digest
import OptiTrade.Foundations.PrefixCode
import OptiTrade.Oms.Wire
import OptiTrade.Replay.Settlement
import OptiTrade.Risk.Operations

/-! # What a backtest reports

The digest takes in every message the gateway is handed, with its time and the answer, and every report the engine is
handed. The bytes it takes in tell this log, and the counters of the report are counts of it. -/

namespace OptiTrade
set_option autoImplicit false

open Runs
open Oms (Session Written)
open Ouch (Inbound)
open Sim (ExchangeSim)

def Ouch.kMaxMessageLength : Nat := Ouch.kReplacedLength

namespace Replay

/-! ## The digest of a backtest -/

def kTagOrder : Nat := 1
def kTagReport : Nat := 2

/-- What is on the wire: the message encoded into an array that holds the longest one. -/
def wire (m : Inbound) : List Byte :=
  let (out, n) := Ouch.encodeInbound m (List.replicate Ouch.kMaxMessageLength 0)
  out.take n

/-- What the digest takes in. -/
inductive Logged
  | order (m : Inbound) (now : Nat) (accepted : Bool)
  | report (bytes : List Byte) (deliver : Nat)
  deriving DecidableEq

/-- Everything that looks on. -/
structure Recorder where
  digest : Digest := {}
  /-- The executed shares, in 64 bits. -/
  shares : Nat := 0
  messages : Nat := 0
  /-- History: what the digest took in. -/
  log : List Logged := []

/-- The shares of an outbound message that is an execution. -/
def executedShares (bytes : List Byte) : Nat :=
  match Ouch.decodeOutbound bytes with
  | .ok (.executed x) => x.shares
  | _ => 0

/-- An entry of the log goes into the digest. -/
def Recorder.note (r : Recorder) : Logged → Recorder
  | .order m now accepted =>
    let d := (r.digest.updateWord (.ofNat kTagOrder)).updateWord (.ofNat now)
    let d := (d.updateWord (if accepted then 1 else 0)).updateWord (.ofNat (wire m).length)
    { r with digest := d.update (wire m), log := r.log ++ [.order m now accepted] }
  | .report bytes deliver =>
    let d := (r.digest.updateWord (.ofNat kTagReport)).updateWord (.ofNat deliver)
    { r with
      digest := (d.updateWord (.ofNat bytes.length)).update bytes
      shares := (r.shares + executedShares bytes) % 2 ^ 64
      log := r.log ++ [.report bytes deliver] }

/-- What the gateway logs of the messages it forwards. -/
def forwarded (s : ExchangeSim) : List (Inbound × Nat) → List Logged
  | [] => []
  | x :: xs => .order x.1 x.2 (s.send x.1 x.2).2 :: forwarded (s.send x.1 x.2).1 xs

namespace Backtest

/-- A report is handed over next. -/
def hands (b : Backtest) : Bool :=
  match b.draining with
  | some (now, false) => b.exchange.due now
  | _ => false

/-- What a step adds to the log. -/
def logs (b : Backtest) : Input → List Logged
  | .move m => forwarded b.exchange (offers b.engine (m.act b.clock b.gateway))
  | .go => if b.hands then [.report b.exchange.reports.front.bytes b.exchange.reports.front.deliver] else []
  | _ => []

/-- What a step adds to the count of messages. -/
def played (b : Backtest) : Input → Nat
  | .go =>
    match b.stage with
    | .playing => 1
    | _ => 0
  | _ => 0

def observe (b : Backtest) (r : Recorder) (i : Input) : Recorder :=
  let r := (b.logs i).foldl Recorder.note r
  { r with messages := r.messages + b.played i }

end Backtest

/-- What a backtest reports. -/
structure BacktestReport where
  messages : Nat
  bookUpdates : Nat
  ordersSent : Nat
  ordersRejectedRisk : Nat
  fills : Nat
  volume : Nat
  realizedPnl : Int
  unrealizedPnl : Int
  totalPnl : Int
  maxDrawdown : Int
  digest : UInt64
  droppedReports : Nat
  capacityRejects : Nat
  bookErrors : Nat
  itchSkipped : Nat
  deriving DecidableEq

def Backtest.report (b : Backtest) (r : Recorder) : BacktestReport :=
  let st := b.engine.stats
  let risk := b.engine.session.manager.risk
  { messages := r.messages
    bookUpdates := st.bookUpdates
    ordersSent := st.ordersSent
    ordersRejectedRisk := st.riskRejects
    fills := st.fills
    volume := r.shares
    realizedPnl := risk.realizedPnl
    unrealizedPnl := risk.unrealizedPnl
    totalPnl := risk.totalPnl
    maxDrawdown := risk.maxDrawdownShown
    digest := r.digest.value
    droppedReports := b.exchange.droppedReports
    capacityRejects := st.capacityRejects
    bookErrors := st.bookErrors
    itchSkipped := st.itchSkipped }

/-! ## The bytes of the log -/

namespace Logged

/-- The bytes an entry adds to the digest. -/
def bytes : Logged → List Byte
  | .order m now accepted =>
    Le.store 8 kTagOrder ++ (Le.store 8 now ++ (Le.store 8 (if accepted then 1 else 0) ++ (Le.store 8 (wire m).length ++ wire m)))
  | .report bs deliver => Le.store 8 kTagReport ++ (Le.store 8 deliver ++ (Le.store 8 bs.length ++ bs))

/-- What a backtest logs: messages that fit the format, at times that fit a word. -/
def Plain : Logged → Prop
  | .order m now _ => Written m ∧ now ≤ u64Max
  | .report bs deliver => bs.length ≤ Ouch.kMaxMessageLength ∧ deliver ≤ u64Max

/-- A new order that was accepted. -/
def isSent : Logged → Bool
  | .order (.enter _) _ accepted => accepted
  | _ => false

def isReport : Logged → Bool
  | .report .. => true
  | _ => false

def shares : Logged → Nat
  | .report bs _ => executedShares bs
  | _ => 0

end Logged

theorem wireLength_le (m : Inbound) : m.wireLength ≤ Ouch.kMaxMessageLength := by
  cases m with
  | enter m => exact (by decide : Ouch.kEnterOrderLength ≤ Ouch.kMaxMessageLength)
  | replace m => exact (by decide : Ouch.kReplaceOrderLength ≤ Ouch.kMaxMessageLength)
  | cancel m => exact (by decide : Ouch.kCancelOrderLength ≤ Ouch.kMaxMessageLength)

theorem flag_lt (accepted : Bool) : (if accepted then 1 else 0) < 256 ^ 8 := by
  cases accepted <;> decide

theorem wire_written {m : Inbound} (h : Written m) : wire m = Be.bytes m.fields := by
  have hlen : (Be.bytes m.fields).length = m.wireLength := by rw [Be.length_bytes, m.span_fields]
  unfold wire Ouch.encodeInbound
  rw [Be.emit_written (by rw [List.length_replicate]; exact wireLength_le m) ((Ouch.fitsWirePrice_iff _).mpr h.2.2) m.tiles_fields
    m.span_fields]
  dsimp only
  rw [← hlen, List.take_left]

theorem decode_wire {m : Inbound} (h : Written m) : Ouch.decodeInbound (wire m) = .ok m := by
  rw [wire_written h]
  exact Ouch.decodeInbound_fields h.1 h.2.1 h.2.2

theorem length_wire {m : Inbound} (h : Written m) : (wire m).length ≤ Ouch.kMaxMessageLength := by
  rw [wire_written h, Be.length_bytes, m.span_fields]
  exact wireLength_le m

theorem word_lt {n : Nat} (h : n ≤ u64Max) : n < 256 ^ 8 := by
  unfold u64Max at h
  omega

theorem length_lt {n : Nat} (h : n ≤ Ouch.kMaxMessageLength) : n < 256 ^ 8 := by
  unfold Ouch.kMaxMessageLength Ouch.kReplacedLength at h
  omega

/-- **The bytes of a log tell its entries.** -/
theorem logged_prefixFree : PrefixCode.PrefixFree Logged.Plain Logged.bytes where
  nonempty x _ := by
    cases x with
    | order m now accepted => exact List.append_ne_nil_of_left_ne_nil (by decide) _
    | report bs deliver => exact List.append_ne_nil_of_left_ne_nil (by decide) _
  split x y xs ys hx hy h := by
    cases x with
    | order m now accepted =>
      cases y with
      | order m' now' accepted' =>
        simp only [Logged.bytes, List.append_assoc] at h
        have htail := (PrefixCode.store_split (by decide) (by decide) h).2
        obtain ⟨hnow, htail⟩ := PrefixCode.store_split (word_lt hx.2) (word_lt hy.2) htail
        obtain ⟨hacc, htail⟩ := PrefixCode.store_split (flag_lt _) (flag_lt _) htail
        obtain ⟨hwire, -⟩ := PrefixCode.counted_split (length_lt (length_wire hx.1)) (length_lt (length_wire hy.1)) htail
        have hm := (decode_wire hx.1).symm.trans ((congrArg Ouch.decodeInbound hwire).trans (decode_wire hy.1))
        have hsame : accepted = accepted' := by
          cases accepted <;> cases accepted' <;> first | rfl | cases hacc
        rw [hnow, Except.ok.inj hm, hsame]
      | report bs' deliver' =>
        simp only [Logged.bytes, List.append_assoc] at h
        exact absurd (PrefixCode.store_split (by decide) (by decide) h).1 (by decide)
    | report bs deliver =>
      cases y with
      | order m' now' accepted' =>
        simp only [Logged.bytes, List.append_assoc] at h
        exact absurd (PrefixCode.store_split (by decide) (by decide) h).1 (by decide)
      | report bs' deliver' =>
        simp only [Logged.bytes, List.append_assoc] at h
        have htail := (PrefixCode.store_split (by decide) (by decide) h).2
        obtain ⟨hat, htail⟩ := PrefixCode.store_split (word_lt hx.2) (word_lt hy.2) htail
        obtain ⟨hbs, -⟩ := PrefixCode.counted_split (length_lt hx.1) (length_lt hy.1) htail
        rw [hat, hbs]

/-! ## What the gateway is offered -/

end Replay

namespace Oms.OrderManager
variable (m : OrderManager)

theorem submit_sent (req : OrderRequest) (now : Nat) (symbol : Nat → Symbol) (reference : Nat → Int) (g g' : Inbound → Bool) :
    (m.submit req now symbol reference g).sent = (m.submit req now symbol reference g').sent := by
  unfold submit
  dsimp only
  split_ifs <;> rfl

theorem cancelEntry_sent (i now : Nat) (g g' : Inbound → Bool) : (m.cancelEntry i now g).sent = (m.cancelEntry i now g').sent := by
  unfold cancelEntry
  dsimp only
  split_ifs <;> rfl

theorem replace_sent (id : Nat) (price : Int) (qty now : Nat) (reference : Nat → Int) (g g' : Inbound → Bool) :
    (m.replace id price qty now reference g).sent = (m.replace id price qty now reference g').sent := by
  unfold replace
  cases m.slotOf id with
  | none => rfl
  | some i =>
    dsimp only
    split_ifs <;> rfl

theorem submit_status (req : OrderRequest) (now : Nat) (symbol : Nat → Symbol) (reference : Nat → Int) (g : Inbound → Bool) :
    (m.submit req now symbol reference g).sent = none ∧ (m.submit req now symbol reference g).result.status ≠ .ok ∨
    ∃ x, (m.submit req now symbol reference g).sent = some (.enter x) ∧
      ((m.submit req now symbol reference g).result.status = .ok ↔ g (.enter x) = true) := by
  unfold submit
  dsimp only
  split_ifs with h₁ h₂ h₃ h₄ h₅ h₆
  · exact .inl ⟨rfl, fun hc => by cases hc⟩
  · exact .inl ⟨rfl, fun hc => by cases hc⟩
  · exact .inl ⟨rfl, fun hc => by cases hc⟩
  · exact .inl ⟨rfl, fun hc => by cases hc⟩
  · exact .inl ⟨rfl, fun hc => by cases hc⟩
  · exact .inr ⟨_, rfl, (fun hc => by cases hc), fun hg => by rw [hg] at h₆; cases h₆⟩
  · exact .inr ⟨_, rfl, fun _ => by simpa using h₆, fun _ => rfl⟩

theorem cancelEntry_offers {i now : Nat} {g : Inbound → Bool} {x : Inbound} (h : (m.cancelEntry i now g).sent = some x) :
    ∃ c, x = .cancel c := by
  unfold cancelEntry at h
  dsimp only at h
  split_ifs at h <;> exact ⟨_, (Option.some.inj h).symm⟩

theorem cancel_offers {id now : Nat} {g : Inbound → Bool} {x : Inbound} (h : (m.cancel id now g).sent = some x) :
    ∃ c, x = .cancel c := by
  unfold cancel at h
  cases hs : m.slotOf id with
  | none =>
    rw [hs] at h
    cases h
  | some i =>
    rw [hs] at h
    exact m.cancelEntry_offers h

theorem replace_offers {id : Nat} {price : Int} {qty now : Nat} {reference : Nat → Int} {g : Inbound → Bool} {x : Inbound}
    (h : (m.replace id price qty now reference g).sent = some x) : ∃ c, x = .replace c := by
  unfold replace at h
  cases hs : m.slotOf id with
  | none =>
    rw [hs] at h
    cases h
  | some i =>
    rw [hs] at h
    dsimp only at h
    split_ifs at h <;> exact ⟨_, (Option.some.inj h).symm⟩

end Oms.OrderManager

namespace Replay
variable {e e' : Engine} {fx : List Engine.Shown}

theorem mem_pair {o : Option Inbound} {n : Nat} {x : Inbound × Nat} (h : x ∈ (o.map fun m => (m, n)).toList) : o = some x.1 := by
  obtain ⟨q, hq, rfl⟩ := Option.map_eq_some_iff.mp (Option.mem_toList.mp h)
  exact hq

theorem mem_open {o : Option Inbound} {x : Inbound} (h : o = some x) : x ∈ (o.filter fun _ => true).toList := by
  subst h
  exact List.mem_singleton.mpr rfl

/-- **What the gateway is offered fits the wire**, whether it takes it or not. -/
theorem offers_written (h : e.Ok) (m : Move) (t : Nat) (g : Inbound → Bool) : ∀ x ∈ offers e (m.act t g), Written x.1 := by
  intro x hx
  let w := e.world fun _ => true
  cases m with
  | submit req =>
    simp only [Move.act, offers] at hx
    split_ifs at hx
    · refine Oms.sends_written h.session.inv (c := .submit req t w) trivial x.1 (mem_open ?_)
      exact (e.session.manager.submit_sent req t _ _ _ g).trans (mem_pair hx)
    · cases hx
  | cancel id =>
    have hs := mem_pair hx
    unfold Oms.OrderManager.cancel at hs
    cases hslot : e.session.manager.slotOf id with
    | none =>
      rw [hslot] at hs
      cases hs
    | some i =>
      rw [hslot] at hs
      refine Oms.sends_written h.session.inv (c := .cancelEntry i t w) ((h.session.inv.ids.find id i).mp hslot).1 x.1 (mem_open ?_)
      exact (e.session.manager.cancelEntry_sent i t _ g).trans hs
  | replace id price qty =>
    simp only [Move.act, offers] at hx
    split_ifs at hx
    · refine Oms.sends_written h.session.inv (c := .replace id price qty t w) trivial x.1 (mem_open ?_)
      exact (e.session.manager.replace_sent id price qty t _ _ g).trans (mem_pair hx)
    · cases hx
  | advance =>
    simp only [Move.act, offers] at hx
    split at hx
    · rename_i i last k now rest hst
      split_ifs at hx with hskip
      · cases hx
      · have ho : e.session.operation (.advance w) = some (.cancelEntry i now w) := by
          simp only [Session.operation, hst]
          rw [if_neg hskip]
        refine Oms.sends_written h.session.inv (h.session.fits ho) x.1 (mem_open ?_)
        exact (e.session.manager.cancelEntry_sent i now _ g).trans (mem_pair hx)
    · cases hx
  | ret => cases hx
  | finish => cases hx

theorem forwarded_one (s : ExchangeSim) (o : Option Inbound) (n : Nat) :
    forwarded s ((o.map fun m => (m, n)).toList) = (o.map fun m => .order m n (s.send m n).2).toList := by
  cases o <;> rfl

theorem mem_forwarded {s : ExchangeSim} {xs : List (Inbound × Nat)} {y : Logged} (h : y ∈ forwarded s xs) :
    ∃ x ∈ xs, ∃ accepted, y = .order x.1 x.2 accepted := by
  induction xs generalizing s with
  | nil => cases h
  | cons x xs ih =>
    rcases List.mem_cons.mp h with rfl | h
    · exact ⟨x, List.mem_cons_self, _, rfl⟩
    · obtain ⟨x', hx', accepted, rfl⟩ := ih h
      exact ⟨x', List.mem_cons_of_mem _ hx', accepted, rfl⟩

end Replay

/-! ## The counters of the engine -/

namespace Engine
variable {e e' : Engine} {a : Act} {fx : List Shown}

/-- The counters of new orders and of reports. -/
def Stats.orders (s : Stats) : Nat × Nat × Nat × Nat := (s.ordersSent, s.ouchReports, s.ouchErrors, s.fills)

@[simp] theorem countRefusal_orders (s : Stats) (r : Oms.SubmitStatus) : (countRefusal s r).orders = s.orders := by
  unfold countRefusal
  split_ifs <;> rfl

@[simp] theorem countRisk_orders (s : Stats) (r : Oms.SubmitStatus) : (countRisk s r).orders = s.orders := by
  unfold countRisk
  split_ifs <;> rfl

theorem bookChanged_orders (e : Engine) (loc now : Nat) : (e.bookChanged loc now).1.stats.orders = e.stats.orders := by
  unfold bookChanged markRisk
  dsimp only
  split_ifs <;> rfl

theorem apply_orders (e : Engine) (m : Itch.Message) (now : Nat) : (e.apply m now).1.stats.orders = e.stats.orders := by
  unfold apply
  dsimp only
  split
  · split_ifs
    · exact bookChanged_orders _ _ _
    · rfl
    · rfl
  · split_ifs
    · rfl
    · rfl

/-- Only a submit and a report move them. -/
theorem step_orders (hsub : ∀ req now g, a ≠ .submit req now g) (hrep : ∀ r now, a ≠ .ouch r now) (hs : e.step a = some (e', fx)) :
    e'.stats.orders = e.stats.orders := by
  cases a with
  | ouch r now => exact absurd rfl (hrep r now)
  | submit req now g => exact absurd rfl (hsub req now g)
  | itch m now =>
    simp only [step, Option.ite_none_right_eq_some, Option.some.injEq] at hs
    rw [show e' = _ from (congrArg Prod.fst hs.2).symm]
    cases m with
    | none => rfl
    | some m => exact apply_orders { e with phase := .handling now false } m now
  | feedGap now =>
    simp only [step, Option.ite_none_right_eq_some, Option.some.injEq] at hs
    rw [show e' = _ from (congrArg Prod.fst hs.2).symm]
    rfl
  | resumeTrading =>
    simp only [step, Option.ite_none_right_eq_some, Option.some.injEq] at hs
    rw [show e' = _ from (congrArg Prod.fst hs.2).symm]
  | cancel id now gateway =>
    simp only [step, Option.ite_none_right_eq_some, Option.some.injEq] at hs
    rw [show e' = _ from (congrArg Prod.fst hs.2).symm]
    exact countRefusal_orders _ _
  | replace id price qty now gateway =>
    simp only [step, Option.ite_none_right_eq_some, Option.some.injEq] at hs
    rw [show e' = _ from (congrArg Prod.fst hs.2).symm]
    unfold replace called
    dsimp only
    split_ifs
    · exact (countRefusal_orders _ _).trans (countRisk_orders _ _)
    · rfl
  | advance gateway =>
    obtain ⟨s, gx, -, rfl, -⟩ := inSession_some hs
    rfl
  | ret =>
    simp only [step] at hs
    split at hs
    · rw [show e' = _ from (congrArg Prod.fst (Option.some.inj hs)).symm]
    · obtain ⟨s, gx, -, rfl, -⟩ := inSession_some hs
      rfl
  | finish =>
    simp only [step] at hs
    split at hs
    · rw [show e' = _ from (congrArg Prod.fst (Option.some.inj hs)).symm]
      unfold retryGapCancels
      split_ifs <;> rfl
    · rw [show e' = _ from (congrArg Prod.fst (Option.some.inj hs)).symm]
    · cases hs

/-- A submit counts an order when the gateway took it. -/
theorem submit_orders {req : Oms.OrderRequest} {now : Nat} {g : Inbound → Bool} (hs : e.step (.submit req now g) = some (e', fx)) :
    e'.stats.orders = ((Replay.offers e (.submit req now g)).countP (fun x => g x.1) + e.stats.ordersSent,
      e.stats.ouchReports, e.stats.ouchErrors, e.stats.fills) := by
  simp only [step, Option.ite_none_right_eq_some, Option.some.injEq] at hs
  rw [show e' = _ from (congrArg Prod.fst hs.2).symm]
  unfold submit called Replay.offers
  dsimp only
  by_cases ht : e.trading
  · rw [if_pos ht, if_pos ht]
    refine (countRefusal_orders _ _).trans ((countRisk_orders _ _).trans ?_)
    rcases e.session.manager.submit_status req now (e.world g).symbol (e.world g).reference (e.world g).gateway with
      ⟨hsent, hno⟩ | ⟨x, hsent, hiff⟩
    · rw [hsent, if_neg hno, Option.map_none, Option.toList_none, List.countP_nil, Nat.zero_add]
      rfl
    · rw [hsent, Option.map_some, Option.toList_some, List.countP_singleton]
      by_cases hg : g (.enter x) = true
      · rw [if_pos (hiff.mpr hg), if_pos hg, Nat.add_comm]
        rfl
      · rw [if_neg fun hok => hg (hiff.mp hok), if_neg hg, Nat.zero_add]
        rfl
  · rw [if_neg ht, if_neg ht, List.countP_nil, Nat.zero_add]
    rfl

end Engine

namespace Replay
namespace Logged

theorem countP_forwarded {s : ExchangeSim} {o : Option Inbound} {n : Nat} (h : ∀ x, o = some x → ∃ m, x = .enter m) :
    (forwarded s ((o.map fun m => (m, n)).toList)).countP isSent = ((o.map fun m => (m, n)).toList).countP fun x => (s.send x.1 n).2 := by
  rw [forwarded_one]
  cases o with
  | none => rfl
  | some x =>
    obtain ⟨m, rfl⟩ := h x rfl
    rfl

theorem countP_unsent {s : ExchangeSim} {xs : List (Inbound × Nat)} (h : ∀ x ∈ xs, ∀ m, x.1 ≠ .enter m) :
    (forwarded s xs).countP isSent = 0 := by
  refine List.countP_eq_zero.mpr fun y hy => ?_
  obtain ⟨x, hx, accepted, rfl⟩ := mem_forwarded hy
  cases hm : x.1 with
  | enter m => exact absurd hm (h x hx m)
  | replace m => exact fun hc => by cases hc
  | cancel m => exact fun hc => by cases hc

theorem countP_orders {s : ExchangeSim} (xs : List (Inbound × Nat)) : (forwarded s xs).countP isReport = 0 := by
  refine List.countP_eq_zero.mpr fun y hy => ?_
  obtain ⟨x, -, accepted, rfl⟩ := mem_forwarded hy
  exact fun hc => by cases hc

end Logged

/-- **A step inside a call counts what it logs.** -/
theorem move_counts {e e' : Engine} {fx : List Engine.Shown} (s : ExchangeSim) (m : Move) (t : Nat) {g : Inbound → Bool}
    (hg : g = fun x => (s.send x t).2) (hs : e.step (m.act t g) = some (e', fx)) :
    e'.stats.orders = ((forwarded s (offers e (m.act t g))).countP Logged.isSent + e.stats.ordersSent, e.stats.ouchReports,
      e.stats.ouchErrors, e.stats.fills) := by
  have hsame : (∀ req now g', m.act t g ≠ .submit req now g') → (∀ r now, m.act t g ≠ .ouch r now) →
      (∀ x ∈ offers e (m.act t g), ∀ q, x.1 ≠ .enter q) →
      e'.stats.orders = ((forwarded s (offers e (m.act t g))).countP Logged.isSent + e.stats.ordersSent, e.stats.ouchReports,
        e.stats.ouchErrors, e.stats.fills) := by
    intro h₁ h₂ h₃
    rw [Logged.countP_unsent h₃, Nat.zero_add]
    exact Engine.step_orders h₁ h₂ hs
  cases m with
  | submit req =>
    have h := Engine.submit_orders hs
    rw [h]
    congr 2
    simp only [Move.act, offers]
    split_ifs with ht
    · rw [Logged.countP_forwarded, hg]
      intro x hx
      rcases e.session.manager.submit_status req t (e.world g).symbol (e.world g).reference (e.world g).gateway with
        ⟨hsent, -⟩ | ⟨y, hsent, -⟩
      · rw [hsent] at hx
        cases hx
      · rw [hsent] at hx
        exact ⟨y, (Option.some.inj hx).symm⟩
    · rfl
  | cancel id =>
    refine hsame (fun _ _ _ hc => by cases hc) (fun _ _ hc => by cases hc) fun x hx q heq => ?_
    obtain ⟨c, hc⟩ := e.session.manager.cancel_offers (mem_pair hx)
    rw [hc] at heq
    cases heq
  | replace id price qty =>
    refine hsame (fun _ _ _ hc => by cases hc) (fun _ _ hc => by cases hc) fun x hx q heq => ?_
    simp only [Move.act, offers] at hx
    split_ifs at hx
    · obtain ⟨c, hc⟩ := e.session.manager.replace_offers (mem_pair hx)
      rw [hc] at heq
      cases heq
    · cases hx
  | advance =>
    refine hsame (fun _ _ _ hc => by cases hc) (fun _ _ hc => by cases hc) fun x hx q heq => ?_
    simp only [Move.act, offers] at hx
    split at hx
    · split_ifs at hx
      · cases hx
      · obtain ⟨c, hc⟩ := e.session.manager.cancelEntry_offers (mem_pair hx)
        rw [hc] at heq
        cases heq
    · cases hx
  | ret => exact hsame (fun _ _ _ hc => by cases hc) (fun _ _ hc => by cases hc) fun x hx => by cases hx
  | finish => exact hsame (fun _ _ _ hc => by cases hc) (fun _ _ hc => by cases hc) fun x hx => by cases hx

/-! ## The recorder -/

namespace Recorder
variable {r : Recorder}

/-- What the recorder shows is what its log says. -/
structure Faithful (r : Recorder) : Prop where
  digest : r.digest = Digest.update {} (r.log.flatMap Logged.bytes)
  shares : r.shares = (r.log.map Logged.shares).sum % 2 ^ 64
  plain : ∀ x ∈ r.log, x.Plain

@[simp] theorem note_log (r : Recorder) (x : Logged) : (r.note x).log = r.log ++ [x] := by
  cases x <;> rfl

@[simp] theorem note_messages (r : Recorder) (x : Logged) : (r.note x).messages = r.messages := by
  cases x <;> rfl

theorem note_digest (r : Recorder) {x : Logged} (h : x.Plain) : (r.note x).digest = r.digest.update x.bytes := by
  have hword : ∀ (d : Digest) {n : Nat}, n < 256 ^ 8 → d.updateWord (.ofNat n) = d.update (Le.store 8 n) := by
    intro d n hn
    rw [Digest.updateWord_eq, UInt64.toNat_ofNat', Nat.mod_eq_of_lt (lt_of_lt_of_eq hn (by norm_num))]
  have hflag : ∀ (d : Digest) (accepted : Bool),
      d.updateWord (if accepted then 1 else 0) = d.update (Le.store 8 (if accepted then 1 else 0)) := by
    intro d accepted
    cases accepted
    · exact hword d (n := 0) (by decide)
    · exact hword d (n := 1) (by decide)
  cases x with
  | order m now accepted =>
    simp only [note, Logged.bytes, Digest.update_append]
    rw [hword (n := kTagOrder) _ (by decide), hword _ (word_lt h.2), hflag, hword _ (length_lt (length_wire h.1))]
  | report bs deliver =>
    simp only [note, Logged.bytes, Digest.update_append]
    rw [hword (n := kTagReport) _ (by decide), hword _ (word_lt h.2), hword _ (length_lt h.1)]

theorem note_shares (r : Recorder) (x : Logged) (hr : r.shares < 2 ^ 64) : (r.note x).shares = (r.shares + x.shares) % 2 ^ 64 := by
  cases x with
  | order m now accepted => exact (Nat.mod_eq_of_lt hr).symm
  | report bs deliver => rfl

theorem Faithful.note (h : Faithful r) {x : Logged} (hx : x.Plain) : Faithful (r.note x) where
  digest := by
    rw [note_digest r hx, note_log, List.flatMap_append, Digest.update_append, List.flatMap_singleton, h.digest]
  shares := by
    have hlt : r.shares < 2 ^ 64 := by
      rw [h.shares]
      exact Nat.mod_lt _ (Nat.two_pow_pos 64)
    rw [note_shares r x hlt, note_log, List.map_append, List.sum_append, List.map_singleton, List.sum_singleton, h.shares,
      Nat.mod_add_mod]
  plain := by
    rw [note_log]
    intro y hy
    rcases List.mem_append.mp hy with hy | hy
    · exact h.plain y hy
    · rw [List.mem_singleton.mp hy]
      exact hx

/-- **The log grows by what a step logs.** -/
theorem notes (r : Recorder) (xs : List Logged) :
    (xs.foldl note r).log = r.log ++ xs ∧ (xs.foldl note r).messages = r.messages := by
  induction xs generalizing r with
  | nil => exact ⟨(List.append_nil _).symm, rfl⟩
  | cons x xs ih =>
    obtain ⟨h₁, h₂⟩ := ih (r.note x)
    refine ⟨h₁.trans ?_, h₂.trans (note_messages r x)⟩
    rw [note_log, List.append_assoc]
    rfl

theorem Faithful.notes (h : Faithful r) {xs : List Logged} (hx : ∀ x ∈ xs, x.Plain) : Faithful (xs.foldl Recorder.note r) := by
  induction xs generalizing r with
  | nil => exact h
  | cons x xs ih => exact ih (h.note (hx x List.mem_cons_self)) fun y hy => hx y (List.mem_cons_of_mem _ hy)

end Recorder

def Input.isRecord : Input → Bool
  | .record _ => true
  | _ => false

namespace Backtest
variable {b b' : Backtest} {r : Recorder} {i : Input} {n : Nat}

/-! ## Times -/

/-- The times of a run fit a word. -/
structure Clocked (b : Backtest) : Prop where
  timed : b.engine.Timed b.clock
  clock : b.clock ≤ u64Max
  now : b.now ≤ u64Max

theorem Clocked.new (config : BacktestConfig) : Clocked (new config) :=
  ⟨⟨fun _ _ h => (by cases h), fun _ _ _ _ h => (by cases h)⟩, Nat.zero_le _, Nat.zero_le _⟩

theorem Clocked.hand (h : Clocked b) (hok : b.engine.Ok) (hd : b.exchange.Dated) (hc : b.exchange.reports.count ≠ 0)
    (hs : b.hand = some b') : Clocked b' := by
  obtain ⟨⟨e, fx⟩, hstep, rfl⟩ := Option.map_eq_some_iff.mp hs
  refine ⟨hok.timed (.inr ⟨_, rfl⟩) hstep, hd.reports _ ?_, h.now⟩
  rw [hd.rings.toList_reports hc]
  exact List.mem_cons_self

theorem Clocked.step (h : Clocked b) (hset : Settled (fun _ => True) b) (hi : Stamped i) (hs : b.step i = some b') : Clocked b' := by
  have hflush : ∀ round, Clocked (b.flush round) := by
    intro round
    unfold Backtest.flush
    split_ifs
    · exact ⟨h.timed, h.clock, h.now⟩
    · exact ⟨h.timed, h.clock, h.now⟩
  cases i with
  | record rec =>
    simp only [Backtest.step] at hs
    split at hs
    · cases hs
      exact ⟨h.timed, h.clock, max_le h.now hi⟩
    · cases hs
  | eof =>
    simp only [Backtest.step] at hs
    split at hs
    · cases hs
      exact hflush 0
    · cases hs
  | move m =>
    obtain ⟨⟨e, fx⟩, hstep, rfl⟩ := Option.map_eq_some_iff.mp (show b.move m = some b' from hs)
    have ha : (m.act b.clock b.gateway).inner = true ∨ m.act b.clock b.gateway = .finish := by
      cases m with
      | finish => exact .inr rfl
      | submit req => exact .inl rfl
      | cancel id => exact .inl rfl
      | replace id price qty => exact .inl rfl
      | advance => exact .inl rfl
      | ret => exact .inl rfl
    exact ⟨h.timed.inside hset.engine ha hstep, h.clock, h.now⟩
  | go =>
    cases go_cases hs with
    | handed _ _ hs =>
      unfold Backtest.handed at hs
      split_ifs at hs
      cases hs
      exact ⟨h.timed, h.clock, h.now⟩
    | hand _ _ hdue hs => exact h.hand hset.engine hset.exchange (ExchangeSim.due_count hdue).1 hs
    | play _ _ _ hs =>
      obtain ⟨⟨e, fx⟩, hstep, rfl⟩ := Option.map_eq_some_iff.mp hs
      exact ⟨hset.engine.timed (.inl ⟨_, rfl⟩) hstep, h.now, h.now⟩
    | read _ _ => exact ⟨h.timed, h.clock, h.now⟩
    | @empty round delivered _ _ _ hdue hs =>
      have hnext : Clocked { b with stage := .flushing round (delivered + 1) } := ⟨h.timed, h.clock, h.now⟩
      exact hnext.hand hset.engine hset.exchange (ExchangeSim.due_count hdue).1 hs
    | stop _ _ _ => exact ⟨h.timed, h.clock, h.now⟩
    | again _ _ _ _ => exact hflush _

/-! ## What a step logs -/

/-- What is logged fits the words of the digest. -/
theorem logs_plain (h : Clocked b) (hset : Settled (fun _ => True) b) (i : Input) : ∀ x ∈ b.logs i, x.Plain := by
  intro x hx
  cases i with
  | record rec => cases hx
  | eof => cases hx
  | move m =>
    obtain ⟨y, hy, accepted, rfl⟩ := mem_forwarded hx
    refine ⟨offers_written hset.engine m b.clock b.gateway y hy, ?_⟩
    rw [offers_time h.timed m b.gateway y hy]
    exact h.clock
  | go =>
    unfold logs at hx
    split_ifs at hx with hh
    · rw [List.mem_singleton.mp hx]
      have hc : b.exchange.reports.count ≠ 0 := by
        unfold hands at hh
        split at hh
        · exact (ExchangeSim.due_count hh).1
        · cases hh
      refine ⟨?_, hset.exchange.reports _ ?_⟩
      · show (b.exchange.reports.front.bytes).length ≤ _
        unfold Sim.Report.bytes Ouch.encode
        split_ifs
        · rw [Option.getD_some, Ouch.length_write]
          split <;> decide
        · exact Nat.zero_le _
      · rw [hset.exchange.rings.toList_reports hc]
        exact List.mem_cons_self
    · cases hx

/-- A record has been read that is not counted yet. -/
def pending (b : Backtest) : Nat :=
  match b.stage with
  | .delivering _ | .playing => 1
  | _ => 0

/-- The counters are counts of the log and of the records. -/
structure Counted (n : Nat) (b : Backtest) (r : Recorder) : Prop where
  messages : r.messages + b.pending = n
  sent : b.engine.stats.ordersSent = r.log.countP Logged.isSent
  reports : b.engine.stats.ouchReports + b.engine.stats.ouchErrors = r.log.countP Logged.isReport

theorem hand_orders {x : Backtest} (hs : x.hand = some b') :
    b'.engine.stats.ordersSent = x.engine.stats.ordersSent ∧
      b'.engine.stats.ouchReports + b'.engine.stats.ouchErrors = x.engine.stats.ouchReports + x.engine.stats.ouchErrors + 1 ∧
      b'.stage = x.stage := by
  obtain ⟨⟨e, fx⟩, hstep, rfl⟩ := Option.map_eq_some_iff.mp hs
  simp only [Engine.step, Option.ite_none_right_eq_some, Option.some.injEq] at hstep
  have he : e = _ := (congrArg Prod.fst hstep.2).symm
  refine ⟨?_, ?_, rfl⟩
  · rw [he]
    unfold Engine.onOuch
    cases (Ouch.decodeOutbound x.exchange.reports.front.bytes).toOption <;> rfl
  · rw [he]
    unfold Engine.onOuch
    cases (Ouch.decodeOutbound x.exchange.reports.front.bytes).toOption with
    | none => rfl
    | some ρ => exact Nat.add_right_comm _ 1 _

/-- What a step shows to those who look on. -/
inductive Shows (b : Backtest) : Input → Backtest → Prop
  | quiet {i : Input} {b' : Backtest} : b.logs i = [] → b'.engine.stats.orders = b.engine.stats.orders → Shows b i b'
  | moved {m : Move} {b' : Backtest} : b.move m = some b' → Shows b (.move m) b'
  /-- The first report is handed over. -/
  | report {st : Stage} {b' : Backtest} {now : Nat} :
      b.logs .go = [.report b.exchange.reports.front.bytes b.exchange.reports.front.deliver] → b.draining = some (now, false) →
      b.exchange.due now = true → ({ b with stage := st } : Backtest).hand = some b' → Shows b .go b'

theorem flush_engine (b : Backtest) (round : Nat) : (b.flush round).engine = b.engine := by
  unfold Backtest.flush
  split_ifs <;> rfl

theorem logs_draining {now : Nat} (hd : b.draining = some (now, false)) :
    b.logs .go = if b.exchange.due now then [.report b.exchange.reports.front.bytes b.exchange.reports.front.deliver] else [] := by
  unfold logs hands
  rw [hd]

theorem logs_nothing (hd : ∀ now, b.draining ≠ some (now, false)) : b.logs .go = [] := by
  refine if_neg fun hh => ?_
  unfold hands at hh
  split at hh
  · rename_i now hdrain
    exact hd now hdrain
  · cases hh

theorem logs_handing (hh : b.handing = true) : b.logs .go = [] := by
  refine logs_nothing fun now hd => ?_
  unfold draining at hd
  split at hd
  · rw [hh] at hd
    cases hd
  · rw [hh] at hd
    cases hd
  · cases hd
  · cases hd
  · cases hd

theorem logs_playing (hst : b.stage = .playing) : b.logs .go = [] := by
  refine logs_nothing fun now hd => ?_
  unfold draining at hd
  rw [hst] at hd
  cases hd

theorem step_shows (hs : b.step i = some b') : Shows b i b' := by
  cases i with
  | record rec =>
    simp only [Backtest.step] at hs
    split at hs
    · cases hs
      exact .quiet rfl rfl
    · cases hs
  | eof =>
    simp only [Backtest.step] at hs
    split at hs
    · cases hs
      exact .quiet rfl (by rw [flush_engine])
    · cases hs
  | move m => exact .moved hs
  | go =>
    have hnone : ∀ {now : Nat}, b.draining = some (now, false) → b.exchange.due now = false → b.logs .go = [] := by
      intro now hd hdue
      rw [logs_draining hd, hdue]
      rfl
    cases go_cases hs with
    | handed _ hh hs =>
      unfold Backtest.handed at hs
      split_ifs at hs
      cases hs
      exact .quiet (logs_handing hh) rfl
    | @hand payload _ hst hh hdue hs =>
      have hd := draining_delivering hst hh
      have hsame : b = { b with stage := .delivering payload } := by rw [← hst]
      exact .report ((logs_draining hd).trans (if_pos hdue)) hd hdue (hsame ▸ hs)
    | play hst hh hdue hs =>
      obtain ⟨⟨e, fx⟩, hstep, rfl⟩ := Option.map_eq_some_iff.mp hs
      exact .quiet (hnone (draining_delivering hst hh) hdue)
        (Engine.step_orders (fun _ _ _ h => by cases h) (fun _ _ h => by cases h) hstep)
    | read hst _ => exact .quiet (logs_playing hst) rfl
    | empty hst hh hdue hs =>
      have hd := draining_flushing hst hh
      exact .report ((logs_draining hd).trans (if_pos hdue)) hd hdue hs
    | stop hst hh hdue => exact .quiet (hnone (draining_flushing hst hh) hdue) rfl
    | again hst hh hdue _ => exact .quiet (hnone (draining_flushing hst hh) hdue) (by rw [flush_engine])

/-- A record is pending from when it is read until it has been played. -/
theorem step_pending (hs : b.step i = some b') : b.played i + b'.pending = b.pending + if i.isRecord then 1 else 0 := by
  have hflush : ∀ round, (b.flush round).pending = 0 := by
    intro round
    unfold Backtest.flush
    split_ifs <;> rfl
  have hpend : ∀ {st : Stage}, b.stage = st → b.pending = ({ b with stage := st } : Backtest).pending := by
    rintro st rfl
    rfl
  have hplayed : ∀ {st : Stage}, b.stage = st → b.played .go = ({ b with stage := st } : Backtest).played .go := by
    rintro st rfl
    rfl
  cases i with
  | record rec =>
    simp only [Backtest.step] at hs
    split at hs
    · rename_i hst
      cases hs
      rw [hpend hst]
      rfl
    · cases hs
  | eof =>
    simp only [Backtest.step] at hs
    split at hs
    · rename_i hst
      cases hs
      rw [hpend hst, hflush]
      rfl
    · cases hs
  | move m =>
    obtain ⟨⟨e, fx⟩, hstep, rfl⟩ := Option.map_eq_some_iff.mp (show b.move m = some b' from hs)
    exact Nat.zero_add _
  | go =>
    cases go_cases hs with
    | handed hdel _ hs =>
      unfold Backtest.handed at hs
      split_ifs at hs
      cases hs
      have hzero : b.played .go = 0 := by
        unfold Stage.delivers at hdel
        unfold played
        split at hdel
        · rename_i hst
          rw [hst]
        · rename_i hst
          rw [hst]
        · cases hdel
        · cases hdel
        · cases hdel
      rw [hzero]
      exact Nat.zero_add _
    | hand hst _ _ hs =>
      rw [hplayed hst, show b'.pending = b.pending by unfold pending; rw [(hand_orders hs).2.2]]
      exact Nat.zero_add _
    | play hst _ _ hs =>
      obtain ⟨⟨e, fx⟩, hstep, rfl⟩ := Option.map_eq_some_iff.mp hs
      rw [hplayed hst, hpend hst]
      rfl
    | read hst _ =>
      rw [hplayed hst, hpend hst]
      rfl
    | empty hst _ _ hs =>
      rw [hplayed hst, hpend hst, show b'.pending = 0 by unfold pending; rw [(hand_orders hs).2.2]]
      rfl
    | stop hst _ _ =>
      rw [hplayed hst, hpend hst]
      rfl
    | again hst _ _ _ =>
      rw [hplayed hst, hpend hst, hflush]
      rfl

theorem observe_log (b : Backtest) (r : Recorder) (i : Input) : (b.observe r i).log = r.log ++ b.logs i :=
  (Recorder.notes r (b.logs i)).1

/-- **Step lemma.** -/
theorem Counted.step (h : Counted n b r) (hs : b.step i = some b') :
    Counted (n + if i.isRecord then 1 else 0) b' (b.observe r i) := by
  have hmes : (b.observe r i).messages = r.messages + b.played i :=
    congrArg (· + b.played i) (Recorder.notes r (b.logs i)).2
  have hpend := step_pending hs
  have hstats : b'.engine.stats.ordersSent = b.engine.stats.ordersSent + (b.logs i).countP Logged.isSent ∧
      b'.engine.stats.ouchReports + b'.engine.stats.ouchErrors =
        b.engine.stats.ouchReports + b.engine.stats.ouchErrors + (b.logs i).countP Logged.isReport := by
    cases step_shows hs with
    | quiet hlog ho =>
      simp only [Engine.Stats.orders, Prod.mk.injEq] at ho
      rw [hlog, ho.1, ho.2.1, ho.2.2.1]
      exact ⟨rfl, rfl⟩
    | @moved m _ hs =>
      obtain ⟨⟨e, fx⟩, hstep, rfl⟩ := Option.map_eq_some_iff.mp hs
      have ho := move_counts b.exchange m b.clock rfl hstep
      simp only [Engine.Stats.orders, Prod.mk.injEq] at ho
      refine ⟨ho.1.trans (Nat.add_comm _ _), ?_⟩
      rw [show e.stats.ouchReports = _ from ho.2.1, show e.stats.ouchErrors = _ from ho.2.2.1]
      exact (congrArg (_ + ·) (Logged.countP_orders _)).symm
    | report hlog _ _ hs =>
      obtain ⟨h₁, h₂, -⟩ := hand_orders hs
      rw [hlog]
      exact ⟨h₁, h₂⟩
  refine ⟨?_, ?_, ?_⟩
  · have := h.messages
    omega
  · rw [observe_log, List.countP_append, hstats.1, h.sent]
  · rw [observe_log, List.countP_append, hstats.2, h.reports]

/-! ## Runs -/

/-- **Run lemma.** -/
theorem observed {config : BacktestConfig} {is : List Input}
    (hlat : config.sim.orderLatencyNs ≤ u64Max ∧ config.sim.reportLatencyNs ≤ u64Max) (hts : ∀ i ∈ is, Stamped i)
    (hr : run (beside step observe) (new config, {}) is = some (b, r)) :
    r.Faithful ∧ Counted (is.countP Input.isRecord) b r := by
  have h : Settled (fun _ => True) b ∧ Clocked b ∧ r.Faithful ∧ Counted (is.countP Input.isRecord) b r := by
    refine run_history (H := fun past (p : Backtest × Recorder) => Settled (fun _ => True) p.1 ∧ Clocked p.1 ∧ p.2.Faithful ∧
      Counted (past.countP Input.isRecord) p.1 p.2) (Q := Stamped) (fun past p i p' hp hi hs => ?_) hr hts
      ⟨.new hlat.1 hlat.2, .new config, ⟨rfl, rfl, fun _ hx => by cases hx⟩, rfl, rfl, rfl⟩
    obtain ⟨hset, hclock, hfaith, hcount⟩ := hp
    obtain ⟨hstep, hobs⟩ := beside_some hs
    have hmeets : Settled.Meets (fun _ => True) i := by
      cases i with
      | record rec => trivial
      | eof => trivial
      | move m => trivial
      | go => trivial
    obtain ⟨hset', -⟩ := hset.step (o := fun _ => none) hmeets hstep
    refine ⟨hset', hclock.step hset hi hstep, ?_, ?_⟩
    · obtain ⟨h₁, h₂, h₃⟩ := hfaith.notes (logs_plain hclock hset i)
      rw [hobs]
      exact ⟨h₁, h₂, h₃⟩
    · rw [hobs, List.countP_append, List.countP_singleton]
      exact hcount.step hstep
  exact h.2.2

/-- **The report tells the log.** In every state of every backtest on time-stamped records: the digest is that of the bytes of
the log, `orders_sent` is the number of new orders the gateway took, `volume` is the sum of the shares of the executions
among the reports that were delivered, as long as it fits, each of these reports was counted as decoded or not, and each
record is counted once it has been played. -/
theorem report_tells_the_log (config : BacktestConfig) (is : List Input) (b : Backtest) (r : Recorder)
    (hlat : config.sim.orderLatencyNs ≤ u64Max ∧ config.sim.reportLatencyNs ≤ u64Max) (hts : ∀ i ∈ is, Stamped i)
    (hr : run (beside step observe) (new config, {}) is = some (b, r)) :
    let report := b.report r
    report.digest = (Digest.update {} (r.log.flatMap Logged.bytes)).value ∧
      report.ordersSent = r.log.countP Logged.isSent ∧
      report.volume = (r.log.map Logged.shares).sum % 2 ^ 64 ∧
      b.engine.stats.ouchReports + b.engine.stats.ouchErrors = r.log.countP Logged.isReport ∧
      report.messages + b.pending = is.countP Input.isRecord := by
  obtain ⟨hfaith, hcount⟩ := observed hlat hts hr
  exact ⟨congrArg Digest.value hfaith.digest, hcount.sent, hfaith.shares, hcount.reports, hcount.messages⟩

theorem restingOrder_stamped : ∀ i ∈ restingOrder, Stamped i := by
  intro i hi
  cases i with
  | record rec =>
    simp only [restingOrder, List.mem_cons, Input.record.injEq, List.not_mem_nil, reduceCtorEq, or_false, false_or] at hi
    rcases hi with rfl | rfl
    · exact Nat.zero_le _
    · exact (by decide : 5 ≤ u64Max)
  | eof => trivial
  | move m => trivial
  | go => trivial

theorem report_tells_the_log_resting_order :
    ∃ b r, run (beside step observe) (new smallBacktest, {}) restingOrder = some (b, r) ∧ (b.report r).ordersSent = 1 ∧
      (b.report r).messages = 2 ∧ b.engine.stats.ouchReports + b.engine.stats.ouchErrors = 1 := by
  have hview : (run (beside step observe) (new smallBacktest, {}) restingOrder).map (fun p =>
      (p.1.pending, p.2.log.countP Logged.isSent, p.2.log.countP Logged.isReport)) = some (0, 1, 1) := by
    decide +kernel
  obtain ⟨⟨b, r⟩, hr, hv⟩ := Option.map_eq_some_iff.mp hview
  simp only [Prod.mk.injEq] at hv
  obtain ⟨hpend, hsent, hrep⟩ := hv
  obtain ⟨-, h₁, -, h₂, h₃⟩ := report_tells_the_log smallBacktest restingOrder b r ⟨by decide, by decide⟩ restingOrder_stamped hr
  rw [hpend] at h₃
  exact ⟨b, r, hr, h₁.trans hsent, h₃, h₂.trans hrep⟩

/-- **The digest tells logs apart.** Of any two backtests, whatever their sources, strategies and sizes, the bytes of the logs are
the same only when the logs are; and when the bytes differ in one place at most, the digests are the same only when the logs
are. -/
theorem digest_tells_logs_apart (config config' : BacktestConfig) (is is' : List Input) (b b' : Backtest) (r r' : Recorder)
    (hlat : config.sim.orderLatencyNs ≤ u64Max ∧ config.sim.reportLatencyNs ≤ u64Max) (hts : ∀ i ∈ is, Stamped i)
    (hlat' : config'.sim.orderLatencyNs ≤ u64Max ∧ config'.sim.reportLatencyNs ≤ u64Max) (hts' : ∀ i ∈ is', Stamped i)
    (hr : run (beside step observe) (new config, {}) is = some (b, r))
    (hr' : run (beside step observe) (new config', {}) is' = some (b', r')) :
    (r.log.flatMap Logged.bytes = r'.log.flatMap Logged.bytes ↔ r.log = r'.log) ∧
    ∀ xs ys c c', r.log.flatMap Logged.bytes = xs ++ c :: ys → r'.log.flatMap Logged.bytes = xs ++ c' :: ys →
      ((b.report r).digest = (b'.report r').digest ↔ r.log = r'.log) := by
  obtain ⟨hfaith, -⟩ := observed hlat hts hr
  obtain ⟨hfaith', -⟩ := observed hlat' hts' hr'
  have hbytes : r.log.flatMap Logged.bytes = r'.log.flatMap Logged.bytes ↔ r.log = r'.log :=
    ⟨logged_prefixFree.flatMap_injective hfaith.plain hfaith'.plain, fun h => by rw [h]⟩
  refine ⟨hbytes, fun xs ys c c' h h' => ?_⟩
  have hdig : (b.report r).digest = (Digest.update {} (r.log.flatMap Logged.bytes)).value := congrArg Digest.value hfaith.digest
  have hdig' : (b'.report r').digest = (Digest.update {} (r'.log.flatMap Logged.bytes)).value := congrArg Digest.value hfaith'.digest
  rw [hdig, hdig', h, h', Digest.value_one_byte, ← hbytes, h, h']
  exact ⟨fun heq => by rw [heq], fun heq => (List.cons.inj (List.append_cancel_left heq)).1⟩

/-- An order of so many shares is on its way. -/
def oneOrder (qty : Nat) : List Input :=
  restingOrder.take 6 ++ [.move (.submit { locate := 1, price := 10, qty := qty })]

theorem oneOrder_stamped (qty : Nat) : ∀ i ∈ oneOrder qty, Stamped i := by
  intro i hi
  rcases List.mem_append.mp hi with hi | hi
  · exact restingOrder_stamped i (List.mem_of_mem_take hi)
  · rw [List.mem_singleton.mp hi]
    trivial

theorem split_at {l : List Byte} {k : Nat} {c : Byte} (h : l[k]? = some c) : l = l.take k ++ c :: l.drop (k + 1) := by
  obtain ⟨hk, rfl⟩ := List.getElem?_eq_some_iff.mp h
  rw [← List.drop_eq_getElem_cons hk, List.take_append_drop]

/-- The fields in front of the shares are fifty-one bytes. -/
theorem digest_tells_logs_apart_one_share_more :
    ∃ b r b' r', run (beside step observe) (new smallBacktest, {}) (oneOrder 100) = some (b, r) ∧
      run (beside step observe) (new smallBacktest, {}) (oneOrder 101) = some (b', r') ∧
      (b.report r).digest ≠ (b'.report r').digest := by
  have hview : (run (beside step observe) (new smallBacktest, {}) (oneOrder 100)).map (fun p =>
      (p.2.log.flatMap Logged.bytes)[51]?) = some (some 100) := by
    decide +kernel
  have hview' : (run (beside step observe) (new smallBacktest, {}) (oneOrder 101)).map (fun p =>
      (p.2.log.flatMap Logged.bytes)[51]?) = some (some 101) := by
    decide +kernel
  have hrest : (run (beside step observe) (new smallBacktest, {}) (oneOrder 100)).map (fun p =>
        ((p.2.log.flatMap Logged.bytes).take 51, (p.2.log.flatMap Logged.bytes).drop 52)) =
      (run (beside step observe) (new smallBacktest, {}) (oneOrder 101)).map (fun p =>
        ((p.2.log.flatMap Logged.bytes).take 51, (p.2.log.flatMap Logged.bytes).drop 52)) := by
    decide +kernel
  obtain ⟨⟨b, r⟩, hr, hb⟩ := Option.map_eq_some_iff.mp hview
  obtain ⟨⟨b', r'⟩, hr', hb'⟩ := Option.map_eq_some_iff.mp hview'
  rw [hr, hr'] at hrest
  obtain ⟨htake, hdrop⟩ := Prod.mk.inj (Option.some.inj hrest)
  have hs := split_at hb
  have hs' := split_at hb'
  rw [← htake, ← hdrop] at hs'
  obtain ⟨hsame, hone⟩ := digest_tells_logs_apart smallBacktest smallBacktest (oneOrder 100) (oneOrder 101) b b' r r'
    ⟨by decide, by decide⟩ (oneOrder_stamped 100) ⟨by decide, by decide⟩ (oneOrder_stamped 101) hr hr'
  refine ⟨b, r, b', r', hr, hr', fun hdig => ?_⟩
  have hbytes := hsame.mpr ((hone _ _ _ _ hs hs').mp hdig)
  rw [hs, hs'] at hbytes
  exact absurd (List.cons.inj (List.append_cancel_left hbytes)).1 (by decide)

end Backtest

end Replay
end OptiTrade
