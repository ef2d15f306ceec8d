import OptiTrade.Foundations.Drawdown
import OptiTrade.Risk.Caches

/-! # Drawdown and the loss switch

Both are kept from sample to sample; here they are compared with what the whole list of samples says. -/

namespace OptiTrade.Risk
set_option autoImplicit false

open Finset
open Drawdown (Falls)

namespace RiskEngine

/-- Realized and unrealized PnL over all instruments, summed up from the slots. -/
def exactTotal (r : RiskEngine) : Int := ∑ l ∈ range r.locates, ((r.slots l).pos.realized + unrealizedOf (r.slots l))

/-- The totals after the calls that are sampled. -/
def samplesOf (r : RiskEngine) : List Op → List Int
  | [] => []
  | op :: ops => if r.samples op then (r.apply op).exactTotal :: (r.apply op).samplesOf ops else (r.apply op).samplesOf ops

theorem samplesOf_snoc (r : RiskEngine) (ops : List Op) (op : Op) : r.samplesOf (ops ++ [op]) =
    r.samplesOf ops ++ if (r.after ops).samples op then [((r.after ops).apply op).exactTotal] else [] := by
  induction ops generalizing r with
  | nil =>
    show (if _ then _ else _ : List Int) = [] ++ _
    rw [List.nil_append]
    rfl
  | cons o ops ih =>
    rw [List.cons_append]
    show (if _ then _ else _ : List Int) = (if _ then _ else _ : List Int) ++ _
    rw [ih]
    by_cases hs : r.samples o
    · rw [if_pos hs, if_pos hs, List.cons_append]
      rfl
    · rw [if_neg hs, if_neg hs]
      rfl

theorem Exact.total {r : RiskEngine} (h : r.Exact) : r.realizedTotal + r.unrealizedTotal = r.exactTotal := by
  rw [h.realizedTotal, h.unrealizedTotal]
  exact sum_add_distrib.symm

/-- The peak and the drawdown are those of the samples. -/
structure Follows (r : RiskEngine) (samples : List Int) : Prop where
  peak : IsGreatest {a | a ∈ samples} r.peakPnl
  fall : IsGreatest (Falls samples) r.maxDrawdown

theorem Follows.same {r r' : RiskEngine} {samples : List Int} (h : r.Follows samples) (hp : r'.peakPnl = r.peakPnl)
    (hd : r'.maxDrawdown = r.maxDrawdown) : r'.Follows samples := by
  refine ⟨?_, ?_⟩
  · rw [hp]
    exact h.peak
  · rw [hd]
    exact h.fall

theorem Follows.settle {r : RiskEngine} {samples : List Int} (h : r.Follows samples) :
    r.settle.Follows (samples ++ [r.realizedTotal + r.unrealizedTotal]) :=
  ⟨Drawdown.peak_snoc h.peak, Drawdown.fall_snoc h.peak h.fall⟩

theorem rateRecord_controls (r : RiskEngine) (now : Nat) : (r.rateRecord now).limits = r.limits ∧
    (r.rateRecord now).peakPnl = r.peakPnl ∧ (r.rateRecord now).maxDrawdown = r.maxDrawdown ∧
    (r.rateRecord now).killSwitch = r.killSwitch := by
  unfold rateRecord
  by_cases hz : r.rateSize = 0
  · rw [if_pos hz]
    exact ⟨rfl, rfl, rfl, rfl⟩
  · rw [if_neg hz]
    exact ⟨rfl, rfl, rfl, rfl⟩

theorem admits_samples {r : RiskEngine} {op : Op} {now : Nat} (h : r.admits op = some now) :
    r.samples op = false ∧ ∀ on, op ≠ .setKillSwitch on := by
  cases op with
  | check l side price qty reference now => exact ⟨rfl, by simp⟩
  | admitOrder now => exact ⟨rfl, by simp⟩
  | _ => exact absurd h (by simp [admits])

theorem Follows.apply {r : RiskEngine} {samples : List Int} {op : Op} (h : r.Follows samples) (hx : (r.apply op).Exact) :
    (r.apply op).Follows (samples ++ if r.samples op then [(r.apply op).exactTotal] else []) := by
  have he := r.effect op
  generalize r.apply op = r' at he hx
  cases he with
  | quiet _ r' _ hs _ hc =>
    rw [hs, if_neg (by simp), List.append_nil]
    exact h.same hc.peakPnl hc.maxDrawdown
  | recorded _ now ha =>
    rw [(admits_samples ha).1, if_neg (by simp), List.append_nil]
    exact h.same (rateRecord_controls r now).2.1 (rateRecord_controls r now).2.2.1
  | sampled _ r₀ hs hc =>
    rw [hs, if_pos rfl, ← hx.total]
    exact (h.same hc.peakPnl hc.maxDrawdown).settle
  | switched on =>
    show (r.setKillSwitch on).Follows (samples ++ if false = true then _ else [])
    rw [if_neg (by simp), List.append_nil]
    exact h.same rfl rfl

/-! ## The switch -/

/-- The call turns the switch on. -/
def trips (r : RiskEngine) (op : Op) : Prop :=
  op = .setKillSwitch true ∨
    (r.samples op = true ∧ 0 < r.limits.maxLoss ∧ (r.apply op).exactTotal ≤ -r.limits.maxLoss)

theorem killSwitch_apply {r : RiskEngine} {op : Op} (hx : (r.apply op).Exact) :
    ((r.apply op).killSwitch = true ↔ r.trips op ∨ (r.killSwitch = true ∧ op ≠ .setKillSwitch false)) ∧
      (r.apply op).limits = r.limits := by
  have he := r.effect op
  unfold trips
  generalize r.apply op = r' at he hx
  cases he with
  | quiet _ r' _ hs hn hc =>
    rw [hc.killSwitch, hs]
    simp [hn true, hn false, hc.limits]
  | recorded _ now ha =>
    obtain ⟨hs, hn⟩ := admits_samples ha
    obtain ⟨hl, _, _, hk⟩ := rateRecord_controls r now
    rw [hk, hs]
    simp [hn true, hn false, hl]
  | sampled _ r₀ hs hc =>
    have hn : ∀ on, op ≠ .setKillSwitch on := by
      rintro on rfl
      exact absurd hs (by simp [samples])
    have hk : r₀.settle.killSwitch = (r.killSwitch || decide (0 < r.limits.maxLoss ∧
        r₀.settle.exactTotal ≤ -r.limits.maxLoss)) := by
      rw [← hx.total, ← hc.killSwitch, ← hc.limits]
      rfl
    rw [hk, hs]
    simp only [hn, ne_eq, not_false_eq_true, and_true, false_or, true_and, Bool.or_eq_true, decide_eq_true_eq]
    exact ⟨or_comm, hc.limits⟩
  | switched on =>
    cases on <;> simp [setKillSwitch, samples]

/-- The last call that decided about the switch turned it on. -/
def Tripped (r : RiskEngine) (ops : List Op) : Prop :=
  ∃ before op rest, ops = before ++ op :: rest ∧ (r.after before).trips op ∧ .setKillSwitch false ∉ rest

theorem tripped_snoc (r : RiskEngine) (ops : List Op) (op : Op) :
    r.Tripped (ops ++ [op]) ↔ (r.after ops).trips op ∨ (r.Tripped ops ∧ op ≠ .setKillSwitch false) := by
  constructor
  · rintro ⟨before, o, rest, he, ht, hn⟩
    rcases List.eq_nil_or_concat rest with rfl | ⟨rest, last, rfl⟩
    · obtain ⟨rfl, hop⟩ := List.append_inj' he rfl
      obtain rfl : op = o := List.singleton_injective hop
      exact .inl ht
    · rw [List.concat_eq_append] at he hn
      rw [← List.cons_append, ← List.append_assoc] at he
      obtain ⟨rfl, hop⟩ := List.append_inj' he rfl
      obtain rfl : op = last := List.singleton_injective hop
      rw [List.mem_append, not_or, List.mem_singleton] at hn
      exact .inr ⟨⟨before, o, rest, rfl, ht, hn.1⟩, Ne.symm hn.2⟩
  · rintro (ht | ⟨⟨before, o, rest, rfl, ht, hn⟩, hop⟩)
    · exact ⟨ops, op, [], rfl, ht, List.not_mem_nil⟩
    · refine ⟨before, o, rest ++ [op], by simp, ht, ?_⟩
      rw [List.mem_append, not_or, List.mem_singleton]
      exact ⟨hn, Ne.symm hop⟩

/-- A verdict while the switch is on. -/
theorem assess_killSwitch {r : RiskEngine} (h : r.killSwitch = true) (l : Nat) (side : Side) (price : Int) (qty add : Nat)
    (replacing : Bool) (reference : Int) (now : Nat) :
    r.assess l side price qty add replacing reference now = .killSwitch ↔ (replacing = false ∨ add ≠ 0) := by
  have hadds : (!replacing || add != 0) = true ↔ (replacing = false ∨ add ≠ 0) := by simp
  unfold assess
  dsimp only
  rw [h, Bool.true_and]
  by_cases ha : (!replacing || add != 0) = true
  · rw [if_pos ha]
    exact ⟨fun _ => hadds.mp ha, fun _ => rfl⟩
  · rw [if_neg ha]
    refine ⟨fun hv => ?_, fun hc => absurd (hadds.mpr hc) ha⟩
    -- none of the other verdicts is this one
    obtain ⟨_, hv⟩ := of_ite_eq (by decide) hv
    obtain ⟨_, hv⟩ := of_ite_eq (by decide) hv
    obtain ⟨_, hv⟩ := of_ite_eq (by decide) hv
    obtain ⟨_, hv⟩ := of_ite_eq (by decide) hv
    obtain ⟨_, hv⟩ := of_ite_eq (by decide) hv
    obtain ⟨_, hv⟩ := of_ite_eq (by decide) hv
    obtain ⟨_, hv⟩ := of_ite_eq (by decide) hv
    obtain ⟨_, hv⟩ := of_ite_eq (by decide) hv
    obtain ⟨_, hv⟩ := of_ite_eq (by decide) hv
    cases hv

/-- The run, call by call. -/
theorem after_follows (limits : Limits) (maxLocates : Nat) (ops : List Op) (hops : ∀ op ∈ ops, op.Typed) :
    let start := new limits maxLocates
    (start.after ops).Exact ∧ (start.after ops).limits = limits ∧
      (start.after ops).Follows (0 :: start.samplesOf ops) ∧ ((start.after ops).killSwitch = true ↔ start.Tripped ops) := by
  intro start
  induction ops using List.reverseRecOn with
  | nil =>
    refine ⟨.new limits maxLocates, rfl, ⟨?_, ?_⟩, ?_⟩
    · exact ⟨List.mem_singleton_self _, fun a ha => (List.mem_singleton.mp ha).le⟩
    · refine ⟨⟨0, 0, 0, 0, le_refl _, rfl, rfl, rfl⟩, ?_⟩
      rintro d ⟨i, j, a, b, _, hi, hj, rfl⟩
      have ha := List.mem_singleton.mp (List.mem_of_getElem? hi)
      have hb := List.mem_singleton.mp (List.mem_of_getElem? hj)
      rw [ha, hb]
      exact le_refl _
    · refine ⟨fun h => absurd h (by simp [start, after, new]), ?_⟩
      rintro ⟨before, op, rest, he, _⟩
      exact absurd he (by simp)
  | append_singleton ops op ih =>
    obtain ⟨hx, hl, hf, hk⟩ := ih fun o ho => hops o (List.mem_append_left _ ho)
    have hx' := hx.apply (hops op (List.mem_append_right _ (List.mem_singleton_self op)))
    obtain ⟨hk', hl'⟩ := killSwitch_apply hx'
    rw [after_snoc, samplesOf_snoc, tripped_snoc, ← hk, ← List.cons_append]
    exact ⟨hx', hl'.trans hl, hf.apply hx', hk'⟩

/-- **Drawdown and loss switch are what the samples say.** -/
theorem drawdown_and_switch_offline (limits : Limits) (maxLocates : Nat) (ops : List Op) (hops : ∀ op ∈ ops, op.Typed) :
    let start := new limits maxLocates
    let r := start.after ops
    (∃ d, IsGreatest (Falls (0 :: start.samplesOf ops)) d ∧ r.maxDrawdownShown = clamp64 d) ∧
    (r.killSwitch = true ↔ ∃ before op rest, ops = before ++ op :: rest ∧ .setKillSwitch false ∉ rest ∧
      (op = .setKillSwitch true ∨ ((start.after before).samples op = true ∧ 0 < limits.maxLoss ∧
        (start.after (before ++ [op])).exactTotal ≤ -limits.maxLoss))) ∧
    (r.killSwitch = true → ∀ l side price qty reference now,
      r.evaluateAny l side price qty reference now = .killSwitch ∧
      ∀ growth, r.evaluateReplaceAny l side price qty growth reference now = .killSwitch ↔ growth ≠ 0) := by
  intro start r
  obtain ⟨_, _, hf, hk⟩ := after_follows limits maxLocates ops hops
  refine ⟨⟨r.maxDrawdown, hf.fall, rfl⟩, ?_, ?_⟩
  · refine hk.trans ⟨?_, ?_⟩
    · rintro ⟨before, op, rest, rfl, ht, hn⟩
      have hl := (after_follows limits maxLocates before fun o ho => hops o (List.mem_append_left _ ho)).2.1
      unfold trips at ht
      rw [← after_snoc, hl] at ht
      exact ⟨before, op, rest, rfl, hn, ht⟩
    · rintro ⟨before, op, rest, rfl, hn, ht⟩
      have hl := (after_follows limits maxLocates before fun o ho => hops o (List.mem_append_left _ ho)).2.1
      refine ⟨before, op, rest, rfl, ?_, hn⟩
      unfold trips
      rw [← after_snoc, hl]
      exact ht
  · intro hon l side price qty reference now
    cases side with
    | none =>
      refine ⟨if_pos hon, fun growth => ?_⟩
      show (if _ then _ else _ : Reject) = .killSwitch ↔ growth ≠ 0
      rw [hon, Bool.true_and]
      by_cases hg : growth = 0
      · simp [hg]
      · simp [hg]
    | some side =>
      refine ⟨(assess_killSwitch hon l side price qty qty false reference now).mpr (.inl rfl), fun growth => ?_⟩
      exact (assess_killSwitch hon l side price qty growth true reference now).trans (by simp)

/-- A mark that loses the limit, and the switch turned off by hand afterwards. -/
theorem drawdown_and_switch_one_loss :
    let ops : List Op := [.fill 0 (some .buy) 10 100, .mark 0 103, .mark 0 90]
    let r := (new { maxLoss := 100 } 1).after ops
    r.killSwitch = true ∧ r.maxDrawdownShown = 130 ∧ (r.apply (.setKillSwitch false)).killSwitch = false ∧
      r.evaluateAny 9 none (-1) 0 0 0 = .killSwitch := by
  intro ops r
  have hops : ∀ op ∈ ops, op.Typed := by
    intro op hop
    simp only [ops, List.mem_cons, List.not_mem_nil, or_false] at hop
    rcases hop with rfl | rfl | rfl <;> simp [Op.Typed, IsPrice, kInt64Max, u32Max]
  have h := drawdown_and_switch_offline { maxLoss := 100 } 1 ops hops
  have hon : r.killSwitch = true := by decide
  exact ⟨hon, by decide, rfl, (h.2.2 hon 9 none (-1) 0 0 0).1⟩

end RiskEngine
end OptiTrade.Risk
