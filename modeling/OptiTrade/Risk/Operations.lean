import Mathlib.Tactic.SplitIfs
import OptiTrade.Risk.RiskEngine

/-! # Everything that can be done to a risk engine

The public operations as events, with the arguments that callers can really pass: a side is `none` when it is
neither buy nor sell, a locate may lie outside of the table. `evaluate` and `evaluateReplace` change nothing
and are verdicts here. -/

namespace OptiTrade.Risk
set_option autoImplicit false

namespace RiskEngine

/-- The older release: the count of working orders is an estimate from the quantity that is left. -/
def onOrderClosed (r : RiskEngine) (locate : Nat) (side : Side) (remaining : Nat) : RiskEngine :=
  if locate < r.locates then
    let s := release (r.slots locate) side remaining
    let cap := if (u32Max : Int) ≤ s.openShares side then u32Max else (s.openShares side).toNat
    let kept := min (s.openCount side) cap
    { r with openTotal := r.openTotal - (s.openCount side - kept) }.refresh locate
      { s with openCount := Function.update s.openCount side kept }
  else r

/-- The verdict on a side that may not be one; the kill switch comes first. -/
def evaluateAny (r : RiskEngine) (locate : Nat) (side : Option Side) (price : Int) (qty : Nat) (reference : Int)
    (now : Nat) : Reject :=
  match side with
  | some side => r.evaluate locate side price qty reference now
  | none => if r.killSwitch then .killSwitch else .invalidOrder

/-- A replace whose side may be no side. -/
def evaluateReplaceAny (r : RiskEngine) (locate : Nat) (side : Option Side) (price : Int) (openQty growth : Nat)
    (reference : Int) (now : Nat) : Reject :=
  match side with
  | some side => r.evaluateReplace locate side price openQty growth reference now
  | none => if r.killSwitch && growth != 0 then .killSwitch else .invalidOrder

/-! ## Inspection -/

def realizedPnl (r : RiskEngine) : Int := clamp64 r.realizedTotal

def unrealizedPnl (r : RiskEngine) : Int := clamp64 r.unrealizedTotal

def totalPnl (r : RiskEngine) : Int := clamp64 (r.realizedTotal + r.unrealizedTotal)

def maxDrawdownShown (r : RiskEngine) : Int := clamp64 r.maxDrawdown

end RiskEngine

/-- A call that can change the engine. -/
inductive Op
  | check (locate : Nat) (side : Option Side) (price : Int) (qty : Nat) (reference : Int) (now : Nat)
  | admitOrder (now : Nat)
  | orderOpen (locate : Nat) (side : Option Side) (qty : Nat)
  | orderGrow (locate : Nat) (side : Option Side) (qty : Nat)
  | orderReduce (locate : Nat) (side : Option Side) (qty : Nat)
  | orderEnd (locate : Nat) (side : Option Side) (remaining : Nat)
  | orderClosed (locate : Nat) (side : Option Side) (remaining : Nat)
  | fill (locate : Nat) (side : Option Side) (qty : Nat) (price : Int)
  | mark (locate : Nat) (price : Int)
  | setKillSwitch (on : Bool)

/-- The values of the C++ type of a price. -/
def IsPrice (p : Int) : Prop := -9223372036854775808 ≤ p ∧ p ≤ kInt64Max

/-- The numbers fit the C++ types of the arguments. -/
def Op.Typed : Op → Prop
  | .check _ _ price qty reference _ => IsPrice price ∧ qty ≤ u32Max ∧ IsPrice reference
  | .admitOrder _ => True
  | .orderOpen _ _ qty => qty ≤ u32Max
  | .orderGrow _ _ qty => qty ≤ u32Max
  | .orderReduce _ _ qty => qty ≤ u32Max
  | .orderEnd _ _ qty => qty ≤ u32Max
  | .orderClosed _ _ qty => qty ≤ u32Max
  | .fill _ _ qty price => qty ≤ u32Max ∧ IsPrice price
  | .mark _ price => IsPrice price
  | .setKillSwitch _ => True

namespace RiskEngine

/-- A side that is not one makes the call do nothing. -/
def apply (r : RiskEngine) : Op → RiskEngine
  | .check l side price qty reference now =>
    if r.evaluateAny l side price qty reference now = .none then r.admitOrder now else r
  | .admitOrder now => r.admitOrder now
  | .orderOpen l (some side) qty => r.onOrderOpen l side qty
  | .orderGrow l (some side) qty => r.onOrderGrow l side qty
  | .orderReduce l (some side) qty => r.onOrderReduce l side qty
  | .orderEnd l (some side) qty => r.onOrderEnd l side qty
  | .orderClosed l (some side) qty => r.onOrderClosed l side qty
  | .fill l (some side) qty price => r.onFill l side qty price
  | .mark l price => r.mark l price
  | .setKillSwitch on => r.setKillSwitch on
  | _ => r

/-- The engine after the calls. -/
def after (r : RiskEngine) (ops : List Op) : RiskEngine := ops.foldl apply r

/-- **Invariant rule.** -/
theorem after_invariant {P : RiskEngine → Prop} {Q : Op → Prop} (hstep : ∀ r op, P r → Q op → P (r.apply op))
    {ops : List Op} {r : RiskEngine} (h : P r) (hops : ∀ op ∈ ops, Q op) : P (r.after ops) := by
  induction ops generalizing r with
  | nil => exact h
  | cons op ops ih =>
    exact ih (hstep r op h (hops op List.mem_cons_self)) fun o ho => hops o (List.mem_cons_of_mem _ ho)

theorem after_snoc (r : RiskEngine) (ops : List Op) (op : Op) : r.after (ops ++ [op]) = (r.after ops).apply op := by
  simp [after]

/-! ## What a call can do -/

/-- The time of the admission that a call records. -/
def admits (r : RiskEngine) : Op → Option Nat
  | .check l side price qty reference now =>
    if r.evaluateAny l side price qty reference now = .none then some now else none
  | .admitOrder now => some now
  | _ => none

/-- A fill or a mark that passes the checks of its arguments: the total PnL is sampled after it. -/
def samples (r : RiskEngine) : Op → Bool
  | .fill l (some _) qty price => l < r.locates ∧ qty ≠ 0 ∧ 0 < price
  | .mark l price => l < r.locates ∧ 0 < price
  | _ => false

/-- Everything but the instruments and their totals is the same. -/
structure SameControls (r r' : RiskEngine) : Prop where
  limits : r'.limits = r.limits
  locates : r'.locates = r.locates
  peakPnl : r'.peakPnl = r.peakPnl
  maxDrawdown : r'.maxDrawdown = r.maxDrawdown
  killSwitch : r'.killSwitch = r.killSwitch
  rateRing : r'.rateRing = r.rateRing
  rateSize : r'.rateSize = r.rateSize
  rateNext : r'.rateNext = r.rateNext
  rateFilled : r'.rateFilled = r.rateFilled
  rateLatest : r'.rateLatest = r.rateLatest

theorem SameControls.refl (r : RiskEngine) : SameControls r r := ⟨rfl, rfl, rfl, rfl, rfl, rfl, rfl, rfl, rfl, rfl⟩

theorem SameControls.totals (r : RiskEngine) (n : Nat) (v : Int) :
    SameControls r { r with openTotal := n, realizedTotal := v } := ⟨rfl, rfl, rfl, rfl, rfl, rfl, rfl, rfl, rfl, rfl⟩

theorem SameControls.refresh {r r₀ : RiskEngine} (h : SameControls r r₀) (l : Nat) (s : Slot) :
    SameControls r (r₀.refresh l s) :=
  ⟨h.limits, h.locates, h.peakPnl, h.maxDrawdown, h.killSwitch, h.rateRing, h.rateSize, h.rateNext, h.rateFilled,
    h.rateLatest⟩

/-- **The four kinds of call.** -/
inductive Effect (r : RiskEngine) : Op → RiskEngine → Prop
  | quiet (op : Op) (r' : RiskEngine) : r.admits op = none → r.samples op = false → (∀ on, op ≠ .setKillSwitch on) →
      SameControls r r' → Effect r op r'
  | recorded (op : Op) (now : Nat) : r.admits op = some now → Effect r op (r.rateRecord now)
  | sampled (op : Op) (r₀ : RiskEngine) : r.samples op = true → SameControls r r₀ → Effect r op r₀.settle
  | switched (on : Bool) : Effect r (.setKillSwitch on) (r.setKillSwitch on)

section
variable (r : RiskEngine) (l : Nat) (side : Side) (q : Nat)

theorem onOrderOpen_sameControls : SameControls r (r.onOrderOpen l side q) := by
  unfold onOrderOpen
  dsimp only
  split_ifs
  · exact (SameControls.totals r (r.openTotal + 1) r.realizedTotal).refresh l _
  · exact (SameControls.refl r).refresh l _
  · exact .refl r

theorem onOrderGrow_sameControls : SameControls r (r.onOrderGrow l side q) := by
  unfold onOrderGrow
  split_ifs
  · exact (SameControls.refl r).refresh l _
  · exact .refl r

theorem onOrderReduce_sameControls : SameControls r (r.onOrderReduce l side q) := by
  unfold onOrderReduce
  split_ifs
  · exact (SameControls.refl r).refresh l _
  · exact .refl r

theorem onOrderEnd_sameControls : SameControls r (r.onOrderEnd l side q) := by
  unfold onOrderEnd
  dsimp only
  split_ifs
  · exact (SameControls.totals r (r.openTotal - 1) r.realizedTotal).refresh l _
  · exact (SameControls.refl r).refresh l _
  · exact .refl r

theorem onOrderClosed_sameControls : SameControls r (r.onOrderClosed l side q) := by
  unfold onOrderClosed
  by_cases hl : l < r.locates
  · rw [if_pos hl]
    exact (SameControls.totals r _ r.realizedTotal).refresh l _
  · rw [if_neg hl]
    exact .refl r

end

theorem effect (r : RiskEngine) (op : Op) : Effect r op (r.apply op) := by
  have hquiet : ∀ {r' : RiskEngine}, r.admits op = none → r.samples op = false → (∀ on, op ≠ .setKillSwitch on) →
      SameControls r r' → Effect r op r' := fun h₁ h₂ h₃ h₄ => .quiet op _ h₁ h₂ h₃ h₄
  cases op with
  | check l side price qty reference now =>
    by_cases hv : r.evaluateAny l side price qty reference now = .none
    · have hstep : r.apply (.check l side price qty reference now) = r.rateRecord now := if_pos hv
      rw [hstep]
      exact .recorded _ now (if_pos hv)
    · have hstep : r.apply (.check l side price qty reference now) = r := if_neg hv
      rw [hstep]
      exact hquiet (if_neg hv) rfl (by simp) (.refl r)
  | admitOrder now => exact .recorded _ now rfl
  | orderOpen l side qty =>
    refine hquiet rfl rfl (by simp) ?_
    cases side with
    | none => exact .refl r
    | some side => exact r.onOrderOpen_sameControls l side qty
  | orderGrow l side qty =>
    refine hquiet rfl rfl (by simp) ?_
    cases side with
    | none => exact .refl r
    | some side => exact r.onOrderGrow_sameControls l side qty
  | orderReduce l side qty =>
    refine hquiet rfl rfl (by simp) ?_
    cases side with
    | none => exact .refl r
    | some side => exact r.onOrderReduce_sameControls l side qty
  | orderEnd l side qty =>
    refine hquiet rfl rfl (by simp) ?_
    cases side with
    | none => exact .refl r
    | some side => exact r.onOrderEnd_sameControls l side qty
  | orderClosed l side qty =>
    refine hquiet rfl rfl (by simp) ?_
    cases side with
    | none => exact .refl r
    | some side => exact r.onOrderClosed_sameControls l side qty
  | fill l side qty price =>
    cases side with
    | none => exact hquiet rfl rfl (by simp) (.refl r)
    | some side =>
      by_cases hv : l < r.locates ∧ qty ≠ 0 ∧ 0 < price
      · have hstep : r.apply (.fill l (some side) qty price) = _ := if_pos hv
        rw [hstep]
        exact .sampled _ _ (decide_eq_true hv) ((SameControls.totals r r.openTotal _).refresh l _)
      · have hstep : r.apply (.fill l (some side) qty price) = r := if_neg hv
        rw [hstep]
        exact hquiet rfl (decide_eq_false hv) (by simp) (.refl r)
  | mark l price =>
    by_cases hv : l < r.locates ∧ 0 < price
    · have hstep : r.apply (.mark l price) = _ := if_pos hv
      rw [hstep]
      exact .sampled _ _ (decide_eq_true hv) ((SameControls.refl r).refresh l _)
    · have hstep : r.apply (.mark l price) = r := if_neg hv
      rw [hstep]
      exact hquiet rfl (decide_eq_false hv) (by simp) (.refl r)
  | setKillSwitch on => exact .switched on

end RiskEngine
end OptiTrade.Risk
