import OptiTrade.Risk.Caches
import Mathlib.Tactic.Ring

/-! # The cash identity of realized PnL

An account follows the fills of one instrument: what was paid and received, the remainders that the truncated
averages dropped, and the prices since the position was opened. -/

namespace OptiTrade.Risk
set_option autoImplicit false

open RiskEngine (fillPosition)

/-- The shares of a fill with the sign of its side. -/
def signedQty (side : Side) (qty : Nat) : Int := if side = .buy then (qty : Int) else -qty

/-- The fill opens or extends the position. -/
def Position.addsTo (p : Position) (side : Side) : Prop := p.qty = 0 ∨ (0 < p.qty ↔ side = .buy)

instance (p : Position) (side : Side) : Decidable (p.addsTo side) := inferInstanceAs (Decidable (_ ∨ _))

/-- What the division of the average drops. -/
def Position.remainder (p : Position) (qty : Nat) (price : Int) : Int :=
  (p.avgPrice * magnitude p.qty + price * qty) % (magnitude p.qty + qty)

/-- What a fill adds to the realized PnL. -/
def Position.gain (p : Position) (side : Side) (qty : Nat) (price : Int) : Int :=
  if p.addsTo side then 0
  else (if 0 < p.qty then price - p.avgPrice else p.avgPrice - price) * min (magnitude p.qty) qty

/-- A position with the cash that it has cost. -/
structure Account where
  pos : Position := {}
  /-- Received for sells, less what was paid for buys. -/
  cash : Int := 0
  slack : Int := 0
  /-- The fill prices since the position was last opened or flipped. -/
  prices : List Int := []

namespace Account

def fill (a : Account) (side : Side) (qty : Nat) (price : Int) : Account where
  pos := fillPosition a.pos side qty price
  cash := a.cash - price * signedQty side qty
  slack := a.slack + if a.pos.addsTo side then
    (if side = .buy then a.pos.remainder qty price else -a.pos.remainder qty price) else 0
  prices :=
    let after := a.pos.qty + signedQty side qty
    if after = 0 then []
    else if a.pos.qty = 0 ∨ ¬(0 < after ↔ 0 < a.pos.qty) then [price]
    else a.prices ++ [price]

/-- The account of instrument `l` follows the fills that are applied to it. -/
def step (l : Nat) (a : Account) : Op → Account
  | .fill k (some side) qty price => if k = l ∧ qty ≠ 0 ∧ 0 < price then a.fill side qty price else a
  | _ => a

/-- The account of an instrument after a run. -/
def of (l : Nat) (ops : List Op) : Account := ops.foldl (step l) {}

/-- Neither the position nor the realized PnL is clamped by the fill. -/
def Unsaturated (l : Nat) (a : Account) : Op → Prop
  | .fill k (some side) qty price => k = l → qty ≠ 0 → 0 < price →
    |a.pos.qty + signedQty side qty| ≤ kInt64Max ∧ |a.pos.realized + a.pos.gain side qty price| ≤ kInt64Max
  | _ => True

/-- The identity, and where the average price lies. -/
structure Balanced (a : Account) : Prop where
  identity : a.pos.realized = a.cash + a.pos.qty * a.pos.avgPrice + a.slack
  flat : a.pos.avgPrice = 0 ↔ a.pos.qty = 0
  avg : 0 ≤ a.pos.avgPrice
  positive : ∀ p ∈ a.prices, 0 < p
  above : a.pos.qty ≠ 0 → ∃ p ∈ a.prices, p ≤ a.pos.avgPrice
  below : a.pos.qty ≠ 0 → ∃ p ∈ a.prices, a.pos.avgPrice ≤ p

end Account

/-! ## The remainder -/

namespace Position
variable {p : Position} {side : Side} {qty : Nat} {price : Int}

theorem addsTo_magnitude (he : p.addsTo side) (qty : Nat) : magnitude (p.qty + signedQty side qty) = magnitude p.qty + qty := by
  unfold Position.addsTo at he
  unfold signedQty magnitude
  by_cases hb : side = .buy
  · simp only [hb, iff_true] at he
    rw [if_pos hb]
    split_ifs <;> omega
  · simp only [hb, iff_false] at he
    rw [if_neg hb]
    split_ifs <;> omega

theorem average_remainder (ha : 0 ≤ p.avgPrice) (hp : 0 < price) (qty : Nat) :
    (p.avgPrice * magnitude p.qty + price * qty).tdiv (magnitude p.qty + qty) * (magnitude p.qty + qty) +
      p.remainder qty price = p.avgPrice * magnitude p.qty + price * qty := by
  have hnn : 0 ≤ p.avgPrice * magnitude p.qty + price * qty :=
    add_nonneg (mul_nonneg ha (magnitude_nonneg _)) (mul_nonneg hp.le (Int.natCast_nonneg qty))
  rw [Int.tdiv_eq_ediv_of_nonneg hnn, mul_comm]
  exact Int.mul_ediv_add_emod _ _

end Position

/-! ## One fill -/

namespace Account
variable {a : Account} {side : Side} {qty : Nat} {price : Int}

theorem fillPosition_adds (he : a.pos.addsTo side) (hsat : |a.pos.qty + signedQty side qty| ≤ kInt64Max)
    (hreal : |a.pos.realized + a.pos.gain side qty price| ≤ kInt64Max) : fillPosition a.pos side qty price =
      ⟨a.pos.qty + signedQty side qty,
        (a.pos.avgPrice * magnitude a.pos.qty + price * qty).tdiv (magnitude a.pos.qty + qty), a.pos.realized⟩ := by
  have hg : a.pos.gain side qty price = 0 := if_pos he
  rw [hg, add_zero] at hreal
  obtain ⟨h₁, h₂⟩ := abs_le.mp hsat
  obtain ⟨h₃, h₄⟩ := abs_le.mp hreal
  rcases RiskEngine.fillPosition_cases a.pos side qty price with ⟨_, hf⟩ | ⟨hne, hopp, _⟩
  · rw [hf, clamp64_eq h₃ h₄]
    congr 1
    exact clamp64_eq h₁ h₂
  · exact absurd he (fun h => h.elim hne hopp)

theorem fillPosition_reduces (he : ¬a.pos.addsTo side) (hsat : |a.pos.qty + signedQty side qty| ≤ kInt64Max)
    (hreal : |a.pos.realized + a.pos.gain side qty price| ≤ kInt64Max) : fillPosition a.pos side qty price =
      ⟨a.pos.qty + signedQty side qty,
        if a.pos.qty + signedQty side qty = 0 then 0
        else if ¬(0 < a.pos.qty + signedQty side qty ↔ 0 < a.pos.qty) then price else a.pos.avgPrice,
        a.pos.realized + a.pos.gain side qty price⟩ := by
  have hg : a.pos.gain side qty price =
      (if 0 < a.pos.qty then price - a.pos.avgPrice else a.pos.avgPrice - price) * min (magnitude a.pos.qty) qty := if_neg he
  obtain ⟨h₁, h₂⟩ := abs_le.mp hsat
  obtain ⟨h₃, h₄⟩ := abs_le.mp hreal
  rcases RiskEngine.fillPosition_cases a.pos side qty price with ⟨h, _⟩ | ⟨_, _, hf⟩
  · exact absurd h he
  · rw [hf, ← hg, clamp64_eq h₃ h₄]
    congr 1
    exact clamp64_eq h₁ h₂

/-- The shares and what they cost, when a position is extended. -/
theorem addsTo_value (he : a.pos.addsTo side) (qty : Nat) (v : Int) :
    (a.pos.qty + signedQty side qty) * v =
      if side = .buy then v * (magnitude a.pos.qty + qty) else -(v * (magnitude a.pos.qty + qty)) := by
  unfold Position.addsTo at he
  unfold signedQty
  by_cases hb : side = .buy
  · simp only [hb, iff_true] at he
    have hm : magnitude a.pos.qty = a.pos.qty := by
      unfold magnitude
      split_ifs <;> omega
    rw [if_pos hb, if_pos hb, hm]
    ring
  · simp only [hb, iff_false] at he
    have hm : magnitude a.pos.qty = -a.pos.qty := by
      unfold magnitude
      split_ifs <;> omega
    rw [if_neg hb, if_neg hb, hm]
    ring

theorem Balanced.adds (h : a.Balanced) (hq : qty ≠ 0) (hp : 0 < price) (he : a.pos.addsTo side)
    (hsat : |a.pos.qty + signedQty side qty| ≤ kInt64Max)
    (hreal : |a.pos.realized + a.pos.gain side qty price| ≤ kInt64Max) : (a.fill side qty price).Balanced := by
  have hpos := fillPosition_adds he hsat hreal
  have hafter : a.pos.qty + signedQty side qty ≠ 0 := by
    intro hz
    have hm := Position.addsTo_magnitude he qty
    rw [hz] at hm
    have := magnitude_nonneg a.pos.qty
    have hzero : magnitude 0 = 0 := rfl
    omega
  have hsign : a.pos.qty ≠ 0 → (0 < a.pos.qty + signedQty side qty ↔ 0 < a.pos.qty) := by
    intro hne
    unfold Position.addsTo at he
    unfold signedQty
    by_cases hb : side = .buy
    · simp only [hb, iff_true] at he
      rw [if_pos hb]
      omega
    · simp only [hb, iff_false] at he
      rw [if_neg hb]
      omega
  -- the prices, with the new one at the end, still hold a lower and an upper bound of the average
  have hprices : (a.fill side qty price).prices = if a.pos.qty = 0 then [price] else a.prices ++ [price] := by
    show (if _ then _ else _ : List Int) = _
    rw [if_neg hafter]
    by_cases hz : a.pos.qty = 0
    · rw [if_pos (.inl hz), if_pos hz]
    · rw [if_neg (by rintro (h₀ | h₀); exact hz h₀; exact h₀ (hsign hz)), if_neg hz]
  have hmem : price ∈ (a.fill side qty price).prices := by
    rw [hprices]
    split_ifs <;> simp
  have hkeep : ∀ p ∈ a.prices, a.pos.qty ≠ 0 → p ∈ (a.fill side qty price).prices := by
    intro p hpm hz
    rw [hprices, if_neg hz]
    exact List.mem_append_left _ hpm
  have hmag : magnitude a.pos.qty ≠ 0 → a.pos.qty ≠ 0 := by
    rintro hm hz
    rw [hz] at hm
    exact hm rfl
  have hbounds : ∃ lo hi : Int, lo ∈ (a.fill side qty price).prices ∧ hi ∈ (a.fill side qty price).prices ∧ 0 < lo ∧
      (a.pos.qty ≠ 0 → lo ≤ a.pos.avgPrice ∧ a.pos.avgPrice ≤ hi) ∧ lo ≤ price ∧ price ≤ hi := by
    by_cases hz : a.pos.qty = 0
    · exact ⟨price, price, hmem, hmem, hp, fun hne => absurd hz hne, le_refl _, le_refl _⟩
    · obtain ⟨x, hx, hxa⟩ := h.above hz
      obtain ⟨y, hy, hya⟩ := h.below hz
      refine ⟨min x price, max y price, ?_, ?_, ?_, fun _ => ⟨by omega, by omega⟩, by omega, by omega⟩
      · rcases min_choice x price with hc | hc
        · rw [hc]
          exact hkeep x hx hz
        · rw [hc]
          exact hmem
      · rcases max_choice y price with hc | hc
        · rw [hc]
          exact hkeep y hy hz
        · rw [hc]
          exact hmem
      · have := h.positive x hx
        omega
  obtain ⟨lo, hi, hlo, hhi, hlo₀, hold, hlop, hphi⟩ := hbounds
  have havg := average_between (magnitude_nonneg a.pos.qty) (by omega : (0 : Int) < qty) hlo₀.le
    (fun hm => hold (hmag hm)) ⟨hlop, hphi⟩
  have hrem := Position.average_remainder (p := a.pos) h.avg hp qty
  have hpos' : (a.fill side qty price).pos = _ := hpos
  refine ⟨?_, ?_, ?_, ?_, fun _ => ⟨lo, hlo, ?_⟩, fun _ => ⟨hi, hhi, ?_⟩⟩
  · rw [hpos']
    dsimp only
    have hid := h.identity
    have hvalue := addsTo_value he qty
      ((a.pos.avgPrice * magnitude a.pos.qty + price * qty).tdiv (magnitude a.pos.qty + qty))
    have hvalue₀ := addsTo_value he 0 a.pos.avgPrice
    have hcash : (a.fill side qty price).cash = a.cash - price * signedQty side qty := rfl
    have hslack : (a.fill side qty price).slack = a.slack +
        (if side = .buy then a.pos.remainder qty price else -a.pos.remainder qty price) := by
      show a.slack + (if _ then _ else _ : Int) = _
      rw [if_pos he]
    rw [hcash, hslack, hvalue]
    unfold signedQty at hvalue₀ ⊢
    by_cases hb : side = .buy
    · simp only [hb, if_true, Int.ofNat_zero, add_zero] at hvalue₀ ⊢
      linarith
    · simp only [hb, if_false, Int.natCast_zero, neg_zero, add_zero] at hvalue₀ ⊢
      linarith
  · rw [hpos']
    dsimp only
    exact ⟨fun hz => by omega, fun hz => absurd hz hafter⟩
  · rw [hpos']
    dsimp only
    omega
  · intro p hpm
    rw [hprices] at hpm
    split_ifs at hpm with hz
    · rw [List.mem_singleton.mp hpm]
      exact hp
    · rcases List.mem_append.mp hpm with hpm | hpm
      · exact h.positive p hpm
      · rw [List.mem_singleton.mp hpm]
        exact hp
  · rw [hpos']
    exact havg.1
  · rw [hpos']
    exact havg.2

/-- What a fill against the position gains, in terms of the shares that are left. -/
theorem gain_value (he : ¬a.pos.addsTo side) (hq : qty ≠ 0) (price : Int) :
    a.pos.gain side qty price =
      if ¬(0 < a.pos.qty + signedQty side qty ↔ 0 < a.pos.qty) ∨ a.pos.qty + signedQty side qty = 0 then
        (price - a.pos.avgPrice) * a.pos.qty
      else -((price - a.pos.avgPrice) * signedQty side qty) := by
  have hg : a.pos.gain side qty price =
      (if 0 < a.pos.qty then price - a.pos.avgPrice else a.pos.avgPrice - price) * min (magnitude a.pos.qty) qty := if_neg he
  rw [hg]
  unfold Position.addsTo at he
  unfold signedQty
  by_cases hb : side = .buy
  · simp only [hb, iff_true, not_or, not_lt] at he
    have hm : magnitude a.pos.qty = -a.pos.qty := by
      unfold magnitude
      split_ifs <;> omega
    rw [if_neg (by omega), if_pos hb, hm]
    split_ifs with hc
    · rw [min_eq_left (by omega)]
      ring
    · rw [min_eq_right (by omega)]
      ring
  · simp only [hb, iff_false, not_or, not_not] at he
    have hm : magnitude a.pos.qty = a.pos.qty := by
      unfold magnitude
      split_ifs <;> omega
    rw [if_pos he.2, if_neg hb, hm]
    split_ifs with hc
    · rw [min_eq_left (by omega)]
    · rw [min_eq_right (by omega)]
      ring

theorem Balanced.reduces (h : a.Balanced) (hq : qty ≠ 0) (hp : 0 < price) (he : ¬a.pos.addsTo side)
    (hsat : |a.pos.qty + signedQty side qty| ≤ kInt64Max)
    (hreal : |a.pos.realized + a.pos.gain side qty price| ≤ kInt64Max) : (a.fill side qty price).Balanced := by
  have hpos' : (a.fill side qty price).pos = _ := fillPosition_reduces he hsat hreal
  have hgain := gain_value he hq price
  have hcash : (a.fill side qty price).cash = a.cash - price * signedQty side qty := rfl
  have hslack : (a.fill side qty price).slack = a.slack := by
    show a.slack + (if _ then _ else _ : Int) = _
    rw [if_neg he, add_zero]
  have hprices : (a.fill side qty price).prices = if a.pos.qty + signedQty side qty = 0 then []
      else if a.pos.qty = 0 ∨ ¬(0 < a.pos.qty + signedQty side qty ↔ 0 < a.pos.qty) then [price]
      else a.prices ++ [price] := rfl
  have hne : a.pos.qty ≠ 0 := fun hz => he (.inl hz)
  have hid := h.identity
  by_cases hzero : a.pos.qty + signedQty side qty = 0
  · -- closed exactly
    rw [if_pos (.inr hzero)] at hgain
    rw [if_pos hzero] at hpos' hprices
    refine ⟨?_, ?_, ?_, ?_, ?_, ?_⟩
    · rw [hpos', hcash, hslack, hgain]
      dsimp only
      have hs : signedQty side qty = -a.pos.qty := by omega
      rw [hs]
      linarith
    · rw [hpos']
      exact ⟨fun _ => hzero, fun _ => rfl⟩
    · rw [hpos']
    · rw [hprices]
      exact fun p hpm => absurd hpm List.not_mem_nil
    · rw [hpos']
      exact fun hz => absurd hzero hz
    · rw [hpos']
      exact fun hz => absurd hzero hz
  · by_cases hflip : ¬(0 < a.pos.qty + signedQty side qty ↔ 0 < a.pos.qty)
    · -- through zero: the rest is opened at the fill price
      rw [if_pos (.inl hflip)] at hgain
      rw [if_neg hzero, if_pos hflip] at hpos'
      rw [if_neg hzero, if_pos (.inr hflip)] at hprices
      have hmem : price ∈ (a.fill side qty price).prices := by
        rw [hprices]
        exact List.mem_singleton_self price
      refine ⟨?_, ?_, ?_, ?_, fun _ => ⟨price, hmem, ?_⟩, fun _ => ⟨price, hmem, ?_⟩⟩
      · rw [hpos', hcash, hslack, hgain]
        dsimp only
        linarith
      · rw [hpos']
        exact ⟨fun hz => by dsimp only at hz; omega, fun hz => absurd hz hzero⟩
      · rw [hpos']
        exact hp.le
      · rw [hprices]
        intro p hpm
        rw [List.mem_singleton.mp hpm]
        exact hp
      · rw [hpos']
      · rw [hpos']
    · -- part of the position is left, at its old average
      rw [if_neg (by rintro (h₀ | h₀); exact hflip h₀; exact hzero h₀)] at hgain
      rw [if_neg hzero, if_neg hflip] at hpos'
      rw [if_neg hzero, if_neg (by rintro (h₀ | h₀); exact hne h₀; exact hflip h₀)] at hprices
      obtain ⟨x, hx, hxa⟩ := h.above hne
      obtain ⟨y, hy, hya⟩ := h.below hne
      refine ⟨?_, ?_, ?_, ?_, fun _ => ⟨x, ?_, ?_⟩, fun _ => ⟨y, ?_, ?_⟩⟩
      · rw [hpos', hcash, hslack, hgain]
        dsimp only
        linarith
      · rw [hpos']
        exact ⟨fun hz => absurd (h.flat.mp hz) hne, fun hz => absurd hz hzero⟩
      · rw [hpos']
        exact h.avg
      · rw [hprices]
        intro p hpm
        rcases List.mem_append.mp hpm with hpm | hpm
        · exact h.positive p hpm
        · rw [List.mem_singleton.mp hpm]
          exact hp
      · rw [hprices]
        exact List.mem_append_left _ hx
      · rw [hpos']
        exact hxa
      · rw [hprices]
        exact List.mem_append_left _ hy
      · rw [hpos']
        exact hya

/-! ## Runs -/

theorem Balanced.step (h : a.Balanced) {l : Nat} {op : Op} (hu : a.Unsaturated l op) : (a.step l op).Balanced := by
  cases op with
  | fill k side qty price =>
    cases side with
    | none => exact h
    | some side =>
      show (if _ then _ else _ : Account).Balanced
      split_ifs with hv
      · obtain ⟨hsat, hreal⟩ := hu hv.1 hv.2.1 hv.2.2
        by_cases he : a.pos.addsTo side
        · exact h.adds hv.2.1 hv.2.2 he hsat hreal
        · exact h.reduces hv.2.1 hv.2.2 he hsat hreal
      · exact h
  | check l side price qty reference now => exact h
  | admitOrder now => exact h
  | orderOpen l side qty => exact h
  | orderGrow l side qty => exact h
  | orderReduce l side qty => exact h
  | orderEnd l side qty => exact h
  | orderClosed l side qty => exact h
  | mark l price => exact h
  | setKillSwitch on => exact h

/-- No fill of the run is clamped. -/
def NeverSaturates (l : Nat) (ops : List Op) : Prop :=
  ∀ before op rest, ops = before ++ op :: rest → (of l before).Unsaturated l op

theorem NeverSaturates.snoc {l : Nat} {ops : List Op} {op : Op} (h : NeverSaturates l ops)
    (hu : (of l ops).Unsaturated l op) : NeverSaturates l (ops ++ [op]) := by
  intro before op' rest he
  rcases List.eq_nil_or_concat rest with rfl | ⟨rest, last, rfl⟩
  · obtain ⟨rfl, hop⟩ := List.append_inj' he rfl
    obtain rfl : op = op' := List.singleton_injective hop
    exact hu
  · refine h before op' rest ?_
    rw [List.concat_eq_append, ← List.cons_append, ← List.append_assoc] at he
    exact (List.append_inj' he rfl).1

end Account

/-! ## The engine -/

namespace RiskEngine
variable {r : RiskEngine} {l : Nat} {a : Account}

end RiskEngine
end OptiTrade.Risk
