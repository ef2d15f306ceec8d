import OptiTrade.Risk.Caches

/-! # Verdicts and the size of an order

The steps of a verdict before the rate limit do not look at the time. A smaller order passes them where a larger
one does: what it makes of the worst case lies between the worst case without it and the one with the larger order,
and an instrument that is out on the other side only comes back. -/

namespace OptiTrade.Risk
set_option autoImplicit false

namespace RiskEngine

/-- The steps before the rate limit are passed. -/
structure Clear (r : RiskEngine) (locate : Nat) (side : Side) (price : Int) (qty add : Nat) (replacing : Bool)
    (reference : Int) : Prop where
  running : ¬(r.killSwitch && (!replacing || add != 0)) = true
  valid : ¬(r.locates ≤ locate ∨ qty = 0 ∨ price ≤ 0)
  size : ¬r.limits.maxOrderQty < qty
  notional : ¬(0 < r.limits.maxOrderNotional ∧ r.limits.maxOrderNotional < price * qty)
  position : ¬(add ≠ 0 ∧ r.limits.maxPosition < magnitude (leg (r.slots locate) side add) ∧
    magnitude (r.slots locate).pos.qty < magnitude (leg (r.slots locate) side add))
  gross : ¬(add ≠ 0 ∧ 0 < r.limits.maxGrossPosition ∧
    r.limits.maxGrossPosition < r.gross - (r.slots locate).exposure +
      max (magnitude (leg (r.slots locate) side add)) (magnitude (leg (r.slots locate) (opposite side) 0)) ∧
    r.gross < r.gross - (r.slots locate).exposure +
      max (magnitude (leg (r.slots locate) side add)) (magnitude (leg (r.slots locate) (opposite side) 0)))
  known : ¬(r.limits.priceBandBps ≠ 0 ∧ reference ≤ 0 ∧ r.limits.requireReference = true)
  band : ¬(r.limits.priceBandBps ≠ 0 ∧ 0 < reference ∧
    reference * r.limits.priceBandBps < magnitude (price - reference) * kBasisPoints)

variable {r : RiskEngine} {l : Nat} {side : Side} {price : Int} {qty add : Nat} {replacing : Bool} {reference : Int} {now : Nat}

theorem assess_of_clear (h : r.Clear l side price qty add replacing reference) (now : Nat) :
    r.assess l side price qty add replacing reference now =
      if (!replacing || add != 0) && !r.rateHasRoom now then .rateLimit
      else if !replacing ∧ r.limits.maxOpenOrders ≠ 0 ∧ r.limits.maxOpenOrders ≤ r.openTotal then .openOrders
      else .none := by
  unfold assess
  dsimp only
  rw [if_neg h.running, if_neg h.valid, if_neg h.size, if_neg h.notional, if_neg h.position, if_neg h.gross, if_neg h.known,
    if_neg h.band]

theorem assess_eq_none : r.assess l side price qty add replacing reference now = .none ↔
    r.Clear l side price qty add replacing reference ∧ ¬((!replacing || add != 0) && !r.rateHasRoom now) = true ∧
      ¬((!replacing) = true ∧ r.limits.maxOpenOrders ≠ 0 ∧ r.limits.maxOpenOrders ≤ r.openTotal) := by
  constructor
  · intro h
    unfold assess at h
    obtain ⟨h₁, h⟩ := of_ite_eq (by decide) h
    obtain ⟨h₂, h⟩ := of_ite_eq (by decide) h
    obtain ⟨h₃, h⟩ := of_ite_eq (by decide) h
    obtain ⟨h₄, h⟩ := of_ite_eq (by decide) h
    obtain ⟨h₅, h⟩ := of_ite_eq (by decide) h
    obtain ⟨h₆, h⟩ := of_ite_eq (by decide) h
    obtain ⟨h₇, h⟩ := of_ite_eq (by decide) h
    obtain ⟨h₈, h⟩ := of_ite_eq (by decide) h
    obtain ⟨h₉, h⟩ := of_ite_eq (by decide) h
    obtain ⟨h₁₀, _⟩ := of_ite_eq (by decide) h
    exact ⟨⟨h₁, h₂, h₃, h₄, h₅, h₆, h₇, h₈⟩, h₉, h₁₀⟩
  · rintro ⟨hc, hr, ho⟩
    rw [assess_of_clear hc, if_neg hr, if_neg ho]

/-- A verdict of an earlier step does not depend on the time. -/
theorem assess_of_not_clear (h : ¬r.Clear l side price qty add replacing reference) (now later : Nat) :
    r.assess l side price qty add replacing reference now = r.assess l side price qty add replacing reference later := by
  unfold assess
  dsimp only
  by_cases h₁ : (r.killSwitch && (!replacing || add != 0)) = true
  · rw [if_pos h₁, if_pos h₁]
  rw [if_neg h₁, if_neg h₁]
  by_cases h₂ : r.locates ≤ l ∨ qty = 0 ∨ price ≤ 0
  · rw [if_pos h₂, if_pos h₂]
  rw [if_neg h₂, if_neg h₂]
  by_cases h₃ : r.limits.maxOrderQty < qty
  · rw [if_pos h₃, if_pos h₃]
  rw [if_neg h₃, if_neg h₃]
  by_cases h₄ : 0 < r.limits.maxOrderNotional ∧ r.limits.maxOrderNotional < price * qty
  · rw [if_pos h₄, if_pos h₄]
  rw [if_neg h₄, if_neg h₄]
  by_cases h₅ : add ≠ 0 ∧ r.limits.maxPosition < magnitude (leg (r.slots l) side add) ∧
      magnitude (r.slots l).pos.qty < magnitude (leg (r.slots l) side add)
  · rw [if_pos h₅, if_pos h₅]
  rw [if_neg h₅, if_neg h₅]
  by_cases h₆ : add ≠ 0 ∧ 0 < r.limits.maxGrossPosition ∧
      r.limits.maxGrossPosition < r.gross - (r.slots l).exposure +
        max (magnitude (leg (r.slots l) side add)) (magnitude (leg (r.slots l) (opposite side) 0)) ∧
      r.gross < r.gross - (r.slots l).exposure +
        max (magnitude (leg (r.slots l) side add)) (magnitude (leg (r.slots l) (opposite side) 0))
  · rw [if_pos h₆, if_pos h₆]
  rw [if_neg h₆, if_neg h₆]
  by_cases h₇ : r.limits.priceBandBps ≠ 0 ∧ reference ≤ 0 ∧ r.limits.requireReference = true
  · rw [if_pos h₇, if_pos h₇]
  rw [if_neg h₇, if_neg h₇]
  by_cases h₈ : r.limits.priceBandBps ≠ 0 ∧ 0 < reference ∧
      reference * r.limits.priceBandBps < magnitude (price - reference) * kBasisPoints
  · rw [if_pos h₈, if_pos h₈]
  exact absurd ⟨h₁, h₂, h₃, h₄, h₅, h₆, h₇, h₈⟩ h

/-! ## Smaller orders -/

theorem leg_smaller {s : Slot} (hs : SlotOk s) (side : Side) {a b : Int} (ha : 0 ≤ a) (hab : a ≤ b) :
    magnitude (leg s side a) ≤ magnitude (leg s side b) ∨
      (magnitude (leg s side a) ≤ magnitude s.pos.qty ∧ magnitude (leg s side a) ≤ magnitude (leg s side 0)) := by
  have hopen := (hs.shares side).1
  cases side with
  | buy =>
    unfold leg magnitude
    dsimp only
    split_ifs <;> omega
  | sell =>
    unfold leg magnitude
    dsimp only
    split_ifs <;> omega

theorem le_worst {s : Slot} {v : Int} (side : Side) (h : v ≤ magnitude (leg s side 0)) (hv : v ≤ kInt64Max) : v ≤ worst s := by
  have hleg : v ≤ max (magnitude (leg s .buy 0)) (magnitude (leg s .sell 0)) := by
    cases side with
    | buy => exact le_max_of_le_left h
    | sell => exact le_max_of_le_right h
  have hnn := magnitude_nonneg (leg s .buy 0)
  unfold worst clamp64
  unfold kInt64Max at *
  split_ifs <;> omega

theorem Clear.smaller (hx : r.Exact) (h : r.Clear l side price qty add replacing reference) (hadd : add ≠ 0) {qty' add' : Nat}
    (hq : 1 ≤ qty') (hqty : qty' ≤ qty) (hle : add' ≤ add) : r.Clear l side price qty' add' replacing reference := by
  have hs := hx.slot l
  have hsmall : magnitude (leg (r.slots l) side add') ≤ magnitude (leg (r.slots l) side add) ∨ _ :=
    leg_smaller hs side (Int.natCast_nonneg add') (Int.ofNat_le.mpr hle)
  refine ⟨?_, ?_, ?_, ?_, ?_, ?_, h.known, h.band⟩
  · intro hk
    have hrunning := h.running
    simp only [Bool.and_eq_true, Bool.or_eq_true, bne_iff_ne, ne_eq] at hk hrunning
    exact hrunning ⟨hk.1, .inr hadd⟩
  · have := h.valid
    omega
  · have := h.size
    omega
  · rintro ⟨h₁, h₂⟩
    have hprice : 0 ≤ price := by
      have := h.valid
      omega
    have hmul : price * qty' ≤ price * qty := Int.mul_le_mul_of_nonneg_left (Int.ofNat_le.mpr hqty) hprice
    exact h.notional ⟨h₁, h₂.trans_le hmul⟩
  · rintro ⟨_, h₂, h₃⟩
    rcases hsmall with hless | ⟨hpos, _⟩
    · exact h.position ⟨hadd, h₂.trans_le hless, h₃.trans_le hless⟩
    · exact absurd h₃ (not_lt.mpr hpos)
  · rintro ⟨_, h₂, h₃, h₄⟩
    -- the larger order would have been over the limit too, unless the smaller one only comes back
    have hlarger : ¬max (magnitude (leg (r.slots l) side add')) (magnitude (leg (r.slots l) (opposite side) 0)) ≤
        max (magnitude (leg (r.slots l) side add)) (magnitude (leg (r.slots l) (opposite side) 0)) :=
      fun hm => h.gross ⟨hadd, h₂, h₃.trans_le (by omega), h₄.trans_le (by omega)⟩
    rcases hsmall with hless | ⟨hpos, hleg⟩
    · exact hlarger (max_le_max_right _ hless)
    · have hmag : magnitude (r.slots l).pos.qty ≤ kInt64Max := by
        have := hs.qty
        unfold magnitude
        split_ifs <;> omega
      have hworst := le_worst side hleg (hpos.trans hmag)
      rw [← hx.exposure l] at hworst
      omega

/-- **A verdict is never worse for being smaller.** -/
theorem verdict_anti_monotone (limits : Limits) (maxLocates : Nat) (ops : List Op) (hops : ∀ op ∈ ops, op.Typed) :
    let r := (new limits maxLocates).after ops
    ∀ l side price qty reference now,
      (r.evaluateAny l side price qty reference now = .none → ∀ qty', 1 ≤ qty' → qty' ≤ qty →
        r.evaluateAny l side price qty' reference now = .none) ∧
      ∀ growth, 0 < growth → r.evaluateReplaceAny l side price qty growth reference now = .none →
        ∀ qty' growth', 1 ≤ qty' → qty' ≤ qty → growth' ≤ growth →
          r.evaluateReplaceAny l side price qty' growth' reference now = .none := by
  intro r l side price qty reference now
  have hx : r.Exact := after_invariant (fun r op (h : r.Exact) ht => h.apply ht) (.new limits maxLocates) hops
  cases side with
  | none =>
    constructor
    · intro h
      unfold evaluateAny at h
      dsimp only at h
      split_ifs at h
    · intro growth _ h
      unfold evaluateReplaceAny at h
      dsimp only at h
      split_ifs at h
  | some side =>
    constructor
    · intro h qty' hq hqty
      obtain ⟨hc, hrate, hopen⟩ := assess_eq_none.mp h
      refine assess_eq_none.mpr ⟨hc.smaller hx (by omega) hq hqty hqty, ?_, hopen⟩
      simpa using hrate
    · intro growth hg h qty' growth' hq hqty hgrowth
      obtain ⟨hc, hrate, hopen⟩ := assess_eq_none.mp h
      refine assess_eq_none.mpr ⟨hc.smaller hx (by omega) hq hqty hgrowth, ?_, by simp⟩
      have hroom : r.rateHasRoom now = true := by
        have hne : growth ≠ 0 := by omega
        simpa [hne] using hrate
      simp [hroom]

/-- An instrument that is short beyond its limit may buy back any part of it. -/
theorem verdict_anti_monotone_over_limit :
    let r := (new { maxPosition := 10, maxGrossPosition := 10 } 1).after [.fill 0 (some .sell) 30 100]
    r.evaluateAny 0 (some .buy) 100 40 0 0 = .none ∧ r.evaluateAny 0 (some .buy) 100 1 0 0 = .none := by
  intro r
  have h : r.evaluateAny 0 (some .buy) 100 40 0 0 = .none := by decide
  have hops : ∀ op ∈ [Op.fill 0 (some .sell) 30 100], op.Typed := by
    intro op hop
    rw [List.mem_singleton.mp hop]
    simp [Op.Typed, IsPrice, kInt64Max, u32Max]
  exact ⟨h, (verdict_anti_monotone _ 1 _ hops 0 (some .buy) 100 40 0 0).1 h 1 (by omega) (by omega)⟩

end RiskEngine
end OptiTrade.Risk
