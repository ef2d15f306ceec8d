import OptiTrade.Risk.Ledger

/-! # The hard limits

What a passed verdict says, and how the worst-case positions and the gross exposure move. The
interval from `leg .sell` to `leg .buy` holds every position an instrument can reach by fills of its
working orders; an operation at one instrument keeps the rest of the engine (`Local`), so it keeps
the limits if it does not widen that interval, or if a verdict allowed it to. -/

namespace OptiTrade.Risk
set_option autoImplicit false

namespace RiskEngine

/-- The checks of `assess` that bound the ledger. -/
structure Passed (r : RiskEngine) (locate : Nat) (side : Side) (qty add : Nat) (replacing : Bool) : Prop where
  locate_lt : locate < r.locates
  qty_le : qty ≤ r.limits.maxOrderQty
  position : add ≠ 0 → r.limits.maxPosition < magnitude (leg (r.slots locate) side add) →
    magnitude (leg (r.slots locate) side add) ≤ magnitude (r.slots locate).pos.qty
  gross : add ≠ 0 → 0 < r.limits.maxGrossPosition →
    r.limits.maxGrossPosition < r.gross - (r.slots locate).exposure +
      max (magnitude (leg (r.slots locate) side add)) (magnitude (leg (r.slots locate) (opposite side) 0)) →
    r.gross - (r.slots locate).exposure +
      max (magnitude (leg (r.slots locate) side add)) (magnitude (leg (r.slots locate) (opposite side) 0)) ≤ r.gross
  openOrders : replacing = false → r.limits.maxOpenOrders ≠ 0 → r.openTotal < r.limits.maxOpenOrders

theorem of_ite_eq {α : Type} {c : Prop} [Decidable c] {a b x : α} (ha : a ≠ x)
    (h : (if c then a else b) = x) : ¬c ∧ b = x := by
  by_cases hc : c
  · rw [if_pos hc] at h
    exact absurd h ha
  · rw [if_neg hc] at h
    exact ⟨hc, h⟩

theorem assess_none {r : RiskEngine} {locate : Nat} {side : Side} {price : Int} {qty add : Nat} {replacing : Bool}
    {reference : Int} {now : Nat} (h : r.assess locate side price qty add replacing reference now = .none) :
    Passed r locate side qty add replacing := by
  unfold assess at h
  obtain ⟨_, h⟩ := of_ite_eq (by decide) h
  obtain ⟨hvalid, h⟩ := of_ite_eq (by decide) h
  obtain ⟨hqty, h⟩ := of_ite_eq (by decide) h
  obtain ⟨_, h⟩ := of_ite_eq (by decide) h
  obtain ⟨hpos, h⟩ := of_ite_eq (by decide) h
  obtain ⟨hgross, h⟩ := of_ite_eq (by decide) h
  obtain ⟨_, h⟩ := of_ite_eq (by decide) h
  obtain ⟨_, h⟩ := of_ite_eq (by decide) h
  obtain ⟨_, h⟩ := of_ite_eq (by decide) h
  obtain ⟨hopen, h⟩ := of_ite_eq (by decide) h
  refine ⟨by omega, by omega, ?_, ?_, ?_⟩
  · intro h₁ h₂
    by_contra h₃
    exact hpos ⟨h₁, h₂, not_le.mp h₃⟩
  · intro h₁ h₂ h₃
    by_contra h₄
    exact hgross ⟨h₁, h₂, h₃, not_le.mp h₄⟩
  · intro h₁ h₂
    by_contra h₃
    exact hopen ⟨by simp [h₁], h₂, not_lt.mp h₃⟩

/-! ## Operations at one instrument -/

/-- `r'` is `r` with instrument `l` updated and its share of the gross exposure recomputed. -/
structure Local (r r' : RiskEngine) (l : Nat) : Prop where
  locates : r'.locates = r.locates
  limits : r'.limits = r.limits
  slots : ∀ k, k ≠ l → r'.slots k = r.slots k
  exposure : (r'.slots l).exposure = worst (r'.slots l)
  gross : r'.gross - (r'.slots l).exposure = r.gross - (r.slots l).exposure

variable {r r' r'' : RiskEngine} {l : Nat} {side : Side} {q : Nat}

theorem Local.refl (h : (r.slots l).exposure = worst (r.slots l)) : Local r r l :=
  ⟨rfl, rfl, fun _ _ => rfl, h, rfl⟩

theorem Local.trans (h₁ : Local r r' l) (h₂ : Local r' r'' l) : Local r r'' l where
  locates := h₂.locates.trans h₁.locates
  limits := h₂.limits.trans h₁.limits
  slots := fun k hk => (h₂.slots k hk).trans (h₁.slots k hk)
  exposure := h₂.exposure
  gross := h₂.gross.trans h₁.gross

theorem refresh_local {r₀ : RiskEngine} (hk : r₀.locates = r.locates) (hm : r₀.limits = r.limits)
    (hs : r₀.slots = r.slots) (hg : r₀.gross = r.gross) {s : Slot} (h : s.exposure = (r.slots l).exposure) :
    Local r (r₀.refresh l s) l where
  locates := hk
  limits := hm
  slots := fun k hk => by simp [refresh, hk, hs]
  exposure := by simp [refresh, worst, leg]
  gross := by
    simp only [refresh, Function.update_self]
    rw [h, hg]
    omega

theorem admitOrder_local (now : Nat) (h : (r.slots l).exposure = worst (r.slots l)) :
    Local r (r.admitOrder now) l := by
  unfold admitOrder rateRecord
  by_cases hz : r.rateSize = 0
  · rw [if_pos hz]
    exact .refl h
  · rw [if_neg hz]
    exact ⟨rfl, rfl, fun _ _ => rfl, h, rfl⟩

section
variable (h : (r.slots l).exposure = worst (r.slots l))

include h

theorem onOrderOpen_local : Local r (r.onOrderOpen l side q) l := by
  unfold onOrderOpen
  dsimp only
  split_ifs
  · refine refresh_local ?_ ?_ ?_ ?_ ?_ <;> rfl
  · refine refresh_local ?_ ?_ ?_ ?_ ?_ <;> rfl
  · exact .refl h

theorem onOrderGrow_local : Local r (r.onOrderGrow l side q) l := by
  unfold onOrderGrow
  split_ifs
  · refine refresh_local ?_ ?_ ?_ ?_ ?_ <;> rfl
  · exact .refl h

theorem onOrderReduce_local : Local r (r.onOrderReduce l side q) l := by
  unfold onOrderReduce
  split_ifs
  · refine refresh_local ?_ ?_ ?_ ?_ ?_ <;> rfl
  · exact .refl h

theorem onOrderEnd_local : Local r (r.onOrderEnd l side q) l := by
  unfold onOrderEnd
  dsimp only
  split_ifs
  · refine refresh_local ?_ ?_ ?_ ?_ ?_ <;> rfl
  · refine refresh_local ?_ ?_ ?_ ?_ ?_ <;> rfl
  · exact .refl h

omit h in
theorem Local.settle (h : Local r r' l) : Local r r'.settle l :=
  ⟨h.locates, h.limits, h.slots, h.exposure, h.gross⟩

theorem onFill_local (price : Int) : Local r (r.onFill l side q price) l := by
  unfold onFill
  dsimp only
  split_ifs
  · refine Local.settle (refresh_local ?_ ?_ ?_ ?_ ?_) <;> rfl
  · exact .refl h

theorem mark_local (price : Int) : Local r (r.mark l price) l := by
  unfold mark
  split_ifs
  · refine Local.settle (refresh_local ?_ ?_ ?_ ?_ ?_) <;> rfl
  · exact .refl h

end

theorem onFill_qty {price : Int} (hl : l < r.locates) (hq : q ≠ 0) (hp : 0 < price) (k : Nat) :
    ((r.onFill l side q price).slots k).pos.qty =
      if k = l then clamp64 ((r.slots l).pos.qty + if side = .buy then (q : Int) else -q)
      else (r.slots k).pos.qty := by
  unfold onFill
  dsimp only
  rw [if_pos ⟨hl, hq, hp⟩, settle_slots, refresh_pos]
  by_cases hk : k = l
  · subst hk
    rw [if_pos rfl, if_pos rfl, fillPosition]
    dsimp only
    split_ifs <;> rfl
  · rw [if_neg hk, if_neg hk]

theorem mark_pos (price : Int) (k : Nat) : ((r.mark l price).slots k).pos = (r.slots k).pos := by
  unfold mark
  split_ifs
  · rw [settle_slots, refresh_pos]
    by_cases hk : k = l <;> simp [hk]
  · rfl

/-! ## The limits -/

/-- The position and gross limits hold, whichever working orders fill. -/
structure Within (r : RiskEngine) : Prop where
  limit_nonneg : 0 ≤ r.limits.maxPosition
  range : ∀ k, -kInt64Max ≤ (r.slots k).pos.qty ∧ (r.slots k).pos.qty ≤ kInt64Max
  shares : ∀ k sd, 0 ≤ (r.slots k).openShares sd
  upper : ∀ k, (r.slots k).pos.qty + (r.slots k).openShares .buy ≤ r.limits.maxPosition
  lower : ∀ k, -r.limits.maxPosition ≤ (r.slots k).pos.qty - (r.slots k).openShares .sell
  exposure : ∀ k, (r.slots k).exposure = worst (r.slots k)
  gross : 0 < r.limits.maxGrossPosition → r.gross ≤ r.limits.maxGrossPosition

theorem leg_zero_buy (s : Slot) : leg s .buy 0 = s.pos.qty + s.openShares .buy := by
  simp [leg]

theorem leg_zero_sell (s : Slot) : leg s .sell 0 = s.pos.qty - s.openShares .sell := by
  simp [leg]

theorem clamp64_mono {a b : Int} (h : a ≤ b) : clamp64 a ≤ clamp64 b := by
  unfold clamp64 kInt64Max
  split_ifs <;> omega

theorem clamp64_le {a : Int} (h : 0 ≤ a) : clamp64 a ≤ a := by
  unfold clamp64 kInt64Max
  split_ifs <;> omega

theorem worst_mono {s s' : Slot} (h₁ : s.pos.qty - s.openShares .sell ≤ s'.pos.qty - s'.openShares .sell)
    (h₂ : s'.pos.qty + s'.openShares .buy ≤ s.pos.qty + s.openShares .buy)
    (h₃ : 0 ≤ s'.openShares .buy) (h₄ : 0 ≤ s'.openShares .sell) : worst s' ≤ worst s := by
  unfold worst
  rw [leg_zero_buy, leg_zero_buy, leg_zero_sell, leg_zero_sell]
  refine clamp64_mono ?_
  unfold magnitude
  split_ifs <;> omega

/-- **An operation that does not widen the interval of its instrument keeps the limits.** -/
theorem Within.shrink (h : Within r) (hl : Local r r' l)
    (hrange : -kInt64Max ≤ (r'.slots l).pos.qty ∧ (r'.slots l).pos.qty ≤ kInt64Max)
    (hsh : ∀ sd, 0 ≤ (r'.slots l).openShares sd)
    (hlo : (r.slots l).pos.qty - (r.slots l).openShares .sell ≤
      (r'.slots l).pos.qty - (r'.slots l).openShares .sell)
    (hhi : (r'.slots l).pos.qty + (r'.slots l).openShares .buy ≤
      (r.slots l).pos.qty + (r.slots l).openShares .buy) : Within r' := by
  have hworst := worst_mono hlo hhi (hsh .buy) (hsh .sell)
  have hexp := hl.exposure
  have hexp' := h.exposure l
  refine ⟨hl.limits ▸ h.limit_nonneg, fun k => ?_, fun k => ?_, fun k => ?_, fun k => ?_, fun k => ?_, ?_⟩
  · by_cases hk : k = l
    · rw [hk]; exact hrange
    · rw [hl.slots k hk]; exact h.range k
  · by_cases hk : k = l
    · rw [hk]; exact hsh
    · rw [hl.slots k hk]; exact h.shares k
  · rw [hl.limits]
    by_cases hk : k = l
    · rw [hk]; exact hhi.trans (h.upper l)
    · rw [hl.slots k hk]; exact h.upper k
  · rw [hl.limits]
    by_cases hk : k = l
    · rw [hk]; exact (h.lower l).trans hlo
    · rw [hl.slots k hk]; exact h.lower k
  · by_cases hk : k = l
    · rw [hk]; exact hexp
    · rw [hl.slots k hk]; exact h.exposure k
  · intro hg
    rw [hl.limits] at hg ⊢
    have := h.gross hg
    have := hl.gross
    omega

/-- `d` shares of working quantity on `side` go away, at most that many by execution. -/
theorem Within.release (h : Within r) (hl : Local r r' l) {d p : Int} (hp : 0 ≤ p) (hpd : p ≤ d)
    (hle : d ≤ (r.slots l).openShares side)
    (hpos : (r'.slots l).pos.qty = (r.slots l).pos.qty + if side = .buy then p else -p)
    (hrange : -kInt64Max ≤ (r'.slots l).pos.qty ∧ (r'.slots l).pos.qty ≤ kInt64Max)
    (hsh : ∀ sd, (r'.slots l).openShares sd = (r.slots l).openShares sd - if sd = side then d else 0) :
    Within r' := by
  have hnn := h.shares l
  refine h.shrink hl hrange (fun sd => ?_) ?_ ?_
  · rw [hsh]
    have := hnn sd
    split_ifs with hs
    · rw [hs]; omega
    · omega
  · rw [hsh, hpos]
    cases side with
    | buy => rw [if_pos rfl, if_neg (by decide)]; omega
    | sell => rw [if_neg (by decide), if_pos rfl]; omega
  · rw [hsh, hpos]
    cases side with
    | buy => rw [if_pos rfl, if_pos rfl]; omega
    | sell => rw [if_neg (by decide), if_neg (by decide)]; omega

/-- **An operation a verdict allowed keeps the limits**: `q` shares are added on `side`. -/
theorem Within.grow {openQty : Nat} {replacing : Bool} (h : Within r) (hl : Local r r' l)
    (hp : Passed r l side openQty q replacing) (hq : q ≠ 0) (hpos : (r'.slots l).pos.qty = (r.slots l).pos.qty)
    (hsh : ∀ sd, (r'.slots l).openShares sd =
      (r.slots l).openShares sd + if sd = side then (q : Int) else 0) : Within r' := by
  have hup := h.upper l
  have hlo := h.lower l
  have hb := h.shares l .buy
  have hs := h.shares l .sell
  have hpass := hp.position hq
  have hlim := h.limit_nonneg
  -- the leg that grows stays within the limit: the verdict's second way out is below `|pos|`
  have hleg : -r.limits.maxPosition ≤ leg (r.slots l) side q ∧ leg (r.slots l) side q ≤ r.limits.maxPosition := by
    unfold magnitude at hpass
    cases side <;> simp only [leg] at hpass ⊢ <;> split_ifs at hpass <;> omega
  have hworst : worst (r'.slots l) ≤
      max (magnitude (leg (r.slots l) side q)) (magnitude (leg (r.slots l) (opposite side) 0)) := by
    unfold worst
    rw [leg_zero_buy, leg_zero_sell, hsh, hsh, hpos]
    refine (clamp64_le ?_).trans ?_
    · unfold magnitude
      split_ifs <;> omega
    · unfold magnitude
      cases side <;> simp only [leg, opposite, reduceCtorEq, if_true, if_false] <;> split_ifs <;> omega
  have hexp := hl.exposure
  have hexp' := h.exposure l
  refine ⟨hl.limits ▸ hlim, fun k => ?_, fun k sd => ?_, fun k => ?_, fun k => ?_, fun k => ?_, ?_⟩
  · by_cases hk : k = l
    · rw [hk, hpos]; exact h.range l
    · rw [hl.slots k hk]; exact h.range k
  · by_cases hk : k = l
    · rw [hk, hsh]
      have := h.shares l sd
      split_ifs <;> omega
    · rw [hl.slots k hk]; exact h.shares k sd
  · rw [hl.limits]
    by_cases hk : k = l
    · rw [hk, hpos, hsh]
      cases side <;> simp only [leg, reduceCtorEq, if_true, if_false] at hleg ⊢ <;> omega
    · rw [hl.slots k hk]; exact h.upper k
  · rw [hl.limits]
    by_cases hk : k = l
    · rw [hk, hpos, hsh]
      cases side <;> simp only [leg, reduceCtorEq, if_true, if_false] at hleg ⊢ <;> omega
    · rw [hl.slots k hk]; exact h.lower k
  · by_cases hk : k = l
    · rw [hk]; exact hexp
    · rw [hl.slots k hk]; exact h.exposure k
  · intro hg
    rw [hl.limits] at hg ⊢
    have h₁ := h.gross hg
    have h₂ := hp.gross hq hg
    have h₃ := hl.gross
    omega

theorem Within.keep (h : Within r) (hl : r'.limits = r.limits) (hs : r'.slots = r.slots) (hg : r'.gross = r.gross) :
    Within r' := by
  refine ⟨?_, ?_, ?_, ?_, ?_, ?_, ?_⟩
  · rw [hl]; exact h.limit_nonneg
  · rw [hs]; exact h.range
  · rw [hs]; exact h.shares
  · rw [hs, hl]; exact h.upper
  · rw [hs, hl]; exact h.lower
  · rw [hs]; exact h.exposure
  · rw [hl, hg]; exact h.gross

theorem Within.mark (h : Within r) (l : Nat) (price : Int) : Within (r.mark l price) := by
  have hsame := mark_sameLedger r l price
  refine h.shrink (mark_local (l := l) (h.exposure l) price) ?_ ?_ ?_ ?_
  · rw [mark_pos]; exact h.range l
  · rw [hsame.shares]; exact h.shares l
  · rw [mark_pos, hsame.shares]
  · rw [mark_pos, hsame.shares]

theorem Within.new {limits : Limits} (h : 0 ≤ limits.maxPosition) (maxLocates : Nat) :
    Within (new limits maxLocates) where
  limit_nonneg := h
  range := fun _ => by simp [RiskEngine.new, kInt64Max]
  shares := fun _ _ => le_refl _
  upper := fun _ => by simpa [RiskEngine.new] using h
  lower := fun _ => by simpa [RiskEngine.new] using h
  exposure := fun _ => by simp [RiskEngine.new, worst, leg, magnitude, clamp64, kInt64Max]
  gross := fun h => h.le

end RiskEngine
end OptiTrade.Risk
