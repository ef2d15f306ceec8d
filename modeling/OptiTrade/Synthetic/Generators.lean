import OptiTrade.Synthetic.Shadow

/-! # What a generator can emit

`Emitted` lists the messages and what each does to the market, whatever was drawn. The generators that fall back
on each other never do so more than twice in a row, so a depth of three is enough from every state. -/

namespace OptiTrade.Synthetic
set_option autoImplicit false

open Itch (Message)

/-- All shares of an order, or some of them. -/
def Cut (o : Live) (shares : Nat) : Prop := shares = o.qty ∨ 1 ≤ shares ∧ shares < o.qty

namespace Market
variable {σ : Type} {D : Draws σ} {m : Market σ} {s : Nat} {p : Market σ × Message}

/-- A price up to 16 ticks away from the fair value. -/
def Passive (m : Market σ) (s : Nat) (side : Side) (px : Int) : Prop :=
  ∃ g : Nat, g ≤ 15 ∧ px =
    match side with
    | .buy => max m.tick ((m.syms s).fair - (1 + (g : Int)) * m.tick)
    | .sell => (m.syms s).fair + (1 + (g : Int)) * m.tick

/-- What a generator emits for symbol `s`, and the market after it. -/
inductive Emitted (m : Market σ) (s : Nat) : Market σ × Message → Prop
  | added {side : Side} {px : Int} {qty : Nat} (attributed : Bool) (r : σ) (hclear : m.reaches s side px = false)
      (hroom : (m.orders s side).length < kCap) (hpx : m.Passive s side px) (hqty : 1 ≤ qty ∧ qty ≤ 1000) :
      Emitted m s ({ m with rng := r }.emitAdd s side px qty attributed)
  | deleted {side : Side} {i : Nat} {o : Live} (r : σ) (h : (m.orders s side)[i]? = some o) :
      Emitted m s ({ m with rng := r }.removeAt s side i, .orderDelete ⟨m.header (locateOf s), o.ref⟩)
  | cancelled {side : Side} {i shares : Nat} {o : Live} (r : σ) (h : (m.orders s side)[i]? = some o)
      (hcut : Cut o shares) :
      Emitted m s ({ m with rng := r }.reduce s side i shares, .orderCancel ⟨m.header (locateOf s), o.ref, shares⟩)
  | executed {target : Side} {i shares : Nat} {o : Live} (r : σ)
      (h : bestOf target (m.orders s target) = some (i, o)) (hcut : Cut o shares) :
      Emitted m s ({ m with rng := r, matchNo := add64 m.matchNo 1 }.reduce s target i shares,
        .orderExecuted ⟨m.header (locateOf s), o.ref, shares, add64 m.matchNo 1⟩)
  | printed {target : Side} {i shares : Nat} {o : Live} {px : Int} (r : σ)
      (h : bestOf target (m.orders s target) = some (i, o)) (hcut : Cut o shares)
      (hpx : px = o.price ∨ m.tick ≤ px ∧ px ≤ o.price + |m.tick|) :
      Emitted m s ({ m with rng := r, matchNo := add64 m.matchNo 1 }.reduce s target i shares,
        .orderExecutedPrice ⟨m.header (locateOf s), o.ref, shares, add64 m.matchNo 1, true, px⟩)
  | replaced {side : Side} {i qty : Nat} {o : Live} {px : Int} (r : σ) (h : (m.orders s side)[i]? = some o)
      (hpx : px = o.price ∨ m.reaches s side px = false ∧ m.Passive s side px) (hqty : 1 ≤ qty ∧ qty ≤ 1000) :
      Emitted m s
        ({ m with rng := r, nextRef := add64 m.nextRef 1 }.setOrders s side
          ((m.orders s side).set i ⟨m.nextRef, px, qty⟩),
        .orderReplace ⟨m.header (locateOf s), o.ref, m.nextRef, qty, px⟩)
  | traded {lots : Nat} (side : Side) (r : σ) (hlots : lots < 5) :
      Emitted m s ({ m with rng := r, matchNo := add64 m.matchNo 1 },
        .trade ⟨m.header (locateOf s), 0, side, 100 * (1 + lots), (m.syms s).name, m.tradePrice s, add64 m.matchNo 1⟩)
  | event (code : Byte) (r : σ) :
      Emitted m s ({ m with rng := r, eventToggle := add32 m.eventToggle 1 }, .systemEvent ⟨m.header 0, code⟩)

theorem Emitted.of_rng {r : σ} (h : Emitted { m with rng := r } s p) : Emitted m s p := by
  cases h with
  | added attributed r' hclear hroom hpx hqty => exact .added attributed r' hclear hroom hpx hqty
  | deleted r' h => exact .deleted r' h
  | cancelled r' h hcut => exact .cancelled r' h hcut
  | executed r' h hcut => exact .executed r' h hcut
  | printed r' h hcut hpx => exact .printed r' h hcut hpx
  | replaced r' h hpx hqty => exact .replaced r' h hpx hqty
  | traded side r' hlots => exact .traded side r' hlots
  | event code r' => exact .event code r'

/-! ## Draws -/

theorem randomQty_bounds (D : Draws σ) (r : σ) : 1 ≤ (randomQty D r).1 ∧ (randomQty D r).1 ≤ 1000 := by
  have := D.bounded_lt 10 r (by decide)
  unfold randomQty
  dsimp only
  omega

theorem removalShares_cut (D : Draws σ) (o : Live) (pop : Nat) (r : σ) : Cut o (removalShares D o.qty pop r).1 := by
  unfold removalShares Cut
  dsimp only
  split_ifs with h₁ h₂
  · exact .inl rfl
  · exact .inl rfl
  · have := D.bounded_lt (o.qty - 1) (D.bounded 1000 r).2 (by omega)
    dsimp only
    omega

theorem passivePrice_passive (D : Draws σ) (m : Market σ) (s : Nat) (side : Side) (r : σ) :
    m.Passive s side (m.passivePrice D s side r).1 := by
  refine ⟨_, D.geometric_le 1 3 15 r, ?_⟩
  cases side <;> rfl

theorem pickAny_some (D : Draws σ) (r : σ) (h : m.population s ≠ 0) :
    ∃ o, (m.orders s (m.pickAny D s r).1.1)[(m.pickAny D s r).1.2]? = some o := by
  have hlt := D.bounded_lt ((m.orders s .buy).length + (m.orders s .sell).length) r (Nat.pos_of_ne_zero h)
  unfold pickAny
  dsimp only
  split_ifs with hbuy
  · exact ⟨_, List.getElem?_eq_getElem hbuy⟩
  · have hlt' : (D.bounded ((m.orders s .buy).length + (m.orders s .sell).length) r).1 - (m.orders s .buy).length <
        (m.orders s .sell).length := by omega
    exact ⟨_, List.getElem?_eq_getElem hlt'⟩

/-! ## The generators that fall back on each other -/

theorem genExecute_emits (D : Draws σ) {target : Side} {i : Nat} {o : Live}
    (h : bestOf target (m.orders s target) = some (i, o)) (want : Nat) (withPrice : Bool) :
    ∃ p, Emitted m s p ∧ ∀ d, genExecute D (d + 1) m s target want withPrice = some p := by
  let shares := if want ≠ 0 then (min want o.qty, m.rng) else removalShares D o.qty (m.population s) m.rng
  have hcut : Cut o shares.1 := by
    by_cases hw : want ≠ 0
    · rw [show shares = (min want o.qty, m.rng) from if_pos hw]
      unfold Cut
      dsimp only
      omega
    · rw [show shares = removalShares D o.qty (m.population s) m.rng from if_neg hw]
      exact removalShares_cut D o _ _
  cases withPrice with
  | true =>
    let inside := D.chance 1 4 shares.2
    let improved := match target with
      | .buy => o.price - m.tick
      | .sell => o.price + m.tick
    have hpx : (if inside.1 ∧ m.tick ≤ improved then improved else o.price) = o.price ∨
        m.tick ≤ (if inside.1 ∧ m.tick ≤ improved then improved else o.price) ∧
          (if inside.1 ∧ m.tick ≤ improved then improved else o.price) ≤ o.price + |m.tick| := by
      have habs := le_abs_self m.tick
      have hneg := neg_abs_le m.tick
      split_ifs with himp
      · refine .inr ⟨himp.2, ?_⟩
        cases target
        · show o.price - m.tick ≤ o.price + |m.tick|
          omega
        · show o.price + m.tick ≤ o.price + |m.tick|
          omega
      · exact .inl rfl
    refine ⟨_, .printed inside.2 h hcut hpx, fun d => ?_⟩
    rw [genExecute, h]
    rfl
  | false =>
    refine ⟨_, .executed shares.2 h hcut, fun d => ?_⟩
    rw [genExecute, h]
    rfl

theorem genDelete_emits (D : Draws σ) (h : m.population s ≠ 0) :
    ∃ p, Emitted m s p ∧ ∀ d, genDelete D (d + 1) m s = some p := by
  obtain ⟨o, ho⟩ := pickAny_some D m.rng h
  refine ⟨_, .deleted (m.pickAny D s m.rng).2 ho, fun d => ?_⟩
  rw [genDelete, if_neg h]
  dsimp only
  rw [slot_eq ho]

/-- **An add.** What it falls back on does not fall back on it. -/
theorem genAdd_emits (D : Draws σ) (m : Market σ) (s : Nat) : ∃ p, Emitted m s p ∧ ∀ d, genAdd D (d + 2) m s = some p := by
  let side := m.pickSide D m.rng
  let px := m.passivePrice D s side.1 side.2
  let qty := randomQty D px.2
  let attributed := D.chance 1 10 qty.2
  have hadd : ∀ d, genAdd D (d + 2) m s =
      if m.reaches s side.1 px.1 then genExecute D (d + 1) { m with rng := attributed.2 } s (opposite side.1) qty.1 false
      else if kCap ≤ (m.orders s side.1).length then genDelete D (d + 1) { m with rng := attributed.2 } s
      else some ({ m with rng := attributed.2 }.emitAdd s side.1 px.1 qty.1 attributed.1) := by
    intro d
    rw [genAdd]
    rfl
  by_cases hreach : m.reaches s side.1 px.1 = true
  · have hbest : ∃ i o, bestOf (opposite side.1) (m.orders s (opposite side.1)) = some (i, o) := by
      unfold reaches at hreach
      split at hreach
      · rename_i i o hb
        exact ⟨i, o, hb⟩
      · cases hreach
    obtain ⟨i, o, hb⟩ := hbest
    obtain ⟨p, hp, hrun⟩ := genExecute_emits (m := { m with rng := attributed.2 }) D hb qty.1 false
    refine ⟨p, hp.of_rng, fun d => ?_⟩
    rw [hadd, if_pos hreach]
    exact hrun d
  · by_cases hfull : kCap ≤ (m.orders s side.1).length
    · have hpop : { m with rng := attributed.2 }.population s ≠ 0 := by
        have hpos : 0 < (m.orders s side.1).length := lt_of_lt_of_le (by decide) hfull
        have hle : (m.orders s side.1).length ≤ m.population s := by
          unfold population
          cases side.1
          · exact Nat.le_add_right _ _
          · exact Nat.le_add_left _ _
        show m.population s ≠ 0
        omega
      obtain ⟨p, hp, hrun⟩ := genDelete_emits D hpop
      refine ⟨p, hp.of_rng, fun d => ?_⟩
      rw [hadd, if_neg hreach, if_pos hfull]
      exact hrun d
    · refine ⟨_, .added attributed.1 attributed.2 (by simpa using hreach) (by omega)
        (passivePrice_passive D m s side.1 side.2) (randomQty_bounds D px.2), fun d => ?_⟩
      rw [hadd, if_neg hreach, if_neg hfull]

/-- What a generator returns from some depth on. -/
def Ends (m : Market σ) (s : Nat) (gen : Nat → Option (Market σ × Message)) : Prop :=
  ∃ p, Emitted m s p ∧ ∀ d, gen (d + 3) = some p

theorem genAdd_ends (D : Draws σ) (m : Market σ) (s : Nat) : m.Ends s fun d => genAdd D d m s := by
  obtain ⟨p, hp, hrun⟩ := genAdd_emits D m s
  exact ⟨p, hp, fun d => hrun (d + 1)⟩

theorem genDelete_ends (D : Draws σ) (m : Market σ) (s : Nat) : m.Ends s fun d => genDelete D d m s := by
  by_cases h : m.population s = 0
  · obtain ⟨p, hp, hrun⟩ := genAdd_emits D m s
    refine ⟨p, hp, fun d => ?_⟩
    show genDelete D (d + 2 + 1) m s = some p
    rw [genDelete, if_pos h]
    exact hrun d
  · obtain ⟨p, hp, hrun⟩ := genDelete_emits D h
    exact ⟨p, hp, fun d => hrun (d + 2)⟩

theorem genExecute_ends (D : Draws σ) (m : Market σ) (s : Nat) (target : Side) (want : Nat) (withPrice : Bool) :
    m.Ends s fun d => genExecute D d m s target want withPrice := by
  cases h : bestOf target (m.orders s target) with
  | none =>
    obtain ⟨p, hp, hrun⟩ := genAdd_emits D m s
    refine ⟨p, hp, fun d => ?_⟩
    show genExecute D (d + 2 + 1) m s target want withPrice = some p
    rw [genExecute, h]
    exact hrun d
  | some b =>
    obtain ⟨p, hp, hrun⟩ := genExecute_emits D h want withPrice
    exact ⟨p, hp, fun d => hrun (d + 2)⟩

/-! ## The other generators -/

theorem genCancel_ends (D : Draws σ) (m : Market σ) (s : Nat) : m.Ends s fun d => m.genCancel D d s := by
  by_cases h : m.population s = 0
  · obtain ⟨p, hp, hrun⟩ := genAdd_ends D m s
    refine ⟨p, hp, fun d => ?_⟩
    show m.genCancel D (d + 3) s = _
    unfold genCancel
    rw [if_pos h]
    exact hrun d
  · obtain ⟨o, ho⟩ := pickAny_some D m.rng h
    let shares := removalShares D o.qty (m.population s) (m.pickAny D s m.rng).2
    have hcut : Cut o shares.1 := removalShares_cut D o _ _
    refine ⟨_, .cancelled shares.2 ho hcut, fun d => ?_⟩
    show m.genCancel D (d + 3) s = _
    unfold genCancel
    rw [if_neg h]
    dsimp only
    rw [slot_eq ho]

theorem genExecFlow_ends (D : Draws σ) (m : Market σ) (s : Nat) (withPrice : Bool) :
    m.Ends s fun d => m.genExecFlow D d s withPrice := by
  let aggressor := m.pickSide D m.rng
  let target := if (m.orders s (opposite aggressor.1)).length = 0 then aggressor.1 else opposite aggressor.1
  by_cases h : (m.orders s target).length = 0
  · obtain ⟨p, hp, hrun⟩ := genAdd_ends D { m with rng := aggressor.2 } s
    refine ⟨p, hp.of_rng, fun d => ?_⟩
    exact (if_pos h).trans (hrun d)
  · obtain ⟨p, hp, hrun⟩ := genExecute_ends D { m with rng := aggressor.2 } s target 0 withPrice
    refine ⟨p, hp.of_rng, fun d => ?_⟩
    exact (if_neg h).trans (hrun d)

theorem genReplace_ends (D : Draws σ) (m : Market σ) (s : Nat) : m.Ends s fun d => m.genReplace D d s := by
  by_cases h : m.population s = 0
  · obtain ⟨p, hp, hrun⟩ := genAdd_ends D m s
    refine ⟨p, hp, fun d => ?_⟩
    show m.genReplace D (d + 3) s = _
    unfold genReplace
    rw [if_pos h]
    exact hrun d
  · obtain ⟨o, ho⟩ := pickAny_some D m.rng h
    let side := (m.pickAny D s m.rng).1.1
    let px := m.passivePrice D s side (m.pickAny D s m.rng).2
    have hpx : (if m.reaches s side px.1 then o.price else px.1) = o.price ∨
        m.reaches s side (if m.reaches s side px.1 then o.price else px.1) = false ∧
          m.Passive s side (if m.reaches s side px.1 then o.price else px.1) := by
      split_ifs with hreach
      · exact .inl rfl
      · exact .inr ⟨by simpa using hreach, passivePrice_passive D m s side _⟩
    refine ⟨_, .replaced (randomQty D px.2).2 ho hpx (randomQty_bounds D px.2), fun d => ?_⟩
    show m.genReplace D (d + 3) s = _
    unfold genReplace
    rw [if_neg h]
    dsimp only
    rw [slot_eq ho]

theorem genTrade_emits (D : Draws σ) (m : Market σ) (s : Nat) : Emitted m s (m.genTrade D s) :=
  .traded (m.pickSide D m.rng).1 _ (D.bounded_lt 5 (m.pickSide D m.rng).2 (by decide))

/-! ## The flow -/

/-- The fair value of a symbol has made a step, or none. -/
def fairStep (m : Market σ) (s : Nat) (r : σ) (fair : Int) : Market σ :=
  { m with rng := r, syms := Function.update m.syms s { m.syms s with fair := fair } }

theorem stepFair_eq (D : Draws σ) (m : Market σ) (s : Nat) : ∃ r fair,
    m.stepFair D s = m.fairStep s r fair ∧
      (fair = (m.syms s).fair ∨ fair = clamp ((m.syms s).fair + m.tick) (m.syms s).lo (m.syms s).hi ∨
        fair = clamp ((m.syms s).fair + -m.tick) (m.syms s).lo (m.syms s).hi) := by
  unfold stepFair
  dsimp only
  by_cases hhit : (D.bounded 32 m.rng).1 ≠ 0
  · refine ⟨(D.bounded 32 m.rng).2, (m.syms s).fair, ?_, .inl rfl⟩
    rw [if_pos hhit]
    unfold fairStep
    rw [Function.update_eq_self]
  · rw [if_neg hhit]
    by_cases hup : (D.chance (if m.bull then 11 else 9) 20 (D.bounded 32 m.rng).2).1 = true
    · exact ⟨_, _, rfl, .inr (.inl (by rw [if_pos hup]))⟩
    · exact ⟨_, _, rfl, .inr (.inr (by rw [if_neg hup]))⟩

/-- **One flow message.** The fair value of one symbol moves, and one generator emits a message for it. -/
theorem genFlow_emits (D : Draws σ) (m : Market σ) (hsym : 0 < m.symbols) : ∃ s p r fair, s < m.symbols ∧
    (fair = (m.syms s).fair ∨ fair = clamp ((m.syms s).fair + m.tick) (m.syms s).lo (m.syms s).hi ∨
      fair = clamp ((m.syms s).fair + -m.tick) (m.syms s).lo (m.syms s).hi) ∧
    Emitted (m.fairStep s r fair) s p ∧ ∀ d, genFlow D m (d + 3) = some p := by
  let s := (D.bounded m.symbols m.rng).1
  have hs : s < m.symbols := D.bounded_lt m.symbols m.rng hsym
  obtain ⟨r, fair, hstep, hfair⟩ := stepFair_eq D { m with rng := (D.bounded m.symbols m.rng).2 } s
  let m' := m.fairStep s r fair
  let k := D.bounded 1000 m'.rng
  have hends : ∀ gen : Nat → Option (Market σ × Message), Ends { m' with rng := k.2 } s gen →
      (∀ d, genFlow D m d = gen d) → ∃ p, Emitted m' s p ∧ ∀ d, genFlow D m (d + 3) = some p := by
    rintro gen ⟨p, hp, hrun⟩ heq
    exact ⟨p, hp.of_rng, fun d => (heq (d + 3)).trans (hrun d)⟩
  have hflow : ∀ d, genFlow D m d =
      if k.1 < 410 then genAdd D d { m' with rng := k.2 } s
      else if k.1 < 636 then genDelete D d { m' with rng := k.2 } s
      else if k.1 < 718 then { m' with rng := k.2 }.genCancel D d s
      else if k.1 < 862 then { m' with rng := k.2 }.genExecFlow D d s false
      else if k.1 < 944 then { m' with rng := k.2 }.genReplace D d s
      else if k.1 < 965 then { m' with rng := k.2 }.genExecFlow D d s true
      else if k.1 < 996 then some ({ m' with rng := k.2 }.genTrade D s)
      else
        some ({ m' with rng := k.2, eventToggle := add32 m'.eventToggle 1 },
          .systemEvent ⟨m'.header 0, if m'.eventToggle % 2 = 0 then ascii 'Q' else ascii 'M'⟩) := by
    intro d
    unfold genFlow
    dsimp only
    rw [hstep]
    rfl
  suffices hp : ∃ p, Emitted m' s p ∧ ∀ d, genFlow D m (d + 3) = some p by
    obtain ⟨p, hp, hrun⟩ := hp
    exact ⟨s, p, r, fair, hs, hfair, hp, hrun⟩
  by_cases h₁ : k.1 < 410
  · exact hends _ (genAdd_ends D _ s) fun d => by rw [hflow, if_pos h₁]
  by_cases h₂ : k.1 < 636
  · exact hends _ (genDelete_ends D _ s) fun d => by rw [hflow, if_neg h₁, if_pos h₂]
  by_cases h₃ : k.1 < 718
  · exact hends _ (genCancel_ends D _ s) fun d => by rw [hflow, if_neg h₁, if_neg h₂, if_pos h₃]
  by_cases h₄ : k.1 < 862
  · exact hends _ (genExecFlow_ends D _ s false) fun d => by rw [hflow, if_neg h₁, if_neg h₂, if_neg h₃, if_pos h₄]
  by_cases h₅ : k.1 < 944
  · exact hends _ (genReplace_ends D _ s) fun d => by
      rw [hflow, if_neg h₁, if_neg h₂, if_neg h₃, if_neg h₄, if_pos h₅]
  by_cases h₆ : k.1 < 965
  · exact hends _ (genExecFlow_ends D _ s true) fun d => by
      rw [hflow, if_neg h₁, if_neg h₂, if_neg h₃, if_neg h₄, if_neg h₅, if_pos h₆]
  by_cases h₇ : k.1 < 996
  · refine ⟨_, (genTrade_emits D { m' with rng := k.2 } s).of_rng, fun d => ?_⟩
    rw [hflow, if_neg h₁, if_neg h₂, if_neg h₃, if_neg h₄, if_neg h₅, if_neg h₆, if_pos h₇]
  · refine ⟨_, .event (if m'.eventToggle % 2 = 0 then ascii 'Q' else ascii 'M') k.2, fun d => ?_⟩
    rw [hflow, if_neg h₁, if_neg h₂, if_neg h₃, if_neg h₄, if_neg h₅, if_neg h₆, if_neg h₇]

end Market
end OptiTrade.Synthetic
