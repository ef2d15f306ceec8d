import OptiTrade.Strategy.Discipline
import OptiTrade.Strategy.MicropriceMaker

/-! # The inventory of the market maker

The maker knows the id of its only order of each instrument and side, and sizes an order by the room that the
position leaves. So one order a side works, and the position stays within the inventory limit whichever of
them fills. -/

namespace OptiTrade.Strategy
set_option autoImplicit false

open Oms (Session OrderManager OrderInfo OrderRequest SubmitResult isTerminal)
open Oms.OrderManager (Tracks Over Idle Capped Room)
open Runs

namespace MicropriceMaker
variable {q : MicropriceMaker} {m : OrderManager} {c : MicropriceMakerConfig}

/-- The ids of the quotes are those of the working orders, each under the instrument and side of its order. -/
structure Quotes (q : MicropriceMaker) (m : OrderManager) : Prop where
  tracks : m.Tracks q.id
  owns : ∀ i < m.fresh, (m.slots i).working = true → ∀ l s, q.id l s = (m.slots i).info.id →
    (m.slots i).info.req.locate = l ∧ (m.slots i).info.req.side = s
  below : ∀ l s, q.id l s < m.nextId

theorem Quotes.fewer {m' : OrderManager} (h : q.Quotes m) (hf : m.Fewer m') (hn : m'.nextId = m.nextId) : q.Quotes m' := by
  refine ⟨h.tracks.fewer hf, fun i hi hw l s hid => ?_, fun l s => ?_⟩
  · obtain ⟨hi', hw', heq, hl, hs⟩ := hf i hi hw
    rw [hl, hs]
    exact h.owns i hi' hw' l s (hid.trans heq)
  · rw [hn]
    exact h.below l s

theorem Quotes.forget {q' : MicropriceMaker} (h : q.Quotes m) (hinv : m.Inv)
    (hids : ∀ l s, q'.id l s = q.id l s ∨ (q'.id l s = 0 ∧ m.Over (q.id l s))) : q'.Quotes m := by
  refine ⟨h.tracks.forget fun l s => (hids l s).imp_right And.right, fun i hi hw l s hid => ?_, fun l s => ?_⟩
  · rcases hids l s with heq | ⟨hz, _⟩
    · exact h.owns i hi hw l s (heq ▸ hid)
    · have := hinv.ids.id_pos i hi
      omega
  · rcases hids l s with heq | ⟨hz, _⟩
    · rw [heq]
      exact h.below l s
    · have := h.below l s
      omega

theorem setId_self (q : MicropriceMaker) (l : Nat) (s : Side) (id : Nat) : (q.setId l s id).id l s = id := by
  simp [setId]

theorem setId_ne (q : MicropriceMaker) {l l' : Nat} {s s' : Side} (id : Nat) (h : ¬(l' = l ∧ s' = s)) :
    (q.setId l s id).id l' s' = q.id l' s' := by
  show Function.update q.id l (Function.update (q.id l) s id) l' s' = q.id l' s'
  by_cases hl : l' = l
  · subst hl
    rw [Function.update_self, Function.update_of_ne fun hs => h ⟨rfl, hs⟩]
  · rw [Function.update_of_ne hl]

/-- The id of a new order is noted. -/
theorem Quotes.admitted {req : OrderRequest} {now : Nat} {reference : Nat → Int} {tokens : BoundedMap Nat Nat}
    (h : q.Quotes m) (hinv : m.Inv) (hs : m.Submittable req now reference tokens)
    (hidle : m.Idle req.locate req.side) :
    (q.setId req.locate req.side m.nextId).Quotes (m.admitted req now tokens) := by
  refine ⟨h.tracks.admitted hinv hs (setId_self ..) fun i hi hw => setId_ne _ _ (hidle i hi hw), ?_, fun l s => ?_⟩
  · intro i hi hw l s hid
    rcases OrderManager.admitted_slots hinv hs hi with ⟨_, he⟩ | ⟨hi', he⟩
    · rw [he] at hid ⊢
      by_cases hk : l = req.locate ∧ s = req.side
      · exact ⟨hk.1.symm, hk.2.symm⟩
      · rw [setId_ne _ _ hk] at hid
        exact absurd hid (h.below l s).ne
    · rw [he] at hid hw ⊢
      by_cases hk : l = req.locate ∧ s = req.side
      · rw [hk.1, hk.2, setId_self] at hid
        exact absurd hid.symm (hinv.ids.id_lt i hi').ne
      · rw [setId_ne _ _ hk] at hid
        exact h.owns i hi' hw l s hid
  · show _ < m.nextId + 1
    by_cases hk : l = req.locate ∧ s = req.side
    · rw [hk.1, hk.2, setId_self]
      exact Nat.lt_succ_self _
    · rw [setId_ne _ _ hk]
      exact (h.below l s).trans (Nat.lt_succ_self _)

/-! ## What a job asks for -/

/-- The ids after some orders that are over have been forgotten. -/
def Forgot (m : OrderManager) (q q' : MicropriceMaker) : Prop :=
  q'.cfg = q.cfg ∧ ∀ l s, q'.id l s = q.id l s ∨ (q'.id l s = 0 ∧ m.Over (q.id l s))

theorem Forgot.refl (m : OrderManager) (q : MicropriceMaker) : Forgot m q q := ⟨rfl, fun _ _ => .inl rfl⟩

theorem tracked_cases (q : MicropriceMaker) (l : Nat) (s : Side) (hinv : m.Inv) :
    (∃ q', q.tracked l s m = (q', none) ∧ Forgot m q q' ∧ m.Over (q.id l s)) ∨
    (∃ o, q.tracked l s m = (q, some o) ∧ m.find (q.id l s) = some o) := by
  have hdrop : m.Over (q.id l s) → Forgot m q (q.setId l s 0) := by
    intro ho
    refine ⟨rfl, fun l' s' => ?_⟩
    by_cases hk : l' = l ∧ s' = s
    · rw [hk.1, hk.2, setId_self]
      exact .inr ⟨rfl, ho⟩
    · exact .inl (setId_ne _ _ hk)
  unfold tracked
  split_ifs with h₀
  · exact .inl ⟨q, rfl, .refl m q, h₀ ▸ Over.zero hinv⟩
  · cases hf : m.find (q.id l s) with
    | none =>
      have ho : m.Over (q.id l s) := hinv.over_of_find fun o h => by rw [hf] at h; cases h
      exact .inl ⟨_, rfl, hdrop ho, ho⟩
    | some o =>
      dsimp only
      split_ifs with ht
      · have ho : m.Over (q.id l s) := hinv.over_of_find fun o' h => by
          rw [hf] at h
          exact Option.some.inj h ▸ ht
        exact .inl ⟨_, rfl, hdrop ho, ho⟩
      · exact .inr ⟨o, rfl, rfl⟩

/-- What a job can ask for. -/
inductive Asked (q : MicropriceMaker) (m : OrderManager) : Job → Option Request → Prop
  | none (j : Job) : Asked q m j none
  | cancel (j : Job) (id : Nat) : Asked q m j (some (.cancel id))
  | submit (l : Nat) (s : Side) (target : Int) (room : Nat) : m.Over (q.id l s) →
      Asked q m (.manage l s target room) (some (.submit ⟨l, s, target, room, .day⟩))
  | replace (l : Nat) (s : Side) (target : Int) (room : Nat) (o : OrderInfo) : m.find (q.id l s) = some o →
      Asked q m (.manage l s target room) (some (.replace (q.id l s) target (o.cumQty + room)))

theorem pull_asked (q : MicropriceMaker) (l : Nat) (s : Side) (ctx : Context) (hinv : ctx.orders.Inv) (j : Job) :
    Forgot ctx.orders q (q.pull l s ctx).1 ∧ Asked q ctx.orders j (q.pull l s ctx).2 := by
  unfold pull
  rcases q.tracked_cases l s hinv with ⟨q', ht, hq, _⟩ | ⟨o, ht, _⟩
  · rw [ht]
    exact ⟨hq, .none j⟩
  · rw [ht]
    dsimp only
    split_ifs
    · exact ⟨.refl _ q, .cancel j _⟩
    · exact ⟨.refl _ q, .none j⟩

theorem ask_asked (q : MicropriceMaker) (j : Job) (ctx : Context) (hinv : ctx.orders.Inv) :
    Forgot ctx.orders q (q.ask j ctx).1 ∧ Asked q ctx.orders j (q.ask j ctx).2 := by
  cases j with
  | pull l s => exact q.pull_asked l s ctx hinv _
  | manage l s target room =>
    show Forgot ctx.orders q (q.manage l s target room ctx).1 ∧ Asked q ctx.orders _ (q.manage l s target room ctx).2
    unfold manage
    split_ifs
    · exact q.pull_asked l s ctx hinv _
    · rcases q.tracked_cases l s hinv with ⟨q', ht, hq, ho⟩ | ⟨o, ht, hf⟩
      · rw [ht]
        exact ⟨hq, .submit l s target room ho⟩
      · rw [ht]
        dsimp only
        generalize (if o.req.price < target then target - o.req.price else o.req.price - target) = moved
        split_ifs
        · exact ⟨.refl _ q, .none _⟩
        · exact ⟨.refl _ q, .none _⟩
        · exact q.pull_asked l s ctx hinv _
        · exact ⟨.refl _ q, .replace l s target room o hf⟩

/-! ## The invariant -/

theorem sanitize_inventory (c : MicropriceMakerConfig) :
    0 ≤ (sanitize c).maxInventory ∧ (sanitize c).maxInventory ≤ 1000000000 :=
  ⟨le_clamp (by decide) _, clamp_le (by decide) _⟩

theorem sanitize_quoteQty (c : MicropriceMakerConfig) : (sanitize c).quoteQty ≤ kMaxOrderQty := clamp_le (by decide) _

/-- **The invariant** of the maker. -/
structure Keeps (c : MicropriceMakerConfig) (q : MicropriceMaker) (log : List (Nat × Nat)) (m : OrderManager) : Prop where
  cfg : q.cfg = sanitize c
  quotes : q.Quotes m
  capped : m.Capped (sanitize c).maxInventory

/-- A quote that there is room for. -/
def Fits (c : MicropriceMakerConfig) (seen : Nat → Int) : Job → Prop
  | .pull _ _ => True
  | .manage l s _ room => Room (sanitize c).maxInventory (seen l) s room

theorem Keeps.seen {log : List (Nat × Nat)} (h : Keeps c q log m) (hinv : m.Inv) (l : Nat) :
    -(sanitize c).maxInventory ≤ m.seen l ∧ m.seen l ≤ (sanitize c).maxInventory :=
  abs_le.mp (h.capped.seen hinv (sanitize_inventory c).1 l).2.2

theorem Keeps.range {log : List (Nat × Nat)} (h : Keeps c q log m) (hinv : m.Inv) (l : Nat) :
    -Risk.kInt64Max ≤ m.pos l ∧ m.pos l ≤ Risk.kInt64Max := by
  have h₁ := h.capped.pos_le hinv l
  have h₂ := (sanitize_inventory c).2
  unfold Risk.kInt64Max
  omega

theorem onBookUpdate_fits {log : List (Nat × Nat)} (l : Nat) {ctx : Context} (hinv : ctx.orders.Inv)
    (h : Keeps c q log ctx.orders) :
    (q.onBookUpdate l ctx).1 = q ∧ ∀ j ∈ (q.onBookUpdate l ctx).2, Fits c ctx.orders.seen j := by
  have hpull : ∀ j ∈ [Job.pull l .buy, Job.pull l .sell], Fits c ctx.orders.seen j := by
    intro j hj
    rcases List.mem_pair.mp hj with rfl | rfl <;> exact trivial
  unfold onBookUpdate
  split_ifs
  · exact ⟨rfl, fun j hj => by cases hj⟩
  · split
    · exact ⟨rfl, hpull⟩
    · rename_i touch _
      by_cases hspread : q.cfg.maxSpread < touch.ask - touch.bid
      · rw [if_pos hspread]
        exact ⟨rfl, hpull⟩
      · rw [if_neg hspread]
        obtain ⟨hlo, hhi⟩ := h.seen hinv l
        obtain ⟨h₀, h₁⟩ := sanitize_inventory c
        have hq := sanitize_quoteQty c
        -- the inventory is the position, since that is within the limit
        have hclamp : clamp (positionOf ctx.orders l) (-q.cfg.maxInventory) q.cfg.maxInventory = ctx.orders.seen l := by
          have hpos : positionOf ctx.orders l = ctx.orders.seen l := by
            show clamp (ctx.orders.seen l) _ _ = _
            unfold kPositionBound
            exact clamp_eq (by omega) (by omega)
          rw [hpos, h.cfg]
          exact clamp_eq hlo hhi
        refine ⟨rfl, fun j hj => ?_⟩
        dsimp only at hj
        rw [hclamp, h.cfg] at hj
        rcases List.mem_pair.mp hj with rfl | rfl
        · show ctx.orders.seen l + (toQty _ : Int) ≤ _
          rw [toQty_eq (by omega) (by omega)]
          omega
        · show -_ ≤ ctx.orders.seen l - (toQty _ : Int)
          rw [toQty_eq (by omega) (by omega)]
          omega

theorem onOrderUpdate_forgot (q : MicropriceMaker) (o : OrderInfo)
    (ho : isTerminal o.status = true → m.Over o.id) : Forgot m q (q.onOrderUpdate o) := by
  unfold onOrderUpdate
  split_ifs with h
  · exact .refl m q
  · refine ⟨rfl, fun l s => ?_⟩
    have hterm : isTerminal o.status = true := by simpa using fun h' => h (.inr h')
    show Function.update q.id o.req.locate _ l s = _ ∨ (Function.update q.id o.req.locate _ l s = 0 ∧ _)
    by_cases hl : l = o.req.locate
    · subst hl
      rw [Function.update_self]
      by_cases hid : q.id o.req.locate s = o.id
      · rw [if_pos hid]
        exact .inr ⟨rfl, hid ▸ ho hterm⟩
      · rw [if_neg hid]
        exact .inl rfl
    · rw [Function.update_of_ne hl]
      exact .inl rfl

theorem onOrderUpdate_working (q : MicropriceMaker) {o : OrderInfo} (ho : isTerminal o.status = false) :
    q.onOrderUpdate o = q := if_pos (.inr ho)

theorem Keeps.forgot {q' : MicropriceMaker} {log log' : List (Nat × Nat)} (h : Keeps c q log m) (hinv : m.Inv)
    (hf : Forgot m q q') : Keeps c q' log' m :=
  ⟨hf.1.trans h.cfg, h.quotes.forget hinv hf.2, h.capped⟩

/-- **The maker keeps its inventory.** -/
theorem disciplined (c : MicropriceMakerConfig) : Disciplined callbacks (Keeps c) (Fits c) where
  lightens := fun q log m m' hinv hl h => by
    obtain ⟨he, hf⟩ := hl.eases hinv (h.range hinv)
    exact ⟨h.cfg, h.quotes.fewer hf hl.nextId, h.capped.eases he⟩
  update := fun q log m info hinv hover h => h.forgot hinv (q.onOrderUpdate_forgot info hover)
  book := fun q log l ctx hinv h => by
    obtain ⟨heq, hfit⟩ := onBookUpdate_fits l hinv h
    exact ⟨heq.symm ▸ h, hfit⟩
  ask := fun q log j ctx hinv h _ => h.forgot hinv (q.ask_asked j ctx hinv).1
  refused := fun q log j ctx req r hinv h _ _ hr => by
    have h' : Keeps c (q.ask j ctx).1 (log ++ [(req.locate, ctx.now)]) ctx.orders :=
      h.forgot hinv (q.ask_asked j ctx hinv).1
    show Keeps c ((q.ask j ctx).1.answer j ctx.now r) _ _
    unfold answer
    cases j with
    | pull l s => exact h'
    | manage l s target room =>
      dsimp only
      rw [if_neg hr]
      exact h'
  accepted := fun q log j ctx req reference tokens hinv h hfit hreq hs => by
    obtain ⟨hforgot, hasked⟩ := q.ask_asked j ctx hinv
    have hreq : (q.ask j ctx).2 = some (.submit req) := hreq
    rw [hreq] at hasked
    have h' : Keeps c (q.ask j ctx).1 log ctx.orders := h.forgot hinv hforgot
    show Keeps c (((q.ask j ctx).1.onOrderUpdate _).answer j ctx.now _) _ _
    rw [onOrderUpdate_working _ rfl]
    generalize (q.ask j ctx).1 = q' at h'
    cases hasked with
    | submit l s target room hover =>
      have hidle : ctx.orders.Idle l s := h.quotes.tracks.idle hover
      have hroom : Room (sanitize c).maxInventory (ctx.orders.pos l) s room := by
        rw [← OrderManager.seen_eq hs.locate_lt]
        exact hfit
      exact ⟨h'.cfg, h'.quotes.admitted hinv hs hidle, h'.capped.admitted hinv hs hidle hroom⟩
  replaced := fun q log j ctx id price qty i reference tokens hinv h hfit hreq hi hid hr => by
    obtain ⟨hforgot, hasked⟩ := q.ask_asked j ctx hinv
    have hreq : (q.ask j ctx).2 = some (.replace id price qty) := hreq
    rw [hreq] at hasked
    have h' : Keeps c (q.ask j ctx).1 log ctx.orders := h.forgot hinv hforgot
    show Keeps c (q.ask j ctx).1 log _
    generalize (q.ask j ctx).1 = q' at h'
    cases hasked with
    | replace l s target room o hf =>
      obtain ⟨hl, hside⟩ := h.quotes.owns i hi hr.working l s hid.symm
      obtain ⟨k, hk, hkid, rfl⟩ := hinv.find_some.mp hf
      obtain rfl : k = i := hinv.slot_unique hk hi (hkid.trans hid.symm)
      have hroom : Room (sanitize c).maxInventory (ctx.orders.pos (ctx.orders.slots k).info.req.locate)
          (ctx.orders.slots k).info.req.side
          ((ctx.orders.slots k).info.cumQty + room - (ctx.orders.slots k).info.cumQty) := by
        rw [Nat.add_sub_cancel_left, ← OrderManager.seen_eq (hinv.ledger.locate k hi), hl, hside]
        exact hfit
      refine ⟨h'.cfg, h'.quotes.fewer (OrderManager.Fewer.replaced hi hr) ?_,
        h'.capped.replaced hinv hi hr h'.quotes.tracks hroom⟩
      exact (OrderManager.settle_table _ _ _ _).nextId

/-- **The inventory bound.** In every state that an engine with this strategy can reach, whatever the feed, the
gateway and the exchange do, as long as no applied execution exceeds the leaves of its order: at most one order
works on each side of an instrument, and the position is within the limit whichever of them fills. -/
theorem maker_inventory_bound (config : Engine.Config) (c : MicropriceMakerConfig) (is : List Input)
    (d : Desk MicropriceMaker Job) (hr : run (Desk.step callbacks) (Desk.new config (new c)) is = some d)
    (hx : Along (Desk.step callbacks) Desk.withinLeaves (Desk.new config (new c)) is) :
    (∀ i j, i < d.manager.fresh → j < d.manager.fresh → (d.manager.slots i).working = true →
      (d.manager.slots j).working = true →
      (d.manager.slots i).info.req.locate = (d.manager.slots j).info.req.locate →
      (d.manager.slots i).info.req.side = (d.manager.slots j).info.req.side → i = j) ∧
    ∀ l, (d.manager.risk.position l).qty + ((∑ i ∈ Finset.range d.manager.fresh, (d.manager.slots i).held l .buy : Nat) : Int) ≤
        (sanitize c).maxInventory ∧
      -(sanitize c).maxInventory ≤
        (d.manager.risk.position l).qty - ((∑ i ∈ Finset.range d.manager.fresh, (d.manager.slots i).held l .sell : Nat) : Int) ∧
      |(d.manager.risk.position l).qty| ≤ (sanitize c).maxInventory := by
  have hlim := (sanitize_inventory c).1
  have hnew : Keeps c (new c) [] (Engine.new config).session.manager :=
    ⟨rfl, ⟨fun i hi => absurd hi (Nat.not_lt_zero i), fun i hi => absurd hi (Nat.not_lt_zero i), fun _ _ => Nat.one_pos⟩,
      Desk.capped_new config hlim⟩
  have h := Desk.run_held (disciplined c) hnew hr hx
  have hinv := h.ok.session.inv
  exact ⟨fun i j hi hj hwi hwj hl hs => h.holds.quotes.tracks.unique hinv hi hj hwi hwj hl hs,
    fun l => h.holds.capped.seen hinv hlim l⟩

/-- A step of the engine, its gateway taking everything. -/
def takeAll : Input := .go fun _ => true

/-- A bid and an offer come in, and the maker quotes both sides; 60 shares of its bid are executed. -/
def quoteBothSides : List Input :=
  [.itch (some (.stockDirectory ⟨⟨1, 0, 0⟩, .ofText [65, 66, 67, 68], 0, 0, 100, 0, 0, [], 0, 0, 0, 0, 0,
      0, 0⟩)) 1, takeAll,
    .itch (some (.addOrder ⟨⟨1, 0, 0⟩, 1, .buy, 100, .ofText [65, 66, 67, 68], 10000, false, []⟩)) 2,
    takeAll, takeAll, takeAll, takeAll,
    .itch (some (.addOrder ⟨⟨1, 0, 0⟩, 2, .sell, 100, .ofText [65, 66, 67, 68], 10200, false, []⟩)) 3,
    takeAll, takeAll, takeAll, takeAll, takeAll, takeAll,
    .ouch (some (.accepted { token := Ouch.Token.fromId 1, side := .buy, shares := 100, price := 10000 })) 4, takeAll, takeAll,
    .ouch (some (.executed { ts := 5, token := Ouch.Token.fromId 1, shares := 60, price := 10000, matchNo := 1 })) 5,
    takeAll, takeAll, takeAll]

theorem maker_inventory_both_sides :
    ∃ d, run (Desk.step callbacks) (Desk.new {} (new {})) quoteBothSides = some d ∧ d.manager.opened = 2 ∧
      (d.manager.slots 0).held 1 .buy = 40 ∧ (d.manager.slots 1).held 1 .sell = 100 ∧
      (d.manager.risk.position 1).qty = 60 ∧ |(d.manager.risk.position 1).qty| ≤ 500 := by
  have hview : (run (Desk.step callbacks) (Desk.new {} (new {})) quoteBothSides).map (fun d =>
      (d.manager.opened, (d.manager.slots 0).held 1 .buy, (d.manager.slots 1).held 1 .sell,
        (d.manager.risk.position 1).qty)) = some (2, 40, 100, 60) := by
    decide +kernel
  obtain ⟨d, hr, hv⟩ := Option.map_eq_some_iff.mp hview
  obtain ⟨h₁, h₂⟩ := Prod.mk.inj hv
  obtain ⟨h₂, h₃⟩ := Prod.mk.inj h₂
  obtain ⟨h₃, h₄⟩ := Prod.mk.inj h₃
  have hx : Along (Desk.step callbacks) Desk.withinLeaves (Desk.new {} (new {})) quoteBothSides := by decide +kernel
  exact ⟨d, hr, h₁, h₂, h₃, h₄, ((maker_inventory_bound {} {} quoteBothSides d hr hx).2 1).2.2⟩

end MicropriceMaker
end OptiTrade.Strategy
