import OptiTrade.Strategy.Discipline
import OptiTrade.Strategy.Takers

/-! # Position and pace of the takers

The gate of a locate names its only working order and the time of its last attempt. An attempt that stays
between the position and the target is then still there after any of its fills. -/

namespace OptiTrade.Strategy
set_option autoImplicit false

open Oms (Session OrderManager OrderInfo OrderRequest SubmitResult isTerminal)
open Oms.OrderManager (Tracks Over Idle Capped Room)
open Runs

/-- `qty` more shares do not take the position past the target. -/
def Attempt.Stops (a : Attempt) (pos qty : Int) : Prop :=
  match a.side with
  | .buy => pos + qty ≤ a.target
  | .sell => a.target ≤ pos - qty

theorem Attempt.Stops.mono {a : Attempt} {pos q q' : Int} (h : a.Stops pos q) (hq : q' ≤ q) : a.Stops pos q' := by
  unfold Attempt.Stops at h ⊢
  cases hsd : a.side with
  | buy =>
    rw [hsd] at h
    dsimp only at h ⊢
    omega
  | sell =>
    rw [hsd] at h
    dsimp only at h ⊢
    omega

/-- An attempt as the strategies make them, from the position they see to a target within `cap`. -/
structure Attempt.Sized (cap : Int) (aims : Attempt → Prop) (seen : Nat → Int) (a : Attempt) : Prop where
  stops : a.Stops (seen a.locate) a.qty
  target : -cap ≤ a.target ∧ a.target ≤ cap
  aims : aims a

theorem Attempt.Sized.room {cap : Int} {aims : Attempt → Prop} {seen : Nat → Int} {a : Attempt} (h : a.Sized cap aims seen) :
    Room cap (seen a.locate) a.side a.qty := by
  have hs := h.stops
  have ht := h.target
  unfold Attempt.Stops at hs
  unfold Room
  cases hsd : a.side with
  | buy =>
    rw [hsd] at hs
    exact hs.trans ht.2
  | sell =>
    rw [hsd] at hs
    exact ht.1.trans hs

/-! ## The gate -/

namespace OrderGate
variable {m : OrderManager}

theorem over_of_not_busy (g : OrderGate) (hinv : m.Inv) (hb : g.busy m = false) : m.Over g.inflight := by
  by_cases h₀ : g.inflight = 0
  · rw [h₀]
    exact Over.zero hinv
  · refine hinv.over_of_find fun o ho => ?_
    simpa [busy, h₀, ho] using hb

theorem ready_cases (g : OrderGate) (now cooldown : Nat) (hinv : m.Inv) :
    g.ready now cooldown m = (g, false) ∨
    (m.Over g.inflight ∧ ∃ ok, g.ready now cooldown m = ({ g with inflight := 0 }, ok) ∧
      (ok = true → g.hasLast = true → g.last + cooldown ≤ now)) := by
  unfold ready
  cases hb : g.busy m with
  | true => exact .inl rfl
  | false =>
    refine .inr ⟨g.over_of_not_busy hinv hb, _, rfl, fun hok hl => ?_⟩
    simp only [hl, Bool.not_true, Bool.false_or, Bool.and_eq_true, decide_eq_true_eq] at hok
    omega

theorem onUpdate_cases (g : OrderGate) (o : OrderInfo) :
    g.onUpdate o = g ∨ (g.onUpdate o = { g with inflight := 0 } ∧ o.id = g.inflight ∧ isTerminal o.status = true) := by
  unfold onUpdate
  split_ifs with h
  · exact .inr ⟨rfl, h.2⟩
  · exact .inl rfl

theorem onUpdate_working (g : OrderGate) {o : OrderInfo} (ho : isTerminal o.status = false) : g.onUpdate o = g :=
  if_neg fun h => by rw [ho] at h; exact Bool.false_ne_true h.2.2

end OrderGate

/-! ## The invariant -/

/-- The times of the attempts on a locate. -/
def times (log : List (Nat × Nat)) (l : Nat) : List Nat := (log.filter fun x => x.1 = l).map Prod.snd

theorem times_self (log : List (Nat × Nat)) (l now : Nat) : times (log ++ [(l, now)]) l = times log l ++ [now] := by
  simp [times]

theorem times_ne (log : List (Nat × Nat)) {l k : Nat} (now : Nat) (h : k ≠ l) : times (log ++ [(l, now)]) k = times log k := by
  simp [times, Ne.symm h]

namespace Taker
variable {σ : Type} {cap : Int} {cooldown : Nat} {aims : Attempt → Prop} {sound : σ → Prop} {t t' : Taker σ} {log : List (Nat × Nat)}
  {m m' : OrderManager}

/-- The gate knows the last attempt, and the attempts were spaced. -/
structure Spaced (cooldown : Nat) (log : List (Nat × Nat)) (l : Nat) (g : OrderGate) : Prop where
  chain : (times log l).IsChain fun x y => x + cooldown ≤ y
  last : (times log l).getLast? = if g.hasLast = true then some g.last else none

/-- **The invariant** of a taker. -/
structure Paced (cap : Int) (cooldown : Nat) (aims : Attempt → Prop) (sound : σ → Prop) (t : Taker σ)
    (log : List (Nat × Nat)) (m : OrderManager) : Prop where
  signal : sound t.signal
  tracks : m.Tracks fun l _ => (t.gates l).inflight
  capped : m.Capped cap
  /-- The last order that was accepted, whether it still works or not. -/
  placed : ∀ l a, t.placed l = some a →
    l < m.risk.locates ∧ aims a ∧ a.Stops (m.pos l) (m.shares l a.side)
  owner : ∀ i < m.fresh, (m.slots i).working = true →
    ∃ a, t.placed (m.slots i).info.req.locate = some a ∧ a.side = (m.slots i).info.req.side
  spaced : ∀ l, Spaced cooldown log l (t.gates l)

theorem Paced.range (h : Paced cap cooldown aims sound t log m) (hinv : m.Inv) (hcap : cap ≤ kPositionBound) (l : Nat) :
    -Risk.kInt64Max ≤ m.pos l ∧ m.pos l ≤ Risk.kInt64Max := by
  have h₁ := h.capped.pos_le hinv l
  unfold kPositionBound at hcap
  unfold Risk.kInt64Max
  omega

theorem Paced.lightens (h : Paced cap cooldown aims sound t log m) (hinv : m.Inv) (hcap : cap ≤ kPositionBound)
    (hl : Session.Lightens m m') : Paced cap cooldown aims sound t log m' := by
  obtain ⟨he, hf⟩ := hl.eases hinv (h.range hinv hcap)
  refine ⟨h.signal, h.tracks.fewer hf, h.capped.eases he, fun l a hp => ?_, fun i hi hw => ?_, h.spaced⟩
  · obtain ⟨hlt, ha, hstops⟩ := h.placed l a hp
    refine ⟨hl.locates ▸ hlt, ha, ?_⟩
    unfold Attempt.Stops at hstops ⊢
    cases hsd : a.side with
    | buy =>
      rw [hsd] at hstops
      exact (he.upper l).trans hstops
    | sell =>
      rw [hsd] at hstops
      exact hstops.trans (he.lower l)
  · obtain ⟨hi', hw', _, hloc, hside⟩ := hf i hi hw
    rw [hloc, hside]
    exact h.owner i hi' hw'

/-- A gate may forget an order that is over. -/
theorem Paced.forget (h : Paced cap cooldown aims sound t log m) (l : Nat) {g : OrderGate}
    (hg : g = t.gates l ∨ (g = { t.gates l with inflight := 0 } ∧ m.Over (t.gates l).inflight)) :
    Paced cap cooldown aims sound (t.setGate l g) log m := by
  refine ⟨h.signal, h.tracks.forget fun k sd => ?_, h.capped, h.placed, h.owner, fun k => ?_⟩
  · show (Function.update t.gates l g k).inflight = _ ∨ _
    by_cases hk : k = l
    · subst hk
      rw [Function.update_self]
      rcases hg with rfl | ⟨rfl, ho⟩
      · exact .inl rfl
      · exact .inr ho
    · rw [Function.update_of_ne hk]
      exact .inl rfl
  · have hk := h.spaced k
    show Spaced cooldown log k (Function.update t.gates l g k)
    by_cases hkl : k = l
    · subst hkl
      rw [Function.update_self]
      rcases hg with rfl | ⟨rfl, _⟩
      · exact hk
      · exact ⟨hk.chain, hk.last⟩
    · rwa [Function.update_of_ne hkl]

theorem Paced.onOrderUpdate (h : Paced cap cooldown aims sound t log m) (maxLocates : Nat) (o : OrderInfo)
    (ho : isTerminal o.status = true → m.Over o.id) : Paced cap cooldown aims sound (t.onOrderUpdate maxLocates o) log m := by
  unfold Taker.onOrderUpdate
  split_ifs
  · refine h.forget o.req.locate ?_
    rcases (t.gates o.req.locate).onUpdate_cases o with heq | ⟨heq, hid, ht⟩
    · exact .inl heq
    · exact .inr ⟨heq, hid ▸ ho ht⟩
  · exact h

theorem Paced.ask (h : Paced cap cooldown aims sound t log m) {ctx : Context} (hctx : ctx.orders = m) (hinv : m.Inv) (a : Attempt) :
    Paced cap cooldown aims sound (t.ask cooldown a ctx).1 log m := by
  subst hctx
  show Paced cap cooldown aims sound (t.setGate a.locate ((t.gates a.locate).ready ctx.now cooldown ctx.orders).1) log _
  refine h.forget a.locate ?_
  rcases (t.gates a.locate).ready_cases ctx.now cooldown hinv with heq | ⟨ho, ok, heq, _⟩
  · exact .inl (congrArg Prod.fst heq)
  · exact .inr ⟨congrArg Prod.fst heq, ho⟩

theorem ask_submit {ctx : Context} {a : Attempt} {req : OrderRequest} (hinv : ctx.orders.Inv)
    (hreq : (t.ask cooldown a ctx).2 = some (.submit req)) :
    req = ⟨a.locate, a.side, a.price, a.qty, .ioc⟩ ∧ ctx.orders.Over (t.gates a.locate).inflight ∧
      (t.ask cooldown a ctx).1 = t.setGate a.locate { t.gates a.locate with inflight := 0 } ∧
      ((t.gates a.locate).hasLast = true → (t.gates a.locate).last + cooldown ≤ ctx.now) := by
  unfold Taker.ask at hreq ⊢
  rcases (t.gates a.locate).ready_cases ctx.now cooldown hinv with heq | ⟨ho, ok, heq, hgap⟩
  · rw [heq] at hreq
    cases hreq
  · rw [heq] at hreq ⊢
    cases ok with
    | false => cases hreq
    | true =>
      have hreq := Option.some.inj hreq
      injection hreq with hreq
      exact ⟨hreq.symm, ho, rfl, hgap rfl⟩

theorem Spaced.sent {l now : Nat} {g : OrderGate} (h : Spaced cooldown log l g)
    (hgap : g.hasLast = true → g.last + cooldown ≤ now) (r : SubmitResult) :
    Spaced cooldown (log ++ [(l, now)]) l (g.sent now r) := by
  refine ⟨?_, ?_⟩
  · rw [times_self]
    refine h.chain.append (List.isChain_singleton _) fun x hx y hy => ?_
    obtain rfl : y = now := by simpa using hy.symm
    rw [h.last] at hx
    split_ifs at hx with hl
    · obtain rfl : g.last = x := by simpa using hx
      exact hgap hl
    · cases hx
  · rw [times_self]
    simp [OrderGate.sent]

theorem Spaced.other {l k now : Nat} {g : OrderGate} (h : Spaced cooldown log k g) (hk : k ≠ l) :
    Spaced cooldown (log ++ [(l, now)]) k g :=
  ⟨by rw [times_ne log now hk]; exact h.chain, by rw [times_ne log now hk]; exact h.last⟩

/-- A submit that is refused only counts as an attempt. -/
theorem Paced.refused (h : Paced cap cooldown aims sound t log m) {a : Attempt} {now : Nat} {r : SubmitResult} (hr : r.status ≠ .ok)
    (hgap : (t.gates a.locate).hasLast = true → (t.gates a.locate).last + cooldown ≤ now) :
    Paced cap cooldown aims sound (t.answer a now r) (log ++ [(a.locate, now)]) m := by
  have hplaced : (t.answer a now r).placed = t.placed := if_neg hr
  refine ⟨h.signal, h.tracks.forget fun k sd => .inl ?_, h.capped, hplaced ▸ h.placed, hplaced ▸ h.owner, fun k => ?_⟩
  · show (Function.update t.gates a.locate ((t.gates a.locate).sent now r) k).inflight = _
    by_cases hk : k = a.locate
    · subst hk
      rw [Function.update_self]
      exact if_neg hr
    · rw [Function.update_of_ne hk]
  · show Spaced cooldown _ k (Function.update t.gates a.locate ((t.gates a.locate).sent now r) k)
    by_cases hk : k = a.locate
    · subst hk
      rw [Function.update_self]
      exact (h.spaced a.locate).sent hgap r
    · rw [Function.update_of_ne hk]
      exact (h.spaced k).other hk

theorem onOrderUpdate_working (t : Taker σ) (maxLocates : Nat) {o : OrderInfo} (ho : isTerminal o.status = false) :
    t.onOrderUpdate maxLocates o = t := by
  unfold Taker.onOrderUpdate
  split_ifs
  · rw [OrderGate.onUpdate_working _ ho]
    unfold setGate
    rw [Function.update_eq_self]
  · rfl

/-- **An accepted order** is the only one of its instrument, and stops at its target. -/
theorem Paced.accepted (h : Paced cap cooldown aims sound t log m) (hinv : m.Inv) {a : Attempt} {now : Nat}
    {reference : Nat → Int} {tokens : BoundedMap Nat Nat}
    (hs : m.Submittable ⟨a.locate, a.side, a.price, a.qty, .ioc⟩ now reference tokens) (hfit : a.Sized cap aims m.seen)
    (ho : m.Over (t.gates a.locate).inflight)
    (hgap : (t.gates a.locate).hasLast = true → (t.gates a.locate).last + cooldown ≤ now) :
    Paced cap cooldown aims sound (t.answer a now ⟨.ok, m.nextId, .none⟩) (log ++ [(a.locate, now)])
      (m.admitted ⟨a.locate, a.side, a.price, a.qty, .ioc⟩ now tokens) := by
  have hidle : ∀ sd, m.Idle a.locate sd := by
    intro sd
    have hsd : m.Over ((fun l (_ : Side) => (t.gates l).inflight) a.locate sd) := ho
    exact h.tracks.idle hsd
  have hother : ∀ i < m.fresh, (m.slots i).working = true → (m.slots i).info.req.locate ≠ a.locate :=
    fun i hi hw hl => hidle _ i hi hw ⟨hl, rfl⟩
  have hseen : m.seen a.locate = m.pos a.locate := OrderManager.seen_eq hs.locate_lt
  have hroom := hfit.room
  rw [hseen] at hroom
  refine ⟨h.signal, h.tracks.admitted hinv hs ?_ fun i hi hw => ?_, h.capped.admitted hinv hs (hidle _) hroom, ?_, ?_, fun k => ?_⟩
  · show (Function.update t.gates a.locate _ a.locate).inflight = _
    rw [Function.update_self]
    rfl
  · show (Function.update t.gates a.locate _ (m.slots i).info.req.locate).inflight = _
    rw [Function.update_of_ne (hother i hi hw)]
  · intro l b hb
    have hb : Function.update t.placed a.locate (some a) l = some b := hb
    rw [OrderManager.admitted_locates, OrderManager.admitted_pos, OrderManager.admitted_shares hinv hs]
    by_cases hl : l = a.locate
    · subst hl
      rw [Function.update_self] at hb
      cases hb
      rw [if_pos ⟨rfl, rfl⟩, (hidle _).shares hinv, zero_add, ← hseen]
      exact ⟨hs.locate_lt, hfit.aims, hfit.stops⟩
    · rw [Function.update_of_ne hl] at hb
      rw [if_neg fun hk => hl hk.1, add_zero]
      exact h.placed l b hb
  · intro i hi hw
    show ∃ b, Function.update t.placed a.locate (some a) _ = some b ∧ _
    rcases OrderManager.admitted_slots hinv hs hi with ⟨_, he⟩ | ⟨hi', he⟩
    · rw [he]
      exact ⟨a, Function.update_self .., rfl⟩
    · rw [he] at hw ⊢
      rw [Function.update_of_ne (hother i hi' hw)]
      exact h.owner i hi' hw
  · show Spaced cooldown _ k (Function.update t.gates a.locate ((t.gates a.locate).sent now _) k)
    by_cases hk : k = a.locate
    · subst hk
      rw [Function.update_self]
      exact (h.spaced a.locate).sent hgap _
    · rw [Function.update_of_ne hk]
      exact (h.spaced k).other hk

/-- **The takers keep their pace and their position**, if their attempts are sized by the position. -/
theorem disciplined {maxLocates : Nat} {update : σ → Nat → Context → σ × Option Attempt} (hcap : cap ≤ kPositionBound)
    (hsound : ∀ s l ctx, sound s → sound (update s l ctx).1)
    (hsized : ∀ s l ctx a, sound s → (∀ k, -cap ≤ ctx.orders.seen k ∧ ctx.orders.seen k ≤ cap) → (update s l ctx).2 = some a →
      a.Sized cap aims ctx.orders.seen) (h₀ : 0 ≤ cap) :
    Disciplined (callbacks maxLocates cooldown update) (Paced cap cooldown aims sound) (Attempt.Sized cap aims) where
  lightens := fun t log m m' hinv hl h => h.lightens hinv hcap hl
  update := fun t log m info hinv hover h => h.onOrderUpdate maxLocates info hover
  book := fun t log l ctx hinv h => by
    refine ⟨⟨hsound _ l ctx h.signal, h.tracks, h.capped, h.placed, h.owner, h.spaced⟩, fun a ha => ?_⟩
    refine hsized t.signal l ctx a h.signal (fun k => abs_le.mp (h.capped.seen hinv h₀ k).2.2) ?_
    exact Option.mem_toList.mp ha
  ask := fun t log a ctx hinv h _ => h.ask rfl hinv a
  refused := fun t log a ctx req r hinv h _ hreq hr => by
    obtain ⟨rfl, ho, hask, hgap⟩ := ask_submit hinv hreq
    have h' := h.ask (show ctx.orders = _ from rfl) hinv a
    refine h'.refused hr fun hl => ?_
    rw [hask] at hl ⊢
    simp only [setGate, Function.update_self] at hl ⊢
    exact hgap hl
  accepted := fun t log a ctx req reference tokens hinv h hfit hreq hs => by
    obtain ⟨rfl, ho, hask, hgap⟩ := ask_submit hinv hreq
    have h' := h.ask (show ctx.orders = _ from rfl) hinv a
    show Paced cap cooldown aims sound ((((t.ask cooldown a ctx).1).onOrderUpdate maxLocates _).answer a ctx.now _) _ _
    rw [onOrderUpdate_working _ _ rfl]
    rw [hask] at h' ⊢
    refine h'.accepted hinv hs hfit ?_ ?_
    · simp only [setGate, Function.update_self]
      exact Over.zero hinv
    · simp only [setGate, Function.update_self]
      exact hgap
  replaced := fun t log a ctx id price qty i reference tokens hinv h _ hreq => by
    exfalso
    have hreq : (t.ask cooldown a ctx).2 = some (.replace id price qty) := hreq
    unfold Taker.ask at hreq
    dsimp only at hreq
    split_ifs at hreq
    cases hreq

/-- The position, one order and pace of a taker, in terms of what the engine shows. -/
structure Kept (cap : Int) (cooldown : Nat) (d : Desk (Taker σ) Attempt) : Prop where
  /-- At most one order of an instrument works. -/
  single : ∀ i j, i < d.manager.fresh → j < d.manager.fresh → (d.manager.slots i).working = true →
    (d.manager.slots j).working = true →
    (d.manager.slots i).info.req.locate = (d.manager.slots j).info.req.locate → i = j
  position : ∀ l, |(d.manager.risk.position l).qty| ≤ cap
  /-- The same with the leaves of the order that works counted as filled. -/
  filled : ∀ i < d.manager.fresh, (d.manager.slots i).working = true →
    |(d.manager.risk.position (d.manager.slots i).info.req.locate).qty +
      (if (d.manager.slots i).info.req.side = .buy then ((d.manager.slots i).info.leavesQty : Int)
        else -((d.manager.slots i).info.leavesQty : Int))| ≤ cap
  /-- The order that works was placed last, and its leaves do not take the position past its target. -/
  stops : ∀ i < d.manager.fresh, (d.manager.slots i).working = true →
    ∃ a, d.strategy.placed (d.manager.slots i).info.req.locate = some a ∧ a.side = (d.manager.slots i).info.req.side ∧
      a.Stops (d.manager.risk.position (d.manager.slots i).info.req.locate).qty (d.manager.slots i).info.leavesQty
  /-- Nor have its fills, when it is over. -/
  stopped : ∀ l a, d.strategy.placed l = some a → a.Stops (d.manager.risk.position l).qty 0
  spaced : ∀ l, (times d.attempts l).IsChain fun x y => x + cooldown ≤ y

/-- What the invariant says in these terms. -/
theorem Paced.kept {d : Desk (Taker σ) Attempt} (h : Paced cap cooldown aims sound d.strategy d.attempts d.manager)
    (hinv : d.manager.Inv) (h₀ : 0 ≤ cap) : Kept cap cooldown d := by
  have hleaves : ∀ i < d.manager.fresh, (d.manager.slots i).working = true →
      ((d.manager.slots i).info.leavesQty : Int) ≤
        d.manager.shares (d.manager.slots i).info.req.locate (d.manager.slots i).info.req.side := by
    intro i hi hw
    have hres := OrderManager.reserved_eq_max (hinv.entries i hi) hw
    rw [h.tracks.shares hinv hi hw]
    omega
  have hseen : ∀ i < d.manager.fresh, (d.manager.risk.position (d.manager.slots i).info.req.locate).qty =
      d.manager.pos (d.manager.slots i).info.req.locate :=
    fun i hi => OrderManager.seen_eq (hinv.ledger.locate i hi)
  refine ⟨fun i j hi hj hwi hwj hl => ?_, fun l => (h.capped.seen hinv h₀ l).2.2, fun i hi hw => ?_, fun i hi hw => ?_,
    fun l a ha => ?_, fun l => (h.spaced l).chain⟩
  · refine hinv.slot_unique hi hj ?_
    rw [h.tracks i hi hwi, h.tracks j hj hwj, hl]
  · have hl := hleaves i hi hw
    have hpos := h.capped.pos_le hinv (d.manager.slots i).info.req.locate
    rw [hseen i hi, abs_le]
    cases hsd : (d.manager.slots i).info.req.side with
    | buy =>
      have hup := h.capped.upper (d.manager.slots i).info.req.locate
      rw [hsd] at hl
      rw [if_pos rfl]
      omega
    | sell =>
      have hlo := h.capped.lower (d.manager.slots i).info.req.locate
      rw [hsd] at hl
      rw [if_neg (by decide)]
      omega
  · obtain ⟨a, ha, hsd⟩ := h.owner i hi hw
    obtain ⟨_, _, hstops⟩ := h.placed _ a ha
    refine ⟨a, ha, hsd, ?_⟩
    rw [hseen i hi]
    refine hstops.mono ?_
    rw [hsd]
    exact hleaves i hi hw
  · obtain ⟨hlt, _, hstops⟩ := h.placed l a ha
    have hpos : (d.manager.risk.position l).qty = d.manager.pos l := OrderManager.seen_eq hlt
    rw [hpos]
    exact hstops.mono (hinv.shares_nonneg l a.side)

/-- **Run rule for the takers.** -/
theorem run_paced {S : Callbacks (Taker σ) Attempt} (h₀ : 0 ≤ cap)
    (hD : Disciplined S (Paced cap cooldown aims sound) (Attempt.Sized cap aims)) {config : Engine.Config} {signal : σ}
    (hsignal : sound signal) {is : List Input} {d : Desk (Taker σ) Attempt}
    (hr : run (Desk.step S) (Desk.new config { signal := signal }) is = some d)
    (hx : Along (Desk.step S) Desk.withinLeaves (Desk.new config { signal := signal }) is) :
    Paced cap cooldown aims sound d.strategy d.attempts d.manager ∧ Kept cap cooldown d := by
  have hnew : Paced cap cooldown aims sound ({ signal := signal } : Taker σ) []
      (Engine.new config).session.manager :=
    ⟨hsignal, fun i hi => absurd hi (Nat.not_lt_zero i), Desk.capped_new config h₀, fun l a ha => absurd ha (by simp),
      fun i hi => absurd hi (Nat.not_lt_zero i), fun l => ⟨List.isChain_nil, rfl⟩⟩
  have h := Desk.run_held hD hnew hr hx
  exact ⟨h.holds, h.holds.kept h.ok.session.inv h₀⟩

end Taker

theorem positionOf_eq {orders : OrderManager} {cap : Int} (hcap : cap ≤ kPositionBound) {l : Nat}
    (h : -cap ≤ orders.seen l ∧ orders.seen l ≤ cap) : positionOf orders l = orders.seen l := by
  show clamp (orders.seen l) _ _ = _
  exact clamp_eq (by omega) (by omega)

/-! ## Order book imbalance -/

namespace ImbalanceTaker
variable {cfg : ImbalanceTakerConfig}

/-- An order against the position is an exit, and an exit wants to be flat. -/
def Exits (a : Attempt) : Prop :=
  (a.side = .sell → 0 < a.start → a.target = 0) ∧ (a.side = .buy → a.start < 0 → a.target = 0)

theorem sanitize_position (cfg : ImbalanceTakerConfig) :
    0 ≤ (sanitize cfg).maxPosition ∧ (sanitize cfg).maxPosition ≤ kPositionBound :=
  ⟨le_clamp (by decide) _, clamp_le (by decide) _⟩

theorem sanitize_orderQty (cfg : ImbalanceTakerConfig) : 1 ≤ (sanitize cfg).orderQty ∧ (sanitize cfg).orderQty ≤ kMaxOrderQty :=
  ⟨le_clamp (by decide) _, clamp_le (by decide) _⟩

theorem sanitize_bps (cfg : ImbalanceTakerConfig) : 1 ≤ (sanitize cfg).enterBps ∧ 0 ≤ (sanitize cfg).exitBps := by
  have h : 1 ≤ (sanitize cfg).enterBps := le_clamp (by decide) _
  exact ⟨h, le_clamp (by have : 1 ≤ clamp cfg.enterBps 1 10000 := h; omega) _⟩

/-- The quantity is the way to the target. -/
theorem decide_spec {touch : Touch} {imb pos : Int} {side : Side} {price qty target : Int}
    (h : decide (sanitize cfg) touch imb pos = some (side, price, qty, target)) :
    (side = .buy → pos + qty = target) ∧ (side = .sell → pos - qty = target) ∧
    (target = 0 ∨ target = (sanitize cfg).maxPosition ∨ target = -(sanitize cfg).maxPosition) ∧
    (side = .sell → 0 < pos → target = 0) ∧ (side = .buy → pos < 0 → target = 0) := by
  obtain ⟨h₁, h₂⟩ := sanitize_bps cfg
  unfold decide at h
  split_ifs at h with hl hs hspread hb ha
  · cases h
    simp
  · cases h
    simp
  · cases h
    refine ⟨fun _ => by omega, fun h => absurd h (by decide), .inr (.inl rfl), fun h => absurd h (by decide), fun _ hpos => ?_⟩
    exact absurd ⟨hpos, by omega⟩ hs
  · cases h
    refine ⟨fun h => absurd h (by decide), fun _ => by omega, .inr (.inr rfl), fun _ hpos => ?_, fun h => absurd h (by decide)⟩
    exact absurd ⟨hpos, by omega⟩ hl

theorem onBookUpdate_sized {l : Nat} {ctx : Context} {a : Attempt}
    (hseen : ∀ k, -(sanitize cfg).maxPosition ≤ ctx.orders.seen k ∧ ctx.orders.seen k ≤ (sanitize cfg).maxPosition)
    (h : onBookUpdate (sanitize cfg) l ctx = some a) : a.Sized (sanitize cfg).maxPosition Exits ctx.orders.seen := by
  obtain ⟨hp₀, hp₁⟩ := sanitize_position cfg
  obtain ⟨hq₀, hq₁⟩ := sanitize_orderQty cfg
  have hpos := positionOf_eq hp₁ (hseen l)
  unfold onBookUpdate at h
  split_ifs at h
  split at h
  · cases h
  · split at h
    · cases h
    · dsimp only at h
      rw [hpos] at h
      split at h
      · cases h
      · rename_i side price qty target hd
        obtain ⟨hbuy, hsell, htarget, hexit⟩ := decide_spec hd
        split_ifs at h with hbad
        cases h
        have hto : (toQty (min qty (sanitize cfg).orderQty) : Int) = min qty (sanitize cfg).orderQty :=
          toQty_eq (by omega) (by omega)
        refine ⟨?_, by dsimp only; omega, hexit⟩
        show Attempt.Stops _ (ctx.orders.seen l) (toQty (min qty (sanitize cfg).orderQty) : Int)
        rw [hto]
        unfold Attempt.Stops
        cases side with
        | buy =>
          have := hbuy rfl
          dsimp only
          omega
        | sell =>
          have := hsell rfl
          dsimp only
          omega

theorem disciplined (c : ImbalanceTakerConfig) : Disciplined (callbacks c)
    (Taker.Paced (sanitize c).maxPosition (sanitize c).cooldownNs Exits fun _ => True)
    (Attempt.Sized (sanitize c).maxPosition Exits) := by
  unfold callbacks
  exact Taker.disciplined (sanitize_position c).2 (fun _ _ _ _ => trivial)
    (fun _ _ _ _ _ hseen ha => onBookUpdate_sized hseen ha) (sanitize_position c).1

end ImbalanceTaker

/-! ## Moving average crossover -/

namespace EmaCross
variable {cfg : EmaCrossConfig}

theorem sanitize_size (cfg : EmaCrossConfig) : 0 ≤ size (sanitize cfg) ∧ size (sanitize cfg) ≤ kPositionBound := by
  have h₁ : 0 ≤ (sanitize cfg).maxPosition := le_clamp (by decide) _
  have h₂ : (sanitize cfg).maxPosition ≤ kPositionBound := clamp_le (by decide) _
  unfold size
  omega

theorem sanitize_orderQty (cfg : EmaCrossConfig) : 1 ≤ (sanitize cfg).orderQty ∧ (sanitize cfg).orderQty ≤ kMaxOrderQty :=
  ⟨le_clamp (by decide) _, clamp_le (by decide) _⟩

/-- The signs of the signals are signs. -/
def Signed (slots : Nat → Slot) : Prop := ∀ l, (slots l).sign = 1 ∨ (slots l).sign = 0 ∨ (slots l).sign = -1

theorem Signed.sample {slots : Nat → Slot} (h : Signed slots) (l : Nat) (c : EmaCrossConfig) (touch : Touch) :
    ((slots l).sample c touch).sign = 1 ∨ ((slots l).sample c touch).sign = 0 ∨ ((slots l).sample c touch).sign = -1 := by
  unfold Slot.sample
  dsimp only
  generalize hs : (if (_ : Int) < _ then (1 : Int) else if (_ : Int) < _ then -1 else 0) = sign
  have hsign : sign = 1 ∨ sign = 0 ∨ sign = -1 := by
    split_ifs at hs <;> omega
  by_cases h₀ : sign = 0
  · rw [if_pos h₀]
    exact h l
  · rw [if_neg h₀]
    by_cases h₁ : sign = (slots l).sign
    · rw [if_pos h₁]
      exact h l
    · rw [if_neg h₁]
      exact hsign

theorem Signed.onBookUpdate {slots : Nat → Slot} (h : Signed slots) (c : EmaCrossConfig) (l : Nat) (ctx : Context) :
    Signed (onBookUpdate c slots l ctx).1 := by
  have hupdate : ∀ touch, Signed (Function.update slots l ((slots l).sample c touch)) := by
    intro touch k
    by_cases hk : k = l
    · subst hk
      rw [Function.update_self]
      exact h.sample k c touch
    · rw [Function.update_of_ne hk]
      exact h k
  unfold EmaCross.onBookUpdate
  split_ifs
  · exact h
  · split
    · exact h
    · dsimp only
      split_ifs <;> exact hupdate _

theorem target_bounds {s : Slot} {c : EmaCrossConfig} {pos : Int} (h₀ : 0 ≤ size c)
    (hs : s.sign = 1 ∨ s.sign = 0 ∨ s.sign = -1) (hpos : -size c ≤ pos ∧ pos ≤ size c) :
    -size c ≤ s.target c pos ∧ s.target c pos ≤ size c := by
  unfold Slot.target
  split_ifs
  · rcases hs with hs | hs | hs <;> rw [hs] <;> omega
  · omega
  · exact hpos

theorem onBookUpdate_sized {slots : Nat → Slot} {l : Nat} {ctx : Context} {a : Attempt} (hsigned : Signed slots)
    (hseen : ∀ k, -size (sanitize cfg) ≤ ctx.orders.seen k ∧ ctx.orders.seen k ≤ size (sanitize cfg))
    (h : (onBookUpdate (sanitize cfg) slots l ctx).2 = some a) :
    a.Sized (size (sanitize cfg)) (fun _ => True) ctx.orders.seen := by
  obtain ⟨hp₀, hp₁⟩ := sanitize_size cfg
  obtain ⟨hq₀, hq₁⟩ := sanitize_orderQty cfg
  have hpos := positionOf_eq hp₁ (hseen l)
  unfold EmaCross.onBookUpdate at h
  split_ifs at h
  split at h
  · cases h
  · rename_i touch _
    dsimp only at h
    rw [hpos] at h
    have htarget := target_bounds hp₀ (hsigned.sample l (sanitize cfg) touch) (hseen l)
    generalize ((slots l).sample (sanitize cfg) touch).target (sanitize cfg) (ctx.orders.seen l) = target at h htarget
    have hto : ∀ d : Int, 0 ≤ d → (toQty (min d (sanitize cfg).orderQty) : Int) = min d (sanitize cfg).orderQty :=
      fun d hd => toQty_eq (by omega) (by omega)
    split_ifs at h with hquiet heq hbuy
    · cases h
      refine ⟨?_, htarget, trivial⟩
      show ctx.orders.seen l + (toQty _ : Int) ≤ target
      rw [hto _ (by omega)]
      omega
    · cases h
      refine ⟨?_, htarget, trivial⟩
      show target ≤ ctx.orders.seen l - (toQty _ : Int)
      rw [hto _ (by omega)]
      omega

theorem disciplined (c : EmaCrossConfig) : Disciplined (callbacks c)
    (Taker.Paced (size (sanitize c)) (sanitize c).cooldownNs (fun _ => True) Signed)
    (Attempt.Sized (size (sanitize c)) fun _ => True) := by
  unfold callbacks
  exact Taker.disciplined (sanitize_size c).2 (fun _ l ctx h => h.onBookUpdate _ l ctx)
    (fun _ _ _ _ hs hseen ha => onBookUpdate_sized hs hseen ha) (sanitize_size c).1

end EmaCross

/-- **Position bound and pace of the takers.** In every state that an engine with either strategy can reach,
whatever the feed, the gateway and the exchange do, as long as no applied execution exceeds the leaves of its
order. -/
theorem taker_position_bound_and_pacing (config : Engine.Config) :
    (∀ (c : ImbalanceTakerConfig) (is : List Input) (d : Desk (Taker Unit) Attempt),
      run (Desk.step (ImbalanceTaker.callbacks c)) (Desk.new config { signal := () }) is = some d →
      Along (Desk.step (ImbalanceTaker.callbacks c)) Desk.withinLeaves (Desk.new config { signal := () }) is →
      Taker.Kept (ImbalanceTaker.sanitize c).maxPosition (ImbalanceTaker.sanitize c).cooldownNs d ∧
      -- an order sent against the position does not flip its sign
      ∀ l a, d.strategy.placed l = some a →
        (a.side = .sell → 0 < a.start → 0 ≤ (d.manager.risk.position l).qty) ∧
        (a.side = .buy → a.start < 0 → (d.manager.risk.position l).qty ≤ 0)) ∧
    ∀ (c : EmaCrossConfig) (is : List Input) (d : Desk (Taker (Nat → EmaCross.Slot)) Attempt),
      run (Desk.step (EmaCross.callbacks c)) (Desk.new config { signal := fun _ => {} }) is = some d →
      Along (Desk.step (EmaCross.callbacks c)) Desk.withinLeaves (Desk.new config { signal := fun _ => {} }) is →
      Taker.Kept (min (EmaCross.sanitize c).orderQty (EmaCross.sanitize c).maxPosition) (EmaCross.sanitize c).cooldownNs d := by
  refine ⟨fun c is d hr hx => ?_, fun c is d hr hx => ?_⟩
  · obtain ⟨hpaced, hkept⟩ := Taker.run_paced (ImbalanceTaker.sanitize_position c).1 (ImbalanceTaker.disciplined c)
      trivial hr hx
    refine ⟨hkept, fun l a ha => ?_⟩
    obtain ⟨_, ⟨hsell, hbuy⟩, _⟩ := hpaced.placed l a ha
    have hstop := hkept.stopped l a ha
    unfold Attempt.Stops at hstop
    refine ⟨fun hs hpos => ?_, fun hs hpos => ?_⟩
    · rw [hs, hsell hs hpos] at hstop
      simpa using hstop
    · rw [hs, hbuy hs hpos] at hstop
      simpa using hstop
  · exact (Taker.run_paced (EmaCross.sanitize_size c).1 (EmaCross.disciplined c) (fun _ => .inr (.inl rfl)) hr hx).2

/-- A book that is bid for, whose best bid then rises; `first` and `second` are the steps that the first two updates with
both sides take. The order that is sent has 60 of its 100 shares executed and the rest canceled. The next update comes
within the cooldown, the last one after it. -/
def risingBid (first second : Nat) : List Input :=
  let go : Input := .go fun _ => true
  let abcd := Symbol.ofText [65, 66, 67, 68]
  let bid (ref : Nat) (price : Int) (now : Nat) : Input :=
    .itch (some (.addOrder ⟨⟨1, 0, 0⟩, ref, .buy, 100, abcd, price, false, []⟩)) now
  let token := Ouch.Token.fromId 1
  [.itch (some (.stockDirectory ⟨⟨1, 0, 0⟩, abcd, 0, 0, 100, 0, 0, [], 0, 0, 0, 0, 0, 0, 0⟩)) 1, go,
    .itch (some (.addOrder ⟨⟨1, 0, 0⟩, 1, .buy, 900, abcd, 10000, false, []⟩)) 2, go, go,
    .itch (some (.addOrder ⟨⟨1, 0, 0⟩, 2, .sell, 100, abcd, 10200, false, []⟩)) 3] ++ List.replicate first go ++
  [bid 3 10100 4] ++ List.replicate second go ++
  [.ouch (some (.accepted { token := token, side := .buy, shares := 100, price := 10200 })) 5, go, go,
    .ouch (some (.executed { ts := 6, token := token, shares := 60, price := 10200, matchNo := 1 })) 6, go, go, go,
    .ouch (some (.canceled ⟨7, token, 40, ascii 'I'⟩)) 7, go, go, bid 4 10100 8, go, go, go,
    bid 5 10100 1000004, go, go, go, go]

/-- The imbalance is taken at the first update with both sides, the crossover at the next, and both again when the cooldown
is over. -/
theorem taker_position_bound_and_pacing_rising_bid :
    (∃ d, run (Desk.step (ImbalanceTaker.callbacks {})) (Desk.new {} { signal := () }) (risingBid 4 3) = some d ∧
      d.manager.opened = 1 ∧ times d.attempts 1 = [3, 1000004] ∧ (d.manager.risk.position 1).qty = 60 ∧
      |(d.manager.risk.position 1).qty| ≤ 500) ∧
    ∃ d, run (Desk.step (EmaCross.callbacks { warmup := 0, confirmTicks := 1 })) (Desk.new {} { signal := fun _ => {} })
        (risingBid 2 4) = some d ∧
      d.manager.opened = 1 ∧ times d.attempts 1 = [4, 1000004] ∧ (d.manager.risk.position 1).qty = 60 ∧
      |(d.manager.risk.position 1).qty| ≤ 100 := by
  have htaken : (run (Desk.step (ImbalanceTaker.callbacks {})) (Desk.new {} { signal := () }) (risingBid 4 3)).map
      (fun d => (d.manager.opened, times d.attempts 1, (d.manager.risk.position 1).qty)) = some (1, [3, 1000004], 60) := by
    decide +kernel
  have hcrossed : (run (Desk.step (EmaCross.callbacks { warmup := 0, confirmTicks := 1 }))
      (Desk.new {} { signal := fun _ => {} }) (risingBid 2 4)).map
      (fun d => (d.manager.opened, times d.attempts 1, (d.manager.risk.position 1).qty)) = some (1, [4, 1000004], 60) := by
    decide +kernel
  obtain ⟨d, hr, hv⟩ := Option.map_eq_some_iff.mp htaken
  obtain ⟨d', hr', hv'⟩ := Option.map_eq_some_iff.mp hcrossed
  obtain ⟨h₁, h₂⟩ := Prod.mk.inj hv
  obtain ⟨h₂, h₃⟩ := Prod.mk.inj h₂
  obtain ⟨h₁', h₂'⟩ := Prod.mk.inj hv'
  obtain ⟨h₂', h₃'⟩ := Prod.mk.inj h₂'
  obtain ⟨himb, hema⟩ := taker_position_bound_and_pacing {}
  refine ⟨⟨d, hr, h₁, h₂, h₃, ?_⟩, ⟨d', hr', h₁', h₂', h₃', ?_⟩⟩
  · exact (himb {} _ d hr (by decide +kernel)).1.position 1
  · exact (hema _ _ d' hr' (by decide +kernel)).position 1

end OptiTrade.Strategy
