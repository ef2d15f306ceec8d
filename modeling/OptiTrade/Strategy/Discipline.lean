import OptiTrade.Engine.Waking
import OptiTrade.Oms.Inventory
import OptiTrade.Strategy.Desk

/-! # Invariants of a strategy in its engine

`Disciplined S I fits`: the invariant `I` of the strategy's state, its submits so far and the order manager is
kept by everything that can happen to them, `fits` being what a job may rely on about the positions. Then `I`
holds in every state that a desk can reach. -/

namespace OptiTrade
set_option autoImplicit false

open Oms (Session Effect OrderManager OrderInfo OrderRequest SubmitResult isTerminal)
open Runs

namespace Engine
variable {e e' : Engine} {a : Act} {fx : List Shown}

/-- No call begins or ends while `on_book_update` runs. -/
theorem step_outer (ha : a.inner = false) (hs : e.step a = some (e', fx)) (now : Nat) : e.phase ≠ .handling now true := by
  intro hp
  cases a with
  | itch m t => simp [step, hp] at hs
  | ouch r t => simp [step, hp] at hs
  | feedGap t => simp [step, hp] at hs
  | resumeTrading => simp [step, hp] at hs
  | finish =>
    simp only [step, hp] at hs
    split at hs
    · rename_i h
      cases h
    · rename_i h
      cases h
    · cases hs
  | submit req t gateway => cases ha
  | cancel id t gateway => cases ha
  | replace id price qty t gateway => cases ha
  | advance gateway => cases ha
  | ret => cases ha

/-- A step inside a call leaves the books alone, and the call goes on unless its last callback returns. -/
theorem step_frame (ha : a.inner = true) (hs : e.step a = some (e', fx)) :
    e'.books = e.books ∧ ((a = .ret → e.session.stack ≠ []) → e'.phase = e.phase) := by
  cases a with
  | submit req t gateway =>
    simp only [step, Option.ite_none_right_eq_some, Option.some.injEq] at hs
    have he : e' = (e.submit req t gateway).1 := (congrArg Prod.fst hs.2).symm
    rw [he]
    unfold submit
    split_ifs
    · exact ⟨rfl, fun _ => rfl⟩
    · exact ⟨rfl, fun _ => rfl⟩
  | replace id price qty t gateway =>
    simp only [step, Option.ite_none_right_eq_some, Option.some.injEq] at hs
    have he : e' = (e.replace id price qty t gateway).1 := (congrArg Prod.fst hs.2).symm
    rw [he]
    unfold replace
    split_ifs
    · exact ⟨rfl, fun _ => rfl⟩
    · exact ⟨rfl, fun _ => rfl⟩
  | cancel id t gateway =>
    simp only [step, Option.ite_none_right_eq_some, Option.some.injEq] at hs
    obtain ⟨rfl, _⟩ := Prod.mk.inj hs.2.symm
    exact ⟨rfl, fun _ => rfl⟩
  | advance gateway =>
    obtain ⟨s, gx, _, rfl, _⟩ := inSession_some hs
    exact ⟨rfl, fun _ => rfl⟩
  | ret =>
    simp only [step] at hs
    split at hs
    · rename_i hst _
      obtain ⟨rfl, _⟩ := Prod.mk.inj (Option.some.inj hs.symm)
      exact ⟨rfl, fun h => absurd hst (h rfl)⟩
    · obtain ⟨s, gx, _, rfl, _⟩ := inSession_some hs
      exact ⟨rfl, fun _ => rfl⟩
  | itch m t => cases ha
  | ouch r t => cases ha
  | feedGap t => cases ha
  | resumeTrading => cases ha
  | finish => cases ha

end Engine

namespace Strategy
variable {σ J : Type}

/-- What a strategy has to show for an invariant. A submit is shown with its answer, since the strategy learns
the id of its order only then. -/
structure Disciplined (S : Callbacks σ J) (I : σ → List (Nat × Nat) → OrderManager → Prop)
    (fits : (Nat → Int) → J → Prop) : Prop where
  lightens : ∀ s log m m', m.Inv → Session.Lightens m m' → I s log m → I s log m'
  update : ∀ s log m info, m.Inv → (isTerminal info.status = true → m.Over info.id) → I s log m →
    I (S.onOrderUpdate s info) log m
  book : ∀ s log l ctx, ctx.orders.Inv → I s log ctx.orders →
    I (S.onBookUpdate s l ctx).1 log ctx.orders ∧ ∀ j ∈ (S.onBookUpdate s l ctx).2, fits ctx.orders.seen j
  ask : ∀ s log j ctx, ctx.orders.Inv → I s log ctx.orders → fits ctx.orders.seen j → I (S.ask s j ctx).1 log ctx.orders
  refused : ∀ s log j ctx req r, ctx.orders.Inv → I s log ctx.orders → fits ctx.orders.seen j →
    (S.ask s j ctx).2 = some (.submit req) → r.status ≠ .ok →
    I (S.answer (S.ask s j ctx).1 j ctx.now r) (log ++ [(req.locate, ctx.now)]) ctx.orders
  accepted : ∀ s log j ctx req reference tokens, ctx.orders.Inv → I s log ctx.orders → fits ctx.orders.seen j →
    (S.ask s j ctx).2 = some (.submit req) → ctx.orders.Submittable req ctx.now reference tokens →
    I (S.answer (S.onOrderUpdate (S.ask s j ctx).1 (ctx.orders.newEntry req ctx.now).info) j ctx.now
      ⟨.ok, ctx.orders.nextId, .none⟩) (log ++ [(req.locate, ctx.now)]) (ctx.orders.admitted req ctx.now tokens)
  replaced : ∀ s log j ctx id price qty i reference tokens, ctx.orders.Inv → I s log ctx.orders →
    fits ctx.orders.seen j → (S.ask s j ctx).2 = some (.replace id price qty) → i < ctx.orders.fresh →
    (ctx.orders.slots i).info.id = id → ctx.orders.Replaceable i price qty ctx.now reference tokens →
    I (S.ask s j ctx).1 log ((ctx.orders.offered i qty ctx.now tokens).settle i
      ((ctx.orders.slots i).askReplace ctx.orders.nextToken price qty ctx.now) none)

namespace Desk
variable {S : Callbacks σ J} {I : σ → List (Nat × Nat) → OrderManager → Prop} {fits : (Nat → Int) → J → Prop}

def manager (d : Desk σ J) : OrderManager := d.engine.session.manager

/-- The invariant of a desk: `I`, and the jobs that wait fit the positions. -/
structure Held (I : σ → List (Nat × Nat) → OrderManager → Prop) (fits : (Nat → Int) → J → Prop) (d : Desk σ J) : Prop where
  ok : d.engine.Ok
  holds : I d.strategy d.attempts d.manager
  jobs : ∀ j ∈ d.jobs, fits d.manager.seen j
  busy : d.jobs ≠ [] → ∃ now, d.engine.phase = .handling now true

/-- What the strategy makes of what it is shown. -/
theorem foldl_tell (hD : Disciplined S I fits) {fx : List Engine.Shown} {d : Desk σ J} (hinv : d.manager.Inv)
    (hI : I d.strategy d.attempts d.manager)
    (hover : ∀ info, .order (.update info) ∈ fx → isTerminal info.status = true → d.manager.Over info.id)
    (hjobs : ∀ j ∈ d.jobs, fits d.manager.seen j) :
    (fx.foldl (tell S) d).engine = d.engine ∧ (fx.foldl (tell S) d).attempts = d.attempts ∧
      I (fx.foldl (tell S) d).strategy (fx.foldl (tell S) d).attempts d.manager ∧
      (∀ j ∈ (fx.foldl (tell S) d).jobs, fits d.manager.seen j) ∧
      ((∀ l now, Engine.Shown.bookUpdate l now ∉ fx) → (fx.foldl (tell S) d).jobs = d.jobs) := by
  induction fx generalizing d with
  | nil => exact ⟨rfl, rfl, hI, hjobs, fun _ => rfl⟩
  | cons x fx ih =>
    have hrest : ∀ info, .order (.update info) ∈ fx → isTerminal info.status = true → d.manager.Over info.id :=
      fun info hm => hover info (List.mem_cons_of_mem _ hm)
    have hbook : (∀ l now, Engine.Shown.bookUpdate l now ∉ x :: fx) → ∀ l now, Engine.Shown.bookUpdate l now ∉ fx :=
      fun h l now hm => h l now (List.mem_cons_of_mem _ hm)
    rw [List.foldl_cons]
    cases x with
    | order x =>
      cases x with
      | update info =>
        have hI' := hD.update _ _ _ info hinv (hover info List.mem_cons_self) hI
        obtain ⟨h₁, h₂, h₃, h₄, h₅⟩ := ih (d := tell S d (.order (.update info))) hinv hI' hrest hjobs
        exact ⟨h₁, h₂, h₃, h₄, fun h => h₅ (hbook h)⟩
      | fill f =>
        obtain ⟨h₁, h₂, h₃, h₄, h₅⟩ := ih (d := tell S d (.order (.fill f))) hinv hI hrest hjobs
        exact ⟨h₁, h₂, h₃, h₄, fun h => h₅ (hbook h)⟩
      | sent msg t =>
        obtain ⟨h₁, h₂, h₃, h₄, h₅⟩ := ih (d := tell S d (.order (.sent msg t))) hinv hI hrest hjobs
        exact ⟨h₁, h₂, h₃, h₄, fun h => h₅ (hbook h)⟩
    | bookUpdate l now =>
      obtain ⟨hI', hjobs'⟩ := hD.book _ _ l (d.context now) hinv hI
      obtain ⟨h₁, h₂, h₃, h₄, h₅⟩ := ih (d := tell S d (.bookUpdate l now)) hinv hI' hrest hjobs'
      exact ⟨h₁, h₂, h₃, h₄, fun h => absurd List.mem_cons_self (h l now)⟩

/-- The acts by which a strategy takes on more. -/
def grows : Engine.Act → Bool
  | .submit .. | .replace .. => true
  | _ => false

/-- What an act other than a submit or a replace does to the order manager. -/
theorem act_lightens {e e' : Engine} {a : Engine.Act} {fx : List Engine.Shown} (h : e.Ok)
    (hs : e.step a = some (e', fx)) (ha : grows a = false)
    (hx : ∀ r now, a = .ouch (some r) now → e.session.withinLeaves (.report r now)) :
    Session.Lightens e.session.manager e'.session.manager ∧
      (∀ info, .order (.update info) ∈ fx → isTerminal info.status = true → e'.session.manager.Over info.id) ∧
      ((∀ r now, a ≠ .ouch r now) → e'.session.manager.seen = e.session.manager.seen) := by
  cases h.step_moves hs with
  | still hsame hno =>
    rw [hsame]
    exact ⟨.released .same, fun info hm => absurd hm (hno _), fun _ => rfl⟩
  | session ev gx hasks hstep hfx =>
    refine ⟨?_, fun info hm => h.session.updates_over hstep ((hfx _).mp hm), fun hr => ?_⟩
    · cases hasks with
      | mark m now loc price => exact h.session.step_lightens hstep (by simp) (by simp) trivial
      | report r now => exact h.session.step_lightens hstep (by simp) (by simp) (hx r now rfl)
      | gap now => exact h.session.step_lightens hstep (by simp) (by simp) trivial
      | retry now _ => exact h.session.step_lightens hstep (by simp) (by simp) trivial
      | submit req now gateway _ => cases ha
      | cancel id now gateway => exact h.session.step_lightens hstep (by simp) (by simp) trivial
      | replace id price qty now gateway _ => cases ha
      | advance gateway => exact h.session.step_lightens hstep (by simp) (by simp) trivial
      | ret => exact h.session.step_lightens hstep (by simp) (by simp) trivial
    · refine h.session.step_seen hstep fun r now hev => ?_
      subst hev
      cases hasks
      exact hr _ _ rfl

/-- **An act that takes nothing on.** -/
theorem Held.act (hD : Disciplined S I fits) {d d' : Desk σ J} (h : d.Held I fits) {a : Engine.Act} (ha : grows a = false)
    (hx : ∀ r now, a = .ouch (some r) now → d.engine.session.withinLeaves (.report r now))
    (hret : a = .ret → d.engine.session.stack = [] → d.jobs = []) (hs : d.act S a = some d') : d'.Held I fits := by
  obtain ⟨⟨e', fx⟩, hstep, rfl⟩ := Option.map_eq_some_iff.mp hs
  obtain ⟨hlight, hover, hseen⟩ := act_lightens h.ok hstep ha hx
  have hok := h.ok.step hstep
  have hI := hD.lightens _ _ _ _ h.ok.session.inv hlight h.holds
  -- jobs wait only in the middle of `on_book_update`, and then no report comes in
  have hkept : d.jobs ≠ [] → e'.phase = d.engine.phase ∧ ∀ r now, a ≠ .ouch r now := by
    intro hj
    obtain ⟨now, hp⟩ := h.busy hj
    cases hin : a.inner with
    | false => exact absurd hp (Engine.step_outer hin hstep now)
    | true =>
      refine ⟨?_, fun r t hr => by rw [hr] at hin; cases hin⟩
      exact (Engine.step_frame hin hstep).2 fun hr hst => hj (hret hr hst)
  have hjobs : ∀ j ∈ d.jobs, fits e'.session.manager.seen j := by
    intro j hj
    rw [hseen (hkept (List.ne_nil_of_mem hj)).2]
    exact h.jobs j hj
  obtain ⟨h₁, h₂, h₃, h₄, h₅⟩ := foldl_tell hD (d := { d with engine := e' }) hok.session.inv hI hover hjobs
  refine ⟨by rw [h₁]; exact hok, ?_, ?_, fun hne => ?_⟩
  · unfold manager
    rw [h₁]
    exact h₃
  · unfold manager
    rw [h₁]
    exact h₄
  · rw [h₁]
    by_cases hb : ∃ l now, Engine.Shown.bookUpdate l now ∈ fx
    · obtain ⟨l, now, hm⟩ := hb
      obtain ⟨_, _, _, hp⟩ := Engine.step_bookUpdate hstep hm
      exact ⟨now, hp⟩
    · have hj : d.jobs ≠ [] := by
        have := h₅ fun l now hm => hb ⟨l, now, hm⟩
        rwa [this] at hne
      obtain ⟨now, hp⟩ := h.busy hj
      exact ⟨now, (hkept hj).1.trans hp⟩

theorem foldl_tell_taken (S : Callbacks σ J) (d : Desk σ J) (w : Oms.World) (now : Nat) (sent : Option Ouch.Inbound) :
    ((Session.taken w now sent).map Engine.Shown.order).foldl (tell S) d = d := by
  cases sent with
  | none => rfl
  | some msg =>
    simp only [Session.taken]
    split_ifs <;> rfl

theorem foldl_tell_called {α : Type} (S : Callbacks σ J) (d : Desk σ J) (out : OrderManager.Outcome α) (now : Nat)
    (w : Oms.World) (stats : Engine.Stats) :
    ((d.engine.called out now w stats).2).foldl (tell S) { d with engine := (d.engine.called out now w stats).1 } =
      { d with
        engine := (d.engine.called out now w stats).1
        strategy := out.update.elim d.strategy (S.onOrderUpdate d.strategy) } := by
  unfold Engine.called Session.finishCall
  cases out.update with
  | none => exact foldl_tell_taken S _ w now out.sent
  | some info =>
    simp only [List.map_append, List.foldl_append]
    rw [foldl_tell_taken]
    rfl

theorem called_engine {α : Type} (e : Engine) (out : OrderManager.Outcome α) (now : Nat) (w : Oms.World)
    (stats : Engine.Stats) :
    (e.called out now w stats).1.session.manager = out.state ∧ (e.called out now w stats).1.phase = e.phase :=
  ⟨Session.finishCall_manager _ _ _ _, rfl⟩

section
variable (hD : Disciplined S I fits) {d d' : Desk σ J} {j : J} {js : List J} {now : Nat} {gateway : Ouch.Inbound → Bool}
  (h : d.Held I fits) (hjobs : d.jobs = j :: js) (hst : d.engine.session.stack = [])
  (hp : d.engine.phase = .handling now true)

include hD h hjobs hst hp

omit hD h hjobs in
theorem inCallback_of_book : d.engine.inCallback = true := by
  unfold Engine.inCallback
  rw [hst, hp]

/-- **The strategy submits.** -/
theorem Held.submit {req : OrderRequest} (hreq : (S.ask d.strategy j (d.context now)).2 = some (.submit req))
    (hs : ({ d with strategy := (S.ask d.strategy j (d.context now)).1, jobs := js } : Desk σ J).call S j now gateway
      (some (.submit req)) = some d') : d'.Held I fits := by
  have hfit : fits d.manager.seen j := h.jobs j (by rw [hjobs]; exact List.mem_cons_self)
  have hrest : ∀ x ∈ js, fits d.manager.seen x := fun x hx => h.jobs x (by rw [hjobs]; exact List.mem_cons_of_mem _ hx)
  have hinv := h.ok.session.inv
  have hcall := inCallback_of_book hst hp
  simp only [Desk.call, Desk.act, Engine.step, hcall, if_true, Option.map_some, Option.some.injEq] at hs
  by_cases ht : d.engine.trading = true
  · -- the submit reaches the order manager
    have hstep : d.engine.step (.submit req now gateway) =
        some ((d.engine.submit req now gateway).1, (d.engine.submit req now gateway).2) := by
      simp only [Engine.step, hcall, if_true]
    have hok := h.ok.step hstep
    have hcalled : ∃ stats, d.engine.submit req now gateway = d.engine.called
        (d.engine.session.manager.submit req now (d.engine.world gateway).symbol (d.engine.world gateway).reference
          (d.engine.world gateway).gateway) now (d.engine.world gateway) stats := ⟨_, if_pos ht⟩
    obtain ⟨stats, hcalled⟩ := hcalled
    rw [hcalled] at hs hok
    generalize hw : d.engine.world gateway = w at hs hok
    generalize hout : d.engine.session.manager.submit req now w.symbol w.reference w.gateway = out at hs hok
    obtain ⟨hm, hph⟩ := called_engine d.engine out now w stats
    have hfold := foldl_tell_called S { d with strategy := (S.ask d.strategy j (d.context now)).1, jobs := js } out now w stats
    dsimp only at hfold
    rw [hfold] at hs
    simp only [Desk.submitResult, ht, if_true, hw, hout] at hs
    rcases OrderManager.submit_cases _ req now w.symbol w.reference w.gateway hout with
      ⟨hstate, hup, _⟩ | ⟨tokens, hsub, _, hres⟩
    · have hne : out.result.status ≠ .ok := by
        rw [← hout]
        exact OrderManager.submit_refused _ _ _ _ _ _ (by rw [hout]; exact hup)
      have hI := hD.refused d.strategy d.attempts j (d.context now) req out.result hinv h.holds hfit hreq hne
      rw [hup] at hs
      subst hs
      refine ⟨hok, ?_, ?_, fun _ => ⟨now, hph.trans hp⟩⟩
      · unfold manager
        rw [hm, hstate]
        exact hI
      · unfold manager
        rw [hm, hstate]
        exact hrest
    · have hI := hD.accepted d.strategy d.attempts j (d.context now) req w.reference tokens hinv h.holds hfit hreq hsub
      rw [hres] at hs hm
      subst hs
      refine ⟨by rw [hres] at hok; exact hok, ?_, ?_, fun _ => ⟨now, hph.trans hp⟩⟩
      · unfold manager
        rw [hm]
        exact hI
      · unfold manager
        rw [hm]
        have hseen : (d.engine.session.manager.admitted req now tokens).seen = d.manager.seen := OrderManager.admitted_seen
        rw [hseen]
        exact hrest
  · have hI := hD.refused d.strategy d.attempts j (d.context now) req ⟨.badState, 0, .none⟩ hinv h.holds hfit hreq (by decide)
    simp only [Engine.submit, ht, Desk.submitResult, Bool.false_eq_true, if_false, List.foldl_nil] at hs
    subst hs
    exact ⟨h.ok, hI, hrest, fun _ => ⟨now, hp⟩⟩

/-- **The strategy replaces.** -/
theorem Held.replace {id : Nat} {price : Int} {qty : Nat}
    (hreq : (S.ask d.strategy j (d.context now)).2 = some (.replace id price qty))
    (hs : ({ d with strategy := (S.ask d.strategy j (d.context now)).1, jobs := js } : Desk σ J).call S j now gateway
      (some (.replace id price qty)) = some d') : d'.Held I fits := by
  have hfit : fits d.manager.seen j := h.jobs j (by rw [hjobs]; exact List.mem_cons_self)
  have hrest : ∀ x ∈ js, fits d.manager.seen x := fun x hx => h.jobs x (by rw [hjobs]; exact List.mem_cons_of_mem _ hx)
  have hinv := h.ok.session.inv
  have hcall := inCallback_of_book hst hp
  have hasked := hD.ask d.strategy d.attempts j (d.context now) hinv h.holds hfit
  simp only [Desk.call, Desk.act, Engine.step, hcall, if_true, Option.map_some, Option.some.injEq] at hs
  by_cases ht : d.engine.trading = true
  · have hstep : d.engine.step (.replace id price qty now gateway) =
        some ((d.engine.replace id price qty now gateway).1, (d.engine.replace id price qty now gateway).2) := by
      simp only [Engine.step, hcall, if_true]
    have hok := h.ok.step hstep
    have hcalled : ∃ stats, d.engine.replace id price qty now gateway = d.engine.called
        (d.engine.session.manager.replace id price qty now (d.engine.world gateway).reference
          (d.engine.world gateway).gateway) now (d.engine.world gateway) stats := ⟨_, if_pos ht⟩
    obtain ⟨stats, hcalled⟩ := hcalled
    rw [hcalled] at hs hok
    generalize d.engine.world gateway = w at hs hok
    generalize hout : d.engine.session.manager.replace id price qty now w.reference w.gateway = out at hs hok
    obtain ⟨hm, hph⟩ := called_engine d.engine out now w stats
    have hfold := foldl_tell_called S { d with strategy := (S.ask d.strategy j (d.context now)).1, jobs := js } out now w stats
    dsimp only at hfold
    rw [hfold] at hs
    rcases OrderManager.replace_cases hinv id price qty now w.reference w.gateway hout with
      ⟨hstate, hup, _⟩ | ⟨i, tokens, hid, hrep, _, hres⟩
    · rw [hup] at hs
      subst hs
      refine ⟨hok, ?_, ?_, fun _ => ⟨now, hph.trans hp⟩⟩
      · unfold manager
        rw [hm, hstate]
        exact hasked
      · unfold manager
        rw [hm, hstate]
        exact hrest
    · obtain ⟨hi, hid⟩ := (hinv.ids.find id i).mp hid
      have hI := hD.replaced d.strategy d.attempts j (d.context now) id price qty i w.reference tokens hinv h.holds hfit hreq
        hi hid hrep
      have hinv' : ((d.engine.session.manager.offered i qty now tokens).settle i ((d.engine.session.manager.slots
          i).askReplace d.engine.session.manager.nextToken price qty now) none).Inv := by
        have := hok.session.inv
        rw [hm, hres] at this
        exact this
      rw [hres] at hs hm
      subst hs
      refine ⟨by rw [hres] at hok; exact hok, ?_, ?_, fun _ => ⟨now, hph.trans hp⟩⟩
      · unfold manager
        rw [hm]
        -- the update shows the order `pendingReplace`
        exact hD.update _ _ _ _ hinv' (fun hterm => by cases hterm) hI
      · unfold manager
        rw [hm]
        have hseen : ((d.engine.session.manager.offered i qty now tokens).settle i ((d.engine.session.manager.slots
            i).askReplace d.engine.session.manager.nextToken price qty now) none).seen = d.manager.seen :=
          OrderManager.replaced_seen
        rw [hseen]
        exact hrest
  · simp only [Engine.replace, ht, Bool.false_eq_true, if_false, List.foldl_nil] at hs
    subst hs
    exact ⟨h.ok, hasked, hrest, fun _ => ⟨now, hp⟩⟩

/-- **A job is done.** -/
theorem Held.job (hs : (let (s, r) := S.ask d.strategy j (d.context now)
      { d with strategy := s, jobs := js }.call S j now gateway r) = some d') : d'.Held I fits := by
  have hfit : fits d.manager.seen j := h.jobs j (by rw [hjobs]; exact List.mem_cons_self)
  have hrest : ∀ x ∈ js, fits d.manager.seen x := fun x hx => h.jobs x (by rw [hjobs]; exact List.mem_cons_of_mem _ hx)
  have hasked := hD.ask d.strategy d.attempts j (d.context now) h.ok.session.inv h.holds hfit
  have h' : ({ d with strategy := (S.ask d.strategy j (d.context now)).1, jobs := js } : Desk σ J).Held I fits :=
    ⟨h.ok, hasked, hrest, fun _ => ⟨now, hp⟩⟩
  have hs : ({ d with strategy := (S.ask d.strategy j (d.context now)).1, jobs := js } : Desk σ J).call S j now gateway
      (S.ask d.strategy j (d.context now)).2 = some d' := hs
  cases hreq : (S.ask d.strategy j (d.context now)).2 with
  | none =>
    rw [hreq] at hs
    rw [← Option.some.inj hs]
    exact h'
  | some r =>
    rw [hreq] at hs
    cases r with
    | submit req => exact h.submit hD hjobs hst hp hreq hs
    | cancel id => exact h'.act hD rfl (by simp) (by simp) hs
    | replace id price qty => exact h.replace hD hjobs hst hp hreq hs

end

theorem Held.step (hD : Disciplined S I fits) {d d' : Desk σ J} (h : d.Held I fits) {i : Input} (hx : d.withinLeaves i)
    (hs : d.step S i = some d') : d'.Held I fits := by
  cases i with
  | itch m now => exact h.act hD rfl (by simp) (by simp) hs
  | ouch r now =>
    refine h.act hD rfl (fun r' now' hr => ?_) (by simp) hs
    cases hr
    exact hx
  | feedGap now => exact h.act hD rfl (by simp) (by simp) hs
  | resumeTrading => exact h.act hD rfl (by simp) (by simp) hs
  | go gateway =>
    simp only [Desk.step, go] at hs
    split at hs
    · rename_i now hst hp
      split at hs
      · rename_i hj
        exact h.act hD rfl (by simp) (fun _ _ => hj) hs
      · rename_i j js hj
        exact h.job hD hj hst hp hs
    · exact h.act hD rfl (by simp) (by simp) hs
    · exact h.act hD rfl (by simp) (by simp) hs
    · rename_i hne _ _
      exact h.act hD rfl (by simp) (fun _ hst => absurd hst (by simpa using hne)) hs

theorem capped_new (config : Engine.Config) {cap : Int} (h₀ : 0 ≤ cap) :
    OrderManager.Capped cap (Engine.new config).session.manager := by
  refine ⟨fun l => ?_, fun l => ?_⟩
  · show (0 : Int) + 0 ≤ cap
    omega
  · show -cap ≤ (0 : Int) - 0
    omega

/-- **Run rule.** -/
theorem run_held (hD : Disciplined S I fits) {config : Engine.Config} {s : σ} {is : List Input} {d : Desk σ J}
    (hnew : I s [] (Engine.new config).session.manager) (hr : run (step S) (new config s) is = some d)
    (hx : Along (step S) withinLeaves (new config s) is) : d.Held I fits := by
  refine run_invariant_along (P := fun d => d.Held I fits) (Q := withinLeaves) ?_ hr hx
    ⟨.new config, hnew, fun j hj => absurd hj List.not_mem_nil, fun hne => absurd rfl hne⟩
  intro d i d' h hi hs
  exact h.step hD hi hs

end Desk
end Strategy
end OptiTrade
