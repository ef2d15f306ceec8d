import OptiTrade.Foundations.Runs
import OptiTrade.Oms.Invariant

/-! # A session: the manager together with the callbacks in progress

A listener may call the manager from inside a callback, and `cancel_all` calls the listener in the
middle of its loop. Both are calls waiting for a callback to return, so the session keeps them on a
stack: `update` and `fill` frames are running callbacks, a `sweep` frame is a `cancel_all` loop with
its cursor. Reports come in only when nothing is running. -/

namespace OptiTrade.Oms
set_option autoImplicit false

open Runs

/-- What is in progress: a callback, or a `cancel_all` with its place in the list. -/
inductive Frame
  | update
  | fill (before : OrderInfo)
  | sweep (cursor : Option Nat) (last : Nat) (sent : Nat) (now : Nat)

/-- What the manager asks its surroundings during a call. -/
structure World where
  symbol : Nat → Symbol
  reference : Nat → Int
  gateway : Ouch.Inbound → Bool

/-- A call of the strategy or of a listener, a report, or the end of a callback. -/
inductive Event
  | submit (req : OrderRequest) (now : Nat) (w : World)
  | cancel (id : Nat) (now : Nat) (w : World)
  | replace (id : Nat) (newPrice : Int) (newQty : Nat) (now : Nat) (w : World)
  | cancelAll (now : Nat)
  /-- One iteration of the innermost `cancel_all` loop. -/
  | advance (w : World)
  /-- The innermost callback returns. -/
  | ret
  | report (r : Ouch.Outbound) (now : Nat)
  | mark (locate : Nat) (price : Int)
  | killSwitch (on : Bool)

/-- What the surroundings see of a step. -/
inductive Effect
  | sent (msg : Ouch.Inbound) (now : Nat)
  | fill (f : Fill)
  | update (info : OrderInfo)

/-- A manager and what is in progress in it, the innermost first. -/
structure Session where
  manager : OrderManager
  stack : List Frame := []

namespace Session

def new (config : Config) (limits : Risk.Limits) (maxLocates : Nat) : Session where
  manager := .new config (.new limits maxLocates)

/-- The code that may call the manager is running: nothing is in progress, or a callback is. -/
def mayCall (s : Session) : Bool :=
  match s.stack with
  | .sweep .. :: _ => false
  | _ => true

/-- The messages the gateway took. -/
def taken (w : World) (now : Nat) : Option Ouch.Inbound → List Effect
  | some msg => if w.gateway msg then [.sent msg now] else []
  | none => []

/-- The session after an order-entry call; an update it ends with runs as a callback. -/
def finishCall {α : Type} (s : Session) (out : OrderManager.Outcome α) (now : Nat) (w : World) :
    Session × List Effect :=
  match out.update with
  | some info => (⟨out.state, .update :: s.stack⟩, taken w now out.sent ++ [.update info])
  | none => (⟨out.state, s.stack⟩, taken w now out.sent)

/-- The session after a report that ends with an update. -/
def finishReport (out : OrderManager × Option OrderInfo) : Session × List Effect :=
  match out.2 with
  | some info => (⟨out.1, [.update]⟩, [.update info])
  | none => (⟨out.1, []⟩, [])

/-- A report is handled, up to its callbacks. -/
def report (s : Session) (r : Ouch.Outbound) (now : Nat) : Session × List Effect :=
  match r with
  | .accepted a => finishReport (s.manager.onAccepted a now)
  | .canceled c => finishReport (s.manager.onCanceled c now)
  | .rejected x => finishReport (s.manager.onRejected x now)
  | .replaced x => finishReport (s.manager.onReplaced x now)
  | .executed x =>
    match s.manager.onExecuted x now with
    | (m, some (f, before)) => (⟨m, [.fill before]⟩, [.fill f])
    | (m, none) => (⟨m, []⟩, [])

/-- One iteration of the `cancel_all` loop at the top of the stack. -/
def sweep (s : Session) (rest : List Frame) (cursor : Option Nat) (last sent now : Nat) (w : World) :
    Session × List Effect :=
  match cursor with
  | none => (⟨s.manager, rest⟩, [])
  | some i =>
    let e := s.manager.slots i
    if last < e.info.id then (⟨s.manager, rest⟩, [])
    else
      let next := s.manager.links.next i
      if e.info.status ≠ .pendingCancel then
        let out := s.manager.cancelEntry i now w.gateway
        let sent := if out.result = .ok then sent + 1 else sent
        finishCall ⟨out.state, .sweep next last sent now :: rest⟩ out now w
      else (⟨s.manager, .sweep next last sent now :: rest⟩, [])

/-- One step; `none` where the event cannot happen. -/
def step (s : Session) : Event → Option (Session × List Effect)
  | .submit req now w =>
    if s.mayCall then some (s.finishCall (s.manager.submit req now w.symbol w.reference w.gateway) now w)
    else none
  | .cancel id now w =>
    if s.mayCall then some (s.finishCall (s.manager.cancel id now w.gateway) now w) else none
  | .replace id newPrice newQty now w =>
    if s.mayCall then
      some (s.finishCall (s.manager.replace id newPrice newQty now w.reference w.gateway) now w)
    else none
  | .cancelAll now =>
    if s.mayCall then
      some (⟨s.manager, .sweep s.manager.working.head (s.manager.nextId - 1) 0 now :: s.stack⟩, [])
    else none
  | .advance w =>
    match s.stack with
    | .sweep cursor last sent now :: rest => some (s.sweep rest cursor last sent now w)
    | _ => none
  | .ret =>
    match s.stack with
    | .update :: rest => some (⟨s.manager, rest⟩, [])
    | .fill before :: rest => some (⟨s.manager, .update :: rest⟩, [.update (s.manager.afterFill before)])
    | _ => none
  | .report r now => if s.stack.isEmpty then some (s.report r now) else none
  | .mark locate price =>
    if s.mayCall then some (⟨{ s.manager with risk := s.manager.risk.mark locate price }, s.stack⟩, []) else none
  | .killSwitch on =>
    if s.mayCall then some (⟨{ s.manager with risk := s.manager.risk.setKillSwitch on }, s.stack⟩, []) else none

/-- The messages among the effects of a step, in order. -/
def sentIn (fx : List Effect) : List Ouch.Inbound :=
  fx.filterMap fun
    | .sent msg _ => some msg
    | _ => none

/-- The step without what it shows. -/
def next (s : Session) (e : Event) : Option Session := (s.step e).map Prod.fst

end Session

/-! ## What a step does to the manager -/

/-- An operation on the manager alone. -/
inductive Call
  | submit (req : OrderRequest) (now : Nat) (w : World)
  | cancelEntry (i : Nat) (now : Nat) (w : World)
  | replace (id : Nat) (newPrice : Int) (newQty : Nat) (now : Nat) (w : World)
  | report (r : Ouch.Outbound) (now : Nat)
  | mark (locate : Nat) (price : Int)
  | killSwitch (on : Bool)

namespace OrderManager

/-- What a report leaves of the manager. -/
def onReport (m : OrderManager) (r : Ouch.Outbound) (now : Nat) : OrderManager :=
  match r with
  | .accepted a => (m.onAccepted a now).1
  | .canceled c => (m.onCanceled c now).1
  | .rejected x => (m.onRejected x now).1
  | .replaced x => (m.onReplaced x now).1
  | .executed x => (m.onExecuted x now).1

def perform (m : OrderManager) : Call → OrderManager
  | .submit req now w => (m.submit req now w.symbol w.reference w.gateway).state
  | .cancelEntry i now w => (m.cancelEntry i now w.gateway).state
  | .replace id newPrice newQty now w => (m.replace id newPrice newQty now w.reference w.gateway).state
  | .report r now => m.onReport r now
  | .mark locate price => { m with risk := m.risk.mark locate price }
  | .killSwitch on => { m with risk := m.risk.setKillSwitch on }

/-- The messages of a call that the gateway took. -/
def sends (m : OrderManager) : Call → List Ouch.Inbound
  | .submit req now w => ((m.submit req now w.symbol w.reference w.gateway).sent.filter w.gateway).toList
  | .cancelEntry i now w => ((m.cancelEntry i now w.gateway).sent.filter w.gateway).toList
  | .replace id newPrice newQty now w =>
    ((m.replace id newPrice newQty now w.reference w.gateway).sent.filter w.gateway).toList
  | _ => []

/-- A call names a used slot. -/
def Fits (m : OrderManager) : Call → Prop
  | .cancelEntry i _ _ => i < m.fresh
  | _ => True

theorem Inv.perform {m : OrderManager} (h : Inv m) {c : Call} (hc : m.Fits c) : Inv (m.perform c) := by
  cases c with
  | submit req now w => exact h.submit req now _ _ _
  | cancelEntry i now w => exact h.cancelEntry hc now _
  | replace id p q now w => exact h.replace id p q now _ _
  | report r now =>
    cases r with
    | accepted a => exact h.onAccepted a now
    | canceled c => exact h.onCanceled c now
    | rejected x => exact h.onRejected x now
    | replaced x => exact h.onReplaced x now
    | executed x => exact h.onExecuted x now
  | mark l p =>
    exact h.keep ⟨rfl, rfl, rfl, rfl⟩ ⟨rfl, rfl, rfl, rfl⟩ rfl rfl rfl (Risk.RiskEngine.mark_sameLedger _ l p)
  | killSwitch on =>
    exact h.keep ⟨rfl, rfl, rfl, rfl⟩ ⟨rfl, rfl, rfl, rfl⟩ rfl rfl rfl
      (Risk.RiskEngine.setKillSwitch_sameLedger _ on)

/-- Every working order of `m` works on in `m'`, in its slot and under its id; the orders that are new
there have ids that `m` had not given out. -/
structure Keeps (m m' : OrderManager) : Prop where
  nextId : m.nextId ≤ m'.nextId
  kept : ∀ i < m.fresh, (m.slots i).working = true →
    i < m'.fresh ∧ (m'.slots i).working = true ∧ (m'.slots i).info.id = (m.slots i).info.id
  old : ∀ i < m'.fresh, (m'.slots i).working = true →
    (i < m.fresh ∧ (m.slots i).working = true) ∨ m.nextId ≤ (m'.slots i).info.id

theorem Keeps.refl (m : OrderManager) : Keeps m m :=
  ⟨le_rfl, fun _ hi hw => ⟨hi, hw, rfl⟩, fun _ hi hw => .inl ⟨hi, hw⟩⟩

theorem Near.keeps_settle {m m₁ : OrderManager} (hm : Near m m₁) {j : Nat} {e : Entry} (o : Option OrderStatus)
    (hl : e.info.leavesQty ≠ 0) (hid : e.info.id = (m.slots j).info.id) (hj : (m.slots j).working = true)
    (he : e.synced.working = true) : Keeps m (m₁.settle j e o) := by
  rw [settle_live hl]
  refine ⟨hm.table.nextId.ge, fun i hi hw => ?_, fun i hi hw => .inl ⟨hi.trans_eq hm.table.fresh, ?_⟩⟩
  · refine ⟨hi.trans_eq hm.table.fresh.symm, ?_⟩
    by_cases hij : i = j
    · subst hij
      simpa using ⟨he, hid⟩
    · simpa [hij, hm.slots] using hw
  · by_cases hij : i = j
    · rw [hij]
      exact hj
    · simpa [hij, hm.slots] using hw

/-- A new order gets the next id, in a slot that was not in use. -/
theorem Inv.keeps_admitted {m : OrderManager} (h : Inv m) {req : OrderRequest} {now : Nat} {reference : Nat → Int}
    {tokens : BoundedMap Nat Nat} (hs : Submittable m req now reference tokens) :
    Keeps m (m.admitted req now tokens) := by
  have hne : ∀ i < m.fresh, (m.slots i).working = true → i ≠ m.nextSlot := by
    rintro i hi hw rfl
    rcases h.nextSlot_cases hs.slot with ⟨_, h₂⟩ | ⟨_, _, h₃, _⟩
    · omega
    · rw [hw] at h₃
      cases h₃
  have hslots : ∀ i, i ≠ m.nextSlot → (m.admitted req now tokens).slots i = m.slots i :=
    fun i hi => Function.update_of_ne hi _ _
  refine ⟨Nat.le_succ _, fun i hi hw => ?_, fun i hi hw => ?_⟩
  · rw [hslots i (hne i hi hw), admitted_fresh]
    refine ⟨?_, hw, rfl⟩
    split_ifs <;> omega
  · by_cases hi' : i = m.nextSlot
    · right
      subst hi'
      show m.nextId ≤ (Function.update m.slots m.nextSlot _ m.nextSlot).info.id
      rw [Function.update_self]
      exact le_rfl
    · left
      rw [hslots i hi'] at hw
      refine ⟨?_, hw⟩
      rw [admitted_fresh] at hi
      split_ifs at hi with hf
      · rcases h.nextSlot_cases hs.slot with ⟨_, h₂⟩ | ⟨h₁, _⟩ <;> omega
      · exact hi

/-- A call other than a report ends no order. -/
theorem perform_keeps {m : OrderManager} (h : Inv m) {c : Call} (hc : m.Fits c)
    (hr : ∀ r now, c ≠ .report r now) : Keeps m (m.perform c) := by
  cases c with
  | submit req now w =>
    rcases submit_cases m req now w.symbol w.reference w.gateway rfl with
      ⟨hs, _, _⟩ | ⟨tokens, hs, _, hout⟩
    · rw [perform, hs]
      exact .refl m
    · rw [perform, hout]
      exact h.keeps_admitted hs
  | cancelEntry j now w =>
    rcases cancelEntry_cases h hc now w.gateway rfl with
      ⟨hs, _, _⟩ | ⟨hwj, _, _, hout⟩
    · rw [perform, hs]
      exact .refl m
    · have hleaves := ((h.entries j hc).phase.working_iff).mp hwj
      rw [perform, hout]
      exact (Near.refl m).keeps_settle none (by simp [Entry.askCancel]; omega) rfl hwj rfl
  | replace id p q now w =>
    rcases replace_cases h id p q now w.reference w.gateway rfl with
      ⟨hs, _, _⟩ | ⟨j, tokens, hid, hrep, _, hout⟩
    · rw [perform, hs]
      exact .refl m
    · have hleaves := ((h.entries j ((h.ids.find id j).mp hid).1).phase.working_iff).mp hrep.working
      rw [perform, hout]
      exact (Near.offered m j q now tokens).keeps_settle none (by simp [Entry.askReplace]; omega) rfl hrep.working rfl
  | report r now => exact absurd rfl (hr r now)
  | mark l p => exact ⟨le_rfl, fun _ hi hw => ⟨hi, hw, rfl⟩, fun _ hi hw => .inl ⟨hi, hw⟩⟩
  | killSwitch on => exact ⟨le_rfl, fun _ hi hw => ⟨hi, hw, rfl⟩, fun _ hi hw => .inl ⟨hi, hw⟩⟩

end OrderManager

namespace Session

/-- The invariant of a session: every cursor on the stack is at a working order. -/
structure Ok (s : Session) : Prop where
  inv : s.manager.Inv
  cursors : ∀ i last sent now, Frame.sweep (some i) last sent now ∈ s.stack →
    i < s.manager.fresh ∧ (s.manager.slots i).working = true

variable {s s' : Session} {e : Event} {fx : List Effect}

@[simp] theorem finishCall_manager {α : Type} (s : Session) (out : OrderManager.Outcome α) (now : Nat) (w : World) :
    (s.finishCall out now w).1.manager = out.state := by
  unfold finishCall
  cases out.update <;> rfl

theorem sentIn_taken (w : World) (now : Nat) (o : Option Ouch.Inbound) :
    sentIn (taken w now o) = (o.filter w.gateway).toList := by
  cases o with
  | none => rfl
  | some msg =>
    unfold taken
    by_cases hg : w.gateway msg = true
    · simp [hg, sentIn, Option.filter]
    · simp [hg, sentIn, Option.filter]

theorem sentIn_finishCall {α : Type} (s : Session) (out : OrderManager.Outcome α) (now : Nat) (w : World) :
    sentIn (s.finishCall out now w).2 = (out.sent.filter w.gateway).toList := by
  rw [← sentIn_taken w now]
  unfold finishCall
  cases out.update
  · rfl
  · simp [sentIn]

theorem sentIn_report (s : Session) (r : Ouch.Outbound) (now : Nat) : sentIn (s.report r now).2 = [] := by
  have hfin : ∀ out : OrderManager × Option OrderInfo, sentIn (finishReport out).2 = [] := by
    rintro ⟨m, _ | info⟩ <;> rfl
  cases r with
  | accepted a => exact hfin _
  | canceled c => exact hfin _
  | rejected x => exact hfin _
  | replaced x => exact hfin _
  | executed x =>
    simp only [report]
    rcases s.manager.onExecuted x now with ⟨m, _ | ⟨f, before⟩⟩ <;> rfl

theorem finishCall_stack {α : Type} (s : Session) (out : OrderManager.Outcome α) (now : Nat) (w : World) :
    (s.finishCall out now w).1.stack = s.stack ∨ (s.finishCall out now w).1.stack = .update :: s.stack := by
  unfold finishCall
  cases out.update
  · exact .inl rfl
  · exact .inr rfl

theorem report_manager (s : Session) (r : Ouch.Outbound) (now : Nat) :
    (s.report r now).1.manager = s.manager.onReport r now := by
  have hfin : ∀ out : OrderManager × Option OrderInfo, (finishReport out).1.manager = out.1 := by
    rintro ⟨m, _ | info⟩ <;> rfl
  cases r with
  | accepted a => exact hfin _
  | canceled c => exact hfin _
  | rejected x => exact hfin _
  | replaced x => exact hfin _
  | executed x =>
    simp only [report, OrderManager.onReport]
    rcases s.manager.onExecuted x now with ⟨m, _ | ⟨f, before⟩⟩ <;> rfl

theorem report_stack (s : Session) (r : Ouch.Outbound) (now : Nat) :
    ∀ f ∈ (s.report r now).1.stack, ∀ i last sent t, f ≠ .sweep (some i) last sent t := by
  have hfin : ∀ out : OrderManager × Option OrderInfo, ∀ f ∈ (finishReport out).1.stack,
      ∀ i last sent t, f ≠ .sweep (some i) last sent t := by
    rintro ⟨m, _ | info⟩ <;> simp [finishReport]
  cases r with
  | accepted a => exact hfin _
  | canceled c => exact hfin _
  | rejected x => exact hfin _
  | replaced x => exact hfin _
  | executed x =>
    simp only [report]
    rcases s.manager.onExecuted x now with ⟨m, _ | ⟨f, before⟩⟩ <;> simp

/-- The operation on the manager that an event comes to. -/
def operation (s : Session) : Event → Option Call
  | .submit req now w => some (.submit req now w)
  | .cancel id now w => (s.manager.slotOf id).map fun i => .cancelEntry i now w
  | .replace id newPrice newQty now w => some (.replace id newPrice newQty now w)
  | .advance w =>
    match s.stack with
    | .sweep (some i) last _ now :: _ =>
      if last < (s.manager.slots i).info.id ∨ (s.manager.slots i).info.status = .pendingCancel then none
      else some (.cancelEntry i now w)
    | _ => none
  | .cancelAll _ | .ret => none
  | .report r now => some (.report r now)
  | .mark locate price => some (.mark locate price)
  | .killSwitch on => some (.killSwitch on)

theorem operation_submit {req : OrderRequest} {now : Nat} {w : World} (h : s.operation e = some (.submit req now w)) :
    e = .submit req now w := by
  cases e with
  | submit req' now' w' =>
    cases h
    rfl
  | cancel id now' w' => obtain ⟨i, -, hi⟩ := Option.map_eq_some_iff.mp h; cases hi
  | advance w' =>
    unfold operation at h
    dsimp only at h
    split at h
    · split_ifs at h
      cases h
    · cases h
  | replace id p q now' w' => cases h
  | cancelAll now' => cases h
  | ret => cases h
  | report r now' => cases h
  | mark l p => cases h
  | killSwitch on => cases h

/-- **A step performs the operation its event comes to**, and sends what that sends. -/
theorem step_operation (hs : s.step e = some (s', fx)) :
    s'.manager = (s.operation e).elim s.manager s.manager.perform ∧
      sentIn fx = (s.operation e).elim [] s.manager.sends := by
  have hcall : ∀ {α : Type} {out : OrderManager.Outcome α} {now : Nat} {w : World} {t : Session},
      t.finishCall out now w = (s', fx) → s'.manager = out.state ∧ sentIn fx = (out.sent.filter w.gateway).toList := by
    intro α out now w t ht
    rw [← finishCall_manager t out now w, ← sentIn_finishCall t out now w, ht]
    exact ⟨rfl, rfl⟩
  cases e with
  | submit req now w =>
    simp only [Session.step, Option.ite_none_right_eq_some, Option.some.injEq] at hs
    exact hcall hs.2
  | cancel id now w =>
    simp only [Session.step, Option.ite_none_right_eq_some, Option.some.injEq] at hs
    have h := hcall hs.2
    unfold OrderManager.cancel at h
    unfold operation
    dsimp only
    cases hslot : s.manager.slotOf id with
    | none =>
      rw [hslot] at h
      exact h
    | some i =>
      rw [hslot] at h
      exact h
  | replace id p q now w =>
    simp only [Session.step, Option.ite_none_right_eq_some, Option.some.injEq] at hs
    exact hcall hs.2
  | cancelAll now =>
    simp only [Session.step, Option.ite_none_right_eq_some, Option.some.injEq, Prod.mk.injEq] at hs
    obtain ⟨-, rfl, rfl⟩ := hs
    exact ⟨rfl, rfl⟩
  | advance w =>
    simp only [Session.step] at hs
    unfold operation
    split at hs
    · rename_i cursor last sent now rest hst
      rw [hst]
      have hs := Option.some.inj hs
      unfold sweep at hs
      cases cursor with
      | none =>
        obtain ⟨rfl, rfl⟩ := Prod.mk.inj hs
        exact ⟨rfl, rfl⟩
      | some i =>
        dsimp only at hs ⊢
        by_cases hlast : last < (s.manager.slots i).info.id
        · rw [if_pos hlast] at hs
          obtain ⟨rfl, rfl⟩ := Prod.mk.inj hs
          rw [if_pos (.inl hlast)]
          exact ⟨rfl, rfl⟩
        rw [if_neg hlast] at hs
        by_cases hpc : (s.manager.slots i).info.status = .pendingCancel
        · rw [if_neg (not_not.mpr hpc)] at hs
          obtain ⟨rfl, rfl⟩ := Prod.mk.inj hs
          rw [if_pos (.inr hpc)]
          exact ⟨rfl, rfl⟩
        · rw [if_pos hpc] at hs
          rw [if_neg (not_or.mpr ⟨hlast, hpc⟩)]
          exact hcall hs
    · cases hs
  | ret =>
    simp only [Session.step] at hs
    split at hs
    · obtain ⟨rfl, rfl⟩ := Prod.mk.inj (Option.some.inj hs)
      exact ⟨rfl, rfl⟩
    · obtain ⟨rfl, rfl⟩ := Prod.mk.inj (Option.some.inj hs)
      exact ⟨rfl, rfl⟩
    · cases hs
  | report r now =>
    simp only [Session.step, Option.ite_none_right_eq_some, Option.some.injEq] at hs
    rw [show s' = (s.report r now).1 from (congrArg Prod.fst hs.2).symm,
      show fx = (s.report r now).2 from (congrArg Prod.snd hs.2).symm, report_manager, sentIn_report]
    exact ⟨rfl, rfl⟩
  | mark l p =>
    simp only [Session.step, Option.ite_none_right_eq_some, Option.some.injEq, Prod.mk.injEq] at hs
    obtain ⟨-, rfl, rfl⟩ := hs
    exact ⟨rfl, rfl⟩
  | killSwitch on =>
    simp only [Session.step, Option.ite_none_right_eq_some, Option.some.injEq, Prod.mk.injEq] at hs
    obtain ⟨-, rfl, rfl⟩ := hs
    exact ⟨rfl, rfl⟩

/-- A step that only moves the stack, or one operation on the manager. -/
inductive Moves (s : Session) (e : Event) (fx : List Effect) (s' : Session) : Prop
  | stack : s'.manager = s.manager → sentIn fx = [] → (∀ r now, e ≠ .report r now) → Moves s e fx s'
  | call (c : Call) : s.manager.Fits c → s'.manager = s.manager.perform c →
      (∀ r now, c = .report r now ↔ e = .report r now) → sentIn fx = s.manager.sends c → Moves s e fx s'

theorem Ok.same (h : Ok s) (hm : s'.manager = s.manager)
    (hst : ∀ i last sent now, Frame.sweep (some i) last sent now ∈ s'.stack →
      i < s.manager.fresh ∧ (s.manager.slots i).working = true) : Ok s' :=
  ⟨hm ▸ h.inv, fun i last sent now hf => hm ▸ hst i last sent now hf⟩

theorem Ok.called (h : Ok s) {c : Call} (hc : s.manager.Fits c) (hr : ∀ r now, c ≠ .report r now)
    (hm : s'.manager = s.manager.perform c)
    (hst : ∀ i last sent now, Frame.sweep (some i) last sent now ∈ s'.stack →
      i < s.manager.fresh ∧ (s.manager.slots i).working = true) : Ok s' := by
  refine ⟨hm ▸ h.inv.perform hc, fun i last sent now hf => ?_⟩
  obtain ⟨hi, hw⟩ := hst i last sent now hf
  rw [hm]
  obtain ⟨hi', hw', _⟩ := (OrderManager.perform_keeps h.inv hc hr).kept i hi hw
  exact ⟨hi', hw'⟩

theorem Ok.cursors_finishCall (h : Ok s) {α : Type} (out : OrderManager.Outcome α) (now : Nat) (w : World) :
    ∀ i last sent t, Frame.sweep (some i) last sent t ∈ (s.finishCall out now w).1.stack →
      i < s.manager.fresh ∧ (s.manager.slots i).working = true := by
  intro i last sent t hf
  rcases s.finishCall_stack out now w with hst | hst
  · rw [hst] at hf
    exact h.cursors i last sent t hf
  · rw [hst] at hf
    exact h.cursors i last sent t (by simpa using hf)

theorem Ok.fits (h : Ok s) {c : Call} (ho : s.operation e = some c) : s.manager.Fits c := by
  cases e with
  | submit req now w => cases ho; trivial
  | cancel id now w =>
    obtain ⟨i, hslot, rfl⟩ := Option.map_eq_some_iff.mp ho
    exact ((h.inv.ids.find id i).mp hslot).1
  | replace id p q now w => cases ho; trivial
  | advance w =>
    unfold operation at ho
    dsimp only at ho
    split at ho
    · rename_i i last sent now rest hst
      split_ifs at ho
      cases ho
      exact (h.cursors i last sent now (by rw [hst]; exact List.mem_cons_self)).1
    · cases ho
  | cancelAll now => cases ho
  | ret => cases ho
  | report r now => cases ho; trivial
  | mark l p => cases ho; trivial
  | killSwitch on => cases ho; trivial

theorem operation_report {c : Call} (ho : s.operation e = some c) (r : Ouch.Outbound) (now : Nat) :
    c = .report r now ↔ e = .report r now := by
  cases e with
  | report r' now' =>
    cases ho
    constructor <;> (intro h; cases h; rfl)
  | cancel id now' w =>
    obtain ⟨i, -, rfl⟩ := Option.map_eq_some_iff.mp ho
    simp
  | advance w =>
    unfold operation at ho
    dsimp only at ho
    split at ho
    · split_ifs at ho
      cases ho
      simp
    · cases ho
  | submit req now' w => cases ho; simp
  | replace id p q now' w => cases ho; simp
  | cancelAll now' => cases ho
  | ret => cases ho
  | mark l p => cases ho; simp
  | killSwitch on => cases ho; simp

theorem Ok.moves (h : Ok s) (hs : s.step e = some (s', fx)) : Moves s e fx s' := by
  obtain ⟨hm, hfx⟩ := step_operation hs
  cases ho : s.operation e with
  | none =>
    rw [ho] at hm hfx
    exact .stack hm hfx (by rintro r now rfl; cases ho)
  | some c =>
    rw [ho] at hm hfx
    exact .call c (h.fits ho) hm (operation_report ho) hfx

/-- The cursors a session has after one iteration of a `cancel_all` loop. -/
theorem Ok.cursors_sweep (h : Ok s) {rest : List Frame} {cursor : Option Nat} {last sent now : Nat} (w : World)
    (hst : s.stack = .sweep cursor last sent now :: rest) : ∀ i last' sent' t,
      Frame.sweep (some i) last' sent' t ∈ (s.sweep rest cursor last sent now w).1.stack →
        i < s.manager.fresh ∧ (s.manager.slots i).working = true := by
  have hrest : ∀ i last sent now, Frame.sweep (some i) last sent now ∈ rest →
      i < s.manager.fresh ∧ (s.manager.slots i).working = true :=
    fun i l st t hf => h.cursors i l st t (by rw [hst]; exact List.mem_cons_of_mem _ hf)
  unfold sweep
  cases cursor with
  | none => exact hrest
  | some i =>
    dsimp only
    -- the cursor moves along the working list
    have hnext : ∀ j, s.manager.links.next i = some j → j < s.manager.fresh ∧ (s.manager.slots j).working = true := by
      intro j hj
      obtain ⟨hi, hw⟩ := h.cursors i last sent now (by rw [hst]; exact List.mem_cons_self)
      obtain ⟨ws, h₁, h₂, _, _⟩ := h.inv.places.list
      exact (h₂ j).mp (h₁.next_mem ((h₂ i).mpr ⟨hi, hw⟩) hj)
    have hcur : ∀ sent' k last' sent'' now', Frame.sweep (some k) last' sent'' now' ∈
        Frame.sweep (s.manager.links.next i) last sent' now :: rest →
        k < s.manager.fresh ∧ (s.manager.slots k).working = true := by
      intro sent' k last' sent'' now' hf
      rcases List.mem_cons.mp hf with hf | hf
      · injection hf with hf
        exact hnext k hf.symm
      · exact hrest _ _ _ _ hf
    by_cases hlast : last < (s.manager.slots i).info.id
    · rw [if_pos hlast]
      exact hrest
    rw [if_neg hlast]
    by_cases hpc : (s.manager.slots i).info.status ≠ .pendingCancel
    · rw [if_pos hpc]
      intro k l st t hf
      rcases finishCall_stack
        ⟨(s.manager.cancelEntry i now w.gateway).state,
          .sweep (s.manager.links.next i) last
            (if (s.manager.cancelEntry i now w.gateway).result = .ok then sent + 1 else sent) now :: rest⟩
        (s.manager.cancelEntry i now w.gateway) now w with hs | hs
      · rw [hs] at hf
        exact hcur _ k l st t hf
      · rw [hs] at hf
        exact hcur _ k l st t (by simpa using hf)
    · rw [if_neg hpc]
      exact fun k l st t hf => hcur sent k l st t hf

/-- The cursors of the session after a step stood at working orders before it. -/
theorem Ok.cursors_step (h : Ok s) (hs : s.step e = some (s', fx)) : ∀ i last sent now,
    Frame.sweep (some i) last sent now ∈ s'.stack → i < s.manager.fresh ∧ (s.manager.slots i).working = true := by
  cases e with
  | submit req now w =>
    simp only [Session.step, Option.ite_none_right_eq_some, Option.some.injEq] at hs
    rw [← show _ = s' from congrArg Prod.fst hs.2]
    exact h.cursors_finishCall _ now w
  | cancel id now w =>
    simp only [Session.step, Option.ite_none_right_eq_some, Option.some.injEq] at hs
    rw [← show _ = s' from congrArg Prod.fst hs.2]
    exact h.cursors_finishCall _ now w
  | replace id p q now w =>
    simp only [Session.step, Option.ite_none_right_eq_some, Option.some.injEq] at hs
    rw [← show _ = s' from congrArg Prod.fst hs.2]
    exact h.cursors_finishCall _ now w
  | cancelAll now =>
    simp only [Session.step, Option.ite_none_right_eq_some, Option.some.injEq, Prod.mk.injEq] at hs
    obtain ⟨-, rfl, -⟩ := hs
    intro i last sent t hf
    rcases List.mem_cons.mp hf with hf | hf
    · injection hf with hf
      obtain ⟨ws, h₁, h₂, _, _⟩ := h.inv.places.list
      exact (h₂ i).mp (h₁.head_mem hf.symm)
    · exact h.cursors i last sent t hf
  | advance w =>
    simp only [Session.step] at hs
    split at hs
    · rename_i cursor last sent now rest hst
      rw [← show _ = s' from congrArg Prod.fst (Option.some.inj hs)]
      exact h.cursors_sweep w hst
    · cases hs
  | ret =>
    simp only [Session.step] at hs
    split at hs
    · rename_i rest hst
      obtain ⟨rfl, -⟩ := Prod.mk.inj (Option.some.inj hs)
      exact fun i l st t hf => h.cursors i l st t (by rw [hst]; simpa using hf)
    · rename_i before rest hst
      obtain ⟨rfl, -⟩ := Prod.mk.inj (Option.some.inj hs)
      exact fun i l st t hf => h.cursors i l st t (by rw [hst]; simpa using hf)
    · cases hs
  | report r now =>
    simp only [Session.step, Option.ite_none_right_eq_some, Option.some.injEq] at hs
    rw [← show _ = s' from congrArg Prod.fst hs.2]
    exact fun i l st t hf => absurd rfl (s.report_stack r now _ hf i l st t)
  | mark l p =>
    simp only [Session.step, Option.ite_none_right_eq_some, Option.some.injEq, Prod.mk.injEq] at hs
    obtain ⟨-, rfl, -⟩ := hs
    exact h.cursors
  | killSwitch on =>
    simp only [Session.step, Option.ite_none_right_eq_some, Option.some.injEq, Prod.mk.injEq] at hs
    obtain ⟨-, rfl, -⟩ := hs
    exact h.cursors

/-- **Every step is a move of the stack or one operation on the manager, and keeps the invariant.** -/
theorem Ok.step (h : Ok s) (hs : s.step e = some (s', fx)) : Moves s e fx s' ∧ Ok s' := by
  have hmv := h.moves hs
  refine ⟨hmv, ?_⟩
  cases hmv with
  | stack hm _ _ => exact h.same hm (h.cursors_step hs)
  | call c hc hm hiff _ =>
    by_cases hr : ∃ r now, e = .report r now
    · obtain ⟨r, now, rfl⟩ := hr
      simp only [Session.step, Option.ite_none_right_eq_some, Option.some.injEq] at hs
      refine ⟨hm ▸ h.inv.perform hc, fun i l st t hf => ?_⟩
      rw [← show _ = s' from congrArg Prod.fst hs.2] at hf
      exact absurd rfl (s.report_stack r now _ hf i l st t)
    · exact h.called hc (fun r now hcr => hr ⟨r, now, (hiff r now).mp hcr⟩) hm (h.cursors_step hs)

theorem Ok.new (config : Config) (limits : Risk.Limits) (maxLocates : Nat) : Ok (new config limits maxLocates) :=
  ⟨OrderManager.Inv.new config limits maxLocates, by simp [Session.new]⟩

theorem next_some (h : s.next e = some s') : ∃ fx, s.step e = some (s', fx) := by
  unfold next at h
  obtain ⟨⟨s₁, fx⟩, h₁, h₂⟩ := Option.map_eq_some_iff.mp h
  exact ⟨fx, by rw [h₁, ← h₂]⟩

/-- A world that knows every instrument and takes every message. -/
def openWorld : World :=
  ⟨fun _ => .ofText [65, 66, 67, 68], fun _ => 0, fun _ => true⟩

/-- An order of 100 is accepted, a replace to 150 goes out, and 30 shares execute on the old token
while the replace is in flight. -/
def replaceInFlight : List Event :=
  [.submit { locate := 1, price := 10, qty := 100 } 5 openWorld, .ret,
    .report (.accepted { token := Ouch.Token.fromId 1, side := .buy, shares := 100, price := 10 }) 6, .ret,
    .replace 1 10 150 7 openWorld, .ret,
    .report (.executed { ts := 8, token := Ouch.Token.fromId 1, shares := 30, price := 10, matchNo := 1 }) 8]

/-- **Every reachable session satisfies the invariant.** -/
theorem Ok.run {es : List Event} (h : Ok s) (hr : run next s es = some s') : Ok s' := by
  refine run_invariant (P := Ok) (fun s₁ e s₂ h₁ hs => ?_) hr h
  obtain ⟨fx, hs⟩ := next_some hs
  exact (h₁.step hs).2

end Session
end OptiTrade.Oms
