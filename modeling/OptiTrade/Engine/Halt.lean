import OptiTrade.Engine.Steps

/-! # Trading stops at a gap in the feed

While trading is off the strategy can only cancel. A sweep of which the gateway refuses nothing leaves
no working order without a cancel in flight: its cursor walks the list of working orders, which cannot
change under it, and everything behind the cursor is `pendingCancel`. -/

namespace OptiTrade
set_option autoImplicit false

open Oms (Session Effect Event Frame OrderManager World OrderStatus isTerminal)
open Runs

/-! ## What is sent while trading is off -/

namespace Oms

/-- The message is a cancel. -/
def IsCancel (msg : Ouch.Inbound) : Prop := ∃ c, msg = .cancel c

namespace Session
variable {s s' : Session} {ev : Event} {fx : List Effect}

theorem finishCall_cancels {α : Type} {out : OrderManager.Outcome α} {now : Nat} {w : World}
    (h : ∀ msg, out.sent = some msg → IsCancel msg) :
    ∀ msg t, Effect.sent msg t ∈ (s.finishCall out now w).2 → IsCancel msg := by
  have htaken : ∀ msg t, Effect.sent msg t ∈ taken w now out.sent → IsCancel msg := by
    intro msg t hm
    unfold taken at hm
    split at hm
    · rename_i msg' hsent
      split_ifs at hm
      · obtain ⟨rfl, _⟩ : msg = msg' ∧ t = now := by simpa using hm
        exact h msg hsent
      · cases hm
    · cases hm
  intro msg t hm
  unfold finishCall at hm
  split at hm
  · exact htaken msg t (by simpa using hm)
  · exact htaken msg t hm

theorem cancelEntry_cancels (m : OrderManager) (i now : Nat) (gateway : Ouch.Inbound → Bool) :
    ∀ msg, (m.cancelEntry i now gateway).sent = some msg → IsCancel msg := by
  intro msg hm
  unfold OrderManager.cancelEntry at hm
  dsimp only at hm
  split_ifs at hm <;> exact ⟨_, (Option.some.inj hm).symm⟩

theorem sweep_cancels (rest : List Frame) (cursor : Option Nat) (last sent now : Nat) (w : World) :
    ∀ msg t, Effect.sent msg t ∈ (s.sweep rest cursor last sent now w).2 → IsCancel msg := by
  unfold sweep
  cases cursor with
  | none => simp
  | some i =>
    dsimp only
    by_cases h₁ : last < (s.manager.slots i).info.id
    · rw [if_pos h₁]
      simp
    · rw [if_neg h₁]
      by_cases h₂ : (s.manager.slots i).info.status ≠ .pendingCancel
      · rw [if_pos h₂]
        exact finishCall_cancels (cancelEntry_cancels _ i now _)
      · rw [if_neg h₂]
        simp

/-- Only a submit and a replace send anything but cancels. -/
theorem step_cancels (hs : s.step ev = some (s', fx)) (h₁ : ∀ req now w, ev ≠ .submit req now w)
    (h₂ : ∀ id p q now w, ev ≠ .replace id p q now w) : ∀ msg t, Effect.sent msg t ∈ fx → IsCancel msg := by
  cases ev with
  | submit req now w => exact absurd rfl (h₁ req now w)
  | replace id p q now w => exact absurd rfl (h₂ id p q now w)
  | cancel id now w =>
    simp only [step, Option.ite_none_right_eq_some, Option.some.injEq] at hs
    obtain ⟨rfl, rfl⟩ := Prod.mk.inj hs.2.symm
    refine finishCall_cancels fun msg hm => ?_
    unfold OrderManager.cancel at hm
    cases hslot : s.manager.slotOf id with
    | none => rw [hslot] at hm; cases hm
    | some i => rw [hslot] at hm; exact cancelEntry_cancels _ i now _ msg hm
  | cancelAll now =>
    simp only [step, Option.ite_none_right_eq_some, Option.some.injEq, Prod.mk.injEq] at hs
    obtain ⟨_, _, rfl⟩ := hs
    simp
  | advance w =>
    simp only [step] at hs
    split at hs
    · rename_i cursor last sent now rest _
      have hfx : _ = fx := congrArg Prod.snd (Option.some.inj hs)
      rw [← hfx]
      exact sweep_cancels rest cursor last sent now w
    · cases hs
  | ret =>
    simp only [step] at hs
    split at hs
    · obtain ⟨_, rfl⟩ := Prod.mk.inj (Option.some.inj hs)
      simp
    · obtain ⟨_, rfl⟩ := Prod.mk.inj (Option.some.inj hs)
      simp
    · cases hs
  | report r now =>
    simp only [step, Option.ite_none_right_eq_some, Option.some.injEq] at hs
    obtain ⟨rfl, rfl⟩ := Prod.mk.inj hs.2.symm
    intro msg t hm
    have hnil := sentIn_report s r now
    rw [sentIn, List.filterMap_eq_nil_iff] at hnil
    exact absurd (hnil _ hm) (by simp)
  | mark l p =>
    simp only [step, Option.ite_none_right_eq_some, Option.some.injEq, Prod.mk.injEq] at hs
    obtain ⟨_, _, rfl⟩ := hs
    simp
  | killSwitch on =>
    simp only [step, Option.ite_none_right_eq_some, Option.some.injEq, Prod.mk.injEq] at hs
    obtain ⟨_, _, rfl⟩ := hs
    simp

/-! ## The sweep -/

end Session

namespace OrderManager
variable {m m' : OrderManager}

/-- Some working orders of `m` are `pendingCancel` in `m'`; nothing else the sweep reads has changed. -/
structure Canceling (m m' : OrderManager) : Prop where
  fresh : m'.fresh = m.fresh
  links : m'.links = m.links
  ends : m'.working = m.working
  ids : ∀ i, (m'.slots i).info.id = (m.slots i).info.id
  working : ∀ i, (m'.slots i).working = (m.slots i).working
  stays : ∀ i, (m.slots i).info.status = .pendingCancel → (m'.slots i).info.status = .pendingCancel

theorem Canceling.refl (m : OrderManager) : Canceling m m :=
  ⟨rfl, rfl, rfl, fun _ => rfl, fun _ => rfl, fun _ h => h⟩

/-- A cancel leaves the manager alone or the order `pendingCancel`; a gateway that takes every cancel
leaves it alone only if there is nothing to cancel. -/
theorem cancelEntry_state (m : OrderManager) (i now : Nat) (gateway : Ouch.Inbound → Bool) :
    ((m.cancelEntry i now gateway).state = m ∧ ((∀ c, gateway (.cancel c) = true) →
      (m.slots i).working = true → (m.slots i).info.status = .pendingCancel)) ∨
    ((m.slots i).working = true ∧ (m.cancelEntry i now gateway).state = m.set i ((m.slots i).askCancel now)) := by
  unfold cancelEntry
  dsimp only
  generalize (if (m.slots i).nextToken ≠ 0 then (m.slots i).nextToken else (m.slots i).token) = target
  by_cases h₁ : isTerminal (m.slots i).info.status = true ∨ (m.slots i).info.status = .pendingCancel
  · rw [if_pos (by simpa using h₁)]
    refine .inl ⟨rfl, fun _ hw => h₁.resolve_left ?_⟩
    simpa [Entry.working] using hw
  · rw [if_neg (by simpa using h₁)]
    by_cases h₂ : (!gateway (.cancel ⟨Ouch.Token.fromId target, 0⟩)) = true
    · rw [if_pos h₂]
      refine .inl ⟨rfl, fun hg _ => ?_⟩
      rw [hg] at h₂
      cases h₂
    · rw [if_neg h₂]
      refine .inr ⟨?_, rfl⟩
      simpa [Entry.working] using fun h => h₁ (.inl h)

theorem cancelEntry_canceling (m : OrderManager) (i now : Nat) (gateway : Ouch.Inbound → Bool) :
    Canceling m (m.cancelEntry i now gateway).state := by
  rcases cancelEntry_state m i now gateway with ⟨hs, _⟩ | ⟨hw, hs⟩
  · rw [hs]
    exact .refl m
  · rw [hs]
    refine ⟨rfl, rfl, rfl, fun j => ?_, fun j => ?_, fun j hj => ?_⟩
    · by_cases hj : j = i
      · subst hj; simp [set, Entry.askCancel]
      · simp [set, hj]
    · by_cases hj : j = i
      · subst hj; simp [set, hw]; rfl
      · simp [set, hj]
    · by_cases hji : j = i
      · subst hji; simp [set, Entry.askCancel]
      · simpa [set, hji] using hj

theorem cancel_canceling (m : OrderManager) (id now : Nat) (gateway : Ouch.Inbound → Bool) :
    Canceling m (m.cancel id now gateway).state := by
  unfold cancel
  cases m.slotOf id with
  | none => exact .refl m
  | some i => exact cancelEntry_canceling m i now gateway

theorem cancelEntry_accepted {i now : Nat} {gateway : Ouch.Inbound → Bool} (hg : ∀ c, gateway (.cancel c) = true)
    (hw : (m.slots i).working = true) :
    ((m.cancelEntry i now gateway).state.slots i).info.status = .pendingCancel := by
  rcases cancelEntry_state m i now gateway with ⟨hs, hdone⟩ | ⟨_, hs⟩
  · rw [hs]
    exact hdone hg hw
  · rw [hs]
    simp [set, Entry.askCancel]

/-- The sweep has `pre` behind it and `suf` before it. -/
structure Walk (m : OrderManager) (pre suf : List Nat) (last : Nat) : Prop where
  linked : Linked m.links m.working (pre ++ suf)
  mem : ∀ i, i ∈ pre ++ suf ↔ i < m.fresh ∧ (m.slots i).working = true
  behind : ∀ i ∈ pre, (m.slots i).info.status = .pendingCancel
  ahead : ∀ i ∈ suf, (m.slots i).info.id ≤ last

/-- Every working order has a cancel in flight. -/
def Swept (m : OrderManager) : Prop :=
  ∀ i < m.fresh, (m.slots i).working = true → (m.slots i).info.status = .pendingCancel

theorem Walk.canceling {pre suf : List Nat} {last : Nat} (h : Walk m pre suf last) (hc : Canceling m m') :
    Walk m' pre suf last where
  linked := by rw [hc.links, hc.ends]; exact h.linked
  mem := fun i => by rw [hc.fresh, hc.working]; exact h.mem i
  behind := fun i hi => hc.stays i (h.behind i hi)
  ahead := fun i hi => by rw [hc.ids]; exact h.ahead i hi

theorem Swept.canceling (h : Swept m) (hc : Canceling m m') : Swept m' := by
  intro i hi hw
  rw [hc.fresh] at hi
  rw [hc.working] at hw
  exact hc.stays i (h i hi hw)

theorem Walk.forward {pre suf : List Nat} {i last : Nat} (h : Walk m pre (i :: suf) last)
    (hi : (m.slots i).info.status = .pendingCancel) : Walk m (pre ++ [i]) suf last where
  linked := by simpa using h.linked
  mem := fun j => by simpa using h.mem j
  behind := fun j hj => by
    rcases List.mem_append.mp hj with hj | hj
    · exact h.behind j hj
    · rw [List.mem_singleton.mp hj]
      exact hi
  ahead := fun j hj => h.ahead j (List.mem_cons_of_mem _ hj)

theorem Walk.swept {pre : List Nat} {last : Nat} (h : Walk m pre [] last) : Swept m :=
  fun i hi hw => h.behind i (by simpa using (h.mem i).mpr ⟨hi, hw⟩)

theorem Inv.walk (h : Inv m) : ∃ ws, m.working.head = ws.head? ∧ Walk m [] ws (m.nextId - 1) := by
  obtain ⟨ws, h₁, h₂, _, _⟩ := h.places.list
  refine ⟨ws, h₁.head, h₁, h₂, by simp, fun i hi => ?_⟩
  have := h.ids.id_lt i ((h₂ i).mp hi).1
  omega

end OrderManager

namespace Session
variable {s s' : Session} {ev : Event} {fx : List Effect}

/-- The gateway of this event takes every cancel. -/
def Accepts : Event → Prop
  | .cancel _ _ w => ∀ c, w.gateway (.cancel c) = true
  | .advance w => ∀ c, w.gateway (.cancel c) = true
  | .ret => True
  | _ => False

/-- A sweep in progress, possibly under updates it has caused, or one that is over. -/
inductive Sweeping (s : Session) : Prop
  | walking (us : List Frame) (pre suf : List Nat) (last sent now : Nat) :
      s.stack = us ++ [.sweep suf.head? last sent now] → (∀ f ∈ us, f = .update) →
      s.manager.Walk pre suf last → Sweeping s
  | finished : (∀ f ∈ s.stack, f = .update) → s.manager.Swept → Sweeping s

theorem Sweeping.called (h : Sweeping s) {α : Type} {out : OrderManager.Outcome α} {now : Nat} {w : World}
    (hc : s.manager.Canceling out.state) : Sweeping (s.finishCall out now w).1 := by
  have hm := finishCall_manager s out now w
  cases h with
  | walking us pre suf last sent t hst hus hw =>
    have hw' : (s.finishCall out now w).1.manager.Walk pre suf last := hm.symm ▸ hw.canceling hc
    rcases s.finishCall_stack out now w with hs | hs
    · exact .walking us pre suf last sent t (hs.trans hst) hus hw'
    · exact .walking (.update :: us) pre suf last sent t (by rw [hs, hst]; rfl) (by simpa using hus) hw'
  | finished hus hsw =>
    refine .finished ?_ (hm.symm ▸ hsw.canceling hc)
    rcases s.finishCall_stack out now w with hs | hs
    · rw [hs]; exact hus
    · rw [hs]; simpa using hus

/-- One iteration of the sweep, its frame on top of the stack. -/
theorem Walk.sweep {pre suf : List Nat} {last sent now : Nat} {w : World} (hw : s.manager.Walk pre suf last)
    (hg : ∀ c, w.gateway (.cancel c) = true) : Sweeping (s.sweep [] suf.head? last sent now w).1 := by
  unfold Session.sweep
  cases suf with
  | nil => exact .finished (by simp) hw.swept
  | cons i suf =>
    have hlast : ¬last < (s.manager.slots i).info.id := Nat.not_lt.mpr (hw.ahead i List.mem_cons_self)
    have hnext : s.manager.links.next i = suf.head? := hw.linked.next pre i suf rfl
    have hworking := ((hw.mem i).mp (by simp)).2
    dsimp only [List.head?_cons]
    rw [if_neg hlast, hnext]
    by_cases hpc : (s.manager.slots i).info.status ≠ .pendingCancel
    · rw [if_pos hpc]
      -- the order is canceled first, and the walk is past it when the update runs
      have hstep := (hw.canceling (OrderManager.cancelEntry_canceling s.manager i now w.gateway)).forward
        (OrderManager.cancelEntry_accepted hg hworking)
      exact (Sweeping.walking [] (pre ++ [i]) suf last _ now rfl (by simp) hstep).called (.refl _)
    · rw [if_neg hpc]
      exact .walking [] (pre ++ [i]) suf last sent now rfl (by simp) (hw.forward (not_not.mp hpc))

theorem Sweeping.step (h : Sweeping s) (hev : Accepts ev) (hs : s.step ev = some (s', fx)) : Sweeping s' := by
  cases ev with
  | cancel id now w =>
    simp only [Session.step, Option.ite_none_right_eq_some, Option.some.injEq] at hs
    have hs : _ = s' := congrArg Prod.fst hs.2
    rw [← hs]
    exact h.called (OrderManager.cancel_canceling s.manager id now w.gateway)
  | advance w =>
    simp only [Session.step] at hs
    split at hs
    · rename_i cursor last sent now rest hst
      have hs : _ = s' := congrArg Prod.fst (Option.some.inj hs)
      rw [← hs]
      cases h with
      | walking us pre suf last' sent' now' hst' hus hw =>
        cases us with
        | nil =>
          rw [hst'] at hst
          obtain ⟨hf, rfl⟩ := List.cons.inj hst
          injection hf with h₁ h₂ h₃ h₄
          subst h₁ h₂ h₃ h₄
          exact Walk.sweep hw hev
        | cons f us =>
          rw [hst', List.cons_append, hus f List.mem_cons_self] at hst
          cases hst
      | finished hus _ => cases hus _ (hst ▸ List.mem_cons_self)
    · cases hs
  | ret =>
    simp only [Session.step] at hs
    split at hs
    · rename_i rest hst
      obtain ⟨rfl, _⟩ := Prod.mk.inj (Option.some.inj hs)
      cases h with
      | walking us pre suf last sent now hst' hus hw =>
        rw [hst] at hst'
        cases us with
        | nil => cases hst'
        | cons f us =>
          exact .walking us pre suf last sent now (List.cons.inj hst').2
            (fun g hg => hus g (List.mem_cons_of_mem _ hg)) hw
      | finished hus hsw =>
        rw [hst] at hus
        exact .finished (fun g hg => hus g (List.mem_cons_of_mem _ hg)) hsw
    · rename_i before rest hst
      cases h with
      | walking us pre suf last sent now hst' hus hw =>
        rw [hst] at hst'
        cases us with
        | nil => cases hst'
        | cons f us => cases (List.cons.inj hst').1.trans (hus f List.mem_cons_self)
      | finished hus _ => cases hus _ (hst ▸ List.mem_cons_self)
    · cases hs
  | submit req now w => exact hev.elim
  | replace id p q now w => exact hev.elim
  | cancelAll now => exact hev.elim
  | report r now => exact hev.elim
  | mark l p => exact hev.elim
  | killSwitch on => exact hev.elim

theorem Sweeping.swept (h : Sweeping s) (hst : s.stack = []) : s.manager.Swept := by
  cases h with
  | walking us pre suf last sent now hst' _ _ =>
    rw [hst] at hst'
    simp at hst'
  | finished _ hsw => exact hsw

theorem Ok.sweeping (h : s.Ok) (hst : s.stack = []) {now : Nat} (hs : s.step (.cancelAll now) = some (s', fx)) :
    Sweeping s' := by
  simp only [Session.step, Option.ite_none_right_eq_some, Option.some.injEq, Prod.mk.injEq] at hs
  obtain ⟨_, rfl, _⟩ := hs
  obtain ⟨ws, hhead, hw⟩ := h.inv.walk
  exact .walking [] [] ws _ 0 now (by rw [hst, hhead]; rfl) (by simp) hw

end Session
end Oms

namespace Engine
variable {e e' : Engine} {a : Act} {fx : List Shown}

/-- Trading is off and stays off until it is resumed. -/
theorem Ok.step_halted (h : e.Ok) (ht : e.trading = false) (ha : a ≠ .resumeTrading)
    (hs : e.step a = some (e', fx)) : e'.trading = false := by
  cases a with
  | itch m now =>
    simp only [Engine.step, Option.ite_none_right_eq_some, Option.some.injEq] at hs
    have hm := onItch_marked (h.calm hs.1) m now
    rw [hs.2] at hm
    exact hm.trading.trans ht
  | ouch r now =>
    simp only [Engine.step, Option.ite_none_right_eq_some, Option.some.injEq] at hs
    obtain ⟨rfl, _⟩ := Prod.mk.inj hs.2.symm
    cases r <;> exact ht
  | feedGap now =>
    simp only [Engine.step, Option.ite_none_right_eq_some, Option.some.injEq, Prod.mk.injEq] at hs
    obtain ⟨_, rfl, _⟩ := hs
    rfl
  | resumeTrading => exact absurd rfl ha
  | finish =>
    simp only [Engine.step] at hs
    split at hs
    · obtain ⟨rfl, _⟩ := Prod.mk.inj (Option.some.inj hs)
      unfold retryGapCancels
      split_ifs <;> exact ht
    · obtain ⟨rfl, _⟩ := Prod.mk.inj (Option.some.inj hs)
      exact ht
    · cases hs
  | submit req now gateway => exact (step_inner rfl hs).2.1.trans ht
  | cancel id now gateway => exact (step_inner rfl hs).2.1.trans ht
  | replace id price qty now gateway => exact (step_inner rfl hs).2.1.trans ht
  | advance gateway => exact (step_inner rfl hs).2.1.trans ht
  | ret => exact (step_inner rfl hs).2.1.trans ht

theorem Ok.step_sends_cancels (h : e.Ok) (ht : e.trading = false) (hs : e.step a = some (e', fx)) :
    ∀ msg t, Shown.order (.sent msg t) ∈ fx → Oms.IsCancel msg := by
  intro msg t hm
  cases h.step_moves hs with
  | still _ hquiet => exact absurd hm (hquiet _)
  | session ev gx hasks hstep hfx =>
    refine Session.step_cancels hstep ?_ ?_ msg t ((hfx _).mp hm)
    · rintro req now w rfl
      cases hasks with
      | submit _ _ _ hon => rw [ht] at hon; cases hon
    · rintro id p q now w rfl
      cases hasks with
      | replace _ _ _ _ _ hon => rw [ht] at hon; cases hon

/-- **While trading is off only cancels are sent**, whatever calls, callbacks and sweeps follow. -/
theorem Ok.run_sends_cancels {log log' : List Shown} {as : List Act} (h : e.Ok) (ht : e.trading = false)
    (ha : .resumeTrading ∉ as) (hr : Runs.run next (e, log) as = some (e', log')) :
    e'.trading = false ∧ ∃ sent, log' = log ++ sent ∧
      ∀ msg t, Shown.order (.sent msg t) ∈ sent → Oms.IsCancel msg := by
  induction as generalizing e log with
  | nil =>
    obtain ⟨rfl, rfl⟩ : e = e' ∧ log = log' := by simpa using hr
    exact ⟨ht, [], by simp, by simp⟩
  | cons a as ih =>
    obtain ⟨s, hn, hr⟩ := run_cons_some hr
    obtain ⟨e₁, fx, hs, rfl⟩ := next_some hn
    have ht₁ := h.step_halted ht (fun hc => ha (hc ▸ List.mem_cons_self)) hs
    obtain ⟨ht', sent, hlog, hsent⟩ := ih (h.step hs) ht₁ (fun hc => ha (List.mem_cons_of_mem _ hc)) hr
    refine ⟨ht', fx ++ sent, by rw [hlog, List.append_assoc], fun msg t hm => ?_⟩
    rcases List.mem_append.mp hm with hm | hm
    · exact h.step_sends_cancels ht hs msg t hm
    · exact hsent msg t hm

/-- The act is taken inside a call, or ends one. -/
def Act.Within (a : Act) : Prop := a.inner = true ∨ a = .finish

/-- The gateway of this act takes every cancel. -/
def Act.Accepts : Act → Prop
  | .cancel _ _ gateway => ∀ c, gateway (.cancel c) = true
  | .advance gateway => ∀ c, gateway (.cancel c) = true
  | _ => True

/-- A sweep of a halted engine in progress, or over. -/
structure Sweeping (e : Engine) : Prop where
  ok : e.Ok
  halted : e.trading = false
  sweep : (e.phase = .sweeping ∧ e.session.Sweeping) ∨ (e.phase = .idle ∧ e.session.manager.Swept)

theorem Sweeping.step (h : e.Sweeping) (ha : a.Within) (hg : a.Accepts) (hs : e.step a = some (e', fx)) :
    e'.Sweeping := by
  have hok := h.ok.step hs
  rcases ha with ha | rfl
  · obtain ⟨hm, ht, _, hp⟩ := step_inner ha hs
    refine ⟨hok, ht.trans h.halted, ?_⟩
    rcases h.sweep with ⟨hsw, hses⟩ | ⟨hidle, _⟩
    · left
      refine ⟨?_, ?_⟩
      · rcases hp with hp | ⟨now, hp, _⟩
        · exact hp.trans hsw
        · rw [hsw] at hp
          cases hp
      · cases hm with
        | still hsame _ => exact hsame ▸ hses
        | session ev gx hasks hstep _ =>
          cases hasks with
          | mark m now loc price => cases ha
          | report r now => cases ha
          | gap now => cases ha
          | retry now _ => cases ha
          | submit req now gateway hon => rw [h.halted] at hon; cases hon
          | replace id price qty now gateway hon => rw [h.halted] at hon; cases hon
          | cancel id now gateway =>
            have hacc : Session.Accepts (.cancel id now (e.world gateway)) := hg
            exact hses.step hacc hstep
          | advance gateway =>
            have hacc : Session.Accepts (.advance (e.world gateway)) := hg
            exact hses.step hacc hstep
          | ret =>
            have hacc : Session.Accepts .ret := trivial
            exact hses.step hacc hstep
    · exact absurd hidle (h.ok.inner_busy ha hs)
  · refine ⟨hok, h.ok.step_halted h.halted (by simp) hs, ?_⟩
    simp only [Engine.step] at hs
    rcases h.sweep with ⟨hsw, hses⟩ | ⟨hidle, _⟩
    · split at hs
      · rename_i now _ hp
        rw [hsw] at hp
        cases hp
      · rename_i hst _
        obtain ⟨rfl, _⟩ := Prod.mk.inj (Option.some.inj hs)
        exact .inr ⟨rfl, hses.swept hst⟩
      · cases hs
    · split at hs
      · rename_i now _ hp
        rw [hidle] at hp
        cases hp
      · rename_i _ hp
        rw [hidle] at hp
        cases hp
      · cases hs

/-- **A sweep of which the gateway refuses nothing** leaves no working order without a cancel. -/
theorem Sweeping.run {log log' : List Shown} {bs : List Act} (h : e.Sweeping)
    (hb : ∀ b ∈ bs, b.Within ∧ b.Accepts) (hr : run next (e, log) bs = some (e', log')) : e'.Sweeping := by
  induction bs generalizing e log with
  | nil =>
    obtain ⟨rfl, _⟩ : e = e' ∧ log = log' := by simpa using hr
    exact h
  | cons b bs ih =>
    obtain ⟨s, hn, hr⟩ := run_cons_some hr
    obtain ⟨e₁, fx, hs, rfl⟩ := next_some hn
    have hb₁ := hb b List.mem_cons_self
    exact ih (h.step hb₁.1 hb₁.2 hs) (fun c hc => hb c (List.mem_cons_of_mem _ hc)) hr

theorem Sweeping.swept (h : e.Sweeping) (hp : e.phase = .idle) : e.session.manager.Swept := by
  rcases h.sweep with ⟨hsw, _⟩ | ⟨_, hs⟩
  · rw [hp] at hsw
    cases hsw
  · exact hs

theorem Ok.cancelAll_sweeping {x : Engine} (h : x.session.Ok) (hst : x.session.stack = []) (ht : x.trading = false)
    (now : Nat) : (x.cancelAll now).Sweeping := by
  have hstep := cancelAll_step hst now
  exact ⟨⟨(h.step hstep).2, fun hp => by cases hp⟩, ht, .inl ⟨rfl, h.sweeping hst hstep⟩⟩

theorem Ok.feedGap_sweeping (h : e.Ok) {now : Nat} (hs : e.step (.feedGap now) = some (e', fx)) : e'.Sweeping := by
  simp only [Engine.step, Option.ite_none_right_eq_some, Option.some.injEq, Prod.mk.injEq] at hs
  obtain ⟨hp, rfl, _⟩ := hs
  exact Ok.cancelAll_sweeping (x := { e with
    trading := false
    stats := { e.stats with feedGaps := e.stats.feedGaps + 1 } }) h.session (h.calm hp) rfl now

theorem find_swept (h : e.Ok) (hs : e.session.manager.Swept) {id : Nat} {info : Oms.OrderInfo}
    (hf : e.session.manager.find id = some info) : isTerminal info.status = true ∨ info.status = .pendingCancel := by
  obtain ⟨entry, hentry, rfl⟩ := Option.map_eq_some_iff.mp hf
  obtain ⟨i, hi, rfl⟩ := Option.map_eq_some_iff.mp hentry
  have hfresh := ((h.session.inv.ids.find id i).mp hi).1
  by_cases hw : (e.session.manager.slots i).working = true
  · exact .inr (hs i hfresh hw)
  · exact .inl (by simpa [Oms.Entry.working] using hw)

/-! ## Messages while halted -/

/-- A halted engine inside a call made at `now`, before the end of the call. -/
structure Handling (e : Engine) (now retry : Nat) : Prop where
  ok : e.Ok
  halted : e.trading = false
  retry : e.nextGapRetry = retry
  phase : ∃ book, e.phase = .handling now book

theorem Handling.step {now retry : Nat} (h : e.Handling now retry) (ha : a.inner = true)
    (hs : e.step a = some (e', fx)) : e'.Handling now retry := by
  obtain ⟨_, ht, hr, hp⟩ := step_inner ha hs
  obtain ⟨book, hbook⟩ := h.phase
  refine ⟨h.ok.step hs, ht.trans h.halted, hr.trans h.retry, ?_⟩
  rcases hp with hp | ⟨t, hp, hp'⟩
  · exact ⟨book, hp.trans hbook⟩
  · rw [hbook] at hp
    injection hp with ht _
    exact ⟨false, ht ▸ hp'⟩

theorem Handling.run {now retry : Nat} {log log' : List Shown} {bs : List Act} (h : e.Handling now retry)
    (hb : ∀ b ∈ bs, b.inner = true) (hr : run next (e, log) bs = some (e', log')) : e'.Handling now retry := by
  induction bs generalizing e log with
  | nil =>
    obtain ⟨rfl, _⟩ : e = e' ∧ log = log' := by simpa using hr
    exact h
  | cons b bs ih =>
    obtain ⟨s, hn, hr⟩ := run_cons_some hr
    obtain ⟨e₁, fx, hs, rfl⟩ := next_some hn
    exact ih (h.step (hb b List.mem_cons_self) hs) (fun c hc => hb c (List.mem_cons_of_mem _ hc)) hr

/-- A message, from the feed or from the exchange. -/
def Act.Message (a : Act) (now : Nat) : Prop := (∃ m, a = .itch m now) ∨ ∃ r, a = .ouch r now

theorem Ok.message_handling (h : e.Ok) {now : Nat} (ht : e.trading = false) (ha : a.Message now)
    (hs : e.step a = some (e', fx)) : e'.Handling now e.nextGapRetry := by
  have hok := h.step hs
  rcases ha with ⟨m, rfl⟩ | ⟨r, rfl⟩
  · simp only [Engine.step, Option.ite_none_right_eq_some, Option.some.injEq] at hs
    have hm := onItch_marked (h.calm hs.1) m now
    rw [hs.2] at hm
    exact ⟨hok, hm.trading.trans ht, hm.retry, hm.phase⟩
  · simp only [Engine.step, Option.ite_none_right_eq_some, Option.some.injEq] at hs
    obtain ⟨rfl, _⟩ := Prod.mk.inj hs.2.symm
    cases r with
    | none => exact ⟨hok, ht, rfl, ⟨false, rfl⟩⟩
    | some r => exact ⟨hok, ht, rfl, ⟨false, rfl⟩⟩

/-- The end of a call whose time has come starts a sweep, unless no order is open. -/
theorem Handling.finish_sweeping {now retry : Nat} (h : e.Handling now retry) (hr : retry ≤ now)
    (hs : e.step .finish = some (e', fx)) : e'.Sweeping := by
  have hok := h.ok.step hs
  obtain ⟨book, hbook⟩ := h.phase
  simp only [Engine.step] at hs
  split at hs
  · rename_i t hst hp
    rw [hbook] at hp
    injection hp with ht _
    subst ht
    obtain ⟨rfl, _⟩ := Prod.mk.inj (Option.some.inj hs)
    unfold retryGapCancels at hok ⊢
    split_ifs at hok ⊢ with hc
    · refine ⟨hok, h.halted, .inr ⟨rfl, fun i hi hw => ?_⟩⟩
      have hopen : e.session.manager.opened = 0 := by
        rcases hc with hc | hc | hc
        · rw [h.halted] at hc
          cases hc
        · rw [h.retry] at hc
          omega
        · exact hc
      obtain ⟨ws, _, hmem, _, hlen⟩ := h.ok.session.inv.places.list
      rw [hopen, List.length_eq_zero_iff] at hlen
      rw [hlen] at hmem
      cases (hmem i).mpr ⟨hi, hw⟩
    · exact Ok.cancelAll_sweeping h.ok.session hst h.halted now
  · rename_i _ hp
    rw [hbook] at hp
    cases hp
  · cases hs

/-- **A gap in the feed halts trading.** From any reachable engine, whatever the strategy does in its
callbacks and however the gateway answers:
after a gap nothing but cancels is sent until trading is resumed, callbacks inside the sweep included;
and after the sweep of a gap, or of a message taken while halted at or after the retry time, in which
the gateway takes every cancel, every order that is not terminal is `pendingCancel`. -/
theorem feed_gap_halts_trading (config : Config) (as : List Act) (e : Engine) (log : List Shown)
    (hrun : run next (new config, []) as = some (e, log)) :
    (∀ now bs e' log', .resumeTrading ∉ bs → run next (e, log) (.feedGap now :: bs) = some (e', log') →
      ∃ shown, log' = log ++ shown ∧ ∀ msg t, .order (.sent msg t) ∈ shown → Oms.IsCancel msg) ∧
    (∀ now bs e' log', (∀ b ∈ bs, b.Within ∧ b.Accepts) →
      run next (e, log) (.feedGap now :: bs) = some (e', log') → e'.phase = .idle →
      ∀ id info, e'.session.manager.find id = some info →
        isTerminal info.status = true ∨ info.status = .pendingCancel) ∧
    (∀ a now bs e₁ log₁ cs e' log', e.trading = false → e.nextGapRetry ≤ now → a.Message now →
      (∀ b ∈ bs, b.inner = true) → run next (e, log) (a :: bs) = some (e₁, log₁) →
      (∀ c ∈ cs, c.Within ∧ c.Accepts) →
      run next (e₁, log₁) (.finish :: cs) = some (e', log') → e'.phase = .idle →
      ∀ id info, e'.session.manager.find id = some info →
        isTerminal info.status = true ∨ info.status = .pendingCancel) := by
  have hok : e.Ok := Ok.run (s := (new config, [])) (Ok.new config) hrun
  refine ⟨?_, ?_, ?_⟩
  · intro now bs e' log' hbs hr
    obtain ⟨s, hn, hr⟩ := run_cons_some hr
    obtain ⟨e₁, fx, hs, rfl⟩ := next_some hn
    have hfx : fx = [] := by
      simp only [step, Option.ite_none_right_eq_some, Option.some.injEq, Prod.mk.injEq] at hs
      exact hs.2.2.symm
    subst hfx
    obtain ⟨_, sent, hlog, hsent⟩ := (hok.step hs).run_sends_cancels (hok.feedGap_sweeping hs).halted hbs hr
    exact ⟨sent, by simpa using hlog, hsent⟩
  · intro now bs e' log' hbs hr hp id info hf
    obtain ⟨s, hn, hr⟩ := run_cons_some hr
    obtain ⟨e₁, fx, hs, rfl⟩ := next_some hn
    have hsw := (hok.feedGap_sweeping hs).run hbs hr
    exact find_swept hsw.ok (hsw.swept hp) hf
  · intro a now bs e₁ log₁ cs e' log' ht hretry ha hbs hr₁ hcs hr₂ hp id info hf
    obtain ⟨s, hn, hr₁⟩ := run_cons_some hr₁
    obtain ⟨e₂, fx, hs, rfl⟩ := next_some hn
    have hh := (hok.message_handling ht ha hs).run hbs hr₁
    obtain ⟨s, hn, hr₂⟩ := run_cons_some hr₂
    obtain ⟨e₃, fx', hs', rfl⟩ := next_some hn
    have hsw := (hh.finish_sweeping hretry hs').run hcs hr₂
    exact find_swept hsw.ok (hsw.swept hp) hf

/-- A listing, a bid, and an order the strategy enters when it is told of it. -/
def oneOrder : List Act :=
  [.itch (some (.stockDirectory ⟨⟨1, 0, 0⟩, .ofText [65, 66, 67, 68], 0, 0, 100, 0, 0, [], 0, 0, 0, 0,
      0, 0, 0⟩)) 1, .finish,
    .itch (some (.addOrder ⟨⟨1, 0, 0⟩, 1, .buy, 100, .ofText [65, 66, 67, 68], 10, false, []⟩)) 2,
    .submit { locate := 1, price := 10, qty := 100 } 2 (fun _ => true), .ret, .ret, .finish]

/-- The sweep of the order, with another one tried from inside its update. -/
def oneSweep : List Act :=
  [.advance (fun _ => true), .submit { locate := 1, price := 10, qty := 50 } 5 (fun _ => true), .ret,
    .advance (fun _ => true), .finish]

theorem feed_gap_halts_one_order :
    ∃ e log, run next (new { books := ⟨4, 4, 4⟩, maxLocates := 2 }, []) (oneOrder ++ .feedGap 5 :: oneSweep) =
        some (e, log) ∧ log.length = 5 ∧
      ∃ info, e.session.manager.find 1 = some info ∧ (isTerminal info.status = true ∨ info.status = .pendingCancel) := by
  have hview : (run next (new { books := ⟨4, 4, 4⟩, maxLocates := 2 }, []) (oneOrder ++ .feedGap 5 :: oneSweep)).map
      (fun s => (s.1.phase, (s.1.session.manager.find 1).isSome, s.2.length)) = some (.idle, true, 5) := rfl
  obtain ⟨⟨e, log⟩, hr, hv⟩ := Option.map_eq_some_iff.mp hview
  obtain ⟨hp, hf, hl⟩ : e.phase = .idle ∧ (e.session.manager.find 1).isSome = true ∧ log.length = 5 := by simpa using hv
  obtain ⟨info, hinfo⟩ := Option.isSome_iff_exists.mp hf
  obtain ⟨⟨e₁, log₁⟩, h₁, h₂⟩ := run_append_some hr
  refine ⟨e, log, hr, hl, info, hinfo, ?_⟩
  refine (feed_gap_halts_trading _ oneOrder e₁ log₁ h₁).2.1 5 oneSweep e log ?_ h₂ hp 1 info hinfo
  intro b hb
  simp only [oneSweep, List.mem_cons, List.not_mem_nil, or_false] at hb
  rcases hb with rfl | rfl | rfl | rfl | rfl
  · exact ⟨.inl rfl, fun _ => rfl⟩
  · exact ⟨.inl rfl, trivial⟩
  · exact ⟨.inl rfl, trivial⟩
  · exact ⟨.inl rfl, fun _ => rfl⟩
  · exact ⟨.inr rfl, trivial⟩

end Engine
end OptiTrade
