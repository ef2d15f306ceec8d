import OptiTrade.Engine.Engine

/-! # What a step of the engine does to its session

Every step of the engine is one event of the session inside or none, so what holds of every session
holds of the session of an engine. -/

namespace OptiTrade
set_option autoImplicit false

open Oms (Session Effect Event)
open Runs

namespace Engine

/-- The engine and everything it has shown. -/
def next (s : Engine × List Shown) (a : Act) : Option (Engine × List Shown) :=
  (s.1.step a).map fun (e, fx) => (e, s.2 ++ fx)

/-- The session is sound, and between calls nothing runs in it. -/
structure Ok (e : Engine) : Prop where
  session : e.session.Ok
  calm : e.phase = .idle → e.session.stack = []

/-- The event of the session an act can lead to; the strategy enters and replaces orders only while the
engine trades, and a sweep is repeated only while it does not. -/
inductive Asks (e : Engine) : Act → Event → Prop
  | mark (m : Option Itch.Message) (now loc : Nat) (price : Int) : Asks e (.itch m now) (.mark loc price)
  | report (r : Ouch.Outbound) (now : Nat) : Asks e (.ouch (some r) now) (.report r now)
  | gap (now : Nat) : Asks e (.feedGap now) (.cancelAll now)
  | retry (now : Nat) : e.trading = false → Asks e .finish (.cancelAll now)
  | submit (req : Oms.OrderRequest) (now : Nat) (gateway : Ouch.Inbound → Bool) : e.trading = true →
      Asks e (.submit req now gateway) (.submit req now (e.world gateway))
  | cancel (id now : Nat) (gateway : Ouch.Inbound → Bool) :
      Asks e (.cancel id now gateway) (.cancel id now (e.world gateway))
  | replace (id : Nat) (price : Int) (qty now : Nat) (gateway : Ouch.Inbound → Bool) : e.trading = true →
      Asks e (.replace id price qty now gateway) (.replace id price qty now (e.world gateway))
  | advance (gateway : Ouch.Inbound → Bool) : Asks e (.advance gateway) (.advance (e.world gateway))
  | ret : Asks e .ret .ret

/-- A step that leaves the session alone, or one event of it. -/
inductive Moves (e : Engine) (a : Act) (fx : List Shown) (e' : Engine) : Prop
  | still : e'.session = e.session → (∀ x, Shown.order x ∉ fx) → Moves e a fx e'
  | session (ev : Event) (gx : List Effect) : e.Asks a ev → e.session.step ev = some (e'.session, gx) →
      (∀ x, Shown.order x ∈ fx ↔ x ∈ gx) → Moves e a fx e'

variable {e e' : Engine} {a : Act} {fx : List Shown}

theorem inCallback_mayCall (h : e.inCallback = true) : e.session.mayCall = true := by
  unfold inCallback at h
  unfold Session.mayCall
  split at h
  · rename_i hs; rw [hs]
  · rename_i hs; rw [hs]
  · cases h
  · rename_i hs; rw [hs]

theorem Ok.inCallback_busy (h : e.Ok) (hc : e.inCallback = true) : e.phase ≠ .idle := by
  intro hp
  unfold inCallback at hc
  rw [h.calm hp, hp] at hc
  cases hc

theorem mayCall_nil {s : Session} (h : s.stack = []) : s.mayCall = true := by
  unfold Session.mayCall
  rw [h]

theorem mem_order {x : Effect} {gx : List Effect} : Shown.order x ∈ gx.map Shown.order ↔ x ∈ gx := by simp

/-! ## The calls -/

/-- What a market-data call leaves of the engine it ran on. -/
structure Marked (e e' : Engine) (fx : List Shown) (now : Nat) : Prop where
  session : e'.session = e.session ∨ ∃ loc price, e.session.step (.mark loc price) = some (e'.session, [])
  trading : e'.trading = e.trading
  retry : e'.nextGapRetry = e.nextGapRetry
  stack : e'.session.stack = e.session.stack
  phase : ∃ book, e'.phase = .handling now book
  quiet : ∀ x, Shown.order x ∉ fx

theorem bookChanged_marked {now : Nat} (hs : e.session.stack = []) (hb : ∃ book, e.phase = .handling now book)
    (loc : Nat) : Marked e (e.bookChanged loc now).1 (e.bookChanged loc now).2 now := by
  -- whether the strategy is woken changes only the phase
  have hwake : ∀ {x : Engine}, Marked e x [] now →
      let out : Engine × List Shown :=
        if x.trading ∧ loc < x.maxLocates then ({ x with phase := .handling now true }, [.bookUpdate loc now])
        else (x, [])
      Marked e out.1 out.2 now := by
    intro x hx
    dsimp only
    split_ifs
    · exact ⟨hx.session, hx.trading, hx.retry, hx.stack, ⟨true, rfl⟩, by simp⟩
    · exact hx
  unfold bookChanged
  dsimp only
  generalize (if e.midPrice loc ≤ 0 then e.books.lastTrade loc else e.midPrice loc) = mark
  by_cases hm : 0 < mark
  · rw [if_pos hm]
    refine hwake (x := e.markRisk loc mark) ⟨.inr ⟨loc, mark, ?_⟩, rfl, rfl, rfl, hb, by simp⟩
    show (if e.session.mayCall then some (_, []) else none) = _
    rw [if_pos (mayCall_nil hs)]
    rfl
  · rw [if_neg hm]
    exact hwake ⟨.inl rfl, rfl, rfl, rfl, hb, by simp⟩

theorem apply_marked {now : Nat} (hs : e.session.stack = []) (hb : ∃ book, e.phase = .handling now book)
    (m : Itch.Message) : Marked e (e.apply m now).1 (e.apply m now).2 now := by
  have hsame : ∀ (books : Book.MarketBooks) (stats : Stats),
      Marked e { e with books := books, stats := stats } [] now :=
    fun books stats => ⟨.inl rfl, rfl, rfl, rfl, hb, by simp⟩
  unfold apply
  dsimp only
  cases e.targetLocate m with
  | none =>
    dsimp only
    split_ifs
    · exact hsame _ _
    · exact hsame _ _
  | some loc =>
    dsimp only
    split_ifs
    · have h := bookChanged_marked (e := { e with
          books := (e.books.on m).1
          stats := { e.stats with
            itchMessages := e.stats.itchMessages + 1
            bookUpdates := e.stats.bookUpdates + 1 } }) hs hb loc
      exact ⟨h.session, h.trading, h.retry, h.stack, h.phase, h.quiet⟩
    · exact hsame _ _
    · exact hsame _ _

theorem onItch_marked (hs : e.session.stack = []) (m : Option Itch.Message) (now : Nat) :
    Marked e (e.onItch m now).1 (e.onItch m now).2 now := by
  cases m with
  | none => exact ⟨.inl rfl, rfl, rfl, rfl, ⟨false, rfl⟩, by simp [onItch]⟩
  | some m =>
    have h := apply_marked (e := { e with phase := .handling now false }) hs ⟨false, rfl⟩ m
    exact ⟨h.session, h.trading, h.retry, h.stack, h.phase, h.quiet⟩

theorem cancelAll_step (hst : e.session.stack = []) (now : Nat) :
    e.session.step (.cancelAll now) = some ((e.cancelAll now).session, []) := by
  show (if e.session.mayCall then some (_, []) else none) = _
  rw [if_pos (mayCall_nil hst)]
  rfl

theorem inSession_some {r : Option (Session × List Effect)} (h : e.inSession r = some (e', fx)) :
    ∃ s gx, r = some (s, gx) ∧ e' = { e with session := s } ∧ fx = gx.map .order := by
  obtain ⟨⟨s, gx⟩, h₁, h₂⟩ := Option.map_eq_some_iff.mp h
  exact ⟨s, gx, h₁, (congrArg Prod.fst h₂).symm, (congrArg Prod.snd h₂).symm⟩

/-! ## Steps -/

/-- An act of the strategy, one step of a sweep or the end of a callback. -/
def Act.inner : Act → Bool
  | .itch .. | .ouch .. | .feedGap _ | .resumeTrading | .finish => false
  | _ => true

/-- A step inside a call is at most one event of the session, and the rest of the engine stays. -/
theorem step_inner (ha : a.inner = true) (hs : e.step a = some (e', fx)) :
    Moves e a fx e' ∧ e'.trading = e.trading ∧ e'.nextGapRetry = e.nextGapRetry ∧
      (e'.phase = e.phase ∨ ∃ now, e.phase = .handling now true ∧ e'.phase = .handling now false) := by
  cases a with
  | itch m now => cases ha
  | ouch r now => cases ha
  | feedGap now => cases ha
  | resumeTrading => cases ha
  | finish => cases ha
  | submit req now gateway =>
    simp only [step, Option.ite_none_right_eq_some, Option.some.injEq] at hs
    obtain ⟨hc, hs⟩ := hs
    unfold submit at hs
    split_ifs at hs with ht
    · obtain ⟨rfl, rfl⟩ := Prod.mk.inj hs.symm
      refine ⟨.session _ _ (.submit req now gateway ht) ?_ fun x => mem_order, rfl, rfl, .inl rfl⟩
      show (if e.session.mayCall then some _ else none) = _
      rw [if_pos (inCallback_mayCall hc)]
      rfl
    · obtain ⟨rfl, rfl⟩ := Prod.mk.inj hs
      exact ⟨.still rfl (by simp), rfl, rfl, .inl rfl⟩
  | cancel id now gateway =>
    simp only [step, Option.ite_none_right_eq_some, Option.some.injEq] at hs
    obtain ⟨hc, hs⟩ := hs
    obtain ⟨rfl, rfl⟩ := Prod.mk.inj hs.symm
    refine ⟨.session _ _ (.cancel id now gateway) ?_ fun x => mem_order, rfl, rfl, .inl rfl⟩
    show (if e.session.mayCall then some _ else none) = _
    rw [if_pos (inCallback_mayCall hc)]
    rfl
  | replace id price qty now gateway =>
    simp only [step, Option.ite_none_right_eq_some, Option.some.injEq] at hs
    obtain ⟨hc, hs⟩ := hs
    unfold replace at hs
    split_ifs at hs with ht
    · obtain ⟨rfl, rfl⟩ := Prod.mk.inj hs.symm
      refine ⟨.session _ _ (.replace id price qty now gateway ht) ?_ fun x => mem_order, rfl, rfl, .inl rfl⟩
      show (if e.session.mayCall then some _ else none) = _
      rw [if_pos (inCallback_mayCall hc)]
      rfl
    · obtain ⟨rfl, rfl⟩ := Prod.mk.inj hs
      exact ⟨.still rfl (by simp), rfl, rfl, .inl rfl⟩
  | advance gateway =>
    obtain ⟨s, gx, hstep, rfl, rfl⟩ := inSession_some hs
    exact ⟨.session _ gx (.advance gateway) hstep fun x => mem_order, rfl, rfl, .inl rfl⟩
  | ret =>
    simp only [step] at hs
    split at hs
    · rename_i now _ hp
      obtain ⟨rfl, rfl⟩ := Prod.mk.inj (Option.some.inj hs)
      exact ⟨.still rfl (by simp), rfl, rfl, .inr ⟨now, hp, rfl⟩⟩
    · obtain ⟨s, gx, hstep, rfl, rfl⟩ := inSession_some hs
      exact ⟨.session _ gx .ret hstep fun x => mem_order, rfl, rfl, .inl rfl⟩

/-- **Every step is at most one event of the session.** -/
theorem Ok.step_moves (h : e.Ok) (hs : e.step a = some (e', fx)) : Moves e a fx e' := by
  cases a with
  | itch m now =>
    simp only [step, Option.ite_none_right_eq_some, Option.some.injEq] at hs
    obtain ⟨hp, hs⟩ := hs
    have hm := onItch_marked (h.calm hp) m now
    rw [hs] at hm
    rcases hm.session with hsame | ⟨loc, price, hmark⟩
    · exact .still hsame hm.quiet
    · exact .session _ [] (.mark m now loc price) hmark fun x => by simp [hm.quiet x]
  | ouch r now =>
    simp only [step, Option.ite_none_right_eq_some, Option.some.injEq] at hs
    obtain ⟨hp, hs⟩ := hs
    obtain ⟨rfl, rfl⟩ := Prod.mk.inj hs.symm
    cases r with
    | none => exact .still rfl (by simp)
    | some r =>
      refine .session (.report r now) _ (.report r now) ?_ fun x => mem_order
      show (if e.session.stack.isEmpty then some _ else none) = _
      rw [h.calm hp]
      rfl
  | feedGap now =>
    simp only [step, Option.ite_none_right_eq_some, Option.some.injEq, Prod.mk.injEq] at hs
    obtain ⟨hp, rfl, rfl⟩ := hs
    exact .session _ [] (.gap now) (cancelAll_step (h.calm hp) now) fun x => by simp
  | resumeTrading =>
    simp only [step, Option.ite_none_right_eq_some, Option.some.injEq, Prod.mk.injEq] at hs
    obtain ⟨_, rfl, rfl⟩ := hs
    exact .still rfl (by simp)
  | finish =>
    simp only [step] at hs
    split at hs
    · rename_i now hst _
      obtain ⟨rfl, rfl⟩ := Prod.mk.inj (Option.some.inj hs)
      unfold retryGapCancels
      split_ifs with hc
      · exact .still rfl (by simp)
      · have ht : e.trading = false := by simpa using fun ht => hc (.inl ht)
        exact .session _ [] (.retry now ht) (cancelAll_step hst now) fun x => by simp
    · obtain ⟨rfl, rfl⟩ := Prod.mk.inj (Option.some.inj hs)
      exact .still rfl (by simp)
    · cases hs
  | submit req now gateway => exact (step_inner rfl hs).1
  | cancel id now gateway => exact (step_inner rfl hs).1
  | replace id price qty now gateway => exact (step_inner rfl hs).1
  | advance gateway => exact (step_inner rfl hs).1
  | ret => exact (step_inner rfl hs).1

/-- Between calls there is nothing to do inside one. -/
theorem Ok.inner_busy (h : e.Ok) (ha : a.inner = true) (hs : e.step a = some (e', fx)) : e.phase ≠ .idle := by
  intro hp
  have hst := h.calm hp
  cases a with
  | itch m now => cases ha
  | ouch r now => cases ha
  | feedGap now => cases ha
  | resumeTrading => cases ha
  | finish => cases ha
  | submit req now gateway =>
    simp only [step, Option.ite_none_right_eq_some] at hs
    exact h.inCallback_busy hs.1 hp
  | cancel id now gateway =>
    simp only [step, Option.ite_none_right_eq_some] at hs
    exact h.inCallback_busy hs.1 hp
  | replace id price qty now gateway =>
    simp only [step, Option.ite_none_right_eq_some] at hs
    exact h.inCallback_busy hs.1 hp
  | advance gateway =>
    obtain ⟨s, gx, hstep, _, _⟩ := inSession_some hs
    simp only [Session.step, hst] at hstep
    cases hstep
  | ret =>
    simp only [step, hst, hp] at hs
    obtain ⟨s, gx, hstep, _, _⟩ := inSession_some hs
    simp only [Session.step, hst] at hstep
    cases hstep

/-- When a call is over its callbacks are. -/
theorem Ok.step_calm (h : e.Ok) (hs : e.step a = some (e', fx)) (hp' : e'.phase = .idle) :
    e'.session.stack = [] := by
  have hin : a.inner = true → e'.session.stack = [] := by
    intro ha
    have hb := h.inner_busy ha hs
    rcases (step_inner ha hs).2.2.2 with hp | ⟨now, _, hp⟩
    · exact absurd (hp ▸ hp') hb
    · rw [hp] at hp'
      cases hp'
  cases a with
  | itch m now =>
    simp only [step, Option.ite_none_right_eq_some, Option.some.injEq] at hs
    have hm := onItch_marked (h.calm hs.1) m now
    rw [hs.2] at hm
    obtain ⟨book, hp⟩ := hm.phase
    rw [hp] at hp'
    cases hp'
  | ouch r now =>
    simp only [step, Option.ite_none_right_eq_some, Option.some.injEq] at hs
    obtain ⟨rfl, rfl⟩ := Prod.mk.inj hs.2.symm
    cases r <;> cases hp'
  | feedGap now =>
    simp only [step, Option.ite_none_right_eq_some, Option.some.injEq, Prod.mk.injEq] at hs
    obtain ⟨_, rfl, _⟩ := hs
    cases hp'
  | resumeTrading =>
    simp only [step, Option.ite_none_right_eq_some, Option.some.injEq, Prod.mk.injEq] at hs
    obtain ⟨hp, rfl, _⟩ := hs
    exact h.calm hp
  | finish =>
    simp only [step] at hs
    split at hs
    · rename_i now hst _
      obtain ⟨rfl, _⟩ := Prod.mk.inj (Option.some.inj hs)
      unfold retryGapCancels at hp' ⊢
      split_ifs at hp' ⊢
      · exact hst
      · cases hp'
    · rename_i hst _
      obtain ⟨rfl, _⟩ := Prod.mk.inj (Option.some.inj hs)
      exact hst
    · cases hs
  | submit req now gateway => exact hin rfl
  | cancel id now gateway => exact hin rfl
  | replace id price qty now gateway => exact hin rfl
  | advance gateway => exact hin rfl
  | ret => exact hin rfl

theorem Ok.step (h : e.Ok) (hs : e.step a = some (e', fx)) : e'.Ok := by
  refine ⟨?_, h.step_calm hs⟩
  cases h.step_moves hs with
  | still hsame _ => exact hsame ▸ h.session
  | session ev gx _ hstep _ => exact (h.session.step hstep).2

theorem next_some {s s' : Engine × List Shown} (h : next s a = some s') :
    ∃ e fx, s.1.step a = some (e, fx) ∧ s' = (e, s.2 ++ fx) := by
  obtain ⟨⟨e, fx⟩, h₁, h₂⟩ := Option.map_eq_some_iff.mp h
  exact ⟨e, fx, h₁, h₂.symm⟩

/-- **Every reachable engine has a sound session.** -/
theorem Ok.run {s s' : Engine × List Shown} {as : List Act} (h : s.1.Ok) (hr : run next s as = some s') : s'.1.Ok := by
  refine run_invariant (P := fun s => s.1.Ok) (fun s₁ a s₂ h₁ hs => ?_) hr h
  obtain ⟨e, fx, hstep, rfl⟩ := next_some hs
  exact h₁.step hstep

theorem Ok.new (config : Config) : (new config).Ok := ⟨Session.Ok.new _ _ _, fun _ => rfl⟩

end Engine
end OptiTrade
