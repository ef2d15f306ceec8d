import OptiTrade.Book.Prices
import OptiTrade.Strategy.Discipline

/-! # What a strategy takes from the books

`Reads S I fits`: the invariant `I` of the strategy's state is kept by its callbacks, `fits` being what the jobs
that wait may rely on about the books. The books do not move while jobs wait, so both hold in every state that a
desk can reach on messages of the decoder, whatever the exchange reports. -/

namespace OptiTrade
set_option autoImplicit false

open Oms (OrderManager OrderInfo OrderRequest SubmitResult kMaxWirePrice)
open Book (MarketBooks)
open Runs

namespace Engine
variable {e e' : Engine} {a : Act} {fx : List Shown}

/-- Only a message of the feed moves the books. -/
theorem step_books (hs : e.step a = some (e', fx)) :
    e'.books = e.books ∨ ∃ m now, a = .itch (some m) now ∧ e'.books = (e.books.on m).1 := by
  cases hin : a.inner with
  | true => exact .inl (step_frame hin hs).1
  | false =>
    cases a with
    | itch m now =>
      simp only [step, Option.ite_none_right_eq_some, Option.some.injEq] at hs
      have he : e' = (e.onItch m now).1 := (congrArg Prod.fst hs.2).symm
      rw [he]
      cases m with
      | none => exact .inl rfl
      | some m => exact .inr ⟨m, now, rfl, apply_books _ m now⟩
    | ouch r now =>
      simp only [step, Option.ite_none_right_eq_some, Option.some.injEq] at hs
      have he : e' = (e.onOuch r now).1 := (congrArg Prod.fst hs.2).symm
      rw [he]
      cases r with
      | none => exact .inl rfl
      | some r => exact .inl rfl
    | feedGap now =>
      simp only [step, Option.ite_none_right_eq_some, Option.some.injEq] at hs
      obtain ⟨rfl, _⟩ := Prod.mk.inj hs.2.symm
      exact .inl rfl
    | resumeTrading =>
      simp only [step, Option.ite_none_right_eq_some, Option.some.injEq] at hs
      obtain ⟨rfl, _⟩ := Prod.mk.inj hs.2.symm
      exact .inl rfl
    | finish =>
      simp only [step] at hs
      split at hs
      · obtain ⟨rfl, _⟩ := Prod.mk.inj (Option.some.inj hs.symm)
        unfold retryGapCancels
        split_ifs
        · exact .inl rfl
        · exact .inl rfl
      · obtain ⟨rfl, _⟩ := Prod.mk.inj (Option.some.inj hs.symm)
        exact .inl rfl
      · cases hs
    | submit req now gateway => cases hin
    | cancel id now gateway => cases hin
    | replace id price qty now gateway => cases hin
    | advance gateway => cases hin
    | ret => cases hin

end Engine

namespace Strategy
variable {σ J : Type}

/-- What a strategy has to show. A submit that succeeds has passed the price check of the order manager. -/
structure Reads (S : Callbacks σ J) (I : σ → Prop) (n : Nat) (fits : MarketBooks → List J → Prop) : Prop where
  nil : ∀ mb, fits mb []
  tail : ∀ mb j js, fits mb (j :: js) → fits mb js
  update : ∀ s info, I s → I (S.onOrderUpdate s info)
  book : ∀ s l ctx, ctx.books.Fed n → I s → I (S.onBookUpdate s l ctx).1 ∧ fits ctx.books (S.onBookUpdate s l ctx).2
  ask : ∀ s j ctx, ctx.orders.Inv → I s → I (S.ask s j ctx).1
  answer : ∀ s s' j js ctx req r, ctx.books.Fed n → I s → fits ctx.books (j :: js) → (S.ask s' j ctx).2 = some (.submit req) →
    (r.status = .ok → req.price ≤ kMaxWirePrice) → I (S.answer s j ctx.now r)

/-- A message of the feed comes from the decoder. -/
def Decoded : Input → Prop
  | .itch (some m) _ => ∃ b, Itch.decode b = .ok m
  | _ => True

namespace Desk
variable {S : Callbacks σ J} {I : σ → Prop} {n : Nat} {fits : MarketBooks → List J → Prop}

/-- **The invariant** of a desk whose strategy reads the books. -/
structure Reading (I : σ → Prop) (n : Nat) (fits : MarketBooks → List J → Prop) (d : Desk σ J) : Prop where
  ok : d.engine.Ok
  books : d.engine.books.Fed n
  holds : I d.strategy
  jobs : fits d.engine.books d.jobs
  busy : d.jobs ≠ [] → ∃ now, d.engine.phase = .handling now true

/-- What the strategy makes of what it is shown. -/
theorem foldl_tell_reads (hR : Reads S I n fits) (fx : List Engine.Shown) {d : Desk σ J} (hb : d.engine.books.Fed n)
    (hI : I d.strategy) (hjobs : fits d.engine.books d.jobs) :
    (fx.foldl (tell S) d).engine = d.engine ∧ I (fx.foldl (tell S) d).strategy ∧
      fits d.engine.books (fx.foldl (tell S) d).jobs ∧
      ((∀ l now, Engine.Shown.bookUpdate l now ∉ fx) → (fx.foldl (tell S) d).jobs = d.jobs) := by
  induction fx generalizing d with
  | nil => exact ⟨rfl, hI, hjobs, fun _ => rfl⟩
  | cons x fx ih =>
    have hbook : (∀ l now, Engine.Shown.bookUpdate l now ∉ x :: fx) → ∀ l now, Engine.Shown.bookUpdate l now ∉ fx :=
      fun h l now hm => h l now (List.mem_cons_of_mem _ hm)
    rw [List.foldl_cons]
    cases x with
    | order x =>
      cases x with
      | update info =>
        obtain ⟨h₁, h₂, h₃, h₄⟩ := ih (d := tell S d (.order (.update info))) hb (hR.update _ info hI) hjobs
        exact ⟨h₁, h₂, h₃, fun h => h₄ (hbook h)⟩
      | fill f =>
        obtain ⟨h₁, h₂, h₃, h₄⟩ := ih (d := tell S d (.order (.fill f))) hb hI hjobs
        exact ⟨h₁, h₂, h₃, fun h => h₄ (hbook h)⟩
      | sent msg t =>
        obtain ⟨h₁, h₂, h₃, h₄⟩ := ih (d := tell S d (.order (.sent msg t))) hb hI hjobs
        exact ⟨h₁, h₂, h₃, fun h => h₄ (hbook h)⟩
    | bookUpdate l now =>
      obtain ⟨hI', hjobs'⟩ := hR.book _ l (d.context now) hb hI
      obtain ⟨h₁, h₂, h₃, h₄⟩ := ih (d := tell S d (.bookUpdate l now)) hb hI' hjobs'
      exact ⟨h₁, h₂, h₃, fun h => absurd List.mem_cons_self (h l now)⟩

/-- **A step of the engine.** -/
theorem Reading.act (hR : Reads S I n fits) {d d' : Desk σ J} (h : d.Reading I n fits) {a : Engine.Act}
    (hdec : ∀ m now, a = .itch (some m) now → ∃ b, Itch.decode b = .ok m)
    (hret : a = .ret → d.engine.session.stack = [] → d.jobs = []) (hs : d.act S a = some d') : d'.Reading I n fits := by
  obtain ⟨⟨e', fx⟩, hstep, rfl⟩ := Option.map_eq_some_iff.mp hs
  have hok := h.ok.step hstep
  have hfed : e'.books.Fed n := by
    rcases Engine.step_books hstep with hsame | ⟨m, now, ha, hon⟩
    · rw [hsame]
      exact h.books
    · obtain ⟨b, hb⟩ := hdec m now ha
      rw [hon]
      exact h.books.on (Itch.decode_wireSized hb)
  -- jobs wait only in the middle of `on_book_update`, and then the books stay
  have hkept : d.jobs ≠ [] → e'.phase = d.engine.phase ∧ e'.books = d.engine.books := by
    intro hj
    obtain ⟨now, hp⟩ := h.busy hj
    cases hin : a.inner with
    | false => exact absurd hp (Engine.step_outer hin hstep now)
    | true =>
      obtain ⟨hbooks, hphase⟩ := Engine.step_frame hin hstep
      exact ⟨hphase fun hr hst => hj (hret hr hst), hbooks⟩
  have hjobs : fits e'.books d.jobs := by
    by_cases hj : d.jobs = []
    · rw [hj]
      exact hR.nil _
    · rw [(hkept hj).2]
      exact h.jobs
  obtain ⟨h₁, h₂, h₃, h₄⟩ := foldl_tell_reads hR fx (d := { d with engine := e' }) hfed h.holds hjobs
  refine ⟨by rw [h₁]; exact hok, by rw [h₁]; exact hfed, h₂, by rw [h₁]; exact h₃, fun hne => ?_⟩
  rw [h₁]
  by_cases hb : ∃ l now, Engine.Shown.bookUpdate l now ∈ fx
  · obtain ⟨l, now, hm⟩ := hb
    obtain ⟨_, _, _, hp⟩ := Engine.step_bookUpdate hstep hm
    exact ⟨now, hp⟩
  · have hj : d.jobs ≠ [] := by
      have := h₄ fun l now hm => hb ⟨l, now, hm⟩
      rwa [this] at hne
    obtain ⟨now, hp⟩ := h.busy hj
    exact ⟨now, (hkept hj).1.trans hp⟩

theorem submitResult_price (d : Desk σ J) {req : OrderRequest} {now : Nat} {gateway : Ouch.Inbound → Bool}
    (h : (d.submitResult req now gateway).status = .ok) : req.price ≤ kMaxWirePrice := by
  unfold submitResult at h
  split_ifs at h with ht
  · dsimp only at h
    rcases OrderManager.submit_cases d.engine.session.manager req now (d.engine.world gateway).symbol
        (d.engine.world gateway).reference (d.engine.world gateway).gateway rfl with ⟨_, hup, _⟩ | ⟨tokens, hsub, _⟩
    · exact absurd h (OrderManager.submit_refused _ _ _ _ _ _ hup)
    · exact hsub.price_le

/-- **A job is done.** -/
theorem Reading.job (hR : Reads S I n fits) {d d' : Desk σ J} (h : d.Reading I n fits) {j : J} {js : List J} {now : Nat}
    {gateway : Ouch.Inbound → Bool} (hjobs : d.jobs = j :: js) (hp : d.engine.phase = .handling now true)
    (hs : (let (s, r) := S.ask d.strategy j (d.context now)
      { d with strategy := s, jobs := js }.call S j now gateway r) = some d') : d'.Reading I n fits := by
  have hfit : fits d.engine.books (j :: js) := hjobs ▸ h.jobs
  have h' : ({ d with strategy := (S.ask d.strategy j (d.context now)).1, jobs := js } : Desk σ J).Reading I n fits :=
    ⟨h.ok, h.books, hR.ask _ j (d.context now) h.ok.session.inv h.holds, hR.tail _ _ _ hfit, fun _ => ⟨now, hp⟩⟩
  have hs : ({ d with strategy := (S.ask d.strategy j (d.context now)).1, jobs := js } : Desk σ J).call S j now gateway
      (S.ask d.strategy j (d.context now)).2 = some d' := hs
  cases hreq : (S.ask d.strategy j (d.context now)).2 with
  | none =>
    rw [hreq] at hs
    rw [← Option.some.inj hs]
    exact h'
  | some r =>
    rw [hreq] at hs
    cases r with
    | submit req =>
      obtain ⟨d₁, hact, rfl⟩ := Option.map_eq_some_iff.mp hs
      have h₁ := h'.act hR (by simp) (by simp) hact
      exact ⟨h₁.ok, h₁.books, hR.answer _ _ j js (d.context now) req _ h.books h₁.holds hfit hreq
        fun hok => submitResult_price _ hok, h₁.jobs, h₁.busy⟩
    | cancel id => exact h'.act hR (by simp) (by simp) hs
    | replace id price qty => exact h'.act hR (by simp) (by simp) hs

theorem Reading.step (hR : Reads S I n fits) {d d' : Desk σ J} (h : d.Reading I n fits) {i : Input} (hdec : Decoded i)
    (hs : d.step S i = some d') : d'.Reading I n fits := by
  cases i with
  | itch m now =>
    refine h.act hR (fun m' now' ha => ?_) (by simp) hs
    cases ha
    exact hdec
  | ouch r now => exact h.act hR (by simp) (by simp) hs
  | feedGap now => exact h.act hR (by simp) (by simp) hs
  | resumeTrading => exact h.act hR (by simp) (by simp) hs
  | go gateway =>
    simp only [Desk.step, go] at hs
    split at hs
    · rename_i now hst hp
      split at hs
      · rename_i hj
        exact h.act hR (by simp) (fun _ _ => hj) hs
      · rename_i j js hj
        exact h.job hR hj hp hs
    · exact h.act hR (by simp) (by simp) hs
    · exact h.act hR (by simp) (by simp) hs
    · rename_i hne _ _
      exact h.act hR (by simp) (fun _ hst => absurd hst (by simpa using hne)) hs

/-- **Run rule.** -/
theorem run_reading (config : Engine.Config) (hR : Reads S I config.books.maxLevelsPerSide fits) {s : σ} {is : List Input}
    {d : Desk σ J} (hnew : I s) (hr : run (step S) (new config s) is = some d) (hdec : ∀ i ∈ is, Decoded i) :
    d.Reading I config.books.maxLevelsPerSide fits := by
  refine run_invariant_along (P := fun d => d.Reading I config.books.maxLevelsPerSide fits) (Q := fun _ i => Decoded i) ?_ hr
    (along_of_forall hdec _) ⟨.new config, .new config.books, hnew, hR.nil _, fun hne => absurd rfl hne⟩
  intro d i d' h hi hs
  exact h.step hR hi hs

end Desk
end Strategy
end OptiTrade
