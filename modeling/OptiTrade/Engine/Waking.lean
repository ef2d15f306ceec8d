import OptiTrade.Book.Changes
import OptiTrade.Engine.Steps

/-! # When the strategy is woken

A message for which the books answer `ok` wakes the strategy for the one book it touches; no other step does. What is
left are the refusals that change a level. -/

namespace OptiTrade
set_option autoImplicit false

open Book (MarketBooks Applied)
open Itch (Message)
open Runs

namespace Engine
variable {e e' : Engine} {fx : List Shown} {l now : Nat} {m : Message}

/-- The strategy is told of the book of `l`, and its position is marked if there is a price for it. -/
structure Woken (e e' : Engine) (fx : List Shown) (l now : Nat) : Prop where
  called : .bookUpdate l now ∈ fx
  marked : 0 < e'.referencePrice l →
    e'.session.manager.risk = e.session.manager.risk.mark l (e'.referencePrice l)

theorem midPrice_congr {x y : Engine} (h : x.books = y.books) (l : Nat) : x.midPrice l = y.midPrice l := by
  unfold midPrice
  rw [h]

theorem referencePrice_congr {x y : Engine} (h : x.books = y.books) (l : Nat) : x.referencePrice l = y.referencePrice l := by
  unfold referencePrice
  rw [midPrice_congr h, h]

/-- The engine with the position marked. -/
def marking (e : Engine) (loc : Nat) : Engine :=
  if 0 < e.referencePrice loc then e.markRisk loc (e.referencePrice loc) else e

theorem bookChanged_eq (e : Engine) (loc now : Nat) : e.bookChanged loc now =
    if e.trading = true ∧ loc < e.maxLocates then ({ e.marking loc with phase := .handling now true }, [.bookUpdate loc now])
    else (e.marking loc, []) := by
  have hprice : (if e.midPrice loc ≤ 0 then e.books.lastTrade loc else e.midPrice loc) = e.referencePrice loc := by
    unfold referencePrice
    split_ifs <;> first | rfl | omega
  unfold bookChanged marking
  dsimp only
  rw [hprice]
  by_cases hp : 0 < e.referencePrice loc
  · rw [if_pos hp]
    rfl
  · rw [if_neg hp]

theorem marking_books (e : Engine) (loc : Nat) : (e.marking loc).books = e.books := by
  unfold marking
  by_cases hp : 0 < e.referencePrice loc
  · rw [if_pos hp]
    rfl
  · rw [if_neg hp]

theorem bookChanged_books (e : Engine) (loc now : Nat) : (e.bookChanged loc now).1.books = e.books := by
  rw [bookChanged_eq, ← marking_books e loc]
  split_ifs <;> rfl

theorem bookChanged_woken (ht : e.trading = true) (hl : l < e.maxLocates) (now : Nat) :
    Woken e (e.bookChanged l now).1 (e.bookChanged l now).2 l now := by
  have hprice := referencePrice_congr (bookChanged_books e l now) l
  have heq : e.bookChanged l now = ({ e.marking l with phase := .handling now true }, [.bookUpdate l now]) :=
    (bookChanged_eq e l now).trans (if_pos ⟨ht, hl⟩)
  refine ⟨?_, fun hp => ?_⟩
  · rw [heq]
    exact List.mem_singleton_self _
  · rw [hprice] at hp ⊢
    rw [heq]
    show (e.marking l).session.manager.risk = _
    unfold marking
    rw [if_pos hp]
    rfl

theorem bookChanged_shows {k t : Nat} (h : .bookUpdate k t ∈ (e.bookChanged l now).2) :
    k = l ∧ t = now ∧ (e.bookChanged l now).1.phase = .handling now true := by
  rw [bookChanged_eq] at h ⊢
  split_ifs at h ⊢
  · obtain ⟨rfl, rfl⟩ : k = l ∧ t = now := by simpa using h
    exact ⟨rfl, rfl, rfl⟩
  · exact absurd h List.not_mem_nil

/-! ## One message -/

theorem apply_applied (hl : e.targetLocate m = some l) (hr : (e.books.on m).2 = .ok) : e.apply m now =
    { e with
      books := (e.books.on m).1
      stats := { e.stats with itchMessages := e.stats.itchMessages + 1, bookUpdates := e.stats.bookUpdates + 1 } }.bookChanged
        l now := by
  unfold apply
  dsimp only
  rw [hl]
  dsimp only
  rw [if_pos hr]

theorem apply_refused (h : e.targetLocate m = none ∨ (e.books.on m).2 ≠ .ok) : (e.apply m now).2 = [] := by
  unfold apply
  dsimp only
  cases ht : e.targetLocate m with
  | none =>
    dsimp only
    split_ifs <;> rfl
  | some l =>
    have hr : (e.books.on m).2 ≠ .ok := h.resolve_left (by simp [ht])
    dsimp only
    rw [if_neg hr]
    split_ifs <;> rfl

theorem apply_books (e : Engine) (m : Message) (now : Nat) : (e.apply m now).1.books = (e.books.on m).1 := by
  cases ht : e.targetLocate m with
  | none =>
    unfold apply
    dsimp only
    rw [ht]
    dsimp only
    split_ifs <;> rfl
  | some l =>
    by_cases hr : (e.books.on m).2 = .ok
    · rw [apply_applied ht hr, bookChanged_books]
    · unfold apply
      dsimp only
      rw [ht]
      dsimp only
      rw [if_neg hr]
      split_ifs <;> rfl

theorem apply_shows {k t : Nat} (h : .bookUpdate k t ∈ (e.apply m now).2) :
    t = now ∧ e.targetLocate m = some k ∧ (e.apply m now).1.phase = .handling now true := by
  cases ht : e.targetLocate m with
  | none =>
    rw [apply_refused (.inl ht)] at h
    exact absurd h List.not_mem_nil
  | some l =>
    by_cases hr : (e.books.on m).2 = .ok
    · rw [apply_applied ht hr] at h ⊢
      obtain ⟨rfl, rfl, hp⟩ := bookChanged_shows h
      exact ⟨rfl, rfl, hp⟩
    · rw [apply_refused (.inr hr)] at h
      exact absurd h List.not_mem_nil

theorem targetLocate_of_change {s : Side} (h : (e.books.on m).1.levels l s ≠ e.books.levels l s) :
    e.targetLocate m = some l := by
  have hat := (e.books.on_onlyAt m).levels h
  cases m with
  | stockDirectory m => exact absurd (e.books.onStockDirectory_levels m l s) h
  | trade m => exact absurd (e.books.onTrade_levels m l s) h
  | systemEvent m => exact absurd rfl h
  | addOrder m => exact congrArg some hat.symm
  | orderExecuted m => exact congrArg some hat.symm
  | orderExecutedPrice m => exact congrArg some hat.symm
  | orderCancel m => exact congrArg some hat.symm
  | orderDelete m => exact congrArg some hat.symm
  | orderReplace m => exact congrArg some hat.symm

/-- No other step tells the strategy of a book, and it is in its callback then. -/
theorem step_bookUpdate {a : Act} {k t : Nat} (hs : e.step a = some (e', fx)) (h : .bookUpdate k t ∈ fx) :
    ∃ m, a = .itch (some m) t ∧ e.targetLocate m = some k ∧ e'.phase = .handling t true := by
  have hmap : ∀ gx : List Oms.Effect, Shown.bookUpdate k t ∉ gx.map Shown.order := by simp
  have hsession : ∀ r, e.inSession r = some (e', fx) → False := by
    intro r hr
    obtain ⟨⟨s, gx⟩, _, hgx⟩ := Option.map_eq_some_iff.mp hr
    rw [← (Prod.mk.inj hgx).2] at h
    exact hmap gx h
  cases a with
  | itch m now =>
    simp only [step, Option.ite_none_right_eq_some, Option.some.injEq] at hs
    cases m with
    | none =>
      rw [← (Prod.mk.inj hs.2).2] at h
      exact absurd h List.not_mem_nil
    | some m =>
      have he' : (apply { e with phase := .handling now false } m now).1 = e' := congrArg Prod.fst hs.2
      have hfx : (apply { e with phase := .handling now false } m now).2 = fx := congrArg Prod.snd hs.2
      rw [← hfx] at h
      obtain ⟨rfl, ht, hp⟩ := apply_shows h
      rw [he'] at hp
      exact ⟨m, rfl, ht, hp⟩
  | ouch r now =>
    simp only [step, Option.ite_none_right_eq_some, Option.some.injEq] at hs
    have hfx : (e.onOuch r now).2 = fx := congrArg Prod.snd hs.2
    rw [← hfx] at h
    cases r with
    | none => exact absurd h List.not_mem_nil
    | some r => exact absurd h (hmap _)
  | feedGap now =>
    simp only [step, Option.ite_none_right_eq_some, Option.some.injEq, Prod.mk.injEq] at hs
    rw [← hs.2.2] at h
    exact absurd h List.not_mem_nil
  | resumeTrading =>
    simp only [step, Option.ite_none_right_eq_some, Option.some.injEq, Prod.mk.injEq] at hs
    rw [← hs.2.2] at h
    exact absurd h List.not_mem_nil
  | submit req now gateway =>
    simp only [step, Option.ite_none_right_eq_some, Option.some.injEq] at hs
    have hfx : (e.submit req now gateway).2 = fx := congrArg Prod.snd hs.2
    rw [← hfx] at h
    unfold submit at h
    dsimp only at h
    by_cases ht : e.trading = true
    · rw [if_pos ht] at h
      exact absurd h (hmap _)
    · rw [if_neg ht] at h
      exact absurd h List.not_mem_nil
  | cancel id now gateway =>
    simp only [step, Option.ite_none_right_eq_some, Option.some.injEq] at hs
    have hfx : (e.cancel id now gateway).2 = fx := congrArg Prod.snd hs.2
    rw [← hfx] at h
    exact absurd h (hmap _)
  | replace id price qty now gateway =>
    simp only [step, Option.ite_none_right_eq_some, Option.some.injEq] at hs
    have hfx : (e.replace id price qty now gateway).2 = fx := congrArg Prod.snd hs.2
    rw [← hfx] at h
    unfold replace at h
    dsimp only at h
    by_cases ht : e.trading = true
    · rw [if_pos ht] at h
      exact absurd h (hmap _)
    · rw [if_neg ht] at h
      exact absurd h List.not_mem_nil
  | advance gateway => exact (hsession _ hs).elim
  | ret =>
    simp only [step] at hs
    split at hs
    · rw [← (Prod.mk.inj (Option.some.inj hs)).2] at h
      exact absurd h List.not_mem_nil
    · exact (hsession _ hs).elim
  | finish =>
    simp only [step] at hs
    split at hs
    · rw [← (Prod.mk.inj (Option.some.inj hs)).2] at h
      exact absurd h List.not_mem_nil
    · rw [← (Prod.mk.inj (Option.some.inj hs)).2] at h
      exact absurd h List.not_mem_nil
    · cases hs

/-- **The strategy is woken for every change that the books apply.** In any state of a trading engine: a message that
is not refused and changes a level of a book that the strategy trades wakes it for that book; a refused one wakes
nobody, and is one of `Spoils` if it changes a level of any book; and the strategy is woken for the book a message is
about and no other. -/
theorem woken_for_every_applied_change (e : Engine) (ht : e.trading = true) (m : Message) (now : Nat) (e' : Engine)
    (fx : List Shown) (hs : e.step (.itch (some m) now) = some (e', fx)) :
    ((e.books.on m).2 = .ok → ∀ l s, l < e.maxLocates → e'.books.levels l s ≠ e.books.levels l s →
      Woken e e' fx l now) ∧
    ((e.books.on m).2 ≠ .ok → (∀ k t, .bookUpdate k t ∉ fx) ∧
      ∀ l s, e'.books.levels l s ≠ e.books.levels l s → e.books.Spoils l m (e.books.on m).2) ∧
    ∀ a e₁ fx₁ k t, e.step a = some (e₁, fx₁) → .bookUpdate k t ∈ fx₁ → ∃ m, a = .itch (some m) t ∧ e.targetLocate m = some k := by
  refine ⟨?applied, ?refused, ?converse⟩
  case converse =>
    intro a e₁ fx₁ k t hs h
    obtain ⟨m, ha, ht, _⟩ := step_bookUpdate hs h
    exact ⟨m, ha, ht⟩
  all_goals
    simp only [step, Option.ite_none_right_eq_some, Option.some.injEq] at hs
    have he' : (apply { e with phase := .handling now false } m now).1 = e' := congrArg Prod.fst hs.2
    have hfx : (apply { e with phase := .handling now false } m now).2 = fx := congrArg Prod.snd hs.2
    have hbooks : e'.books = (e.books.on m).1 := by
      rw [← he']
      exact apply_books _ m now
    rw [hbooks]
  case applied =>
    intro hr l s hl hc
    have hloc := targetLocate_of_change hc
    have happly : apply { e with phase := .handling now false } m now = _ := apply_applied hloc hr
    rw [happly] at he' hfx
    rw [← he', ← hfx]
    have hw := bookChanged_woken (e := { e with
      phase := .handling now false
      books := (e.books.on m).1
      stats := { e.stats with itchMessages := e.stats.itchMessages + 1, bookUpdates := e.stats.bookUpdates + 1 } }) ht hl now
    exact ⟨hw.called, hw.marked⟩
  case refused =>
    intro hr
    refine ⟨fun k t h => ?_, fun l s hc => MarketBooks.on_spoils hr hc⟩
    have hnone : (apply { e with phase := .handling now false } m now).2 = [] := apply_refused (.inr hr)
    rw [hnone] at hfx
    rw [← hfx] at h
    exact absurd h List.not_mem_nil

/-- A bid of 100 shares. -/
def oneBid : Message := .addOrder ⟨⟨1, 0, 0⟩, 1, .buy, 100, .ofText [65, 66, 67, 68], 10, false, []⟩

theorem woken_for_the_first_bid :
    ∃ e' fx, (new { books := ⟨4, 4, 4⟩, maxLocates := 2 }).step (.itch (some oneBid) 2) = some (e', fx) ∧
      e'.books.levels 1 .buy = [⟨10, 100, 1⟩] ∧ .bookUpdate 1 2 ∈ fx := by
  obtain ⟨⟨e', fx⟩, hs⟩ := Option.isSome_iff_exists.mp
    (rfl : ((new { books := ⟨4, 4, 4⟩, maxLocates := 2 }).step (.itch (some oneBid) 2)).isSome = true)
  have hview : ((new { books := ⟨4, 4, 4⟩, maxLocates := 2 }).step (.itch (some oneBid) 2)).map
      (fun s => s.1.books.levels 1 .buy) = some [⟨10, 100, 1⟩] := rfl
  rw [hs] at hview
  have hlevels : e'.books.levels 1 .buy = [⟨10, 100, 1⟩] := Option.some.inj hview
  have h := woken_for_every_applied_change _ rfl oneBid 2 e' fx hs
  refine ⟨e', fx, hs, hlevels, (h.1 rfl 1 .buy (by decide) ?_).called⟩
  rw [hlevels]
  exact List.cons_ne_nil _ _

/-- The bid is executed beyond its shares. -/
def beyondBid : Message := .orderExecuted ⟨⟨1, 0, 0⟩, 1, 150, 7⟩

def afterBid : List Act := [.itch (some oneBid) 2, .ret, .finish]

theorem afterBid_view : (run next (new { books := ⟨4, 4, 4⟩, maxLocates := 2 }, []) afterBid).map (fun s =>
    (s.1.trading, s.1.maxLocates, s.1.books.levels 1 .buy,
      (s.1.step (.itch (some beyondBid) 3)).map fun t => (t.1.books.levels 1 .buy, t.2.length))) =
    some (true, 2, [⟨10, 100, 1⟩], some ([], 0)) := by
  decide +kernel

/-- It leaves the ladder, and the strategy is not told. -/
theorem not_woken_for_an_over_execution :
    ¬∀ (config : Config) (as : List Act) (e : Engine) (log : List Shown), run next (new config, []) as = some (e, log) →
      e.trading = true → ∀ m now e' fx, e.step (.itch (some m) now) = some (e', fx) →
        ∀ l s, l < e.maxLocates → e'.books.levels l s ≠ e.books.levels l s → .bookUpdate l now ∈ fx := by
  intro h
  obtain ⟨⟨e, log⟩, hr, hview⟩ := Option.map_eq_some_iff.mp afterBid_view
  simp only [Prod.mk.injEq] at hview
  obtain ⟨ht, hmax, hbefore, hafter⟩ := hview
  obtain ⟨⟨e', fx⟩, hs, hshown⟩ := Option.map_eq_some_iff.mp hafter
  obtain ⟨hlevels, hfx⟩ := Prod.mk.inj hshown
  have hlt : 1 < e.maxLocates := by rw [hmax]; decide
  have hchange : e'.books.levels 1 .buy ≠ e.books.levels 1 .buy := by
    rw [hbefore, hlevels]
    exact (List.cons_ne_nil _ _).symm
  have hwoken := h _ afterBid e log hr ht beyondBid 3 e' fx hs 1 .buy hlt hchange
  have hnil : fx = [] := List.length_eq_zero_iff.mp hfx
  rw [hnil] at hwoken
  exact absurd hwoken List.not_mem_nil

end Engine
end OptiTrade
