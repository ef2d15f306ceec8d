import OptiTrade.Engine.Steps
import OptiTrade.Foundations.Simulation

/-! # The engine and the feed

Whatever the strategy, the gateway and the exchange do, the books of an engine are what the messages it has heard make
of empty books, and its market-data counters count what the books answered. -/

namespace OptiTrade
set_option autoImplicit false

open Book (MarketBooks Applied)
open Itch (Message)
open Runs

namespace Engine

/-- Books that hear a message, and what they have answered so far; a message that was not decoded changes nothing. -/
def hear (s : MarketBooks × List (Message × Applied)) : Option Message → MarketBooks × List (Message × Applied)
  | some m => ((s.1.on m).1, s.2 ++ [(m, (s.1.on m).2)])
  | none => s

/-- What messages make of books. -/
def replay (mb : MarketBooks) (ms : List (Option Message)) : MarketBooks × List (Message × Applied) := ms.foldl hear (mb, [])

/-- The messages of the acts, as decoded. -/
def heard (acts : List Act) : List (Option Message) :=
  acts.filterMap fun a =>
    match a with
    | .itch m _ => some m
    | _ => none

/-- The message changes a book when it is applied. -/
def orderFlow : Message → Bool
  | .stockDirectory _ | .trade _ | .systemEvent _ => false
  | _ => true

def isUpdate (x : Message × Applied) : Bool := orderFlow x.1 && x.2 = .ok

def isError (x : Message × Applied) : Bool := x.2 ≠ .ok && x.2 ≠ .ignored

/-- The engine has heard the messages `ms`, from books `mb` on. -/
structure Mirrors (mb : MarketBooks) (ms : List (Option Message)) (e : Engine) : Prop where
  books : e.books = (replay mb ms).1
  messages : e.stats.itchMessages = (replay mb ms).2.length
  skipped : e.stats.itchSkipped = ms.countP Option.isNone
  updates : e.stats.bookUpdates = (replay mb ms).2.countP isUpdate
  errors : e.stats.bookErrors = (replay mb ms).2.countP isError

theorem replay_snoc (mb : MarketBooks) (ms : List (Option Message)) (m : Option Message) :
    replay mb (ms ++ [m]) = hear (replay mb ms) m := by
  simp [replay]

section
variable {mb : MarketBooks} {ms : List (Option Message)} {e e' : Engine} {a : Act} {fx : List Shown}

theorem Mirrors.new (config : Config) : Mirrors (.new config.books) [] (new config) := ⟨rfl, rfl, rfl, rfl, rfl⟩

/-- The counters of market data. -/
def Stats.market (s : Stats) : Nat × Nat × Nat × Nat := (s.itchMessages, s.itchSkipped, s.bookUpdates, s.bookErrors)

@[simp] theorem countRefusal_market (s : Stats) (r : Oms.SubmitStatus) : (countRefusal s r).market = s.market := by
  unfold countRefusal
  split_ifs <;> rfl

@[simp] theorem countRisk_market (s : Stats) (r : Oms.SubmitStatus) : (countRisk s r).market = s.market := by
  unfold countRisk
  split_ifs <;> rfl

/-- The part of an engine that the feed alone changes. -/
structure SameFeed (e e' : Engine) : Prop where
  books : e'.books = e.books
  market : e'.stats.market = e.stats.market

theorem Mirrors.same (h : Mirrors mb ms e) (hs : SameFeed e e') : Mirrors mb ms e' := by
  have hm := hs.market
  simp only [Stats.market, Prod.mk.injEq] at hm
  obtain ⟨h₁, h₂, h₃, h₄⟩ := hm
  exact ⟨hs.books.trans h.books, h₁.trans h.messages, h₂.trans h.skipped, h₃.trans h.updates, h₄.trans h.errors⟩

theorem bookChanged_sameFeed (e : Engine) (loc now : Nat) : SameFeed e (e.bookChanged loc now).1 := by
  unfold bookChanged markRisk
  dsimp only
  split_ifs <;> exact ⟨rfl, rfl⟩

theorem targetLocate_isSome (e : Engine) (m : Message) : (e.targetLocate m).isSome = orderFlow m := by
  cases m <;> rfl

/-- A message that was decoded. -/
theorem Mirrors.apply (h : Mirrors mb ms e) (m : Message) (now : Nat) : Mirrors mb (ms ++ [some m]) (e.apply m now).1 := by
  have hrep : replay mb (ms ++ [some m]) = ((e.books.on m).1, (replay mb ms).2 ++ [(m, (e.books.on m).2)]) := by
    rw [replay_snoc, h.books]
    rfl
  have hflow := e.targetLocate_isSome m
  have hskip : (ms ++ [some m]).countP Option.isNone = ms.countP Option.isNone := by simp
  have hout : ∀ x : Engine, x.books = (e.books.on m).1 → x.stats.itchMessages = e.stats.itchMessages + 1 →
      x.stats.itchSkipped = e.stats.itchSkipped →
      x.stats.bookUpdates = e.stats.bookUpdates + (if isUpdate (m, (e.books.on m).2) then 1 else 0) →
      x.stats.bookErrors = e.stats.bookErrors + (if isError (m, (e.books.on m).2) then 1 else 0) →
      Mirrors mb (ms ++ [some m]) x := by
    intro x h₁ h₂ h₃ h₄ h₅
    constructor
    · rw [hrep, h₁]
    · rw [hrep, h₂, h.messages, List.length_append]
      rfl
    · rw [hskip, h₃, h.skipped]
    · rw [hrep, h₄, h.updates, List.countP_append, List.countP_singleton]
    · rw [hrep, h₅, h.errors, List.countP_append, List.countP_singleton]
  unfold Engine.apply
  dsimp only
  cases hloc : e.targetLocate m with
  | none =>
    rw [hloc] at hflow
    have hup : isUpdate (m, (e.books.on m).2) = false := by
      unfold isUpdate
      rw [← hflow]
      rfl
    dsimp only
    split_ifs with herr
    · exact hout _ rfl rfl rfl (by rw [hup]; rfl) (by simp [isError, herr])
    · exact hout _ rfl rfl rfl (by rw [hup]; rfl) (by simpa [isError] using herr)
  | some loc =>
    rw [hloc] at hflow
    dsimp only
    split_ifs with hok herr
    · refine (hout _ ?_ ?_ ?_ ?_ ?_).same (bookChanged_sameFeed _ loc now)
      · rfl
      · rfl
      · rfl
      · simp [isUpdate, ← hflow, hok]
      · simp [isError, hok]
    · exact hout _ rfl rfl rfl (by simp [isUpdate, hok]) (by simp [isError, hok, herr])
    · exact hout _ rfl rfl rfl (by simp [isUpdate, hok]) (by simpa [isError, hok] using herr)

/-- What is not a market-data call. -/
theorem step_sameFeed (ha : ∀ m now, a ≠ .itch m now) (hs : e.step a = some (e', fx)) : SameFeed e e' := by
  cases a with
  | itch m now => exact absurd rfl (ha m now)
  | ouch r now =>
    simp only [step, Option.ite_none_right_eq_some, Option.some.injEq] at hs
    rw [show e' = _ from (congrArg Prod.fst hs.2).symm]
    cases r with
    | none => exact ⟨rfl, rfl⟩
    | some r => exact ⟨rfl, rfl⟩
  | feedGap now =>
    simp only [step, Option.ite_none_right_eq_some, Option.some.injEq] at hs
    rw [show e' = _ from (congrArg Prod.fst hs.2).symm]
    exact ⟨rfl, rfl⟩
  | resumeTrading =>
    simp only [step, Option.ite_none_right_eq_some, Option.some.injEq] at hs
    rw [show e' = _ from (congrArg Prod.fst hs.2).symm]
    exact ⟨rfl, rfl⟩
  | submit req now gateway =>
    simp only [step, Option.ite_none_right_eq_some, Option.some.injEq] at hs
    rw [show e' = _ from (congrArg Prod.fst hs.2).symm]
    unfold submit called
    dsimp only
    split_ifs
    · exact ⟨rfl, (countRefusal_market _ _).trans (countRisk_market _ _)⟩
    · exact ⟨rfl, (countRefusal_market _ _).trans (countRisk_market _ _)⟩
    · exact ⟨rfl, rfl⟩
  | cancel id now gateway =>
    simp only [step, Option.ite_none_right_eq_some, Option.some.injEq] at hs
    rw [show e' = _ from (congrArg Prod.fst hs.2).symm]
    exact ⟨rfl, countRefusal_market _ _⟩
  | replace id price qty now gateway =>
    simp only [step, Option.ite_none_right_eq_some, Option.some.injEq] at hs
    rw [show e' = _ from (congrArg Prod.fst hs.2).symm]
    unfold replace called
    dsimp only
    split_ifs
    · exact ⟨rfl, (countRefusal_market _ _).trans (countRisk_market _ _)⟩
    · exact ⟨rfl, rfl⟩
  | advance gateway =>
    obtain ⟨s, gx, -, rfl, -⟩ := inSession_some hs
    exact ⟨rfl, rfl⟩
  | ret =>
    simp only [step] at hs
    split at hs
    · rw [show e' = _ from (congrArg Prod.fst (Option.some.inj hs)).symm]
      exact ⟨rfl, rfl⟩
    · obtain ⟨s, gx, -, rfl, -⟩ := inSession_some hs
      exact ⟨rfl, rfl⟩
  | finish =>
    simp only [step] at hs
    split at hs
    · rw [show e' = _ from (congrArg Prod.fst (Option.some.inj hs)).symm]
      unfold retryGapCancels
      split_ifs
      · exact ⟨rfl, rfl⟩
      · exact ⟨rfl, rfl⟩
    · rw [show e' = _ from (congrArg Prod.fst (Option.some.inj hs)).symm]
      exact ⟨rfl, rfl⟩
    · cases hs

/-- **Step lemma.** -/
theorem Mirrors.step (h : Mirrors mb ms e) (hs : e.step a = some (e', fx)) : Mirrors mb (ms ++ heard [a]) e' := by
  by_cases ha : ∃ m now, a = .itch m now
  · obtain ⟨m, now, rfl⟩ := ha
    simp only [Engine.step, Option.ite_none_right_eq_some, Option.some.injEq] at hs
    rw [show e' = _ from (congrArg Prod.fst hs.2).symm]
    have hphase : Mirrors mb ms { e with phase := .handling now false } := h.same ⟨rfl, rfl⟩
    cases m with
    | some m => exact hphase.apply m now
    | none =>
      have hrep : replay mb (ms ++ [none]) = replay mb ms := replay_snoc mb ms none
      show Mirrors mb (ms ++ [none]) _
      refine ⟨?_, ?_, ?_, ?_, ?_⟩
      · rw [hrep]
        exact h.books
      · rw [hrep]
        exact h.messages
      · rw [List.countP_append, ← h.skipped]
        rfl
      · rw [hrep]
        exact h.updates
      · rw [hrep]
        exact h.errors
  · have hnone : heard [a] = [] := by
      cases a with
      | itch m now => exact absurd ⟨m, now, rfl⟩ ha
      | _ => rfl
    rw [hnone, List.append_nil]
    exact h.same (step_sameFeed (fun m now heq => ha ⟨m, now, heq⟩) hs)

end

/-- **Run lemma.** -/
theorem Mirrors.run {mb : MarketBooks} {s t : Engine × List Shown} {acts : List Act} (h : Mirrors mb [] s.1)
    (hrun : Runs.run next s acts = some t) : Mirrors mb (heard acts) t.1 := by
  refine run_history (H := fun past (s : Engine × List Shown) => Mirrors mb (heard past) s.1) (Q := fun _ => True)
    (fun past s a s' hs _ hstep => ?_) hrun (fun _ _ => trivial) h
  obtain ⟨⟨e, fx⟩, he, rfl⟩ := Option.map_eq_some_iff.mp hstep
  rw [show heard (past ++ [a]) = heard past ++ heard [a] from List.filterMap_append]
  exact hs.step he

theorem length_answers (mb : MarketBooks) (ms : List (Option Message)) :
    (replay mb ms).2.length + ms.countP Option.isNone = ms.length := by
  induction ms using List.reverseRecOn with
  | nil => rfl
  | append_singleton ms m ih =>
    rw [replay_snoc, List.countP_append, List.length_append]
    cases m with
    | none =>
      show (replay mb ms).2.length + (_ + 1) = _ + 1
      omega
    | some m =>
      show ((replay mb ms).2 ++ [_]).length + (_ + 0) = _ + 1
      rw [List.length_append, List.length_singleton]
      omega

/-- **The books follow the feed.** Whatever calls, callbacks and reports lie between the messages: the books of the engine
are the replay of the messages it has heard, every message is counted once, as decoded or as skipped, the book updates are
the order-flow messages the books applied and the book errors the messages they refused. -/
theorem books_follow_the_feed (config : Config) (acts : List Act) (e : Engine) (shown : List Shown)
    (hrun : run next (new config, []) acts = some (e, shown)) :
    e.books = (replay (.new config.books) (heard acts)).1 ∧
    e.stats.itchMessages + e.stats.itchSkipped = (heard acts).length ∧
    e.stats.itchSkipped = (heard acts).countP Option.isNone ∧
    e.stats.bookUpdates = (replay (.new config.books) (heard acts)).2.countP isUpdate ∧
    e.stats.bookErrors = (replay (.new config.books) (heard acts)).2.countP isError := by
  have h : Mirrors (.new config.books) (heard acts) e := (Mirrors.new config).run hrun
  refine ⟨h.books, ?_, h.skipped, h.updates, h.errors⟩
  rw [h.messages, h.skipped, length_answers]

/-- An instrument is listed, an order of it comes, and then bytes that are no message. -/
def listedAndBid : List Act :=
  [.itch (some (.stockDirectory ⟨⟨1, 0, 0⟩, .ofText [65], 81, 78, 100, 78, 67, [90, 32], 80, 78, 78, 49, 78, 0, 78⟩)) 0, .finish,
    .itch (some (.addOrder ⟨⟨1, 0, 0⟩, 1, .buy, 100, .ofText [65], 10, false, [0, 0, 0, 0]⟩)) 1, .ret, .finish,
    .itch none 2, .finish]

theorem books_follow_the_feed_listed_and_bid :
    ∃ e shown, run next (new {}, []) listedAndBid = some (e, shown) ∧ e.stats.bookUpdates = 1 ∧ e.stats.bookErrors = 0 ∧
      e.stats.itchMessages + e.stats.itchSkipped = 3 := by
  refine ⟨_, _, rfl, rfl, rfl, ?_⟩
  exact (books_follow_the_feed {} listedAndBid _ _ rfl).2.1

end Engine
end OptiTrade
