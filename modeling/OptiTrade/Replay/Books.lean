import OptiTrade.Engine.MarketData
import OptiTrade.Replay.Settlement
import OptiTrade.Sim.Walk

/-! # One market, seen twice

The engine and the simulator of a backtest keep books of their own and get every record one after the other. Between the
records nothing else touches a book: not the requests, not the reports, not the strategy. So both sets of books are what the
records make of empty ones, and with equal sizes they are the same. -/

namespace OptiTrade
set_option autoImplicit false

open Runs
open Itch (Message)
open Sim (ExchangeSim)

namespace Sim.ExchangeSim
variable {s : ExchangeSim}

theorem anything : Floor.Invariant (fun _ _ => True) fun _ => True :=
  ⟨fun _ _ _ => trivial, fun _ _ => trivial, fun _ _ _ _ => trivial, fun _ _ _ _ => trivial⟩

theorem onItch_books (h : s.Rings) (hv : s.venue.Meets fun _ => True) (m : Option Message) (now : Nat) :
    (s.onItch m now).venue.books = m.elim s.venue.books fun m => (s.venue.books.on m).1 := by
  obtain ⟨⟨hs, hst, -⟩, hadv⟩ := meets_advance anything h hv now
  rw [onItch_venue h]
  cases m with
  | none => exact hadv
  | some m =>
    have hk : (s.advance now).venue.Keeps (s.marketAt now) := ⟨rfl, rfl, rfl, rfl, fun _ => rfl, fun _ => rfl, fun _ => rfl⟩
    obtain ⟨hs', -, hfl⟩ := Venue.apply_refines (hk.stored hst) m
    have hbooks := congrArg Floor.books hfl
    rw [Floor.books_apply] at hbooks
    exact hbooks.trans (congrArg (fun mb => (Book.MarketBooks.on mb m).1) hadv)

end Sim.ExchangeSim

namespace Replay

/-- The messages of the records, as decoded. -/
def recorded (is : List Input) : List (Option Message) :=
  is.filterMap fun i =>
    match i with
    | .record r => some (Itch.decode r.payload).toOption
    | _ => none

namespace Backtest
variable {b b' : Backtest}

/-- The message of the record that is still to be played. -/
def waiting (b : Backtest) : List (Option Message) :=
  match b.stage with
  | .delivering payload => [(Itch.decode payload).toOption]
  | _ => []

/-- Both sides have heard the messages `ms`. -/
structure Heard (config : BacktestConfig) (ms : List (Option Message)) (b : Backtest) : Prop where
  engine : Engine.Mirrors (.new config.engine.books) ms b.engine
  venue : b.exchange.venue.Meets fun _ => True
  books : b.exchange.venue.books = (Engine.replay (.new config.sim.books) ms).1

variable {config : BacktestConfig} {ms : List (Option Message)}

theorem Heard.same (h : Heard config ms b) (he : Engine.Mirrors (.new config.engine.books) ms b'.engine)
    (hv : b'.exchange.venue = b.exchange.venue) : Heard config ms b' :=
  ⟨he, by rw [hv]; exact h.venue, by rw [hv]; exact h.books⟩

theorem Heard.advance (h : Heard config ms b) (hr : b.exchange.Rings) (he : b'.engine = b.engine) {now : Nat}
    (hx : b'.exchange = b.exchange.advance now) : Heard config ms b' := by
  obtain ⟨hmeets, hbooks⟩ := Sim.ExchangeSim.meets_advance Sim.ExchangeSim.anything hr h.venue now
  refine ⟨by rw [he]; exact h.engine, by rw [hx]; exact hmeets, ?_⟩
  rw [hx, hbooks]
  exact h.books

theorem forward_venue (s : ExchangeSim) (xs : List (Ouch.Inbound × Nat)) : (forward s xs).venue = s.venue := by
  induction xs generalizing s with
  | nil => rfl
  | cons x xs ih => exact (ih _).trans (s.send_frame x.1 x.2).1

theorem Heard.move (h : Heard config ms b) (m : Move) (hs : b.move m = some b') : Heard config ms b' := by
  obtain ⟨⟨e, fx⟩, hstep, rfl⟩ := Option.map_eq_some_iff.mp hs
  refine h.same (h.engine.same (Engine.step_sameFeed (fun m' now heq => ?_) hstep)) (forward_venue _ _)
  cases m with
  | submit req => cases heq
  | cancel id => cases heq
  | replace id price qty => cases heq
  | advance => cases heq
  | ret => cases heq
  | finish => cases heq

theorem Heard.hand (h : Heard config ms b) (hs : b.hand = some b') : Heard config ms b' := by
  obtain ⟨⟨e, fx⟩, hstep, rfl⟩ := Option.map_eq_some_iff.mp hs
  exact h.same (h.engine.same (Engine.step_sameFeed (fun _ _ heq => by cases heq) hstep)) rfl

theorem Heard.handed (h : Heard config ms b) (hs : b.handed = some b') : Heard config ms b' := by
  unfold Backtest.handed at hs
  split_ifs at hs
  cases hs
  exact h.same h.engine rfl

theorem Heard.play {payload : List Byte} (h : Heard config ms b) (hr : b.exchange.Rings) (hs : b.play payload = some b') :
    Heard config (ms ++ [(Itch.decode payload).toOption]) b' := by
  obtain ⟨⟨e, fx⟩, hstep, rfl⟩ := Option.map_eq_some_iff.mp hs
  refine ⟨h.engine.step hstep, Sim.ExchangeSim.meets_onItch Sim.ExchangeSim.anything hr h.venue b.now fun _ _ => trivial, ?_⟩
  refine (Sim.ExchangeSim.onItch_books hr h.venue _ b.now).trans ?_
  rw [h.books, Engine.replay_snoc]
  cases (Itch.decode payload).toOption <;> rfl

theorem Heard.flush (h : Heard config ms b) (hr : b.exchange.Rings) (round : Nat) : Heard config ms (b.flush round) := by
  unfold Backtest.flush
  split_ifs
  · exact h.advance hr rfl rfl
  · exact h.same h.engine rfl

theorem flush_waiting (b : Backtest) (round : Nat) : (b.flush round).waiting = [] := by
  unfold Backtest.flush
  split_ifs <;> rfl

/-- What has been recorded has been heard, or waits to be played. -/
def Follows (config : BacktestConfig) (rs : List (Option Message)) (b : Backtest) : Prop :=
  ∃ ms, rs = ms ++ b.waiting ∧ Heard config ms b

theorem Heard.follows (h : Heard config ms b') (hw : b'.waiting = b.waiting) : Follows config (ms ++ b.waiting) b' :=
  ⟨ms, by rw [hw], h⟩

theorem hand_waiting (hs : b.hand = some b') : b'.waiting = b.waiting := by
  obtain ⟨⟨e, fx⟩, hstep, rfl⟩ := Option.map_eq_some_iff.mp hs
  rfl

theorem handed_waiting (hs : b.handed = some b') : b'.waiting = b.waiting := by
  unfold Backtest.handed at hs
  split_ifs at hs
  cases hs
  rfl

theorem Follows.go {rs : List (Option Message)} (h : Follows config rs b) (hr : b.exchange.Rings) (hs : b.go = some b') :
    Follows config rs b' := by
  obtain ⟨ms, rfl, h⟩ := h
  have hend : ∀ {round delivered : Nat}, b.stage = .flushing round delivered → b.waiting = [] := by
    intro round delivered hst
    unfold waiting
    rw [hst]
  cases go_cases hs with
  | handed _ _ hs => exact (h.handed hs).follows (handed_waiting hs)
  | hand _ _ _ hs => exact (h.hand hs).follows (hand_waiting hs)
  | @play payload _ hst _ _ hs =>
    refine ⟨ms ++ [(Itch.decode payload).toOption], ?_, h.play hr hs⟩
    have hwait : b.waiting = [(Itch.decode payload).toOption] := by
      unfold waiting
      rw [hst]
    obtain ⟨⟨e, fx⟩, hstep, rfl⟩ := Option.map_eq_some_iff.mp hs
    rw [hwait]
    exact (List.append_nil _).symm
  | read hst _ =>
    have hnext : Heard config ms { b with stage := .reading } := h.same h.engine rfl
    refine hnext.follows ?_
    unfold waiting
    rw [hst]
  | @empty round delivered _ hst _ _ hs =>
    have hnext : Heard config ms { b with stage := .flushing round (delivered + 1) } := h.same h.engine rfl
    exact (hnext.hand hs).follows ((hand_waiting hs).trans (hend hst).symm)
  | stop hst _ _ =>
    have hnext : Heard config ms { b with stage := .done } := h.same h.engine rfl
    exact hnext.follows (hend hst).symm
  | again hst _ _ _ => exact (h.flush hr _).follows ((flush_waiting b _).trans (hend hst).symm)

/-- **Step lemma.** -/
theorem Follows.step {rs : List (Option Message)} {i : Input} (h : Follows config rs b) (hr : b.exchange.Rings)
    (hs : b.step i = some b') : Follows config (rs ++ recorded [i]) b' := by
  have hnil : ∀ {rs' : List (Option Message)}, Follows config rs b' → rs' = [] → Follows config (rs ++ rs') b' := by
    rintro rs' h rfl
    rwa [List.append_nil]
  cases i with
  | record r =>
    obtain ⟨ms, rfl, h⟩ := h
    simp only [Backtest.step] at hs
    split at hs
    · rename_i hst
      cases hs
      have hwait : b.waiting = [] := by
        unfold waiting
        rw [hst]
      refine ⟨ms, ?_, h.advance hr rfl rfl⟩
      rw [hwait, List.append_nil]
      rfl
    · cases hs
  | eof =>
    obtain ⟨ms, rfl, h⟩ := h
    simp only [Backtest.step] at hs
    split at hs
    · rename_i hst
      cases hs
      have hwait : b.waiting = [] := by
        unfold waiting
        rw [hst]
      exact hnil ((h.flush hr 0).follows ((flush_waiting b 0).trans hwait.symm)) rfl
    · cases hs
  | move m =>
    obtain ⟨ms, rfl, h⟩ := h
    refine hnil ((h.move m hs).follows ?_) rfl
    obtain ⟨⟨e, fx⟩, hstep, rfl⟩ := Option.map_eq_some_iff.mp hs
    rfl
  | go => exact hnil (h.go hr hs) rfl

theorem Follows.new (config : BacktestConfig) : Follows config [] (new config) :=
  ⟨[], rfl, .new config.engine, ⟨[], .new _ _, trivial⟩, rfl⟩

/-- **Both sides see the same market.** In every state of every backtest, but for a record that is about to be played, the
books of the engine and the books its orders are matched against are the replay of the records; the engine has counted each
record once, as decoded or as skipped, and the updates and errors of its books; and when the books have the same sizes the
two are equal. -/
theorem both_see_the_same_market (config : BacktestConfig) (is : List Input) (b : Backtest)
    (hlat : config.sim.orderLatencyNs ≤ u64Max ∧ config.sim.reportLatencyNs ≤ u64Max)
    (hr : run step (new config) is = some b) :
    ∃ ms, recorded is = ms ++ b.waiting ∧
      b.engine.books = (Engine.replay (.new config.engine.books) ms).1 ∧
      b.exchange.venue.books = (Engine.replay (.new config.sim.books) ms).1 ∧
      b.engine.stats.itchMessages + b.engine.stats.itchSkipped = ms.length ∧
      b.engine.stats.bookUpdates = (Engine.replay (.new config.engine.books) ms).2.countP Engine.isUpdate ∧
      b.engine.stats.bookErrors = (Engine.replay (.new config.engine.books) ms).2.countP Engine.isError ∧
      (config.engine.books = config.sim.books → b.engine.books = b.exchange.venue.books) := by
  have hinv : Settled (fun _ => True) b ∧ Follows config (recorded is) b := by
    refine run_history (H := fun past b => Settled (fun _ => True) b ∧ Follows config (recorded past) b) (Q := fun _ => True)
      (fun past b i b' hb _ hs => ?_) hr (fun _ _ => trivial) ⟨.new hlat.1 hlat.2, .new config⟩
    have hmeets : Settled.Meets (fun _ => True) i := by
      cases i with
      | record r => trivial
      | eof => trivial
      | move m => trivial
      | go => trivial
    refine ⟨(hb.1.step (o := fun _ => none) hmeets hs).1, ?_⟩
    rw [show recorded (past ++ [i]) = recorded past ++ recorded [i] from List.filterMap_append]
    exact hb.2.step hb.1.exchange.rings hs
  obtain ⟨-, ms, hms, h⟩ := hinv
  refine ⟨ms, hms, h.engine.books, h.books, ?_, h.engine.updates, h.engine.errors, fun heq => ?_⟩
  · rw [h.engine.messages, h.engine.skipped, Engine.length_answers]
  · rw [h.engine.books, h.books, heq]

theorem both_see_the_same_market_resting_order :
    ∃ b, run step (new smallBacktest) restingOrder = some b ∧ b.engine.books = b.exchange.venue.books ∧
      b.engine.stats.itchMessages + b.engine.stats.itchSkipped = 2 := by
  have hview : (run step (new smallBacktest) restingOrder).map waiting = some [] := by
    decide +kernel
  obtain ⟨b, hr, hv⟩ := Option.map_eq_some_iff.mp hview
  obtain ⟨ms, hms, -, -, hcount, -, -, hsame⟩ := both_see_the_same_market smallBacktest restingOrder b ⟨by decide, by decide⟩ hr
  refine ⟨b, hr, hsame rfl, ?_⟩
  rw [hcount, ← List.append_nil ms, ← hv, ← hms]
  rfl

end Backtest
end Replay
end OptiTrade
