import OptiTrade.Engine.Engine
import OptiTrade.Sim.ExchangeSim

/-! # Header locates carry no information

An execution, a cancel, a delete or a replace names an order, and the order knows its instrument. Here an
engine and a simulator are driven together by anything that decides from all it has seen so far: a
strategy, a gateway, the order of calls, the times. Only the market data comes from outside, as a tape.
Two tapes that differ in the header locates of order-flow messages give the same history. -/

namespace OptiTrade
set_option autoImplicit false

open Itch (Message Header)

namespace Itch

/-- The header with its locate blanked out. -/
def Header.unlocated (h : Header) : Header := { h with locate := 0 }

/-- The message without the header locate of an execution, cancel, delete or replace. -/
def Message.unlocated : Message → Message
  | .orderExecuted m => .orderExecuted { m with h := m.h.unlocated }
  | .orderExecutedPrice m => .orderExecutedPrice { m with h := m.h.unlocated }
  | .orderCancel m => .orderCancel { m with h := m.h.unlocated }
  | .orderDelete m => .orderDelete { m with h := m.h.unlocated }
  | .orderReplace m => .orderReplace { m with h := m.h.unlocated }
  | m => m

/-- The messages are equal except for such header locates. -/
def SameFlow (m m' : Option Message) : Prop := m.map Message.unlocated = m'.map Message.unlocated

end Itch

namespace Book.MarketBooks

theorem on_unlocated (mb : MarketBooks) (m : Message) : mb.on m.unlocated = mb.on m := by
  cases m <;> rfl

theorem reduce_unknown {mb : MarketBooks} {ref : Nat} (h : mb.order ref = none) (shares : Nat)
    (tradePrice : Option Int) (execution : Bool) : mb.reduce ref shares tradePrice execution = (mb, .unknownOrder) := by
  unfold reduce
  rw [Option.map_eq_none_iff.mp h]

end Book.MarketBooks

namespace Engine
variable {e : Engine}

/-- The instrument that is marked matters only if the books took the message, and then it is that of the
order in the table. -/
theorem storedLocate_header {ref : Nat} (h : (e.books.order ref).isSome) (header header' : Nat) :
    e.storedLocate ref header = e.storedLocate ref header' := by
  obtain ⟨o, ho⟩ := Option.isSome_iff_exists.mp h
  simp only [storedLocate, ho]

/-- `apply` with the instrument and what the books did given. -/
def applied (e : Engine) (loc : Option Nat) (r : Book.MarketBooks × Book.Applied) (now : Nat) : Engine × List Shown :=
  let e := { e with books := r.1, stats := { e.stats with itchMessages := e.stats.itchMessages + 1 } }
  match loc with
  | some loc =>
    if r.2 = .ok then
      { e with stats := { e.stats with bookUpdates := e.stats.bookUpdates + 1 } }.bookChanged loc now
    else if r.2 ≠ .ignored then
      ({ e with stats := { e.stats with bookErrors := e.stats.bookErrors + 1 } }, [])
    else (e, [])
  | none =>
    if r.2 ≠ .ok ∧ r.2 ≠ .ignored then
      ({ e with stats := { e.stats with bookErrors := e.stats.bookErrors + 1 } }, [])
    else (e, [])

theorem apply_eq (e : Engine) (m : Message) (now : Nat) :
    e.apply m now = e.applied (e.targetLocate m) (e.books.on m) now := rfl

theorem applied_refused {r : Book.MarketBooks × Book.Applied} (h : r.2 ≠ .ok) (loc loc' now : Nat) :
    e.applied (some loc) r now = e.applied (some loc') r now := by
  simp only [applied, if_neg h]

theorem applied_storedLocate {ref : Nat} {r : Book.MarketBooks × Book.Applied}
    (h : e.books.order ref = none → r.2 ≠ .ok) (header header' now : Nat) :
    e.applied (some (e.storedLocate ref header)) r now = e.applied (some (e.storedLocate ref header')) r now := by
  cases ho : e.books.order ref with
  | none => exact applied_refused (h ho) _ _ now
  | some o => rw [storedLocate_header (by rw [ho]; rfl) header header']

theorem apply_unlocated (e : Engine) (m : Message) (now : Nat) : e.apply m.unlocated now = e.apply m now := by
  rw [apply_eq, apply_eq, Book.MarketBooks.on_unlocated]
  have hreduce : ∀ ref shares tradePrice execution, e.books.order ref = none →
      (e.books.reduce ref shares tradePrice execution).2 ≠ .ok := by
    intro ref shares tradePrice execution h
    rw [Book.MarketBooks.reduce_unknown h]
    simp
  cases m with
  | orderExecuted m => exact applied_storedLocate (hreduce m.ref m.shares none true) _ _ now
  | orderExecutedPrice m => exact applied_storedLocate (hreduce m.ref m.shares (some m.price) true) _ _ now
  | orderCancel m => exact applied_storedLocate (hreduce m.ref m.shares none false) _ _ now
  | orderDelete m =>
    refine applied_storedLocate (fun h => ?_) _ _ now
    show (e.books.onOrderDelete m).2 ≠ .ok
    unfold Book.MarketBooks.onOrderDelete
    rw [Option.map_eq_none_iff.mp h]
    simp
  | orderReplace m =>
    refine applied_storedLocate (fun h => ?_) _ _ now
    show (e.books.onOrderReplace m).2 ≠ .ok
    unfold Book.MarketBooks.onOrderReplace
    rw [Option.map_eq_none_iff.mp h]
    simp
  | systemEvent m => rfl
  | stockDirectory m => rfl
  | addOrder m => rfl
  | trade m => rfl

theorem step_unlocated (e : Engine) (m : Option Message) (now : Nat) :
    e.step (.itch (m.map Message.unlocated) now) = e.step (.itch m now) := by
  cases m with
  | none => rfl
  | some m =>
    simp only [step, onItch, Option.map_some]
    rw [apply_unlocated]

end Engine

namespace Sim

theorem Venue.apply_unlocated (v : Venue) (m : Message) : v.apply m.unlocated = v.apply m := by
  unfold Venue.apply
  rw [Book.MarketBooks.on_unlocated]
  cases m <;> rfl

theorem State.step_unlocated (s : State) (m : Option Message) (now : Nat) :
    s.step (.onItch (m.map Message.unlocated) now) = s.step (.onItch m now) := by
  cases m with
  | none => rfl
  | some m =>
    simp only [step, ExchangeSim.onItch, Option.map_some]
    rw [Venue.apply_unlocated]

/-! ## The engine and the simulator together -/

/-- The engine, the simulator and what the last input showed; `code` is what the books it was applied to
answered. -/
structure Moment where
  engine : Engine
  sim : State
  shown : List Engine.Shown := []
  answer : Answer := .none
  code : Option Book.Applied := none

/-- The next input; `engineItch` and `simItch` take message `i` of the tape. -/
inductive Input
  | engine (a : Engine.Act)
  | sim (c : Call)
  | engineItch (i now : Nat)
  | simItch (i now : Nat)

/-- A step of the engine or of the simulator. -/
def Moment.step (t : Moment) (tape : List (Option Message)) : Input → Option Moment
  | .engine a => (t.engine.step a).map fun (e, fx) => ⟨e, t.sim, fx, .none, none⟩
  | .sim c => (t.sim.step c).map fun (s, x) => ⟨t.engine, s, [], x, none⟩
  | .engineItch i now => tape[i]?.bind fun m => (t.engine.step (.itch m now)).map fun (e, fx) =>
      ⟨e, t.sim, fx, .none, m.map fun m => (t.engine.books.on m).2⟩
  | .simItch i now => tape[i]?.bind fun m => (t.sim.step (.onItch m now)).map fun (s, x) =>
      ⟨t.engine, s, [], x, m.map fun m => (t.sim.sim.venue.books.on m).2⟩

/-- At most `n` inputs chosen by `driver` from the history, which is kept with the last moment first. -/
def play (driver : List Moment → Option Input) (tape : List (Option Message)) : Nat → List Moment → Option (List Moment)
  | 0, h => some h
  | n + 1, h =>
    match h.head?, driver h with
    | some t, some i => (t.step tape i).bind fun t' => play driver tape n (t' :: h)
    | _, _ => some h

theorem Moment.step_unlocated (t : Moment) (tape : List (Option Message)) (i : Input) :
    t.step (tape.map (Option.map Message.unlocated)) i = t.step tape i := by
  have hcode : ∀ (mb : Book.MarketBooks) (m : Option Message),
      ((m.map Message.unlocated).map fun m => (mb.on m).2) = m.map fun m => (mb.on m).2 := by
    intro mb m
    rw [Option.map_map]
    congr 1
    funext m
    exact congrArg Prod.snd (mb.on_unlocated m)
  cases i with
  | engine a => rfl
  | sim c => rfl
  | engineItch i now =>
    simp only [Moment.step, List.getElem?_map, Option.bind_map]
    congr 1
    funext m
    simp only [Function.comp_apply, Engine.step_unlocated, hcode]
  | simItch i now =>
    simp only [Moment.step, List.getElem?_map, Option.bind_map]
    congr 1
    funext m
    simp only [Function.comp_apply, State.step_unlocated, hcode]

theorem play_unlocated (driver : List Moment → Option Input) (tape : List (Option Message)) (n : Nat) (h : List Moment) :
    play driver (tape.map (Option.map Message.unlocated)) n h = play driver tape n h := by
  induction n generalizing h with
  | zero => rfl
  | succ n ih =>
    unfold play
    cases h.head? with
    | none => rfl
    | some t =>
      cases driver h with
      | none => rfl
      | some i =>
        simp only [Moment.step_unlocated, ih]

/-- **Header locates of order-flow messages carry no information.** Whatever decides the calls, the
strategy's and the gateway's included, from all that was seen before: two tapes that differ only in the
header locates of executions, cancels, deletes and replaces give the same history, moment by moment:
books and result codes, risk and orders, callbacks and sends, and the simulator with its reports. -/
theorem header_locates_carry_nothing (config : Engine.Config) (simConfig : SimConfig)
    (driver : List Moment → Option Input) (tape tape' : List (Option Message)) (n : Nat)
    (h : List.Forall₂ Itch.SameFlow tape tape') :
    play driver tape n [⟨.new config, ⟨.new simConfig, none⟩, [], .none, none⟩] =
      play driver tape' n [⟨.new config, ⟨.new simConfig, none⟩, [], .none, none⟩] := by
  have hmap : tape.map (Option.map Message.unlocated) = tape'.map (Option.map Message.unlocated) := by
    induction h with
    | nil => rfl
    | cons h₁ _ ih => rw [List.map_cons, List.map_cons, h₁, ih]
  rw [← play_unlocated driver tape, ← play_unlocated driver tape', hmap]

/-- An add for instrument 1 and an execution of it whose header says `locate`. -/
def addAndExecute (locate : Nat) : List (Option Message) :=
  [some (.addOrder ⟨⟨1, 0, 0⟩, 1, .buy, 100, Symbol.blank, 10, false, []⟩),
    some (.orderExecuted ⟨⟨locate, 0, 0⟩, 1, 40, 1⟩)]

/-- Both messages to the simulator, then both to the engine. -/
def feedBoth (h : List Moment) : Option Input :=
  match h.length with
  | 1 => some (.simItch 0 1)
  | 2 => some (.simItch 1 2)
  | 3 => some (.engineItch 0 1)
  | 4 => some (.engine .ret)
  | 5 => some (.engine .finish)
  | 6 => some (.engineItch 1 2)
  | _ => none

theorem header_locates_carry_nothing_one_execution :
    List.Forall₂ Itch.SameFlow (addAndExecute 1) (addAndExecute 7) ∧
      play feedBoth (addAndExecute 1) 10 [⟨.new {}, ⟨.new {}, none⟩, [], .none, none⟩] =
        play feedBoth (addAndExecute 7) 10 [⟨.new {}, ⟨.new {}, none⟩, [], .none, none⟩] ∧
      (play feedBoth (addAndExecute 7) 10 [⟨.new {}, ⟨.new {}, none⟩, [], .none, none⟩]).map
        (fun h => h.map Moment.code) = some [some .ok, none, none, some .ok, some .ok, some .ok, none] := by
  have h : List.Forall₂ Itch.SameFlow (addAndExecute 1) (addAndExecute 7) := .cons rfl (.cons rfl .nil)
  exact ⟨h, header_locates_carry_nothing {} {} feedBoth _ _ 10 h, rfl⟩

end Sim
end OptiTrade
