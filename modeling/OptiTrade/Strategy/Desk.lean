import OptiTrade.Engine.Steps
import OptiTrade.Oms.HardLimits
import OptiTrade.Strategy.Strategy

/-! # An engine with its strategy

A desk runs an engine and lets one strategy make its calls. From outside come the messages of the feed and
of the exchange, gaps and resumptions; everything else is `go`, one step of what the engine and the strategy
do next, with an answer of the gateway to whatever that step sends. -/

namespace OptiTrade.Strategy
set_option autoImplicit false

open Oms (Session Effect OrderRequest SubmitResult)
open Runs

/-- An engine and its strategy. -/
structure Desk (σ J : Type) where
  engine : Engine
  strategy : σ
  /-- What the `on_book_update` in progress has still to do. -/
  jobs : List J := []
  /-- History: the locate and the time of every submit the strategy asked for. -/
  attempts : List (Nat × Nat) := []

/-- What comes from outside, and `go`. -/
inductive Input
  | itch (m : Option Itch.Message) (now : Nat)
  | ouch (r : Option Ouch.Outbound) (now : Nat)
  | feedGap (now : Nat)
  | resumeTrading
  | go (gateway : Ouch.Inbound → Bool)

namespace Desk
variable {σ J : Type}

def new (config : Engine.Config) (strategy : σ) : Desk σ J where
  engine := .new config
  strategy := strategy

def context (d : Desk σ J) (now : Nat) : Context := ⟨now, d.engine.books, d.engine.session.manager⟩

/-- The strategy is called with what the engine shows. -/
def tell (S : Callbacks σ J) (d : Desk σ J) : Engine.Shown → Desk σ J
  | .order (.update info) => { d with strategy := S.onOrderUpdate d.strategy info }
  | .order (.fill _) => d
  | .order (.sent _ _) => d
  | .bookUpdate l now =>
    { d with
      strategy := (S.onBookUpdate d.strategy l (d.context now)).1
      jobs := (S.onBookUpdate d.strategy l (d.context now)).2 }

/-- The engine makes a step. -/
def act (S : Callbacks σ J) (d : Desk σ J) (a : Engine.Act) : Option (Desk σ J) :=
  (d.engine.step a).map fun (e, fx) => fx.foldl (tell S) { d with engine := e }

/-- What a submit returns. -/
def submitResult (d : Desk σ J) (req : OrderRequest) (now : Nat) (gateway : Ouch.Inbound → Bool) : SubmitResult :=
  if d.engine.trading then
    let w := d.engine.world gateway
    (d.engine.session.manager.submit req now w.symbol w.reference w.gateway).result
  else ⟨.badState, 0, .none⟩

/-- The strategy makes its call. The callbacks inside the call are over when the result is noted. -/
def call (S : Callbacks σ J) (d : Desk σ J) (j : J) (now : Nat) (gateway : Ouch.Inbound → Bool) :
    Option Request → Option (Desk σ J)
  | none => some d
  | some (.submit req) =>
    (d.act S (.submit req now gateway)).map fun d' =>
      { d' with
        strategy := S.answer d'.strategy j now (d.submitResult req now gateway)
        attempts := d'.attempts ++ [(req.locate, now)] }
  | some (.cancel id) => d.act S (.cancel id now gateway)
  | some (.replace id price qty) => d.act S (.replace id price qty now gateway)

/-- One step of what is in progress. -/
def go (S : Callbacks σ J) (d : Desk σ J) (gateway : Ouch.Inbound → Bool) : Option (Desk σ J) :=
  match d.engine.session.stack, d.engine.phase with
  | [], .handling now true =>
    match d.jobs with
    | [] => d.act S .ret
    | j :: js =>
      let (s, r) := S.ask d.strategy j (d.context now)
      { d with strategy := s, jobs := js }.call S j now gateway r
  | [], _ => d.act S .finish
  | .sweep .. :: _, _ => d.act S (.advance gateway)
  | _, _ => d.act S .ret

def step (S : Callbacks σ J) (d : Desk σ J) : Input → Option (Desk σ J)
  | .itch m now => d.act S (.itch m now)
  | .ouch r now => d.act S (.ouch r now)
  | .feedGap now => d.act S (.feedGap now)
  | .resumeTrading => d.act S .resumeTrading
  | .go gateway => d.go S gateway

/-- An execution that is applied carries no more shares than the order has open. -/
def withinLeaves (d : Desk σ J) : Input → Prop
  | .ouch (some r) now => d.engine.session.withinLeaves (.report r now)
  | _ => True

instance (d : Desk σ J) : (i : Input) → Decidable (d.withinLeaves i)
  | .ouch (some r) now => inferInstanceAs (Decidable (d.engine.session.withinLeaves (.report r now)))
  | .ouch none _ => isTrue trivial
  | .itch .. => isTrue trivial
  | .feedGap _ => isTrue trivial
  | .resumeTrading => isTrue trivial
  | .go _ => isTrue trivial

end Desk
end OptiTrade.Strategy
