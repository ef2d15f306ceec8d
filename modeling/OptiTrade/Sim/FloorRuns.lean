import OptiTrade.Sim.Queues
import OptiTrade.Sim.Refinement

/-! # Invariants of the list of working orders, over whole runs

What the requests and the market messages keep of the list of `Floor` holds of the venue in every state
that the simulator can reach. -/

namespace OptiTrade.Sim
set_option autoImplicit false

open Runs
open Book (MarketBooks)

namespace Floor

/-- The clock stands at another time. -/
def tick (d : Floor) (clock : Nat) : Floor := { d with tape := { d.tape with clock := clock } }

/-- What was said has been published. -/
def hush (d : Floor) : Floor := { d with tape := { d.tape with said := [] } }

/-- Kept by everything the venue does; a market message may rely on `W` of the books it meets. -/
structure Invariant (W : MarketBooks → Itch.Message → Prop) (P : Floor → Prop) : Prop where
  tick : ∀ d clock, P d → P (d.tick clock)
  hush : ∀ d, P d → P d.hush
  request : ∀ d m sent, P d → P (d.onRequest m sent)
  market : ∀ d m, W d.books m → P d → P (d.apply m)

theorem books_work (d : Floor) (o : Order) : (d.work o).books = d.books := by
  have hrest : ∀ (d : Floor) (o : Order), (d.rest o).books = d.books := by
    intro d o
    unfold Floor.rest
    split_ifs <;> rfl
  unfold Floor.work
  exact hrest _ _

/-- Requests never touch the books. -/
theorem books_onRequest (d : Floor) (m : Ouch.Inbound) (sent : Nat) : (d.onRequest m sent).books = d.books := by
  cases m with
  | enter r =>
    show (d.onEnter r sent).books = d.books
    unfold Floor.onEnter
    cases d.books.locate r.stock with
    | none =>
      dsimp only
      split_ifs <;> rfl
    | some loc =>
      dsimp only
      split_ifs
      · rfl
      · rfl
      · rfl
      · rfl
      · rfl
      · exact books_work _ _
  | cancel r =>
    show (d.onCancel r sent).books = d.books
    unfold Floor.onCancel
    split
    · rfl
    · dsimp only
      split_ifs <;> rfl
  | replace r =>
    show (d.onReplace r sent).books = d.books
    unfold Floor.onReplace
    split
    · rfl
    · dsimp only
      split_ifs
      · rfl
      · exact books_work _ _
      · rfl

end Floor

/-- The venue stands for a list of orders that meets `P`. -/
def Venue.Meets (P : Floor → Prop) (v : Venue) : Prop := ∃ hs, v.Stored hs [] ∧ P (v.floor hs)

namespace Venue.Meets
variable {P : Floor → Prop} {W : MarketBooks → Itch.Message → Prop} {v : Venue}

theorem tick (h : v.Meets P) (hi : Floor.Invariant W P) (clock : Nat) : Venue.Meets P { v with clock := clock } := by
  obtain ⟨hs, hst, hp⟩ := h
  have hk : v.Keeps { v with clock := clock } := ⟨rfl, rfl, rfl, rfl, fun _ => rfl, fun _ => rfl, fun _ => rfl⟩
  exact ⟨hs, hk.stored hst, hi.tick _ clock hp⟩

theorem hush (h : v.Meets P) (hi : Floor.Invariant W P) : Venue.Meets P { v with said := [] } := by
  obtain ⟨hs, hst, hp⟩ := h
  have hk : v.Keeps { v with said := [] } := ⟨rfl, rfl, rfl, rfl, fun _ => rfl, fun _ => rfl, fun _ => rfl⟩
  exact ⟨hs, hk.stored hst, hi.hush _ hp⟩

theorem onRequest {Q : Floor → Prop} (h : v.Meets P) (m : Ouch.Inbound) (sent : Nat)
    (hq : ∀ d, P d → Q (d.onRequest m sent)) : (v.onRequest m sent).Meets Q := by
  obtain ⟨hs, hst, hp⟩ := h
  obtain ⟨hs', hst', hfl⟩ := Venue.onRequest_refines hst m sent
  exact ⟨hs', hst', by rw [hfl]; exact hq _ hp⟩

theorem apply {Q : Floor → Prop} (h : v.Meets P) (m : Itch.Message) (hq : ∀ d, d.books = v.books → P d → Q (d.apply m)) :
    (v.apply m).Meets Q := by
  obtain ⟨hs, hst, hp⟩ := h
  obtain ⟨hs', hst', hfl⟩ := Venue.apply_refines hst m
  exact ⟨hs', hst', by rw [hfl]; exact hq _ rfl hp⟩

end Venue.Meets

namespace ExchangeSim
variable {P : Floor → Prop} {W : MarketBooks → Itch.Message → Prop} {s : ExchangeSim}

theorem publish_venue (h : s.Rings) (v : Venue) : (s.publish v).venue = { v with said := [] } := by
  obtain ⟨rs, d, hp⟩ := publish_published h v
  exact hp.queued.venue

/-- The venue that a request at the front of the queue reaches. -/
def reached (s : ExchangeSim) : Venue := { s.venue with clock := max s.venue.clock s.requests.front.arrival }

/-- The venue that a market message at `now` reaches. -/
def marketAt (s : ExchangeSim) (now : Nat) : Venue :=
  { (s.advance now).venue with clock := max (s.advance now).venue.clock now }

theorem process_venue (h : s.Rings) :
    s.process.venue = { s.reached.onRequest s.requests.front.msg s.requests.front.sent with said := [] } :=
  publish_venue h.popped _

theorem onItch_venue (h : s.Rings) (m : Option Itch.Message) (now : Nat) :
    (s.onItch m now).venue = { (m.elim (s.marketAt now) (s.marketAt now).apply) with said := [] } := by
  cases m with
  | none => exact publish_venue (h.advance now) _
  | some m => exact publish_venue (h.advance now) _

theorem meets_process (hi : Floor.Invariant W P) (h : s.Rings) (hv : s.venue.Meets P) : s.process.venue.Meets P := by
  rw [process_venue h]
  exact ((hv.tick hi _).onRequest _ _ fun d hd => hi.request d _ _ hd).hush hi

theorem books_process (h : s.Rings) {hs : List Nat} (hst : s.venue.Stored hs []) :
    s.process.venue.books = s.venue.books := by
  have hk : s.venue.Keeps s.reached := ⟨rfl, rfl, rfl, rfl, fun _ => rfl, fun _ => rfl, fun _ => rfl⟩
  obtain ⟨hs', hst', hfl⟩ :=
    Venue.onRequest_refines (hk.stored hst) s.requests.front.msg s.requests.front.sent
  rw [process_venue h]
  have := congrArg Floor.books hfl
  rw [Floor.books_onRequest] at this
  exact this

theorem meets_advance (hi : Floor.Invariant W P) (h : s.Rings) (hv : s.venue.Meets P) (now : Nat) :
    (s.advance now).venue.Meets P ∧ (s.advance now).venue.books = s.venue.books := by
  refine (advance_invariant (P := fun t => t.Rings ∧ t.venue.Meets P ∧ t.venue.books = s.venue.books) ?_
    ⟨h, hv, rfl⟩).2
  rintro t ⟨hr, hv, hb⟩ -
  obtain ⟨hs, hst, hp⟩ := hv
  exact ⟨hr.process, meets_process hi hr ⟨hs, hst, hp⟩, (books_process hr hst).trans hb⟩

theorem meets_onItch (hi : Floor.Invariant W P) (h : s.Rings) (hv : s.venue.Meets P) {m : Option Itch.Message} (now : Nat)
    (hw : ∀ m', m = some m' → W s.venue.books m') : (s.onItch m now).venue.Meets P := by
  obtain ⟨hadv, hbooks⟩ := meets_advance hi h hv now
  have htick : (s.marketAt now).Meets P := hadv.tick hi _
  rw [onItch_venue h]
  cases m with
  | none => exact htick.hush hi
  | some m =>
    refine (htick.apply m fun d hd hp => hi.market d m ?_ hp).hush hi
    rw [hd]
    show W (s.advance now).venue.books m
    rw [hbooks]
    exact hw m rfl

end ExchangeSim

namespace State
variable {P : Floor → Prop} {W : MarketBooks → Itch.Message → Prop}

/-- A market message meets `W` in the books it is applied to. -/
def Heeds (W : MarketBooks → Itch.Message → Prop) (s : State × List (Call × Answer)) (c : Call) : Prop :=
  ∀ m now, c = .onItch (some m) now → W s.1.sim.venue.books m

end State

end OptiTrade.Sim
