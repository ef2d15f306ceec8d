import OptiTrade.Sim.ExchangeSim
import OptiTrade.Sim.Floor

/-! # What a report is about

Every order remembers when the requests behind it were sent, and every report carries those times. Here they
are shown to be times of requests that have been processed, the one that asked for the report's token among
them, and a call of the venue not to move the clock. -/

namespace OptiTrade.Sim
set_option autoImplicit false

open Ouch (Token)
open Book (MarketBooks Level)

/-- The times are those of requests of `qs`, and one of these asked for the token. -/
structure Sourced (qs : List Request) (token : Token) (times : List Nat) : Prop where
  own : ∃ q ∈ qs, q.sent ∈ times ∧ q.msg.opens = some token
  all : ∀ t ∈ times, ∃ q ∈ qs, q.sent = t

variable {qs : List Request} {token : Token} {times : List Nat} {clock : Nat}

theorem Sourced.mono {qs' : List Request} (h : Sourced qs token times) (hsub : qs ⊆ qs') : Sourced qs' token times := by
  obtain ⟨q, hq, ht, ho⟩ := h.own
  refine ⟨⟨q, hsub hq, ht, ho⟩, fun t ht => ?_⟩
  obtain ⟨q, hq, he⟩ := h.all t ht
  exact ⟨q, hsub hq, he⟩

theorem Sourced.cons {q : Request} (h : Sourced qs token times) (hq : q ∈ qs) : Sourced qs token (q.sent :: times) := by
  obtain ⟨q', hq', ht, ho⟩ := h.own
  refine ⟨⟨q', hq', List.mem_cons_of_mem _ ht, ho⟩, fun t ht => ?_⟩
  rcases List.mem_cons.mp ht with rfl | ht
  · exact ⟨q, hq, rfl⟩
  · exact h.all t ht

theorem Sourced.opened {q : Request} {token' : Token} (hq : q ∈ qs) (ho : q.msg.opens = some token')
    (hall : ∀ t ∈ times, ∃ q ∈ qs, q.sent = t) : Sourced qs token' (q.sent :: times) := by
  refine ⟨⟨q, hq, List.mem_cons_self, ho⟩, fun t ht => ?_⟩
  rcases List.mem_cons.mp ht with rfl | ht
  · exact ⟨q, hq, rfl⟩
  · exact hall t ht

/-- The clock stands at `clock`, and what has been said has its sources. -/
structure Tape.Sourced (qs : List Request) (clock : Nat) (t : Tape) : Prop where
  clock_eq : t.clock = clock
  said : ∀ m ∈ t.said, Sim.Sourced qs m.msg.token m.about

theorem Tape.Sourced.say {t : Tape} {m : Ouch.Outbound} {about : List Nat} (h : t.Sourced qs clock)
    (hm : Sim.Sourced qs m.token about) : (t.say m about).Sourced qs clock := by
  refine ⟨h.clock_eq, fun x hx => ?_⟩
  rcases List.mem_append.mp hx with hx | hx
  · exact h.said x hx
  · rw [List.mem_singleton.mp hx]
    exact hm

theorem Tape.Sourced.execute {t : Tape} {o : Order} {qty : Nat} {price : Int} {liquidity : Byte} (h : t.Sourced qs clock)
    (ho : Sim.Sourced qs o.token o.since) : (t.execute o qty price liquidity).Sourced qs clock := by
  have h' : ({ t with fills := t.fills + 1, matchNo := t.matchNo + 1 } : Tape).Sourced qs clock := ⟨h.clock_eq, h.said⟩
  exact h'.say ho

/-- The orders and the tape have their sources. -/
structure Floor.Sourced (qs : List Request) (clock : Nat) (d : Floor) : Prop where
  orders : ∀ o ∈ d.orders, Sim.Sourced qs o.token o.since
  tape : d.tape.Sourced qs clock

namespace Floor.Sourced
variable {d : Floor}

theorem mono {qs' : List Request} (h : d.Sourced qs clock) (hsub : qs ⊆ qs') : d.Sourced qs' clock :=
  ⟨fun o ho => (h.orders o ho).mono hsub, h.tape.clock_eq, fun m hm => (h.tape.said m hm).mono hsub⟩

theorem say {m : Ouch.Outbound} {about : List Nat} (h : d.Sourced qs clock) (hm : Sim.Sourced qs m.token about) :
    (d.say m about).Sourced qs clock :=
  ⟨h.orders, h.tape.say hm⟩

theorem amend {removed : Nat} {new : Option Order} (h : d.Sourced qs clock)
    (hnew : ∀ o ∈ new, Sim.Sourced qs o.token o.since) : (d.amend token removed new).Sourced qs clock :=
  ⟨amend_invariant (P := fun o => Sim.Sourced qs o.token o.since) (fun _ ho => ho) hnew h.orders, h.tape⟩

theorem revise {f : Tape → Order → Tape × Option Order} (h : d.Sourced qs clock)
    (hf : ∀ t o, t.Sourced qs clock → Sim.Sourced qs o.token o.since →
      (f t o).1.Sourced qs clock ∧ ∀ o' ∈ (f t o).2, Sim.Sourced qs o'.token o'.since) :
    (d.revise f).Sourced qs clock := by
  obtain ⟨ht, ho⟩ := revise_invariant (P := fun o => Sim.Sourced qs o.token o.since) hf h.orders h.tape
  exact ⟨ho, ht⟩

theorem sweepThrough (h : d.Sourced qs clock) (loc : Nat) (side : Side) (price : Int) :
    (d.sweepThrough loc side price).Sourced qs clock := by
  refine h.revise fun t o ht ho => ?_
  unfold sweepHit
  split_ifs
  · exact ⟨ht.execute ho, by simp⟩
  · exact ⟨ht, by simpa using ho⟩

theorem consume (h : d.Sourced qs clock) (loc : Nat) (side : Side) (level execPrice : Int) (shares : Nat) :
    (d.consume loc side level execPrice shares).Sourced qs clock := by
  refine h.revise fun t o ht ho => ?_
  unfold consumeHit
  dsimp only
  split_ifs
  · exact ⟨ht, by simpa using ho⟩
  · exact ⟨ht.execute ho, by simp⟩
  · refine ⟨ht.execute ho, fun o' ho' => ?_⟩
    obtain rfl := Option.some.inj ho'
    exact ho
  · exact ⟨ht, by simpa using ho⟩

theorem apply (h : d.Sourced qs clock) (m : Itch.Message) : (d.apply m).Sourced qs clock := by
  have h' : ({ d with books := (d.books.on m).1 } : Floor).Sourced qs clock := ⟨h.orders, h.tape⟩
  unfold Floor.apply
  cases m with
  | addOrder m =>
    dsimp only
    split_ifs
    · exact h'.sweepThrough _ _ _
    · exact h'
  | orderExecuted m =>
    dsimp only
    split
    · exact h'
    · split_ifs
      · exact h'.consume _ _ _ _ _
      · exact h'
  | orderExecutedPrice m =>
    dsimp only
    split
    · exact h'
    · split_ifs
      · exact h'.consume _ _ _ _ _
      · exact h'
  | orderReplace m =>
    dsimp only
    split
    · exact h'
    · split_ifs
      · exact h'.sweepThrough _ _ _
      · exact h'
  | stockDirectory m => exact h'
  | orderCancel m => exact h'
  | orderDelete m => exact h'
  | trade m => exact h'
  | systemEvent m => exact h'

theorem work {o : Order} (h : d.Sourced qs clock) (ho : Sim.Sourced qs o.token o.since) :
    (d.work o).Sourced qs clock := by
  have hrest : ∀ t o, t.Sourced qs clock → Sim.Sourced qs o.token o.since →
      ({ d with tape := t }.rest o).Sourced qs clock := by
    intro t o ht ho
    have h' : ({ d with tape := t } : Floor).Sourced qs clock := ⟨h.orders, ht⟩
    unfold Floor.rest
    split_ifs
    · exact h'
    · exact h'.say ho
    · refine ⟨fun x hx => ?_, ht⟩
      rcases List.mem_append.mp hx with hx | hx
      · exact h.orders x hx
      · rw [List.mem_singleton.mp hx]
        exact ho
  unfold Floor.work
  cases d.books.book o.locate with
  | none => exact hrest _ _ h.tape ho
  | some b =>
    let I : Tape → Order → Prop := fun t o => t.Sourced qs clock ∧ Sim.Sourced qs o.token o.since
    have hi : I (takeLevels (b.ladder (opposite o.side)) d.tape o).1 (takeLevels (b.ladder (opposite o.side)) d.tape o).2 :=
      takeLevels_invariant (I := I) (fun t o lv _ hi _ _ => ⟨hi.1.execute hi.2, hi.2⟩) ⟨h.tape, ho⟩
    exact hrest _ _ hi.1 hi.2

theorem onEnter {r : Ouch.EnterOrder} {q : Request} (h : d.Sourced qs clock) (hq : q ∈ qs) (hm : q.msg = .enter r) :
    (d.onEnter r q.sent).Sourced qs clock := by
  have hopen : Sim.Sourced qs r.token [q.sent] := .opened hq (by rw [hm]; rfl) (by simp)
  have hreject : ∀ reason, (d.reject r.token reason q.sent).Sourced qs clock := fun reason => h.say hopen
  unfold Floor.onEnter
  cases d.books.locate r.stock with
  | none =>
    dsimp only
    split_ifs
    · exact hreject _
    · exact hreject _
  | some loc =>
    dsimp only
    split_ifs
    · exact hreject _
    · exact hreject _
    · exact hreject _
    · exact hreject _
    · exact hreject _
    · have h' : ({ d with nextRef := d.nextRef + 1 } : Floor).Sourced qs clock := ⟨h.orders, h.tape⟩
      refine work ?_ hopen
      exact h'.say hopen

theorem onCancel {r : Ouch.CancelOrder} {q : Request} (h : d.Sourced qs clock) (hq : q ∈ qs) :
    (d.onCancel r q.sent).Sourced qs clock := by
  unfold Floor.onCancel
  split
  · exact h
  · rename_i o hf
    have ho := h.orders o (mem_of_find hf).1
    dsimp only
    split_ifs
    · exact h
    · refine amend ?_ (by simp)
      exact h.say (ho.cons hq)
    · refine amend ?_ (by simpa using ho)
      exact h.say (ho.cons hq)

theorem onReplace {r : Ouch.ReplaceOrder} {q : Request} (h : d.Sourced qs clock) (hq : q ∈ qs) (hm : q.msg = .replace r) :
    (d.onReplace r q.sent).Sourced qs clock := by
  unfold Floor.onReplace
  split
  · exact h
  · rename_i o hf
    have ho := h.orders o (mem_of_find hf).1
    dsimp only
    split_ifs
    · exact h
    · have hopen : Sim.Sourced qs r.replacement (q.sent :: o.since) := .opened hq (by rw [hm]; rfl) ho.all
      have h' : (d.amend o.token o.leaves none).Sourced qs clock := h.amend (by simp)
      have h'' : ({ d.amend o.token o.leaves none with nextRef := d.nextRef + 1 } : Floor).Sourced qs clock :=
        ⟨h'.orders, h'.tape⟩
      refine work ?_ hopen
      exact h''.say hopen
    · refine amend ?_ (by simp)
      exact h.say (ho.cons hq)

theorem onRequest {q : Request} (h : d.Sourced qs clock) (hq : q ∈ qs) :
    (d.onRequest q.msg q.sent).Sourced qs clock := by
  cases hm : q.msg with
  | enter r => exact h.onEnter hq hm
  | cancel r => exact h.onCancel hq
  | replace r => exact h.onReplace hq hm

end Floor.Sourced
end OptiTrade.Sim
