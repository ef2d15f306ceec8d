import OptiTrade.Sim.Moves
import OptiTrade.Sim.Pressure

/-! # The blotter

Whoever reads the reports of the simulator can keep a book of its open orders: an acceptance opens one, a replace
moves it to another token, executions and cancels take from it, and it is closed when nothing of it is left. That
book is the map of the working orders after every call, and every report speaks of an order that is open in it. -/

namespace OptiTrade.Sim
set_option autoImplicit false

open Runs
open Ouch (Token Outbound)
open Venue (crosses kAdded kRemoved)

/-- What the reports tell of an open order; `done` is what was executed along its replaces. -/
structure Terms where
  side : Side
  limit : Int
  left : Nat
  done : Nat
  deriving DecidableEq

namespace Terms

def fill (t : Terms) (qty : Nat) : Terms := { t with left := t.left - qty, done := t.done + qty }

def cut (t : Terms) (qty : Nat) : Terms := { t with left := t.left - qty }

/-- An order of which nothing is left is closed. -/
def working (t : Terms) : Option Terms := if t.left = 0 then none else some t

theorem working_some {t t' : Terms} (h : t.working = some t') : t' = t ∧ 1 ≤ t.left := by
  unfold working at h
  split_ifs at h with hz
  cases h
  exact ⟨rfl, Nat.pos_of_ne_zero hz⟩

theorem working_pos {t : Terms} (h : 1 ≤ t.left) : t.working = some t := if_neg (Nat.ne_of_gt h)

end Terms

/-- The terms of the open orders by token. -/
abbrev Blotter := Token → Option Terms

namespace Blotter

/-- One report is booked. -/
def post (b : Blotter) : Outbound → Blotter
  | .accepted a => Function.update b a.token (Terms.working ⟨a.side, a.price, a.shares, 0⟩)
  | .replaced r =>
    Function.update (Function.update b r.previous none) r.a.token
      ((b r.previous).bind fun t => Terms.working ⟨t.side, r.a.price, r.a.shares, t.done⟩)
  | .executed e => Function.update b e.token ((b e.token).bind fun t => (t.fill e.shares).working)
  | .canceled c => Function.update b c.token ((b c.token).bind fun t => (t.cut c.decrement).working)
  | .rejected _ => b

/-- The report fits the book: it opens what is not open, and takes from what is no more than is left of it. -/
def Describes (b : Blotter) : Outbound → Prop
  | .accepted a => b a.token = none ∧ 1 ≤ a.shares
  | .replaced r => ∃ t, b r.previous = some t ∧ r.a.side = t.side ∧ b r.a.token = none ∧ 1 ≤ r.a.shares
  | .executed e => ∃ t, b e.token = some t ∧ 1 ≤ e.shares ∧ e.shares ≤ t.left ∧
      (t.side = .buy → e.price ≤ t.limit) ∧ (t.side = .sell → t.limit ≤ e.price)
  | .canceled c => ∃ t, b c.token = some t ∧ 1 ≤ c.decrement ∧ c.decrement ≤ t.left
  | .rejected _ => True

/-- Something is left of every open order, and never is more executed and open than one order may ask for. -/
def Bounded (b : Blotter) : Prop := ∀ token t, b token = some t → 1 ≤ t.left ∧ t.done + t.left ≤ kMaxOrderQty

def replay (ms : List Outbound) : Blotter := ms.foldl post fun _ => none

theorem replay_snoc (ms : List Outbound) (m : Outbound) : replay (ms ++ [m]) = (replay ms).post m := by
  unfold replay
  rw [List.foldl_append]
  rfl

/-- Every report fits the book as it stood. -/
structure Faithful (ms : List Outbound) : Prop where
  describes : ∀ as m bs, ms = as ++ m :: bs → (replay as).Describes m
  bounded : ∀ as, as <+: ms → (replay as).Bounded

theorem Faithful.nil : Faithful [] where
  describes := fun as m bs h => by simp at h
  bounded := fun as h token t ht => by
    rw [List.prefix_nil.mp h] at ht
    cases ht

theorem Faithful.snoc {ms : List Outbound} {m : Outbound} (h : Faithful ms) (hm : (replay ms).Describes m)
    (hb : ((replay ms).post m).Bounded) : Faithful (ms ++ [m]) where
  describes := by
    intro as x bs he
    rcases List.eq_nil_or_concat bs with rfl | ⟨cs, y, rfl⟩
    · obtain ⟨rfl, hx⟩ := List.append_inj' he rfl
      cases hx
      exact hm
    · rw [List.concat_eq_append, ← List.cons_append, ← List.append_assoc] at he
      exact h.describes as x cs (List.append_inj' he rfl).1
  bounded := by
    intro as has
    rcases List.prefix_concat_iff.mp has with rfl | has
    · rw [replay_snoc]
      exact hb
    · exact h.bounded as has

end Blotter

/-! ## The book of a list of orders -/

namespace Order

def terms (o : Order) : Terms := ⟨o.side, o.price, o.leaves, o.filled⟩

theorem fill_all (o : Order) : (o.terms.fill o.leaves).working = none := if_pos (Nat.sub_self _)

theorem cut_all (o : Order) : (o.terms.cut o.leaves).working = none := if_pos (Nat.sub_self _)

end Order

/-- The working orders by their tokens. -/
def blotter (os : List Order) : Blotter := fun token =>
  (os.find? fun o => o.token = token).bind fun o => o.terms.working

section
variable {os os' : List Order} {o : Order} {token : Token}

theorem blotter_of_not_mem (h : ∀ o ∈ os, o.token ≠ token) : blotter os token = none := by
  have : (os.find? fun o => o.token = token) = none := List.find?_eq_none.mpr fun o ho => by simpa using h o ho
  unfold blotter
  rw [this]
  rfl

theorem blotter_congr (h : os'.map (fun o => (o.token, o.terms)) = os.map fun o => (o.token, o.terms)) :
    blotter os' = blotter os := by
  have hcards : ∀ (os : List Order) (token : Token), blotter os token =
      ((os.map fun o => (o.token, o.terms)).find? fun c => c.1 = token).bind fun c => c.2.working := by
    intro os token
    rw [List.find?_map, Option.bind_map]
    rfl
  funext token
  rw [hcards, hcards, h]

theorem blotter_split (hn : ((os ++ o :: os').map Order.token).Nodup) :
    blotter (os ++ o :: os') = Function.update (blotter (os ++ os')) o.token o.terms.working := by
  have hos : ∀ x ∈ os, x.token ≠ o.token := by
    intro x hx he
    rw [List.map_append, List.map_cons] at hn
    exact (List.nodup_append.mp hn).2.2 x.token (List.mem_map_of_mem hx) o.token List.mem_cons_self he
  funext token
  unfold blotter
  by_cases ht : token = o.token
  · subst ht
    have hnone : (os.find? fun x => x.token = o.token) = none := List.find?_eq_none.mpr fun x hx => by simpa using hos x hx
    rw [Function.update_self, List.find?_append, hnone, Option.none_or, List.find?_cons_of_pos (by simp)]
    rfl
  · rw [Function.update_of_ne ht, List.find?_append, List.find?_append, List.find?_cons_of_neg (by simpa using Ne.symm ht)]

theorem blotter_own (hn : ((os ++ o :: os').map Order.token).Nodup) :
    blotter (os ++ o :: os') o.token = o.terms.working := by
  rw [blotter_split hn, Function.update_self]

theorem blotter_push (hn : ((os ++ [o]).map Order.token).Nodup) :
    blotter (os ++ [o]) = Function.update (blotter os) o.token o.terms.working := by
  rw [blotter_split hn, List.append_nil]

/-- The order changes its terms or goes. -/
theorem blotter_exchange (hn : ((os ++ o :: os').map Order.token).Nodup) (new : Option Order) (hnew : ∀ x ∈ new, x.token = o.token) :
    blotter (os ++ (new.toList ++ os')) =
      Function.update (blotter (os ++ o :: os')) o.token (new.bind fun x => x.terms.working) := by
  cases new with
  | none =>
    have hgone : blotter (os ++ os') o.token = none := by
      refine blotter_of_not_mem fun x hx he => ?_
      rw [List.map_append, List.map_cons] at hn
      have hx' : o.token ∈ os.map Order.token ++ os'.map Order.token := by
        rw [← List.map_append, ← he]
        exact List.mem_map_of_mem hx
      exact (List.nodup_middle.mp hn).notMem hx'
    rw [blotter_split hn, Function.update_idem]
    show blotter (os ++ os') = Function.update (blotter (os ++ os')) o.token none
    rw [← hgone, Function.update_eq_self]
  | some x =>
    have hx : x.token = o.token := hnew x rfl
    have hn' : ((os ++ x :: os').map Order.token).Nodup := by
      rw [List.map_append, List.map_cons] at hn ⊢
      rwa [hx]
    rw [blotter_split hn, Function.update_idem, ← hx]
    exact blotter_split hn'

theorem blotter_pop (hn : ((os ++ [o]).map Order.token).Nodup) :
    blotter os = Function.update (blotter (os ++ [o])) o.token none := by
  have hex := blotter_exchange hn none fun x hx => by cases hx
  rwa [Option.toList_none, List.nil_append, List.append_nil] at hex

theorem amend_split (removed : Nat) (new : Option Order) (hf : (os.find? fun x => x.token = token) = some o) :
    ∃ as bs bs', os = as ++ o :: bs ∧ amend token removed new os = as ++ (new.toList ++ bs') ∧
      bs'.map (fun x => (x.token, x.terms)) = bs.map (fun x => (x.token, x.terms)) := by
  obtain ⟨as, bs, rfl, -, hamend⟩ := amend_eq removed new hf
  refine ⟨as, bs, bs.map fun f => if o.follows f then f.shrink removed else f, rfl, hamend, ?_⟩
  rw [List.map_map]
  refine List.map_congr_left fun f _ => ?_
  rw [Function.comp_apply]
  split_ifs
  · rfl
  · rfl

theorem blotter_amend {removed : Nat} {new : Option Order} (hn : (os.map Order.token).Nodup)
    (hf : (os.find? fun x => x.token = o.token) = some o) (hnew : ∀ x ∈ new, x.token = o.token) :
    blotter (amend o.token removed new os) = Function.update (blotter os) o.token (new.bind fun x => x.terms.working) := by
  obtain ⟨as, bs, bs', rfl, hamend, hcards⟩ := amend_split removed new hf
  rw [hamend, ← blotter_exchange hn new hnew]
  refine blotter_congr ?_
  rw [List.map_append, List.map_append, List.map_append, List.map_append, hcards]

end

/-! ## The invariant -/

/-- Never more is executed and open than one order may ask for, and something is left of an order that rests. -/
structure Order.Within (o : Order) : Prop where
  total : o.filled + o.leaves ≤ kMaxOrderQty
  left : o.resting = true → 1 ≤ o.leaves

theorem Order.Within.fill {o : Order} (h : o.Within) {qty : Nat} (hle : qty ≤ o.leaves)
    (hlt : o.resting = true → qty < o.leaves) : (o.fill qty).Within := by
  have htotal := h.total
  refine ⟨?_, fun hr => ?_⟩
  · show o.filled + qty + (o.leaves - qty) ≤ _
    omega
  · have := hlt hr
    show 1 ≤ o.leaves - qty
    omega

/-- Tokens are unique, and every order is within its bounds. -/
structure Working (os : List Order) : Prop where
  tokens : (os.map Order.token).Nodup
  within : ∀ o ∈ os, o.Within

namespace Working
variable {os os' : List Order} {o : Order}

theorem own (h : Working (os ++ o :: os')) : o.Within := h.within o (by simp)

theorem exchange (h : Working (os ++ o :: os')) (new : Option Order) (hnew : ∀ x ∈ new, x.token = o.token ∧ x.Within) :
    Working (os ++ (new.toList ++ os')) := by
  have hothers : ∀ x ∈ os ++ os', x.Within := fun x hx => h.within x (by
    rcases List.mem_append.mp hx with hx | hx
    · exact List.mem_append_left _ hx
    · exact List.mem_append_right _ (List.mem_cons_of_mem _ hx))
  have htokens := h.tokens
  rw [List.map_append, List.map_cons] at htokens
  cases new with
  | none =>
    refine ⟨?_, hothers⟩
    rw [Option.toList_none, List.nil_append, List.map_append]
    exact (List.nodup_cons.mp (List.nodup_middle.mp htokens)).2
  | some x =>
    obtain ⟨htok, hx⟩ := hnew x rfl
    refine ⟨?_, fun y hy => ?_⟩
    · rw [Option.toList_some, List.singleton_append, List.map_append, List.map_cons, htok]
      exact htokens
    · rw [Option.toList_some, List.singleton_append] at hy
      rcases List.mem_cons.mp (List.perm_middle.mem_iff.mp hy) with rfl | hy
      · exact hx
      · exact hothers y hy

theorem pop (h : Working (os ++ [o])) : Working os := by
  have hex := h.exchange none fun x hx => by cases hx
  rwa [Option.toList_none, List.nil_append, List.append_nil] at hex

theorem amend (h : Working os) (removed : Nat) (new : Option Order) (hf : (os.find? fun x => x.token = o.token) = some o)
    (hnew : ∀ x ∈ new, x.token = o.token ∧ x.Within) : Working (Sim.amend o.token removed new os) := by
  refine ⟨?_, amend_invariant (fun o ho => ⟨ho.total, ho.left⟩) (fun x hx => (hnew x hx).2) h.within⟩
  obtain ⟨as, bs, bs', rfl, hamend, hcards⟩ := amend_split removed new hf
  have htokens : bs'.map Order.token = bs.map Order.token := by
    have := congrArg (List.map Prod.fst) hcards
    rwa [List.map_map, List.map_map] at this
  have hex := (h.exchange new hnew).tokens
  rw [List.map_append, List.map_append, ← htokens] at hex
  rw [hamend, List.map_append, List.map_append]
  exact hex

theorem push (h : Working os) (hfresh : ∀ x ∈ os, x.token ≠ o.token) (ho : o.Within) : Working (os ++ [o]) := by
  refine ⟨?_, fun x hx => ?_⟩
  · rw [List.map_append, List.map_singleton]
    refine h.tokens.append (List.nodup_singleton _) fun t ht ht' => ?_
    obtain ⟨x, hx, rfl⟩ := List.mem_map.mp ht
    exact hfresh x hx (List.mem_singleton.mp ht')
  · rcases List.mem_append.mp hx with hx | hx
    · exact h.within x hx
    · rw [List.mem_singleton.mp hx]
      exact ho

theorem bounded (h : Working os) : (blotter os).Bounded := by
  intro token t ht
  obtain ⟨o, ho, hw⟩ := Option.bind_eq_some_iff.mp ht
  obtain ⟨rfl, hleft⟩ := Terms.working_some hw
  exact ⟨hleft, (h.within o (List.mem_of_find?_eq_some ho)).total⟩

end Working

theorem slot_eq {o : Order} {loc : Nat} {side : Side} (h : o.slot = Venue.slot loc side) : o.locate = loc ∧ o.side = side := by
  unfold Order.slot at h
  cases hs : o.side with
  | buy =>
    rw [hs] at h
    cases side with
    | buy => exact ⟨by simpa [Venue.slot] using h, rfl⟩
    | sell => exact absurd (show 2 * o.locate = 2 * loc + 1 from h) (by omega)
  | sell =>
    rw [hs] at h
    cases side with
    | buy => exact absurd (show 2 * o.locate + 1 = 2 * loc from h) (by omega)
    | sell => exact ⟨by simpa [Venue.slot] using h, rfl⟩

theorem printPrice_crosses {o : Order} {loc : Nat} {side : Side} {execPrice : Int} (hs : o.slot = Venue.slot loc side) :
    crosses o.side o.price (printPrice side execPrice o.price) = true := by
  rw [(slot_eq hs).2]
  cases side with
  | buy => exact decide_eq_true (min_le_right _ _)
  | sell => exact decide_eq_true (le_max_right _ _)

/-- The reports of the tape. -/
def Tape.messages (t : Tape) : List Outbound := t.said.map Said.msg

theorem Tape.messages_say (t : Tape) (m : Outbound) (about : List Nat) : (t.say m about).messages = t.messages ++ [m] := by
  unfold Tape.messages Tape.say
  rw [List.map_append]
  rfl

/-- The invariant: the reports so far, replayed, are the working orders. -/
structure Floor.Described (n : Nat) (d : Floor) : Prop where
  books : d.books.Fed n
  working : Working d.orders
  told : Blotter.replay d.tape.messages = blotter d.orders
  faithful : Blotter.Faithful d.tape.messages

namespace Floor.Described
variable {n : Nat} {d d' : Floor}

theorem say (h : d.Described n) {m : Outbound} (hb : d'.books = d.books) (ht : d'.tape.messages = d.tape.messages ++ [m])
    (hw : Working d'.orders) (hm : (blotter d.orders).Describes m) (hp : blotter d'.orders = (blotter d.orders).post m) :
    d'.Described n := by
  refine ⟨by rw [hb]; exact h.books, hw, by rw [ht, Blotter.replay_snoc, h.told, hp], ?_⟩
  rw [ht]
  refine h.faithful.snoc (by rw [h.told]; exact hm) ?_
  rw [h.told, ← hp]
  exact hw.bounded

theorem quiet (h : d.Described n) (hb : d'.books = d.books) (ht : d'.tape.messages = d.tape.messages) (hw : Working d'.orders)
    (hp : blotter d'.orders = blotter d.orders) : d'.Described n :=
  ⟨by rw [hb]; exact h.books, hw, by rw [ht, hp]; exact h.told, by rw [ht]; exact h.faithful⟩

variable {os os' : List Order} {o : Order}

/-- An execution, at a price within the limit of the order. -/
theorem execute (h : d.Described n) (ho : d.orders = os ++ o :: os') (qty : Nat) {price : Int} {liquidity : Byte} (hq : 1 ≤ qty)
    (hle : qty ≤ o.leaves) (hc : crosses o.side o.price price = true) (new : Option Order) (hb : d'.books = d.books)
    (ht : d'.tape = d.tape.execute o qty price liquidity) (hord : d'.orders = os ++ (new.toList ++ os'))
    (hnew : ∀ x ∈ new, x.token = o.token ∧ x.Within)
    (hterms : (new.bind fun x => x.terms.working) = (o.terms.fill qty).working) : d'.Described n := by
  have hw : Working (os ++ o :: os') := ho ▸ h.working
  have hown : blotter d.orders o.token = some o.terms := by
    rw [ho, blotter_own hw.tokens]
    exact Terms.working_pos (hq.trans hle)
  refine h.say (m := .executed ⟨d.tape.clock, o.token, qty, price, liquidity, d.tape.matchNo + 1⟩) hb ?_ ?_ ?_ ?_
  · rw [ht]
    exact Tape.messages_say _ _ _
  · rw [hord]
    exact hw.exchange new hnew
  · refine ⟨o.terms, hown, hq, hle, fun hs => ?_, fun hs => ?_⟩
    · have hs : o.side = .buy := hs
      rw [hs] at hc
      exact of_decide_eq_true hc
    · have hs : o.side = .sell := hs
      rw [hs] at hc
      exact of_decide_eq_true hc
  · rw [hord, blotter_exchange hw.tokens new fun x hx => (hnew x hx).1, hterms, ← ho]
    show _ = Function.update (blotter d.orders) o.token ((blotter d.orders o.token).bind fun t => (t.fill qty).working)
    rw [hown]
    rfl

theorem canceled (h : d.Described n) {qty : Nat} {reason : Byte} (hown : blotter d.orders o.token = some o.terms) (hq : 1 ≤ qty)
    (hle : qty ≤ o.leaves) (hb : d'.books = d.books)
    (ht : d'.tape.messages = d.tape.messages ++ [.canceled ⟨d.tape.clock, o.token, qty, reason⟩]) (hw : Working d'.orders)
    (hp : blotter d'.orders = Function.update (blotter d.orders) o.token (o.terms.cut qty).working) : d'.Described n := by
  refine h.say hb ht hw ⟨o.terms, hown, hq, hle⟩ ?_
  show _ = Function.update (blotter d.orders) o.token ((blotter d.orders o.token).bind fun t => (t.cut qty).working)
  rw [hp, hown]
  rfl

theorem resting_open (h : d.Described n) (hf : d.find o.token = some o) (hr : o.resting = true) :
    1 ≤ o.leaves ∧ blotter d.orders o.token = some o.terms := by
  have hleft : 1 ≤ o.leaves := (h.working.within o (Floor.mem_of_find hf).1).left hr
  refine ⟨hleft, ?_⟩
  unfold blotter
  rw [show (d.orders.find? fun x => x.token = o.token) = some o from hf]
  exact Terms.working_pos hleft

theorem fresh_of_find {token : Token} (hf : d.find token = none) : ∀ x ∈ d.orders, x.token ≠ token :=
  fun x hx => by simpa using List.find?_eq_none.mp hf x hx

/-- A cancel down to what is asked for: the order stays, with less of it left. -/
theorem reduced (h : d.Described n) {c : Ouch.CancelOrder} (hf : d.find c.token = some o) (hr : o.resting = true)
    (h₀ : c.shares - o.filled ≠ 0) (h₁ : c.shares - o.filled < o.leaves) (sent : Nat) :
    Floor.Described n
      ((d.say (.canceled ⟨d.tape.clock, o.token, o.leaves - (c.shares - o.filled), ascii 'U'⟩) (sent :: o.since)).amend o.token
        (o.leaves - (c.shares - o.filled)) (some { o with leaves := c.shares - o.filled })) := by
  obtain ⟨hmem, htok⟩ := Floor.mem_of_find hf
  rw [← htok] at hf
  obtain ⟨hleft, hown⟩ := h.resting_open hf hr
  have hwithin := h.working.within o hmem
  have hnew : ∀ x ∈ some { o with leaves := c.shares - o.filled }, x.token = o.token ∧ x.Within := by
    intro x hx
    cases hx
    have := hwithin.total
    exact ⟨rfl, by show o.filled + (c.shares - o.filled) ≤ _; omega, fun _ => Nat.pos_of_ne_zero h₀⟩
  refine h.canceled hown (by omega) (Nat.sub_le _ _) rfl (Tape.messages_say _ _ _) (h.working.amend _ _ hf hnew) ?_
  show blotter (Sim.amend o.token _ _ d.orders) = _
  rw [blotter_amend h.working.tokens hf fun x hx => (hnew x hx).1]
  have hkeep : o.leaves - (o.leaves - (c.shares - o.filled)) = c.shares - o.filled := by omega
  unfold Terms.cut Order.terms
  rw [Option.bind_some]
  dsimp only
  rw [hkeep]

/-- A replace: the order leaves the book, and comes back under its new token with what was executed of it. -/
theorem replaced (h : d.Described n) {r : Ouch.ReplaceOrder} (hf : d.find r.existing = some o) (hr : o.resting = true)
    (ht : Takes d r.replacement r.shares r.price) (hlt : o.filled < r.shares) (sent : Nat) :
    Floor.Described n
      ({ d with
          nextRef := d.nextRef + 1
          orders := Sim.amend o.token o.leaves none d.orders ++ [Floor.replacement o r d.nextRef sent] }.say
        (.replaced ⟨(Floor.replacement o r d.nextRef sent).accepted d.tape.clock, o.token⟩) (sent :: o.since)) := by
  obtain ⟨hmem, htok⟩ := Floor.mem_of_find hf
  rw [← htok] at hf
  obtain ⟨hleft, hown⟩ := h.resting_open hf hr
  have hamend := h.working.amend o.leaves none hf fun x hx => by cases hx
  have hfresh : ∀ x ∈ Sim.amend o.token o.leaves none d.orders, x.token ≠ r.replacement :=
    amend_invariant (P := fun x => x.token ≠ r.replacement) (fun _ hx => hx) (fun x hx => by cases hx) (fresh_of_find ht.fresh)
  have hw := hamend.push (o := Floor.replacement o r d.nextRef sent) hfresh
    ⟨by have := ht.shares; show o.filled + (r.shares - o.filled) ≤ _; omega, fun hr => by cases hr⟩
  refine h.say rfl (Tape.messages_say _ _ _) hw
    ⟨o.terms, hown, rfl, blotter_of_not_mem (fresh_of_find ht.fresh), by show 1 ≤ r.shares - o.filled; omega⟩ ?_
  refine (blotter_push hw.tokens).trans ?_
  rw [blotter_amend h.working.tokens hf fun x hx => (by cases hx)]
  show _ = Function.update (Function.update (blotter d.orders) o.token none) r.replacement
    ((blotter d.orders o.token).bind fun t => Terms.working ⟨t.side, r.price, r.shares - o.filled, t.done⟩)
  rw [hown]
  rfl

/-- **A move** says what it does. -/
theorem move {k : Cause} (hm : Moves k d d') (h : d.Described n) : d'.Described n := by
  cases hm with
  | reject _ r reason sent => exact h.say rfl (Tape.messages_say _ _ _) h.working trivial rfl
  | accept _ r loc sent ht hl =>
    have hfresh := fresh_of_find ht.fresh
    have hw : Working (d.orders ++ [Floor.entered r loc d.nextRef sent]) :=
      h.working.push hfresh ⟨by have := ht.shares; show 0 + r.shares ≤ _; omega, fun hr => by cases hr⟩
    exact h.say rfl (Tape.messages_say _ _ _) hw ⟨blotter_of_not_mem hfresh, ht.shares.1⟩ (blotter_push hw.tokens)
  | take m sent _ os o b lv ho hr hb hlv hz hc =>
    have hq := ((h.books.ladder hb (opposite o.side)).1 lv hlv).2.1
    refine h.execute ho (min o.leaves lv.qty) (by omega) (Nat.min_le_left _ _) hc (some (o.fill (min o.leaves lv.qty))) rfl rfl rfl
      (fun x hx => ?_) rfl
    cases hx
    have hown : o.Within := Working.own (ho ▸ h.working)
    refine ⟨rfl, hown.fill (Nat.min_le_left _ _) fun hrest => ?_⟩
    rw [hr] at hrest
    cases hrest
  | finish m sent _ os o ho hr hz =>
    have hw : Working (os ++ [o]) := ho ▸ h.working
    have hself : blotter (os ++ [o]) o.token = none := by
      rw [blotter_own hw.tokens]
      exact if_pos hz
    refine h.quiet rfl rfl hw.pop ?_
    show blotter os = _
    rw [blotter_pop hw.tokens, ← hself, Function.update_eq_self, ← ho]
  | expire m sent _ os o ho hr hz hi =>
    have hw : Working (os ++ [o]) := ho ▸ h.working
    have hown : blotter d.orders o.token = some o.terms := by
      rw [ho, blotter_own hw.tokens]
      exact Terms.working_pos (Nat.pos_of_ne_zero hz)
    refine h.canceled hown (Nat.pos_of_ne_zero hz) (Nat.le_refl _) rfl (Tape.messages_say _ _ _) hw.pop ?_
    show blotter os = _
    rw [o.cut_all, blotter_pop hw.tokens, ← ho]
  | rest m sent _ os o ahead ho hr hz hi =>
    have hw : Working (os ++ [o]) := ho ▸ h.working
    refine h.quiet rfl rfl (hw.exchange (some { o with ahead := ahead, resting := true }) fun x hx => ?_) ?_
    · cases hx
      exact ⟨rfl, hw.own.total, fun _ => Nat.pos_of_ne_zero hz⟩
    · show blotter (os ++ [{ o with ahead := ahead, resting := true }]) = _
      rw [ho]
      exact blotter_congr (by rw [List.map_append, List.map_append]; rfl)
  | reduce _ c o sent hf hr h₀ h₁ => exact h.reduced hf hr h₀ h₁ sent
  | cancel _ m o sent hf hr =>
    obtain ⟨hleft, hown⟩ := h.resting_open hf hr
    refine h.canceled hown hleft (Nat.le_refl _) rfl (Tape.messages_say _ _ _)
      (h.working.amend _ none hf fun x hx => by cases hx) ?_
    show blotter (Sim.amend o.token _ none d.orders) = _
    rw [blotter_amend h.working.tokens hf fun x hx => (by cases hx), o.cut_all]
    rfl
  | replace _ r o sent hf hr ht hlt => exact h.replaced hf hr ht hlt sent
  | sweep loc side price _ os os' o ho hr hs hc =>
    have hown : o.Within := Working.own (ho ▸ h.working)
    refine h.execute ho o.leaves (hown.left hr) (Nat.le_refl _) ?_ none rfl rfl rfl (fun x hx => by cases hx)
      o.fill_all.symm
    cases hside : o.side with
    | buy => exact decide_eq_true (Int.le_refl _)
    | sell => exact decide_eq_true (Int.le_refl _)
  | pass loc side level execPrice shares _ os os' o ho hr hs hl hp =>
    have hw : Working (os ++ o :: os') := ho ▸ h.working
    refine h.quiet rfl rfl (hw.exchange (some { o with ahead := o.ahead - shares }) fun x hx => ?_) ?_
    · cases hx
      exact ⟨rfl, hw.own.total, hw.own.left⟩
    · show blotter (os ++ { o with ahead := o.ahead - shares } :: os') = _
      rw [ho]
      exact blotter_congr (by rw [List.map_append, List.map_append]; rfl)
  | fill loc side level execPrice shares _ os os' o ho hr hs hl hlt hq =>
    have hown : o.Within := Working.own (ho ▸ h.working)
    have hleft := hown.left hr
    refine h.execute ho (min o.leaves (shares - o.ahead)) (by omega) (Nat.min_le_left _ _) ?_
      (some (({ o with ahead := 0 } : Order).fill (min o.leaves (shares - o.ahead)))) rfl rfl rfl (fun x hx => ?_) rfl
    · exact printPrice_crosses hs
    · cases hx
      have hfront : ({ o with ahead := 0 } : Order).Within := ⟨hown.total, hown.left⟩
      exact ⟨rfl, hfront.fill (Nat.min_le_left _ _) fun _ => hq⟩
  | fillAll loc side level execPrice shares _ os os' o ho hr hs hl hlt =>
    have hown : o.Within := Working.own (ho ▸ h.working)
    exact h.execute ho o.leaves (hown.left hr) (Nat.le_refl _) (printPrice_crosses hs) none rfl rfl rfl (fun x hx => by cases hx)
      o.fill_all.symm

/-- **The simulator** says what it does. -/
theorem chronicle (n : Nat) : Chronicle (fun _ m => m.WireSized) (fun _ => True) (Floor.Described n) where
  tick := fun _ _ h => ⟨h.books, h.working, h.told, h.faithful⟩
  books := fun _ _ hw h => ⟨h.books.on hw, h.working, h.told, h.faithful⟩
  request := fun _ _ => trivial
  caused := fun _ _ _ _ _ _ => trivial
  move := fun _ _ _ _ hm h => move hm h

end Floor.Described

/-! ## The working orders of the storage -/

/-- The working orders of the venue, by the token map. -/
def Venue.working (v : Venue) : Blotter := fun token => (v.byToken.find token).map fun h => (v.order h).terms

theorem Venue.Stored.working_eq {v : Venue} {hs : List Nat} (h : v.Stored hs []) (hw : Working (hs.map v.order)) :
    v.working = blotter (hs.map v.order) := by
  funext token
  unfold Venue.working
  cases hf : v.byToken.find token with
  | none =>
    have hnone : (hs.map v.order).find? (fun o => o.token = token) = none := Venue.find_none h hf
    unfold blotter
    rw [hnone]
    rfl
  | some x =>
    obtain ⟨as, bs, rfl, htok, -, hfind⟩ := Venue.find_some h hf
    have hfind : ((as ++ x :: bs).map v.order).find? (fun o => o.token = token) = some (v.order x) := hfind
    have hleft := (hw.within (v.order x) (List.mem_map_of_mem (by simp))).left (h.resting x (by simp))
    unfold blotter
    rw [hfind]
    exact (Terms.working_pos hleft).symm

/-- Every allocated order is in the list of its locate and side, once, and under its token. -/
structure Venue.Threaded (v : Venue) (hs : List Nat) : Prop where
  live : ∀ h, v.orders.live h = true ↔ h ∈ hs
  once : hs.Nodup
  lists : ∀ s, Linked v.links (v.ends s) (hs.filter fun h => (v.order h).slot = s)
  token : ∀ t h, v.byToken.find t = some h ↔ h ∈ hs ∧ (v.order h).token = t
  size : v.byToken.size = v.orders.size ∧ v.orders.size = hs.length

theorem Venue.Stored.toThreaded {v : Venue} {hs : List Nat} (h : v.Stored hs []) : v.Threaded hs where
  live := fun x => by simpa using h.live x
  once := by simpa using h.nodup
  lists := h.linked
  token := fun t x => by simpa using h.token t x
  size := ⟨h.size, by simpa using h.length_eq⟩

namespace State

/-- **The reports describe the orders**: after every call the reports so far, replayed, are the working orders; every
report fits what was open when it was made; and the storage is sound. -/
theorem reports_describe_orders (config : SimConfig) (cs : List Call) (s : State) (log : List (Call × Answer))
    (hr : run next (⟨.new config, none⟩, []) cs = some (s, log)) (hc : ∀ c ∈ cs, Delivered c) (hd : s.sim.droppedReports = 0) :
    Blotter.replay (s.sim.generated.map Report.msg) = s.sim.venue.working ∧
      Blotter.Faithful (s.sim.generated.map Report.msg) ∧ ∃ hs, s.sim.venue.Threaded hs := by
  have hheeds : Along next (Heeds fun _ m => m.WireSized) (⟨.new config, none⟩, []) cs := by
    refine along_imp (fun p c hc m now he => ?_) (along_of_forall hc _)
    obtain ⟨b, hb⟩ := hc m now he
    exact Itch.decode_wireSized hb
  obtain ⟨-, hsaid, xs, ⟨hs, hst, hp⟩, hsub, hlen⟩ := run_chronicled (Floor.Described.chronicle config.books.maxLevelsPerSide)
    ⟨.new config.books, ⟨List.nodup_nil, fun o ho => by cases ho⟩, rfl, .nil⟩ hr hheeds
  -- nothing was dropped, so what was said is what was queued
  have hall : s.sim.generated.map Report.said = xs := hsub.eq_of_length (by rw [List.length_map]; omega)
  have hmsgs : ((s.sim.venue.floor hs).after xs).tape.messages = s.sim.generated.map Report.msg := by
    show (xs ++ s.sim.venue.said).map Said.msg = _
    rw [hsaid, List.append_nil, ← hall, List.map_map]
    rfl
  have htold := hp.told
  have hfaith := hp.faithful
  rw [hmsgs] at htold hfaith
  refine ⟨?_, hfaith, hs, hst.toThreaded⟩
  rw [htold, hst.working_eq hp.working]
  rfl

/-- A resting order is partly executed by a print. -/
def partPrint : List Call :=
  [.onItch (some oneListing) 1,
    .send (.enter ⟨Ouch.Token.fromId 1, .buy, false, 10, .ofText [65, 66, 67, 68], 10, 99999,
      Ouch.Firm.blank, 89, 80, 78, 0, 78, 32⟩) 3,
    .onItch (some (.addOrder ⟨⟨1, 0, 0⟩, 1, .buy, 100, .ofText [65, 66, 67, 68], 10, false, [0, 0, 0, 0]⟩)) 60000,
    .onItch (some (.orderExecuted ⟨⟨1, 0, 0⟩, 1, 4, 7⟩)) 60001]

theorem partPrint_delivered : ∀ c ∈ partPrint, Delivered c := by
  intro c hc m now h
  subst h
  simp only [partPrint, List.mem_cons, Call.onItch.injEq, Option.some.injEq, List.not_mem_nil, reduceCtorEq, or_false,
    false_or] at hc
  rcases hc with ⟨rfl, -⟩ | ⟨rfl, -⟩ | ⟨rfl, -⟩
  · exact ⟨[82, 0, 1, 0, 0, 0, 0, 0, 0, 0, 0, 65, 66, 67, 68, 32, 32, 32, 32, 0, 0, 0, 0, 0, 100, 0, 0, 0, 0, 0, 0, 0, 0, 0,
      0, 0, 0, 0, 0], rfl⟩
  · exact ⟨[65, 0, 1, 0, 0, 0, 0, 0, 0, 0, 0, 0, 0, 0, 0, 0, 0, 0, 1, 66, 0, 0, 0, 100, 65, 66, 67, 68, 32, 32, 32, 32, 0, 0,
      0, 10], by decide +kernel⟩
  · exact ⟨[69, 0, 1, 0, 0, 0, 0, 0, 0, 0, 0, 0, 0, 0, 0, 0, 0, 0, 1, 0, 0, 0, 4, 0, 0, 0, 0, 0, 0, 0, 7], by decide +kernel⟩

theorem reports_describe_part_print :
    ∃ s log, run next (⟨.new { maxOrders := 4 }, none⟩, []) partPrint = some (s, log) ∧ s.sim.droppedReports = 0 ∧
      s.sim.venue.working (Ouch.Token.fromId 1) = some ⟨.buy, 10, 6, 4⟩ ∧
      Blotter.replay (s.sim.generated.map Report.msg) (Ouch.Token.fromId 1) = some ⟨.buy, 10, 6, 4⟩ := by
  have hview : (run next (⟨.new { maxOrders := 4 }, none⟩, []) partPrint).map
      (fun p => (p.1.sim.droppedReports, p.1.sim.venue.working (Ouch.Token.fromId 1))) = some (0, some ⟨.buy, 10, 6, 4⟩) := by
    decide +kernel
  obtain ⟨⟨s, log⟩, hr, hv⟩ := Option.map_eq_some_iff.mp hview
  obtain ⟨hd, hw⟩ := Prod.mk.inj hv
  obtain ⟨htold, -, -⟩ := reports_describe_orders { maxOrders := 4 } partPrint s log hr partPrint_delivered hd
  exact ⟨s, log, hr, hd, hw, by rw [htold]; exact hw⟩

end State
end OptiTrade.Sim
