import OptiTrade.Sim.QueueModel

/-! # One step against the reference

A request or a market message takes orders that agree with the reference to orders that agree with what the
reference makes of the same event, and the fills of resting orders it says are those of the reference. -/

namespace OptiTrade.Sim
set_option autoImplicit false

open Ouch (Token Inbound)
open Book (MarketBooks Level)
open ShareQueue (Segment Mark)
open Venue (slot crosses validToken kMaxPrice kAdded kRemoved)

/-- The fill of a resting order that a report tells of. -/
def Said.added (x : Said) : Option (Token × Nat) :=
  match x.msg with
  | .executed e => if e.liquidity = kAdded then some (e.token, e.shares) else none
  | _ => none

def Tape.added (t : Tape) : List (Token × Nat) := t.said.filterMap Said.added

theorem Tape.added_execute (t : Tape) (o : Order) (qty : Nat) (price : Int) :
    (t.execute o qty price kAdded).added = t.added ++ [(o.token, qty)] := by
  unfold Tape.added Tape.execute Tape.say
  rw [List.filterMap_append]
  rfl

theorem Tape.added_take (t : Tape) (o : Order) (qty : Nat) (price : Int) : (t.execute o qty price kRemoved).added = t.added := by
  unfold Tape.added Tape.execute Tape.say
  rw [List.filterMap_append]
  exact List.append_nil _

theorem Tape.added_say (t : Tape) {m : Ouch.Outbound} (hm : ∀ e, m ≠ .executed e) (about : List Nat) :
    (t.say m about).added = t.added := by
  unfold Tape.added Tape.say
  rw [List.filterMap_append]
  cases m with
  | executed e => exact absurd rfl (hm e)
  | accepted a => exact List.append_nil _
  | replaced r => exact List.append_nil _
  | canceled c => exact List.append_nil _
  | rejected r => exact List.append_nil _

/-! ## Market messages -/

theorem revise_eq {f : Tape → Order → Tape × Option Order} {g : Order → Option Order} {x : Order → Option (Token × Nat)}
    (h : ∀ t o, (f t o).2 = g o ∧ (f t o).1.added = t.added ++ (x o).toList) (os : List Order) (t : Tape) :
    (revise f os t).1 = os.filterMap g ∧ (revise f os t).2.added = t.added ++ os.filterMap x := by
  induction os generalizing t with
  | nil => exact ⟨rfl, (List.append_nil _).symm⟩
  | cons o os ih =>
    obtain ⟨ho, hx⟩ := h t o
    obtain ⟨h₁, h₂⟩ := ih (f t o).1
    rw [revise, h₁, h₂, ho, hx, List.filterMap_cons, List.filterMap_cons]
    constructor
    · cases g o with
      | none => rfl
      | some y => rfl
    · cases x o with
      | none => simp
      | some y => simp

theorem sweepHit_eq (loc : Nat) (side : Side) (price : Int) (t : Tape) (o : Order) :
    (sweepHit loc side price t o).2 = (if o.slot = slot loc side ∧ crosses side o.price price then none else some o) ∧
      (sweepHit loc side price t o).1.added =
        t.added ++ (if o.slot = slot loc side ∧ crosses side o.price price then some (o.token, o.leaves) else none).toList := by
  unfold sweepHit
  split_ifs
  · exact ⟨rfl, Tape.added_execute t o _ _⟩
  · exact ⟨rfl, (List.append_nil _).symm⟩

theorem consumeHit_eq (loc : Nat) (side : Side) (level execPrice : Int) (n : Nat) (t : Tape) (o : Order) :
    (consumeHit loc side level execPrice n t o).2 = (if o.at (slot loc side) level then o.hit n else some o) ∧
      (consumeHit loc side level execPrice n t o).1.added =
        t.added ++ (if o.at (slot loc side) level then o.mark.filled n else none).toList := by
  have hat : o.at (slot loc side) level = true ↔ o.slot = slot loc side ∧ o.price = level := by
    unfold Order.at
    rw [Bool.and_eq_true, decide_eq_true_iff, decide_eq_true_iff]
  unfold consumeHit
  by_cases h : o.slot = slot loc side ∧ o.price = level
  · rw [if_pos h, if_pos (hat.mpr h), if_pos (hat.mpr h)]
    unfold Order.hit Mark.filled Order.mark
    dsimp only
    by_cases hn : n ≤ o.ahead
    · rw [if_pos hn, if_pos hn, if_pos hn]
      exact ⟨rfl, (List.append_nil _).symm⟩
    · rw [if_neg hn, if_neg hn, if_neg hn]
      exact ⟨rfl, Tape.added_execute t o _ _⟩
  · rw [if_neg h, if_neg (fun hc => h (hat.mp hc)), if_neg (fun hc => h (hat.mp hc))]
    exact ⟨rfl, (List.append_nil _).symm⟩

/-- What a step leaves: orders that agree, and the fills of the reference. -/
structure Follows (d : Floor) (q : Reference) (d' : Floor) (q' : Reference) : Prop where
  agrees : Agrees d'.orders q'
  fills : ∃ fs, q'.fills = q.fills ++ fs ∧ d'.tape.added = d.tape.added ++ fs

namespace Follows
variable {d d' : Floor} {q q' : Reference}

theorem sweepThrough (h : Agrees d.orders q) (loc : Nat) (side : Side) (price : Int) :
    Follows d q (d.sweepThrough loc side price) (q.sweep (slot loc (opposite side)) (opposite side) price) := by
  obtain ⟨hos, hadded⟩ := revise_eq (sweepHit_eq loc (opposite side) price) d.orders d.tape
  obtain ⟨hagrees, hfills⟩ := h.sweep (slot loc (opposite side)) (opposite side) price
  refine ⟨?_, _, hfills, hadded⟩
  show Agrees (revise _ d.orders d.tape).1 _
  rw [hos]
  exact hagrees

theorem consume (h : Agrees d.orders q) (loc : Nat) (side : Side) (level execPrice : Int) (n : Nat) :
    Follows d q (d.consume loc side level execPrice n) (q.consume (slot loc side) level n) := by
  obtain ⟨hos, hadded⟩ := revise_eq (consumeHit_eq loc side level execPrice n) d.orders d.tape
  obtain ⟨hagrees, hfills⟩ := h.consume (slot loc side) level n
  rw [List.filterMap_filter] at hfills
  refine ⟨?_, _, hfills, hadded⟩
  show Agrees (revise _ d.orders d.tape).1 _
  rw [hos]
  exact hagrees

theorem behind (h : Agrees d.orders q) (s : Nat) (price : Int) (shares : Nat) (loc : Nat) (side : Side) :
    Follows d q (d.sweepThrough loc side price)
      ((q.append s price shares).sweep (slot loc (opposite side)) (opposite side) price) := by
  obtain ⟨hagrees, fs, hfills, hadded⟩ := sweepThrough (h.append s price shares) loc side price
  exact ⟨hagrees, fs, hfills, hadded⟩

theorem refl (h : Agrees d.orders q) (mb : MarketBooks) : Follows d q { d with books := mb } q :=
  ⟨h, [], (List.append_nil _).symm, (List.append_nil _).symm⟩

theorem of_books {mb : MarketBooks} (h : Follows { d with books := mb } q d' q') : Follows d q d' q' := ⟨h.agrees, h.fills⟩

/-- **A market message.** -/
theorem apply (h : Agrees d.orders q) (m : Itch.Message) : Follows d q (d.apply m) (q.apply d.books m) := by
  have hsame := refl h (d.books.on m).1
  have hbooks : Agrees ({ d with books := (d.books.on m).1 } : Floor).orders q := h
  unfold Floor.apply Reference.apply
  cases m with
  | addOrder m =>
    dsimp only
    split_ifs
    · exact of_books (behind hbooks _ _ _ _ _)
    · exact hsame
  | orderExecuted m =>
    dsimp only
    cases hi : d.books.order m.ref with
    | none => rw [ite_self]; exact hsame
    | some i =>
      dsimp only
      split_ifs
      · exact of_books (consume hbooks _ _ _ _ _)
      · exact hsame
  | orderExecutedPrice m =>
    dsimp only
    cases hi : d.books.order m.ref with
    | none => rw [ite_self]; exact hsame
    | some i =>
      dsimp only
      split_ifs
      · exact of_books (consume hbooks _ _ _ _ _)
      · exact hsame
  | orderReplace m =>
    dsimp only
    cases hi : d.books.order m.oldRef with
    | none => rw [ite_self]; exact hsame
    | some i =>
      dsimp only
      split_ifs
      · exact of_books (behind hbooks _ _ _ _ _)
      · exact hsame
  | stockDirectory m => rw [ite_self]; exact hsame
  | orderCancel m => rw [ite_self]; exact hsame
  | orderDelete m => rw [ite_self]; exact hsame
  | trade m => rw [ite_self]; exact hsame
  | systemEvent m => rw [ite_self]; exact hsame

end Follows

/-! ## Requests -/

/-- The shares displayed where the order would rest. -/
def displayedIn (mb : MarketBooks) (o : Order) : Nat :=
  match mb.book o.locate with
  | some b => b.qtyAt o.side o.price
  | none => 0

/-- The order is at the end of the list, behind the displayed shares and behind ours, or nowhere. -/
structure Settles (d : Floor) (token : Token) (d' : Floor) : Prop where
  added : d'.tape.added = d.tape.added
  orders : d'.orders = d.orders ∨
    ∃ x, x.token = token ∧ x.ahead = d.queueAhead x (displayedIn d.books x) ∧ d'.orders = d.orders ++ [x]

theorem rest_settles (d : Floor) (o : Order) : Settles d o.token (d.rest o) := by
  unfold Floor.rest
  split_ifs
  · exact ⟨rfl, .inl rfl⟩
  · exact ⟨Tape.added_say _ (fun e he => by cases he) _, .inl rfl⟩
  · exact ⟨rfl, .inr ⟨{ o with ahead := d.queueAhead o (displayedIn d.books o), resting := true }, rfl, rfl, rfl⟩⟩

/-- **Matching** fills no resting order. -/
theorem work_settles (d : Floor) (o : Order) : Settles d o.token (d.work o) := by
  have hpair : ∀ r : Tape × Order, r.1.added = d.tape.added → r.2.token = o.token →
      Settles d o.token ({ d with tape := r.1 }.rest r.2) := by
    intro r hadded htok
    obtain ⟨ha, ho⟩ := rest_settles { d with tape := r.1 } r.2
    rw [htok] at ho
    exact ⟨ha.trans hadded, ho⟩
  unfold Floor.work
  cases d.books.book o.locate with
  | none => exact hpair (d.tape, o) rfl rfl
  | some b =>
    have hlevels : (takeLevels (b.ladder (opposite o.side)) d.tape o).1.added = d.tape.added ∧
        (takeLevels (b.ladder (opposite o.side)) d.tape o).2.token = o.token :=
      takeLevels_invariant (I := fun t x => t.added = d.tape.added ∧ x.token = o.token)
        (fun t x lv _ hi _ _ => ⟨(Tape.added_take t x _ _).trans hi.1, hi.2⟩) ⟨rfl, rfl⟩
    exact hpair _ hlevels.1 hlevels.2

theorem find_fresh {d : Floor} {token : Token} (hf : d.find token = none) : ∀ x ∈ d.orders, x.token ≠ token :=
  fun x hx => by simpa using List.find?_eq_none.mp hf x hx

theorem find_none_of {d : Floor} {token : Token} (h : ∀ x ∈ d.orders, x.token ≠ token) : d.find token = none :=
  List.find?_eq_none.mpr fun x hx => by simpa using h x hx

namespace Settles
variable {d d' : Floor} {q : Reference} {token : Token}

theorem enter (hs : Settles d token d') (h : Agrees d.orders q) (hfresh : d.find token = none) :
    Agrees d'.orders (q.enter (displayedIn d.books) (d'.find token)) := by
  have hnew := find_fresh hfresh
  rcases hs.orders with hsame | ⟨x, htok, ha, happ⟩
  · have hnone : d'.find token = none := find_none_of (by rw [hsame]; exact hnew)
    rw [hnone, hsame]
    exact h
  · have hsome : d'.find token = some x := by
      unfold Floor.find
      rw [happ, List.find?_append, show (d.orders.find? fun o => o.token = token) = none from hfresh, Option.none_or,
        List.find?_cons_of_pos (by simpa using htok)]
    rw [hsome, happ]
    exact h.join _ (by rw [htok]; exact hnew) ha

theorem find_ne (hs : Settles d token d') {other : Token} (hne : other ≠ token) (hnone : d.find other = none) : d'.find other = none := by
  rcases hs.orders with hsame | ⟨x, htok, -, happ⟩
  · exact find_none_of (by rw [hsame]; exact find_fresh hnone)
  · refine find_none_of fun y hy => ?_
    rw [happ] at hy
    rcases List.mem_append.mp hy with hy | hy
    · exact find_fresh hnone y hy
    · rw [List.mem_singleton.mp hy, htok]
      exact hne.symm

end Settles

namespace Follows
variable {d d' : Floor} {q q' : Reference}

theorem quiet (h : Agrees d'.orders q') (hq : q'.fills = q.fills) (ha : d'.tape.added = d.tape.added) : Follows d q d' q' :=
  ⟨h, [], by rw [hq, List.append_nil], by rw [ha, List.append_nil]⟩

theorem fills_enter (q : Reference) (displayed : Order → Nat) (x : Option Order) : (q.enter displayed x).fills = q.fills := by
  cases x with
  | none => rfl
  | some o => rfl

theorem onEnter (h : Agrees d.orders q) (r : Ouch.EnterOrder) (sent : Nat) :
    Follows d q (d.onEnter r sent) (q.onRequest d.find (d.onEnter r sent).find (displayedIn d.books) (.enter r)) := by
  by_cases hused : (d.find r.token).isSome = true
  · have hreject : d.onEnter r sent = d.reject r.token (ascii 'O') sent := by
      unfold Floor.onEnter
      rw [hused, Bool.or_true, if_pos rfl]
    rw [hreject]
    show Follows d q _ (if (d.find r.token).isSome then q else _)
    rw [if_pos hused]
    exact quiet h rfl (Tape.added_say _ (fun e he => by cases he) _)
  · have hfresh : d.find r.token = none := Option.not_isSome_iff_eq_none.mp hused
    have hsettles : Settles d r.token (d.onEnter r sent) := by
      have hreject : ∀ reason, Settles d r.token (d.reject r.token reason sent) :=
        fun reason => ⟨Tape.added_say _ (fun e he => by cases he) _, .inl rfl⟩
      unfold Floor.onEnter
      by_cases htok : (!validToken r.token || (d.find r.token).isSome) = true
      · rw [if_pos htok]
        exact hreject _
      rw [if_neg htok]
      cases d.books.locate r.stock with
      | none => exact hreject _
      | some loc =>
        dsimp only
        split_ifs
        · exact hreject _
        · exact hreject _
        · exact hreject _
        · exact hreject _
        · obtain ⟨ha, ho⟩ := work_settles ({ d with nextRef := d.nextRef + 1 }.say
            (.accepted ((Floor.entered r loc d.nextRef sent).accepted d.tape.clock)) [sent]) (Floor.entered r loc d.nextRef sent)
          exact ⟨ha.trans (Tape.added_say _ (fun e he => by cases he) _), ho⟩
    show Follows d q _ (if (d.find r.token).isSome then q else _)
    rw [if_neg hused]
    exact quiet (hsettles.enter h hfresh) (fills_enter q _ _) hsettles.added

/-- The order is found again, or is not. -/
theorem find_amend {os : List Order} {o : Order} {token : Token} (hn : (os.map Order.token).Nodup)
    (hf : (os.find? fun x => x.token = token) = some o) (removed : Nat) (new : Option Order) (hnew : ∀ x ∈ new, x.token = token) :
    ((amend token removed new os).find? fun x => x.token = token) = new := by
  obtain ⟨as, bs, rfl, has, hamend⟩ := amend_eq removed new hf
  have htok : o.token = token := by simpa using List.find?_some hf
  have hbefore : (as.find? fun x => x.token = token) = none :=
    List.find?_eq_none.mpr fun x hx => by simpa using has x hx
  rw [List.map_append, List.map_cons] at hn
  have hbs : ∀ x ∈ bs, x.token ≠ token := by
    intro x hx he
    refine (List.nodup_middle.mp hn).notMem (List.mem_append_right _ ?_)
    rw [htok, ← he]
    exact List.mem_map_of_mem hx
  rw [hamend, List.find?_append, hbefore, Option.none_or]
  cases new with
  | some x => exact List.find?_cons_of_pos (by simpa using hnew x rfl)
  | none =>
    refine List.find?_eq_none.mpr fun x hx => ?_
    obtain ⟨y, hy, rfl⟩ := List.mem_map.mp hx
    have hk : (if o.follows y then y.shrink removed else y).token = y.token := by
      split_ifs
      · rfl
      · rfl
    rw [hk]
    simpa using hbs y hy

theorem onCancel (h : Agrees d.orders q) (r : Ouch.CancelOrder) (sent : Nat) :
    Follows d q (d.onCancel r sent) (q.onRequest d.find (d.onCancel r sent).find (displayedIn d.books) (.cancel r)) := by
  unfold Reference.onRequest
  dsimp only
  cases hf : d.find r.token with
  | none =>
    have hsame : d.onCancel r sent = d := by
      unfold Floor.onCancel
      rw [hf]
    rw [hsame]
    exact quiet h rfl rfl
  | some o =>
    have htok := (Floor.mem_of_find hf).2
    have hfo : (d.orders.find? fun x => x.token = o.token) = some o := by
      rw [htok]
      exact hf
    dsimp only
    by_cases hkeep : o.leaves ≤ r.shares - o.filled
    · have hsame : d.onCancel r sent = d := by
        unfold Floor.onCancel
        rw [hf]
        exact if_pos hkeep
      rw [hsame, hf]
      dsimp only
      rw [if_neg (Nat.lt_irrefl _)]
      exact quiet h rfl rfl
    · have hcancel : d.onCancel r sent =
          (d.say (.canceled ⟨d.tape.clock, o.token, o.leaves - (r.shares - o.filled), ascii 'U'⟩) (sent :: o.since)).amend o.token
            (o.leaves - (r.shares - o.filled))
            (if r.shares - o.filled = 0 then none else some { o with leaves := r.shares - o.filled }) := by
        unfold Floor.onCancel
        rw [hf]
        exact if_neg hkeep
      have hadded : (d.onCancel r sent).tape.added = d.tape.added := by
        rw [hcancel]
        exact Tape.added_say _ (fun e he => by cases he) _
      by_cases hz : r.shares - o.filled = 0
      · have horders : (d.onCancel r sent).orders = amend o.token o.leaves none d.orders := by
          rw [hcancel, if_pos hz, hz]
          rfl
        have hgone : (d.onCancel r sent).find r.token = none := by
          unfold Floor.find
          rw [horders, ← htok]
          exact find_amend h.tokens hfo _ none fun x hx => by cases hx
        rw [hgone]
        refine quiet ?_ rfl hadded
        rw [horders]
        exact h.leave hfo
      · have horders : (d.onCancel r sent).orders = amend o.token (o.leaves - (r.shares - o.filled))
            (some { o with leaves := r.shares - o.filled }) d.orders := by
          rw [hcancel, if_neg hz]
          rfl
        have hstays : (d.onCancel r sent).find r.token = some { o with leaves := r.shares - o.filled } := by
          unfold Floor.find
          rw [horders, ← htok]
          refine find_amend h.tokens hfo _ _ fun x hx => ?_
          cases hx
          rfl
        rw [hstays]
        dsimp only
        rw [if_pos (Nat.lt_of_not_le hkeep)]
        refine quiet ?_ rfl hadded
        have hleft : r.shares - o.filled = o.leaves - (o.leaves - (r.shares - o.filled)) := by omega
        have := h.reduce (n := o.leaves - (r.shares - o.filled)) (by omega) hfo
        rw [← hleft] at this
        rw [horders]
        exact this

theorem onReplace (h : Agrees d.orders q) (r : Ouch.ReplaceOrder) (sent : Nat) :
    Follows d q (d.onReplace r sent) (q.onRequest d.find (d.onReplace r sent).find (displayedIn d.books) (.replace r)) := by
  unfold Reference.onRequest
  dsimp only
  cases hf : d.find r.existing with
  | none =>
    have hsame : d.onReplace r sent = d := by
      unfold Floor.onReplace
      rw [hf]
    rw [hsame]
    exact quiet h rfl rfl
  | some o =>
    have htok := (Floor.mem_of_find hf).2
    have hfo : (d.orders.find? fun x => x.token = o.token) = some o := by
      rw [htok]
      exact hf
    dsimp only
    by_cases hused : (!validToken r.replacement || (d.find r.replacement).isSome) = true
    · have hsame : d.onReplace r sent = d := by
        unfold Floor.onReplace
        rw [hf]
        exact if_pos hused
      rw [hsame, hf]
      exact quiet h rfl rfl
    · have hfresh : d.find r.replacement = none := by
        have : validToken r.replacement = true ∧ d.find r.replacement = none := by
          simpa [Option.isSome_iff_ne_none] using hused
        exact this.2
      have hne : r.existing ≠ r.replacement := by
        intro he
        rw [he, hfresh] at hf
        cases hf
      have hleft := h.leave hfo
      have hgone : (d.amend o.token o.leaves none).find r.existing = none := by
        rw [← htok]
        exact find_amend h.tokens hfo _ none fun x hx => by cases hx
      have hunused : (d.amend o.token o.leaves none).find r.replacement = none :=
        find_none_of (amend_invariant (P := fun x => x.token ≠ r.replacement) (fun _ hx => hx) (fun x hx => by cases hx)
          (find_fresh hfresh))
      have hsettles : Settles (d.amend o.token o.leaves none) r.replacement (d.onReplace r sent) := by
        unfold Floor.onReplace
        rw [hf]
        dsimp only
        rw [if_neg hused]
        split_ifs with hterms
        · obtain ⟨ha, ho⟩ := work_settles ({ d.amend o.token o.leaves none with nextRef := d.nextRef + 1 }.say
            (.replaced ⟨(Floor.replacement o r d.nextRef sent).accepted d.tape.clock, o.token⟩) (sent :: o.since))
            (Floor.replacement o r d.nextRef sent)
          exact ⟨ha.trans (Tape.added_say _ (fun e he => by cases he) _), ho⟩
        · exact ⟨Tape.added_say _ (fun e he => by cases he) _, .inl rfl⟩
      have hnone := hsettles.find_ne hne hgone
      rw [hnone]
      exact quiet (hsettles.enter hleft hunused) (fills_enter (q.leave o) _ _) hsettles.added

/-- **A request.** -/
theorem onRequest (h : Agrees d.orders q) (m : Inbound) (sent : Nat) :
    Follows d q (d.onRequest m sent) (q.onRequest d.find (d.onRequest m sent).find (displayedIn d.books) m) := by
  cases m with
  | enter r => exact onEnter h r sent
  | cancel r => exact onCancel h r sent
  | replace r => exact onReplace h r sent

end Follows

/-! ## Who is filled -/

/-- Our orders at a level stand one behind the other. -/
theorem Agrees.ordered {os : List Order} {q : Reference} (h : Agrees os q) :
    os.Pairwise fun o o' => o.slot = o'.slot → o.price = o'.price → o.ahead + o.leaves ≤ o'.ahead := by
  have hlevel : ∀ s price, (os.filter (Order.at s price)).Pairwise fun o o' => o.ahead + o.leaves ≤ o'.ahead := by
    intro s price
    have hord := ShareQueue.marks_ordered (q.queues s price)
    rw [h.marks, List.pairwise_map] at hord
    exact hord
  have hsplit : ∀ os : List Order, (∀ s price, (os.filter (Order.at s price)).Pairwise fun o o' => o.ahead + o.leaves ≤ o'.ahead) →
      os.Pairwise fun o o' => o.slot = o'.slot → o.price = o'.price → o.ahead + o.leaves ≤ o'.ahead := by
    intro os
    induction os with
    | nil => exact fun _ => .nil
    | cons o os ih =>
      intro hall
      refine .cons (fun o' ho' hs hp => ?_) (ih fun s price => (hall s price).sublist ((List.sublist_cons_self o os).filter _))
      have hself : o.at o.slot o.price = true := by simp [Order.at]
      have hother : o'.at o.slot o.price = true := by simp [Order.at, hs, hp]
      have hfirst := hall o.slot o.price
      rw [List.filter_cons_of_pos hself] at hfirst
      exact (List.pairwise_cons.mp hfirst).1 o' (List.mem_filter.mpr ⟨ho', hother⟩)
  exact hsplit os hlevel

/-- The shares of a message that tells of an execution in the book. -/
def printed : Itch.Message → Option Nat
  | .orderExecuted m => some m.shares
  | .orderExecutedPrice m => some m.shares
  | _ => none

/-- The fills of one message: no more than the shares it tells of, and none of an order while one before it at its
level is left. -/
structure Fair (m : Itch.Message) (os os' : List Order) (fs : List (Token × Nat)) : Prop where
  bounded : ∀ n, printed m = some n → (fs.map Prod.snd).sum ≤ n
  fifo : os.Pairwise fun o o' => o.slot = o'.slot → o.price = o'.price → ∀ k, (o'.token, k) ∈ fs → ∀ x ∈ os', x.token ≠ o.token

theorem Fair.none (m : Itch.Message) (os os' : List Order) : Fair m os os' [] where
  bounded := fun n _ => Nat.zero_le n
  fifo := by
    refine List.pairwise_of_forall_mem_list fun o _ o' _ _ _ k hk => ?_
    cases hk

theorem fifo_of_visit {os : List Order} (hn : (os.map Order.token).Nodup) {g : Order → Option Order} {x : Order → Option (Token × Nat)}
    (hg : ∀ o z, g o = some z → z.token = o.token) (hx : ∀ o f, x o = some f → f.1 = o.token) {R : Order → Order → Prop}
    (hord : os.Pairwise R) (hgone : ∀ o o', R o o' → o.slot = o'.slot → o.price = o'.price → (x o').isSome → g o = none) :
    os.Pairwise fun o o' => o.slot = o'.slot → o.price = o'.price → ∀ k, (o'.token, k) ∈ os.filterMap x →
      ∀ z ∈ os.filterMap g, z.token ≠ o.token := by
  have hinj := List.inj_on_of_nodup_map hn
  refine hord.imp_of_mem fun {o o'} ho ho' hr hs hp k hk z hz he => ?_
  obtain ⟨y, hy, hfill⟩ := List.mem_filterMap.mp hk
  have hyo : y = o' := hinj hy ho' (hx y _ hfill).symm
  obtain ⟨w, hw, hleft⟩ := List.mem_filterMap.mp hz
  have hwo : w = o := hinj hw ho ((hg w z hleft).symm.trans he)
  subst hyo
  subst hwo
  rw [hgone w y hr hs hp (by rw [hfill]; rfl)] at hleft
  cases hleft

theorem sweepThrough_fair {d : Floor} {q : Reference} (h : Agrees d.orders q) (m : Itch.Message) (hm : printed m = none) (loc : Nat)
    (side : Side) (price : Int) :
    ∃ fs, (d.sweepThrough loc side price).tape.added = d.tape.added ++ fs ∧ Fair m d.orders (d.sweepThrough loc side price).orders fs := by
  obtain ⟨hos, hadded⟩ := revise_eq (sweepHit_eq loc (opposite side) price) d.orders d.tape
  refine ⟨_, hadded, fun n hn => (by rw [hm] at hn; cases hn), ?_⟩
  show d.orders.Pairwise fun o o' => _ → _ → ∀ k, _ → ∀ x ∈ (revise _ d.orders d.tape).1, _
  rw [hos]
  refine fifo_of_visit h.tokens (fun o z hz => ?_) (fun o f hf => ?_) h.ordered fun o o' _ hs hp hfill => ?_
  · split_ifs at hz
    cases hz
    rfl
  · split_ifs at hf
    cases hf
    rfl
  · split_ifs at hfill with hr
    · rw [← hs, ← hp] at hr
      exact if_pos hr
    · cases hfill

theorem consume_fair {d : Floor} {q : Reference} (h : Agrees d.orders q) (m : Itch.Message) (loc : Nat)
    (side : Side) (level execPrice : Int) {n : Nat} (hm : printed m = some n) :
    ∃ fs, (d.consume loc side level execPrice n).tape.added = d.tape.added ++ fs ∧
      Fair m d.orders (d.consume loc side level execPrice n).orders fs := by
  obtain ⟨hos, hadded⟩ := revise_eq (consumeHit_eq loc side level execPrice n) d.orders d.tape
  obtain ⟨-, hfills⟩ := h.consume (slot loc side) level n
  refine ⟨_, hadded, fun n' hn => ?_, ?_⟩
  · rw [hm] at hn
    cases hn
    have hqueue : (ShareQueue.consume n (q.queues (slot loc side) level)).2 =
        d.orders.filterMap fun o => if o.at (slot loc side) level then o.mark.filled n else none := by
      rw [← List.filterMap_filter]
      exact List.append_cancel_left hfills
    rw [← hqueue]
    exact ShareQueue.sum_consume n _
  · show d.orders.Pairwise fun o o' => _ → _ → ∀ k, _ → ∀ x ∈ (revise _ d.orders d.tape).1, _
    rw [hos]
    refine fifo_of_visit h.tokens (fun o z hz => ?_) (fun o f hf => ?_) h.ordered fun o o' hord hs hp hfill => ?_
    · split_ifs at hz
      · exact congrArg Prod.fst (Order.hit_place hz)
      · cases hz
        rfl
    · split_ifs at hf
      unfold Mark.filled at hf
      split_ifs at hf
      cases hf
      rfl
    · split_ifs at hfill with hat
      · have hat' : o.at (slot loc side) level = true := by
          unfold Order.at at hat ⊢
          rw [hs, hp]
          exact hat
        have hlate : ¬n ≤ o'.ahead := by
          intro hle
          unfold Mark.filled at hfill
          rw [if_pos (show n ≤ o'.mark.offset from hle)] at hfill
          cases hfill
        have hall := hord hs hp
        rw [if_pos hat']
        unfold Order.hit Order.fill
        dsimp only
        rw [if_neg (by omega), if_pos (by omega)]
      · cases hfill

/-- **Whoever stands in front is filled first**, of any message. -/
theorem apply_fair {d : Floor} {q : Reference} (h : Agrees d.orders q) (m : Itch.Message) :
    ∃ fs, (d.apply m).tape.added = d.tape.added ++ fs ∧ Fair m d.orders (d.apply m).orders fs := by
  have hbooks : Agrees ({ d with books := (d.books.on m).1 } : Floor).orders q := h
  have hsame : ∃ fs, ({ d with books := (d.books.on m).1 } : Floor).tape.added = d.tape.added ++ fs ∧
      Fair m d.orders ({ d with books := (d.books.on m).1 } : Floor).orders fs :=
    ⟨[], (List.append_nil _).symm, .none m _ _⟩
  unfold Floor.apply
  cases m with
  | addOrder m =>
    dsimp only
    split_ifs
    · exact sweepThrough_fair hbooks (.addOrder m) rfl _ _ _
    · exact hsame
  | orderExecuted m =>
    dsimp only
    cases hi : d.books.order m.ref with
    | none => exact hsame
    | some i =>
      dsimp only
      split_ifs
      · exact consume_fair hbooks (.orderExecuted m) _ _ _ _ rfl
      · exact hsame
  | orderExecutedPrice m =>
    dsimp only
    cases hi : d.books.order m.ref with
    | none => exact hsame
    | some i =>
      dsimp only
      split_ifs
      · exact consume_fair hbooks (.orderExecutedPrice m) _ _ _ _ rfl
      · exact hsame
  | orderReplace m =>
    dsimp only
    cases hi : d.books.order m.oldRef with
    | none => exact hsame
    | some i =>
      dsimp only
      split_ifs
      · exact sweepThrough_fair hbooks (.orderReplace m) rfl _ _ _
      · exact hsame
  | stockDirectory m => exact hsame
  | orderCancel m => exact hsame
  | orderDelete m => exact hsame
  | trade m => exact hsame
  | systemEvent m => exact hsame

end OptiTrade.Sim
