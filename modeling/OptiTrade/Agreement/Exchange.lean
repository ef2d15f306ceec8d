import Mathlib.Data.List.TakeWhile
import OptiTrade.Agreement.Delivery
import OptiTrade.Sim.Blotter
import OptiTrade.Sim.Fills

/-! # The simulator as a conforming exchange

The working orders of the simulator are the book of an exchange in the sense of the protocol. Every move of the venue
is an act of that exchange, or changes nothing in the book; handling a request of the manager is its answer, which may
be silence, and then a chain of acts. -/

namespace OptiTrade.Agreement
set_option autoImplicit false

open Ouch (Token Inbound Outbound)
open Oms (OrderManager Wired Proper requestOf reportOf matchOf)
open Protocol (Book Open Answers Acts)
open Sim (Said Order Floor Tape Cause Moves Chain Terms Blotter blotter Bookable Prices Takes)
open Sim.Venue (validToken)

/-! ## The book -/

/-- What the exchange has open, as the protocol sees it. -/
def bookOf (b : Blotter) : Book Token := fun t => (b t).map fun x => ⟨x.left, x.done⟩

theorem bookOf_some {b : Blotter} {t : Token} {x : Terms} (h : b t = some x) : bookOf b t = some ⟨x.left, x.done⟩ := by
  unfold bookOf
  rw [h]
  rfl

theorem bookOf_none {b : Blotter} {t : Token} (h : b t = none) : bookOf b t = none := by
  unfold bookOf
  rw [h]
  rfl

theorem bookOf_update (b : Blotter) (t : Token) (x : Option Terms) :
    bookOf (Function.update b t x) = Function.update (bookOf b) t (x.map fun x => ⟨x.left, x.done⟩) := by
  funext s
  by_cases hs : s = t
  · subst hs
    simp [bookOf]
  · simp [bookOf, hs]

theorem working_open (x : Terms) :
    (x.working.map fun x => (⟨x.left, x.done⟩ : Open)) = if x.left = 0 then none else some ⟨x.left, x.done⟩ := by
  unfold Terms.working
  split_ifs <;> rfl

/-- An execution or a cancel that fits the blotter is an act of the exchange. -/
theorem acts_post {b : Blotter} {r : Outbound} (hd : b.Describes r)
    (hr : (∃ e, r = .executed e) ∨ ∃ c, r = .canceled c) : Acts (bookOf b) (reportOf r) (bookOf (b.post r)) := by
  rcases hr with ⟨e, rfl⟩ | ⟨c, rfl⟩
  · obtain ⟨t, ht, hpos, hle, -⟩ := hd
    have hact := Acts.executed (bookOf_some ht) hpos hle
    have hpost : bookOf (b.post (.executed e)) = (bookOf b).settle e.token ⟨t.left - e.shares, t.done + e.shares⟩ := by
      unfold Blotter.post
      dsimp only
      rw [bookOf_update, ht, Option.bind_some, working_open]
      rfl
    rw [hpost]
    exact hact
  · obtain ⟨t, ht, hpos, hle⟩ := hd
    have hact := Acts.canceled (bookOf_some ht) hpos hle
    have hpost : bookOf (b.post (.canceled c)) = (bookOf b).settle c.token ⟨t.left - c.decrement, t.done⟩ := by
      unfold Blotter.post
      dsimp only
      rw [bookOf_update, ht, Option.bind_some, working_open]
      rfl
    rw [hpost]
    exact hact

/-! ## Tokens -/

theorem isAlnum_of_isDigit {c : Byte} (h : Token.isDigit c = true) : Sim.Venue.isAlnum c = true := by
  unfold Token.isDigit at h
  unfold Sim.Venue.isAlnum
  rw [h]
  rfl

/-- The exchange takes every minted token. -/
theorem validToken_fromId {k : Nat} (h : k ≤ Token.kMaxId) : validToken (Token.fromId k) = true := by
  have hchars : (Token.fromId k).chars = Token.digits 14 k [] := by
    unfold Token.fromId
    rw [if_neg (by omega)]
  have hall : ∀ c ∈ (Token.fromId k).chars, Sim.Venue.isAlnum c = true := by
    intro c hc
    rw [hchars] at hc
    exact isAlnum_of_isDigit (Token.all_isDigit_digits (fun c hc => by cases hc) 14 k c hc)
  have htake : (Token.fromId k).chars.takeWhile Sim.Venue.isAlnum = (Token.fromId k).chars :=
    List.takeWhile_eq_self_iff.mpr hall
  have hdrop : (Token.fromId k).chars.dropWhile Sim.Venue.isAlnum = [] := List.dropWhile_eq_nil_iff.mpr hall
  have hlen := (Token.fromId k).size_eq
  have hne : (Token.fromId k).chars ≠ [] := by
    intro he
    rw [he] at hlen
    cases hlen
  unfold validToken
  rw [htake, hdrop]
  simpa using hne

theorem replacement_fresh {m : OrderManager} {out : List Outbound} {b : Book Token} {inbox : List Inbound} {used : List Nat}
    {r : Ouch.ReplaceOrder} (hw : Wired m out b (.replace r :: inbox) used) (hb : b r.existing ≠ none) :
    b r.replacement = none ∧ validToken r.replacement = true := by
  constructor
  · obtain ⟨F, hF, rfl, hin⟩ := hw.conforms.replay
    have hs := Protocol.sound_follows hw.conforms.sound hF
    rcases hin.front_replace hs with ⟨row, ht, -, hrepl, -⟩ | ⟨hno, -⟩
    · have hnone := hs.repl_fresh ht hrepl
      unfold Protocol.View.book
      rw [hnone]
      rfl
    · exact absurd (Protocol.book_none_of_not_owned hno) hb
  · obtain ⟨k, -, hk, he⟩ := hw.conforms.requests _ List.mem_cons_self r.replacement (by simp [requestOf, Protocol.Request.names])
    rw [he]
    exact validToken_fromId hk

/-! ## The venue and the manager -/

/-- A cause that is no request to open an order. -/
def Own : Cause → Prop
  | .request (.enter _) _ => False
  | .request (.replace _) _ => False
  | _ => True

/-- What the venue says of its own accord in one move. -/
inductive Utters (d d' : Floor) : Prop
  | nothing : d'.tape.messages = d.tape.messages → d'.tape.matchNo = d.tape.matchNo → Utters d d'
  | executed (e : Ouch.Executed) : d'.tape.messages = d.tape.messages ++ [.executed e] → e.matchNo = d.tape.matchNo + 1 →
      d'.tape.matchNo = d.tape.matchNo + 1 → Utters d d'
  | canceled (c : Ouch.Canceled) : d'.tape.messages = d.tape.messages ++ [.canceled c] →
      d'.tape.matchNo = d.tape.matchNo → Utters d d'

theorem moves_utters {k : Cause} (hk : Own k) {d d' : Floor} (hm : Moves k d d') : Utters d d' := by
  have hexec : ∀ (o : Order) (qty : Nat) (price : Int) (liquidity : Byte) (os : List Order),
      Utters d { d with orders := os, tape := d.tape.execute o qty price liquidity } := fun o qty price liquidity os =>
    .executed ⟨d.tape.clock, o.token, qty, price, liquidity, d.tape.matchNo + 1⟩ (Tape.messages_say _ _ _) rfl rfl
  cases hm with
  | reject _ r reason sent => exact hk.elim
  | accept _ r loc sent ht hl => exact hk.elim
  | take m sent _ os o b lv ho hr hb hlv hz hc => exact hexec _ _ _ _ _
  | finish m sent _ os o ho hr hz => exact .nothing rfl rfl
  | expire m sent _ os o ho hr hz hi => exact .canceled _ (Tape.messages_say _ _ _) rfl
  | rest m sent _ os o ahead ho hr hz hi => exact .nothing rfl rfl
  | reduce _ c o sent hf hr h₀ h₁ => exact .canceled _ (Tape.messages_say _ _ _) rfl
  | cancel _ m o sent hf hr => exact .canceled _ (Tape.messages_say _ _ _) rfl
  | replace _ r o sent hf hr ht hlt => exact hk.elim
  | sweep loc side price _ os os' o ho hr hs hc => exact hexec _ _ _ _ _
  | pass loc side level execPrice shares _ os os' o ho hr hs hl hp => exact .nothing rfl rfl
  | fill loc side level execPrice shares _ os os' o ho hr hs hl hlt hq => exact hexec _ _ _ _ _
  | fillAll loc side level execPrice shares _ os os' o ho hr hs hl hlt => exact hexec _ _ _ _ _

theorem messages_after (xs : List Said) (t : Tape) : (t.after xs).messages = xs.map Said.msg ++ t.messages :=
  List.map_append

theorem described_next {n : Nat} {xs : List Said} {d d' : Floor} (h : (d.after xs).Described n) (h' : (d'.after xs).Described n)
    {r : Outbound} (hm : d'.tape.messages = d.tape.messages ++ [r]) :
    (blotter d.orders).Describes r ∧ blotter d'.orders = (blotter d.orders).post r := by
  have hall : (d'.after xs).tape.messages = (d.after xs).tape.messages ++ [r] := by
    show (d'.tape.after xs).messages = (d.tape.after xs).messages ++ [r]
    rw [messages_after, messages_after, hm, List.append_assoc]
  have htold : Blotter.replay (d.after xs).tape.messages = blotter d.orders := h.told
  have htold' : Blotter.replay (d'.after xs).tape.messages = blotter d'.orders := h'.told
  refine ⟨htold ▸ h'.faithful.describes _ r [] hall, ?_⟩
  rw [← htold', hall, Blotter.replay_snoc, htold]

theorem described_quiet {n : Nat} {xs : List Said} {d d' : Floor} (h : (d.after xs).Described n) (h' : (d'.after xs).Described n)
    (hm : d'.tape.messages = d.tape.messages) : blotter d'.orders = blotter d.orders := by
  have hall : (d'.after xs).tape.messages = (d.after xs).tape.messages := by
    show (d'.tape.after xs).messages = (d.tape.after xs).messages
    rw [messages_after, messages_after, hm]
  have htold : Blotter.replay (d.after xs).tape.messages = blotter d.orders := h.told
  have htold' : Blotter.replay (d'.after xs).tape.messages = blotter d'.orders := h'.told
  rw [← htold', hall, htold]

/-- The venue in the middle of a call, `xs` being what it said before: its orders and what it says agree with manager
`m`, to which the reports `out` are on their way, `inbox` being the requests on theirs. -/
structure Stands (n : Nat) (xs : List Said) (m : OrderManager) (out : List Outbound) (inbox : List Inbound) (d : Floor) : Prop where
  described : (d.after xs).Described n
  payable : (d.after xs).Payable n
  wired : d.tape.matchNo < 2 ^ 64 → ∃ used, (∀ k ∈ used, k ≤ d.tape.matchNo) ∧
    Wired m (out ++ d.tape.messages.map cut) (bookOf (blotter d.orders)) inbox used

namespace Stands
variable {n : Nat} {xs : List Said} {m : OrderManager} {out : List Outbound} {inbox : List Inbound} {d d' : Floor}

/-- A move that nobody asked for. -/
theorem act (h : Stands n xs m out inbox d) (hd : (d'.after xs).Described n) (hp : (d'.after xs).Payable n) (hu : Utters d d') :
    Stands n xs m out inbox d' := by
  refine ⟨hd, hp, fun hlt => ?_⟩
  cases hu with
  | nothing hm hn =>
    obtain ⟨used, hle, hw⟩ := h.wired (hn ▸ hlt)
    refine ⟨used, by rw [hn]; exact hle, ?_⟩
    rw [hm, described_quiet h.described hd hm]
    exact hw
  | executed e hm he hn =>
    obtain ⟨used, hle, hw⟩ := h.wired (by omega)
    obtain ⟨hdesc, hpost⟩ := described_next h.described hd hm
    obtain ⟨x, hx, hxe⟩ : ∃ x ∈ d'.tape.said, x.msg = .executed e := by
      have : Outbound.executed e ∈ d'.tape.messages := by rw [hm]; simp
      exact List.mem_map.mp this
    obtain ⟨-, hq, hpx, hpx'⟩ := hp.tape x (List.mem_append_right _ hx) e hxe
    have hfits : Fits (.executed e) := ⟨by unfold kMaxOrderQty at hq; omega, by rw [he]; omega⟩
    have hproper : Proper (.executed e) := ⟨by omega, by unfold Oms.kMaxWirePrice; omega⟩
    refine ⟨e.matchNo :: used, fun k hk => ?_, ?_⟩
    · rcases List.mem_cons.mp hk with rfl | hk
      · omega
      · have := hle k hk
        omega
    · rw [hm, List.map_append, List.map_singleton, ← List.append_assoc, hpost]
      refine hw.act ?_ (proper_cut hproper) ?_ ?_
      · rw [reportOf_cut hfits]
        exact acts_post hdesc (.inl ⟨e, rfl⟩)
      · rw [matchOf_cut hfits]
        rfl
      · rw [matchOf_cut hfits]
        intro k hk hku
        rw [List.mem_singleton.mp hk] at hku
        have := hle _ hku
        omega
  | canceled c hm hn =>
    obtain ⟨used, hle, hw⟩ := h.wired (hn ▸ hlt)
    obtain ⟨hdesc, hpost⟩ := described_next h.described hd hm
    have hfits : Fits (.canceled c) := by
      obtain ⟨t, ht, -, hc⟩ := hdesc
      have := h.described.working.bounded _ _ ht
      unfold kMaxOrderQty at this
      show c.decrement < _
      omega
    refine ⟨used, by rw [hn]; exact hle, ?_⟩
    rw [hm, List.map_append, List.map_singleton, ← List.append_assoc, hpost]
    refine hw.act ?_ trivial rfl fun k hk => by cases hk
    rw [reportOf_cut hfits]
    exact acts_post hdesc (.inr ⟨c, rfl⟩)

/-- **Acts**: whatever the venue does of its own accord. -/
theorem chain {k : Cause} (h : Stands n xs m out inbox d) (hk : Own k) (hp : Prices k) (hc : Chain k d d') :
    Stands n xs m out inbox d' := by
  induction hc with
  | refl => exact h
  | tail _ hm ih =>
    exact ih.act (Floor.Described.move (hm.after xs) ih.described) (Floor.Payable.move hp (hm.after xs) ih.payable)
      (moves_utters hk hm)

theorem answer {q : Inbound} {k : Cause} {r : Outbound} (h : Stands n xs m out (q :: inbox) d) (hk : Prices k) (hmove : Moves k d d')
    (hm : d'.tape.messages = d.tape.messages ++ [r]) (hn : d'.tape.matchNo = d.tape.matchNo) (hr : Proper r ∧ Fits r)
    (hno : matchOf r = []) (ha : (blotter d.orders).Describes r → Answers (bookOf (blotter d.orders)) (requestOf q) (some (reportOf r))
      (bookOf ((blotter d.orders).post r))) : Stands n xs m out inbox d' := by
  have hd := Floor.Described.move (hmove.after xs) h.described
  refine ⟨hd, Floor.Payable.move hk (hmove.after xs) h.payable, fun hlt => ?_⟩
  obtain ⟨used, hle, hw⟩ := h.wired (hn ▸ hlt)
  obtain ⟨hdesc, hpost⟩ := described_next h.described hd hm
  refine ⟨used, by rw [hn]; exact hle, ?_⟩
  rw [hm, List.map_append, List.map_singleton, ← List.append_assoc, hpost]
  refine hw.answer (r := some (cut r)) ?_ fun ρ hρ => ?_
  · rw [Option.map_some, reportOf_cut hr.2]
    exact ha hdesc
  · cases hρ
    exact ⟨proper_cut hr.1, by rw [matchOf_cut hr.2, hno]⟩

theorem silent {q : Inbound} (h : Stands n xs m out (q :: inbox) d) (ha : ∀ out b used, Wired m out b (q :: inbox) used →
    b = bookOf (blotter d.orders) → Answers b (requestOf q) none b) : Stands n xs m out inbox d := by
  refine ⟨h.described, h.payable, fun hlt => ?_⟩
  obtain ⟨used, hle, hw⟩ := h.wired hlt
  have hw' := hw.answer (r := none) (ha _ _ _ hw rfl) fun ρ hρ => by cases hρ
  rw [Option.toList_none, List.append_nil] at hw'
  exact ⟨used, hle, hw'⟩

theorem blotter_of_find {token : Token} (hf : d.find token = none) : blotter d.orders token = none :=
  Sim.blotter_of_not_mem (Floor.Described.fresh_of_find hf)

theorem blotter_resting (h : Stands n xs m out inbox d) (hs : d.Settled) {token : Token} {o : Order} (hf : d.find token = some o) :
    o.resting = true ∧ o.token = token ∧ 1 ≤ o.leaves ∧ blotter d.orders token = some o.terms := by
  obtain ⟨hmem, htok⟩ := Floor.mem_of_find hf
  subst htok
  obtain ⟨hleft, hown⟩ := h.described.resting_open hf (hs o hmem)
  exact ⟨hs o hmem, rfl, hleft, hown⟩

/-! ### Requests -/

theorem onEnter (r : Ouch.EnterOrder) (sent : Nat) (h : Stands n xs m out (.enter r :: inbox) d) :
    Stands n xs m out inbox (d.onEnter r sent) := by
  have hreject : ∀ reason, Stands n xs m out inbox (d.reject r.token reason sent) := fun reason =>
    h.answer (k := .request (.enter r) sent) trivial (.reject d r reason sent) (Tape.messages_say _ _ _) rfl ⟨trivial, trivial⟩ rfl
      fun _ => Answers.refused r.token r.shares
  unfold Floor.onEnter
  by_cases htok : (!validToken r.token || (d.find r.token).isSome) = true
  · rw [if_pos htok]
    exact hreject _
  rw [if_neg htok]
  have hvalid : validToken r.token = true ∧ d.find r.token = none := by
    simpa [Option.isSome_iff_ne_none] using htok
  cases hloc : d.books.locate r.stock with
  | none => exact hreject _
  | some loc =>
    dsimp only
    split_ifs with h₁ h₂ h₃ h₄
    · exact hreject _
    · exact hreject _
    · exact hreject _
    · exact hreject _
    · have htakes : Takes d r.token r.shares r.price := ⟨hvalid.1, hvalid.2, by omega, by omega⟩
      have haccepted := h.answer (k := .request (.enter r) sent) trivial (.accept d r loc sent htakes hloc)
        (Tape.messages_say _ _ _) rfl ⟨.inl rfl, trivial⟩ rfl fun hdesc => ?_
      · -- what the order takes on arrival it would take for any request
        exact haccepted.chain (k := .request (.cancel ⟨Token.blank, 0⟩) sent) trivial trivial
          (Sim.work_chain (.cancel ⟨Token.blank, 0⟩) sent ({ d with nextRef := d.nextRef + 1 }.say
            (.accepted ((Floor.entered r loc d.nextRef sent).accepted d.tape.clock)) [sent])
            (Floor.entered r loc d.nextRef sent) rfl)
      · have hpost : bookOf ((blotter d.orders).post (.accepted ((Floor.entered r loc d.nextRef sent).accepted d.tape.clock))) =
            Function.update (bookOf (blotter d.orders)) r.token (some ⟨r.shares, 0⟩) := by
          unfold Blotter.post
          dsimp only
          rw [bookOf_update, working_open, if_neg (Nat.ne_of_gt hdesc.2)]
          rfl
        rw [hpost]
        exact Answers.accepted r.token r.shares

theorem onCancel (r : Ouch.CancelOrder) (sent : Nat) (hs : d.Settled) (hz : r.shares = 0)
    (h : Stands n xs m out (.cancel r :: inbox) d) : Stands n xs m out inbox (d.onCancel r sent) := by
  unfold Floor.onCancel
  cases hf : d.find r.token with
  | none => exact h.silent fun out b used hw hb => .uncanceled (by rw [hb]; exact bookOf_none (blotter_of_find hf))
  | some o =>
    obtain ⟨hrest, htok, hleft, hown⟩ := h.blotter_resting hs hf
    have hkeep : r.shares - o.filled = 0 := by omega
    dsimp only
    rw [hkeep, if_neg (by omega), if_pos rfl, Nat.sub_zero]
    refine h.answer (k := .request (.cancel r) sent) trivial (.cancel d (.cancel r) o sent (by rw [htok]; exact hf) hrest)
      (Tape.messages_say _ _ _) rfl ⟨trivial, ?_⟩ rfl fun _ => ?_
    · have := h.described.working.bounded _ _ hown
      unfold kMaxOrderQty at this
      show o.leaves < _
      have hle : o.leaves ≤ 999999 := (Nat.le_add_left _ _).trans this.2
      omega
    · have hpost : bookOf ((blotter d.orders).post (.canceled ⟨d.tape.clock, o.token, o.leaves, ascii 'U'⟩)) =
          Function.update (bookOf (blotter d.orders)) r.token none := by
        unfold Blotter.post
        dsimp only
        rw [bookOf_update, htok, hown, Option.bind_some, working_open]
        exact congrArg _ (if_pos (Nat.sub_self _))
      rw [hpost]
      show Answers _ (.cancel r.token) (some (.canceled o.token o.leaves)) _
      rw [htok]
      exact Answers.canceled (bookOf_some hown)

theorem onReplace (r : Ouch.ReplaceOrder) (sent : Nat) (hs : d.Settled) (h : Stands n xs m out (.replace r :: inbox) d) :
    Stands n xs m out inbox (d.onReplace r sent) := by
  unfold Floor.onReplace
  cases hf : d.find r.existing with
  | none => exact h.silent fun out b used hw hb => .unreplaced _ _ (by rw [hb]; exact bookOf_none (blotter_of_find hf))
  | some o =>
    obtain ⟨hrest, htok, hleft, hown⟩ := h.blotter_resting hs hf
    dsimp only
    by_cases hused : (!validToken r.replacement || (d.find r.replacement).isSome) = true
    · -- the manager never reuses a token
      rw [if_pos hused]
      refine h.silent fun out b used hw hb => ?_
      subst hb
      obtain ⟨hnone, hvalid⟩ := replacement_fresh hw (by rw [bookOf_some hown]; simp)
      rw [hvalid] at hused
      obtain ⟨x, hx⟩ := Option.isSome_iff_exists.mp hused
      obtain ⟨-, -, -, hx⟩ := h.blotter_resting hs hx
      rw [bookOf_some hx] at hnone
      cases hnone
    rw [if_neg hused]
    have hfresh : validToken r.replacement = true ∧ d.find r.replacement = none := by
      simpa [Option.isSome_iff_ne_none] using hused
    split_ifs with h₁
    · have htakes : Takes d r.replacement r.shares r.price := ⟨hfresh.1, hfresh.2, by omega, h₁.1, h₁.2.1⟩
      have hreplaced := h.answer (k := .request (.replace r) sent) trivial (.replace d r o sent hf hrest htakes h₁.2.2.1)
        (Tape.messages_say _ _ _) rfl ⟨rfl, ?_⟩ rfl fun hdesc => ?_
      · exact hreplaced.chain (k := .request (.cancel ⟨Token.blank, 0⟩) sent) trivial trivial
          (Sim.work_chain (.cancel ⟨Token.blank, 0⟩) sent ({ d.amend o.token o.leaves none with nextRef := d.nextRef + 1 }.say
            (.replaced ⟨(Floor.replacement o r d.nextRef sent).accepted d.tape.clock, o.token⟩) (sent :: o.since))
            (Floor.replacement o r d.nextRef sent) rfl)
      · have := h₁.2.2.2
        unfold kMaxOrderQty at this
        show r.shares - o.filled < _
        omega
      · have hlt : o.filled < r.shares := h₁.2.2.1
        have hpost : bookOf ((blotter d.orders).post
            (.replaced ⟨(Floor.replacement o r d.nextRef sent).accepted d.tape.clock, o.token⟩)) =
            Function.update (Function.update (bookOf (blotter d.orders)) r.existing none) r.replacement
              (some ⟨r.shares - o.filled, o.filled⟩) := by
          unfold Blotter.post
          dsimp only
          rw [htok, bookOf_update, bookOf_update, hown, Option.bind_some, working_open]
          exact congrArg _ (if_neg (show r.shares - o.filled ≠ 0 by omega))
        rw [hpost]
        show Answers _ (.replace r.existing r.replacement r.shares)
          (some (.replaced r.replacement o.token (r.shares - o.filled))) _
        rw [htok]
        exact Answers.replaced (bookOf_some hown) hlt
    · -- the order is canceled, and the replace finds it gone
      have hmove : Moves (.request (.replace r) sent) d
          ((d.say (.canceled ⟨d.tape.clock, o.token, o.leaves, ascii 'U'⟩) (sent :: o.since)).amend o.token o.leaves none) :=
        .cancel d (.replace r) o sent (by rw [htok]; exact hf) hrest
      have hd := Floor.Described.move (hmove.after xs) h.described
      have hm := Tape.messages_say d.tape (.canceled ⟨d.tape.clock, o.token, o.leaves, ascii 'U'⟩) (sent :: o.since)
      have hp := Floor.Payable.move (show Prices (.request (.replace r) sent) from trivial) (hmove.after xs) h.payable
      have hcanceled := h.act hd hp (.canceled ⟨d.tape.clock, o.token, o.leaves, ascii 'U'⟩ hm rfl)
      refine hcanceled.silent fun out b used hw hb => .unreplaced _ _ ?_
      rw [hb]
      refine bookOf_none ?_
      rw [(described_next h.described hd hm).2]
      unfold Blotter.post
      dsimp only
      rw [htok, Function.update_self, hown]
      exact if_pos (Nat.sub_self _)

/-- **Answers**: a request of the manager is handled. -/
theorem onRequest (q : Inbound) (sent : Nat) (hs : d.Settled) (hz : ∀ c, q = .cancel c → c.shares = 0)
    (h : Stands n xs m out (q :: inbox) d) : Stands n xs m out inbox (d.onRequest q sent) := by
  cases q with
  | enter r => exact h.onEnter r sent
  | cancel r => exact h.onCancel r sent hs (hz r rfl)
  | replace r => exact h.onReplace r sent hs

end Stands
end OptiTrade.Agreement
