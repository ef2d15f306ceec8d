import OptiTrade.Oms.Client

/-! # The manager and a conforming exchange

Between the session and the exchange there are two queues: the messages the gateway took and the
reports not yet delivered. Any interleaving of calls, exchange steps and deliveries is a run. -/

namespace OptiTrade.Oms
set_option autoImplicit false

open Runs
open Ouch (Token)
open Protocol (Row View Request Report Legal Conforms Book Open Answers Acts)

/-- The match number of an execution. -/
def matchOf : Ouch.Outbound → List Nat
  | .executed x => [x.matchNo]
  | _ => []

/-! ## The exchange -/

/-- An exchange that conforms to the protocol. -/
structure Exchange where
  /-- A replace of an order that is not alive is ignored instead of rejected. -/
  silent : Bool := false
  live : Book Token := fun _ => none
  /-- The match numbers used so far. -/
  matches_ : List Nat := []

namespace Exchange

/-- The exchange after it answered the request with `r`, if it may do so. -/
def answer (x : Exchange) (msg : Ouch.Inbound) (r : Option Ouch.Outbound) : Option Exchange :=
  match msg, r with
  | .enter m, some (.rejected j) => if j.token = m.token then some x else none
  | .enter m, some (.accepted a) =>
    if a.token = m.token ∧ a.orderState = ascii 'L' then
      some { x with live := Function.update x.live m.token (some ⟨m.shares, 0⟩) }
    else if a.token = m.token ∧ a.orderState = ascii 'D' then some x
    else none
  | .replace m, some (.replaced rp) =>
    match x.live m.existing with
    | some o =>
      if o.executed < m.shares ∧ rp.a.token = m.replacement ∧ rp.previous = m.existing ∧
          rp.a.orderState = ascii 'L' ∧ rp.a.shares = m.shares - o.executed then
        some
          { x with
            live := Function.update (Function.update x.live m.existing none) m.replacement
              (some ⟨m.shares - o.executed, o.executed⟩) }
      else none
    | none => none
  | .replace m, some (.rejected j) => if j.token = m.replacement then some x else none
  | .replace m, none => if x.silent ∧ x.live m.existing = none then some x else none
  | .cancel m, some (.canceled c) =>
    match x.live m.token with
    | some o =>
      if c.token = m.token ∧ c.decrement = o.leaves then
        some { x with live := Function.update x.live m.token none }
      else none
    | none => none
  | .cancel m, none => if x.live m.token = none then some x else none
  | _, _ => none

/-- The exchange after it executed or canceled shares of a live order of its own accord. -/
def act (x : Exchange) (r : Ouch.Outbound) : Option Exchange :=
  match r with
  | .executed e =>
    match x.live e.token with
    | some o =>
      if 1 ≤ e.shares ∧ e.shares ≤ o.leaves ∧ 1 ≤ e.price ∧ e.price < 2 ^ 32 ∧ e.matchNo ∉ x.matches_ then
        some
          { x with
            live := x.live.settle e.token ⟨o.leaves - e.shares, o.executed + e.shares⟩
            matches_ := e.matchNo :: x.matches_ }
      else none
    | none => none
  | .canceled c =>
    match x.live c.token with
    | some o =>
      if 1 ≤ c.decrement ∧ c.decrement ≤ o.leaves then
        some { x with live := x.live.settle c.token ⟨o.leaves - c.decrement, o.executed⟩ }
      else none
    | none => none
  | _ => none

variable {x x' : Exchange}

/-- An answer is one the protocol allows. -/
theorem answer_answers {msg : Ouch.Inbound} {r : Option Ouch.Outbound} (h : x.answer msg r = some x') :
    Answers x.live (requestOf msg) (r.map reportOf) x'.live ∧ (∀ ρ ∈ r, Proper ρ ∧ matchOf ρ = []) ∧
      x'.matches_ = x.matches_ := by
  unfold answer at h
  split at h
  · rename_i m j
    simp only [Option.ite_none_right_eq_some, Option.some.injEq] at h
    obtain ⟨h₁, rfl⟩ := h
    refine ⟨?_, by simp [Proper, matchOf], rfl⟩
    simp only [Option.map_some, reportOf, requestOf, h₁]
    exact .refused _ _
  · rename_i m a
    split_ifs at h with h₁ h₂
    · obtain rfl := Option.some.inj h
      refine ⟨?_, by simp [Proper, matchOf, h₁.2], rfl⟩
      have hd : ¬a.orderState = ascii 'D' := by rw [h₁.2]; decide
      simp only [Option.map_some, reportOf, requestOf, hd, if_false, h₁.1]
      exact .accepted _ _
    · obtain rfl := Option.some.inj h
      refine ⟨?_, by simp [Proper, matchOf, h₂.2], rfl⟩
      simp only [Option.map_some, reportOf, requestOf, h₂.2, if_true, h₂.1]
      exact .dead _ _
  · rename_i m rp
    split at h
    · rename_i o ho
      simp only [Option.ite_none_right_eq_some, Option.some.injEq] at h
      obtain ⟨⟨h₁, h₂, h₃, h₄, h₅⟩, rfl⟩ := h
      refine ⟨?_, by simp [Proper, matchOf, h₄], rfl⟩
      simp only [Option.map_some, reportOf, requestOf, h₂, h₃, h₅]
      exact .replaced ho h₁
    · cases h
  · rename_i m j
    simp only [Option.ite_none_right_eq_some, Option.some.injEq] at h
    obtain ⟨h₁, rfl⟩ := h
    refine ⟨?_, by simp [Proper, matchOf], rfl⟩
    simp only [Option.map_some, reportOf, requestOf, h₁]
    exact .reverted _ _ _
  · rename_i m
    simp only [Option.ite_none_right_eq_some, Option.some.injEq] at h
    obtain ⟨h₁, rfl⟩ := h
    exact ⟨.unreplaced _ _ h₁.2, by simp, rfl⟩
  · rename_i m c
    split at h
    · rename_i o ho
      simp only [Option.ite_none_right_eq_some, Option.some.injEq] at h
      obtain ⟨⟨h₁, h₂⟩, rfl⟩ := h
      refine ⟨?_, by simp [Proper, matchOf], rfl⟩
      simp only [Option.map_some, reportOf, requestOf, h₁, h₂]
      exact .canceled ho
    · cases h
  · rename_i m
    simp only [Option.ite_none_right_eq_some, Option.some.injEq] at h
    obtain ⟨h₁, rfl⟩ := h
    exact ⟨.uncanceled h₁, by simp, rfl⟩
  · cases h

theorem act_acts {r : Ouch.Outbound} (h : x.act r = some x') :
    Acts x.live (reportOf r) x'.live ∧ Proper r ∧ x'.matches_ = matchOf r ++ x.matches_ ∧
      ∀ n ∈ matchOf r, n ∉ x.matches_ := by
  cases r with
  | executed e =>
    unfold act at h
    dsimp only at h
    split at h
    · rename_i o ho
      simp only [Option.ite_none_right_eq_some, Option.some.injEq] at h
      obtain ⟨⟨h₁, h₂, h₃, h₄, h₅⟩, rfl⟩ := h
      exact ⟨.executed ho h₁ h₂, ⟨by omega, by unfold kMaxWirePrice; omega⟩, rfl, by simpa [matchOf] using h₅⟩
    · cases h
  | canceled c =>
    unfold act at h
    dsimp only at h
    split at h
    · rename_i o ho
      simp only [Option.ite_none_right_eq_some, Option.some.injEq] at h
      obtain ⟨⟨h₁, h₂⟩, rfl⟩ := h
      exact ⟨.canceled ho h₁ h₂, trivial, rfl, by simp [matchOf]⟩
    · cases h
  | accepted a => cases h
  | rejected j => cases h
  | replaced rp => cases h

end Exchange

/-! ## What ties the two ends together -/

/-- The manager, the reports on their way to it, the book of the exchange, the requests on their way
there, and the match numbers used. -/
structure Wired (m : OrderManager) (outbox : List Ouch.Outbound) (b : Book Token) (inbox : List Ouch.Inbound)
    (used : List Nat) : Prop where
  client : m.Client
  conforms : Conforms m.minted m.view (outbox.map reportOf) b (inbox.map requestOf)
  proper : ∀ ρ ∈ outbox, Proper ρ
  numbers_nodup : (outbox.flatMap matchOf).Nodup
  numbers_used : ∀ n ∈ outbox.flatMap matchOf, n ∈ used
  seen : ∀ i < m.fresh, ∀ n, (m.slots i).seenMatch n = true → n ∈ used ∧ n ∉ outbox.flatMap matchOf

namespace Wired
open OrderManager

variable {m : OrderManager} {outbox : List Ouch.Outbound} {b b' : Book Token} {inbox : List Ouch.Inbound}
  {used : List Nat}

/-- What an order remembers after an operation it remembered before, or it is the match number of the
execution just booked. -/
theorem seen_perform (h : Inv m) {c : Call} (hc : m.Fits c) {i : Nat} (hi : i < (m.perform c).fresh) {n : Nat}
    (hn : ((m.perform c).slots i).seenMatch n = true) :
    (∃ j < m.fresh, (m.slots j).seenMatch n = true) ∨ ∃ x now, c = .report (.executed x) now ∧ n = x.matchNo := by
  have hsame : ∀ {e e' : Entry}, e'.matches_ = e.matches_ → e'.matchCount = e.matchCount →
      e'.seenMatch n = e.seenMatch n := by
    intro e e' h₁ h₂
    unfold Entry.seenMatch
    rw [h₁, h₂]
  -- a settled entry remembers what it was settled with
  have hset : ∀ {m₁ : OrderManager} {j : Nat} {e : Entry} {o : Option OrderStatus}, Near m m₁ →
      m.perform c = m₁.settle j e o → (i ≠ j ∧ i < m.fresh ∧ (m.slots i).seenMatch n = true) ∨
        (i = j ∧ e.seenMatch n = true) := by
    intro m₁ j e o hm hout
    have hfi : i < m.fresh := by
      rw [hout, (m₁.settle_table j e o).fresh, hm.table.fresh] at hi
      exact hi
    rw [hout] at hn
    by_cases hl : e.info.leavesQty = 0
    · rw [settle_slots_dead hm hl] at hn
      by_cases hij : i = j
      · subst hij
        rw [Function.update_self] at hn
        exact .inr ⟨rfl, (hsame rfl rfl).symm.trans hn⟩
      · rw [Function.update_of_ne hij] at hn
        exact .inl ⟨hij, hfi, hn⟩
    · rw [settle_slots_live hm hl] at hn
      by_cases hij : i = j
      · subst hij
        rw [Function.update_self] at hn
        exact .inr ⟨rfl, (hsame rfl rfl).symm.trans hn⟩
      · rw [Function.update_of_ne hij] at hn
        exact .inl ⟨hij, hfi, hn⟩
  cases h.touched hc with
  | none ht hs _ _ =>
    rw [ht.fresh] at hi
    rw [hs] at hn
    exact .inl ⟨i, hi, hn⟩
  | settled j m₁ e o hj _ hm _ _ hb hout =>
    rcases hset hm hout with ⟨_, hfi, hn'⟩ | ⟨_, hn'⟩
    · exact .inl ⟨i, hfi, hn'⟩
    · exact .inl ⟨j, hj, (hsame hb.matches_ hb.matchCount).symm.trans hn'⟩
  | executed j x now hcx hj hw hbad hout =>
    rcases hset (.booked m j x) hout with ⟨_, hfi, hn'⟩ | ⟨_, hn'⟩
    · exact .inl ⟨i, hfi, hn'⟩
    · have hmatch := (h.entries j hj).sizes.match_le
      have hcum := (h.entries j hj).sizes.cum_le
      have hcount : ((m.slots j).execute x now).matchCount = (m.slots j).matchCount + 1 :=
        add32_eq (by unfold u32Max; unfold kMaxOrderQty at hcum; omega)
      have hcells : ((m.slots j).execute x now).matches_ =
          Function.update (m.slots j).matches_ ((m.slots j).matchCount % kMatchMemory) x.matchNo := rfl
      unfold Entry.seenMatch at hn'
      rw [List.any_eq_true, hcount, hcells] at hn'
      obtain ⟨k, hk, hkn⟩ := hn'
      have hk := List.mem_range.mp hk
      by_cases hkc : k = (m.slots j).matchCount % kMatchMemory
      · rw [hkc, Function.update_self] at hkn
        exact .inr ⟨x, now, hcx, (eq_of_beq hkn).symm⟩
      · rw [Function.update_of_ne hkc] at hkn
        refine .inl ⟨j, hj, ?_⟩
        unfold Entry.seenMatch
        refine List.any_eq_true.mpr ⟨k, List.mem_range.mpr ?_, hkn⟩
        unfold kMatchMemory at *
        omega
  | admitted req now reference tokens hs hout =>
    rw [hout] at hi hn
    by_cases hij : i = m.nextSlot
    · subst hij
      rw [show (m.admitted req now tokens).slots m.nextSlot = m.newEntry req now from Function.update_self ..] at hn
      cases hn
    · rw [show (m.admitted req now tokens).slots i = m.slots i from Function.update_of_ne hij _ _] at hn
      refine .inl ⟨i, ?_, hn⟩
      rw [admitted_fresh] at hi
      rcases h.nextSlot_cases hs.slot with ⟨h₁, h₂⟩ | ⟨h₁, _⟩
      · rw [if_pos h₁] at hi; omega
      · rwa [if_neg (by omega)] at hi

theorem call (hw : Wired m outbox b inbox used) (h : Inv m) {c : Call} (hc : m.Fits c)
    (hnr : ∀ r now, c ≠ .report r now) : Wired (m.perform c) outbox b (inbox ++ m.sends c) used := by
  obtain ⟨h₁, h₂⟩ := hw.client.perform h hc hnr hw.conforms
  refine ⟨h₁, by rw [List.map_append]; exact h₂, hw.proper, hw.numbers_nodup, hw.numbers_used, fun i hi n hn => ?_⟩
  rcases seen_perform h hc hi hn with ⟨j, hj, hn'⟩ | ⟨x, now, hcx, _⟩
  · exact hw.seen j hj n hn'
  · exact absurd hcx (hnr _ _)

theorem unseen {x : Ouch.Executed} (hw : Wired m (.executed x :: outbox) b inbox used) :
    ∀ i < m.fresh, (m.slots i).seenMatch x.matchNo = false := by
  intro i hi
  cases hs : (m.slots i).seenMatch x.matchNo with
  | false => rfl
  | true => exact absurd (by simp [matchOf]) (hw.seen i hi _ hs).2

theorem deliver {ρ : Ouch.Outbound} (hw : Wired m (ρ :: outbox) b inbox used) (h : Inv m) (now : Nat) :
    Wired (m.onReport ρ now) outbox b inbox used := by
  rw [← show m.perform (.report ρ now) = m.onReport ρ now from rfl]
  obtain ⟨w, hl, hcf⟩ := hw.conforms.deliver
  have hnodup := hw.numbers_nodup
  rw [List.flatMap_cons] at hnodup
  have hseen : ∀ x, ρ = .executed x → ∀ i < m.fresh, (m.slots i).seenMatch x.matchNo = false := by
    rintro x rfl
    exact hw.unseen
  obtain ⟨hv, hcl⟩ := hw.client.onReport h now (hw.proper ρ List.mem_cons_self) hl hseen
  have hmint : (m.perform (.report ρ now)).minted = m.minted := minted_congr (nextToken_onReport h ρ now)
  refine ⟨hcl, ?_, fun ρ' hρ' => hw.proper ρ' (List.mem_cons_of_mem _ hρ'), (List.nodup_append.mp hnodup).2.1,
    fun n hn => hw.numbers_used n (by rw [List.flatMap_cons]; exact List.mem_append_right _ hn), ?_⟩
  · rw [hmint]
    show Conforms _ (m.onReport ρ now).view _ _ _
    rw [hv]
    exact hcf
  · intro i hi n hn
    rcases seen_perform h (c := .report ρ now) trivial hi hn with ⟨j, hj, hn'⟩ | ⟨x, now', hcx, rfl⟩
    · obtain ⟨h₁, h₂⟩ := hw.seen j hj n hn'
      rw [List.flatMap_cons] at h₂
      exact ⟨h₁, fun h' => h₂ (List.mem_append_right _ h')⟩
    · cases hcx
      refine ⟨hw.numbers_used _ (by simp [matchOf]), fun h' => ?_⟩
      exact (List.nodup_append.mp hnodup).2.2 x.matchNo (by simp [matchOf]) x.matchNo h' rfl

/-- One more report, with no match number used before. -/
theorem pushed {r : Ouch.Outbound} {used' : List Nat} (hw : Wired m outbox b inbox used) (hp : Proper r)
    (hused : used' = matchOf r ++ used) (hfresh : ∀ n ∈ matchOf r, n ∉ used)
    {inbox' : List Ouch.Inbound}
    (hcf : Conforms m.minted m.view (outbox.map reportOf ++ [reportOf r]) b' (inbox'.map requestOf)) :
    Wired m (outbox ++ [r]) b' inbox' used' := by
  have hflat : (outbox ++ [r]).flatMap matchOf = outbox.flatMap matchOf ++ matchOf r := by simp
  have hsub : ∀ n ∈ used, n ∈ used' := fun n hn => by rw [hused]; exact List.mem_append_right _ hn
  have hnd : (matchOf r).Nodup := by cases r <;> simp [matchOf]
  refine ⟨hw.client, by simpa using hcf, fun ρ hρ => ?_, ?_, fun n hn => ?_, fun i hi n hn => ?_⟩
  · rcases List.mem_append.mp hρ with hρ | hρ
    · exact hw.proper ρ hρ
    · rw [List.mem_singleton] at hρ
      rw [hρ]
      exact hp
  · rw [hflat, List.nodup_append]
    refine ⟨hw.numbers_nodup, hnd, fun n hn k hk hnk => ?_⟩
    exact hfresh k hk (hnk ▸ hw.numbers_used n hn)
  · rw [hflat] at hn
    rcases List.mem_append.mp hn with hn | hn
    · exact hsub n (hw.numbers_used n hn)
    · rw [hused]
      exact List.mem_append_left _ hn
  · obtain ⟨h₁, h₂⟩ := hw.seen i hi n hn
    refine ⟨hsub n h₁, fun h' => ?_⟩
    rw [hflat] at h'
    rcases List.mem_append.mp h' with h' | h'
    · exact h₂ h'
    · exact hfresh n h' h₁

theorem act {r : Ouch.Outbound} {used' : List Nat} (hw : Wired m outbox b inbox used)
    (ha : Acts b (reportOf r) b') (hp : Proper r) (hused : used' = matchOf r ++ used)
    (hfresh : ∀ n ∈ matchOf r, n ∉ used) : Wired m (outbox ++ [r]) b' inbox used' :=
  hw.pushed hp hused hfresh (hw.conforms.act ha)

theorem answer {q : Ouch.Inbound} {r : Option Ouch.Outbound} (hw : Wired m outbox b (q :: inbox) used)
    (ha : Answers b (requestOf q) (r.map reportOf) b') (hp : ∀ ρ ∈ r, Proper ρ ∧ matchOf ρ = []) :
    Wired m (outbox ++ r.toList) b' inbox used := by
  have hcf := hw.conforms.answer ha
  cases r with
  | none =>
    rw [Option.toList_none, List.append_nil]
    rw [Option.map_none, Option.toList_none, List.append_nil] at hcf
    exact ⟨hw.client, hcf, hw.proper, hw.numbers_nodup, hw.numbers_used, hw.seen⟩
  | some r =>
    obtain ⟨h₁, h₂⟩ := hp r rfl
    exact hw.pushed h₁ (by rw [h₂]; rfl) (by rw [h₂]; simp) hcf

theorem new (config : Config) (limits : Risk.Limits) (maxLocates : Nat) :
    Wired (.new config (.new limits maxLocates)) [] (fun _ => none) [] [] := by
  have hview : (OrderManager.new config (.new limits maxLocates)).view = fun _ => none := by
    funext t
    cases hv : (OrderManager.new config (.new limits maxLocates)).view t with
    | none => rfl
    | some r =>
      obtain ⟨i, hi, _⟩ := (view_some (OrderManager.Inv.new config limits maxLocates).tokens).mp hv
      cases hi
  refine ⟨⟨fun i hi => ?_, rfl, rfl⟩, ?_, by simp, by simp, by simp, fun i hi => ?_⟩
  · cases hi
  · rw [hview]
    exact Conforms.init _
  · cases hi

/-! ### What is known of an order at the other end -/

theorem reserved (hw : Wired m outbox b inbox used) (h : Inv m) {t : Token} {o : Open} (ho : b t = some o) :
    ∃ id e, m.entry id = some e ∧ isTerminal e.info.status = false ∧
      (t = Token.fromId e.token ∨ e.nextToken ≠ 0 ∧ t = Token.fromId e.nextToken) ∧
      o.leaves ≤ m.reservedQty id := by
  obtain ⟨s, r, hv, htok, hres⟩ := hw.conforms.reserved ho
  obtain ⟨i, hi, hwk, rfl, rfl⟩ := (view_some h.tokens).mp hv
  refine ⟨(m.slots i).info.id, m.slots i, h.entry_slot hi, by simpa [Entry.working] using hwk, ?_, ?_⟩
  · rcases htok with htok | ⟨n, htok⟩
    · exact .inl htok
    · by_cases hn : (m.slots i).nextToken = 0
      · simp [Entry.row, hn] at htok
      · simp only [Entry.row, ne_eq, hn, not_false_eq_true, if_true, Option.some.injEq, Prod.mk.injEq] at htok
        exact .inr ⟨hn, htok.1.symm⟩
  · rw [reservedQty, h.entry_slot hi]
    exact hres.trans_eq (row_reserve (h.entries i hi) hwk)

/-- With nothing on its way, a tabled order is working if and only if its active token is alive at the
exchange, and both ends agree on it. -/
theorem settled (hw : Wired m [] b [] used) (h : Inv m) {id : Nat} {e : Entry} (he : m.entry id = some e) :
    (isTerminal e.info.status = false ↔ (b (Token.fromId e.token)).isSome) ∧
    ∀ o, b (Token.fromId e.token) = some o →
      e.info.status = .live ∧ e.nextToken = 0 ∧ e.info.leavesQty = o.leaves ∧ e.info.cumQty = o.executed := by
  obtain ⟨hb, hidle⟩ := hw.conforms.settled
  obtain ⟨i, hi, rfl, rfl⟩ := h.entry_some.mp he
  have hphase := (h.entries i hi).phase
  -- the row of the active token can only be that of this order
  have hrow : ∀ o, b (Token.fromId (m.slots i).token) = some o → (m.slots i).working = true ∧
      o = ⟨(m.slots i).info.leavesQty, (m.slots i).info.cumQty⟩ := by
    intro o ho
    rw [hb] at ho
    obtain ⟨r, hv, _, rfl⟩ := Protocol.book_some.mp ho
    obtain ⟨j, hj, hwk, hjt, rfl⟩ := (view_some h.tokens).mp hv
    obtain rfl := h.tokens.fromId_unique hi hj hjt
    exact ⟨hwk, rfl⟩
  refine ⟨⟨fun ht => ?_, fun ho => ?_⟩, fun o ho => ?_⟩
  · have hwk : (m.slots i).working = true := by simp [Entry.working, ht]
    have hv := (view_some h.tokens).mpr ⟨i, hi, hwk, rfl, rfl⟩
    rw [hb, Protocol.book_some.mpr ⟨_, hv, (hidle _ _ hv).1, rfl⟩]
    rfl
  · obtain ⟨o, ho⟩ := Option.isSome_iff_exists.mp ho
    simpa [Entry.working] using (hrow o ho).1
  · obtain ⟨hwk, rfl⟩ := hrow o ho
    have hv := (view_some h.tokens).mpr ⟨i, hi, hwk, rfl, rfl⟩
    obtain ⟨hacc, hrepl, hcan⟩ := hidle _ _ hv
    have hn : (m.slots i).nextToken = 0 := by
      by_contra hn
      simp [Entry.row, hn] at hrepl
    refine ⟨?_, hn, rfl, rfl⟩
    have hcan : (m.slots i).info.status ≠ .pendingCancel := by simpa [Entry.row] using hcan
    have hnew : (m.slots i).info.status ≠ .pendingNew := by
      intro h'
      have := congrArg Entry.accepted (hphase.untouched h')
      rw [show (m.slots i).accepted = true from hacc] at this
      cases this
    have hrep : (m.slots i).info.status ≠ .pendingReplace := fun h' => hphase.repl_some h' hn
    unfold Entry.working at hwk
    cases hst : (m.slots i).info.status with
    | pendingNew => exact absurd hst hnew
    | live => rfl
    | pendingCancel => exact absurd hst hcan
    | pendingReplace => exact absurd hst hrep
    | filled => rw [hst] at hwk; cases hwk
    | canceled => rw [hst] at hwk; cases hwk
    | rejected => rw [hst] at hwk; cases hwk

end Wired

/-! ## The system -/

/-- A session and its exchange, with what lies between them. -/
structure System where
  session : Session
  exchange : Exchange := {}
  inbox : List Ouch.Inbound := []
  outbox : List Ouch.Outbound := []

namespace System

/-- A move of either party. -/
inductive Step
  /-- The strategy, or a listener, moves the session; reports come from the outbox only. -/
  | call (e : Event)
  /-- The exchange handles the oldest request and answers it with `r`, or not at all. -/
  | answer (r : Option Ouch.Outbound)
  /-- The exchange executes or cancels of its own accord. -/
  | act (r : Ouch.Outbound)
  /-- The oldest report is delivered. -/
  | deliver (now : Nat)

def isReport : Event → Bool
  | .report _ _ => true
  | _ => false

/-- A request goes to the back of the inbox; what is reported comes off the front of the outbox. -/
def next (s : System) : Step → Option System
  | .call e =>
    if isReport e then none
    else (s.session.step e).map fun (t, fx) => { s with session := t, inbox := s.inbox ++ Session.sentIn fx }
  | .answer r =>
    match s.inbox with
    | [] => none
    | q :: rest =>
      (s.exchange.answer q r).map fun x => { s with exchange := x, inbox := rest, outbox := s.outbox ++ r.toList }
  | .act r => (s.exchange.act r).map fun x => { s with exchange := x, outbox := s.outbox ++ [r] }
  | .deliver now =>
    match s.outbox with
    | [] => none
    | r :: rest => (s.session.step (.report r now)).map fun (t, _) => { s with session := t, outbox := rest }

def new (config : Config) (limits : Risk.Limits) (maxLocates : Nat) (silent : Bool) : System where
  session := .new config limits maxLocates
  exchange := { silent := silent }

/-- **The invariant**: the two views differ by what is on its way. -/
structure Ok (s : System) : Prop where
  session : s.session.Ok
  wired : Wired s.session.manager s.outbox s.exchange.live s.inbox s.exchange.matches_

variable {s s' : System}

theorem Ok.step {e : Step} (h : Ok s) (hs : s.next e = some s') : Ok s' := by
  cases e with
  | call e =>
    simp only [next, Option.ite_none_left_eq_some, Option.map_eq_some_iff] at hs
    obtain ⟨hrep, ⟨t, fx⟩, hstep, rfl⟩ := hs
    obtain ⟨hmv, hok⟩ := h.session.step hstep
    refine ⟨hok, ?_⟩
    cases hmv with
    | stack hm hfx _ =>
      show Wired t.manager _ _ (s.inbox ++ Session.sentIn fx) _
      rw [hm, hfx, List.append_nil]
      exact h.wired
    | call c hc hm hiff hfx =>
      show Wired t.manager _ _ (s.inbox ++ Session.sentIn fx) _
      rw [hm, hfx]
      refine h.wired.call h.session.inv hc fun r now hcr => hrep ?_
      rw [(hiff r now).mp hcr]
      rfl
  | answer r =>
    simp only [next] at hs
    split at hs
    · cases hs
    · rename_i q rest hin
      obtain ⟨x, hx, rfl⟩ := Option.map_eq_some_iff.mp hs
      obtain ⟨h₁, h₂, h₃⟩ := Exchange.answer_answers hx
      refine ⟨h.session, ?_⟩
      show Wired _ _ x.live rest x.matches_
      rw [h₃]
      exact (hin ▸ h.wired).answer h₁ h₂
  | act r =>
    obtain ⟨x, hx, rfl⟩ := Option.map_eq_some_iff.mp hs
    obtain ⟨h₁, h₂, h₃, h₄⟩ := Exchange.act_acts hx
    exact ⟨h.session, h.wired.act h₁ h₂ h₃ h₄⟩
  | deliver now =>
    simp only [next] at hs
    split at hs
    · cases hs
    · rename_i r rest hout
      obtain ⟨⟨t, fx⟩, hstep, rfl⟩ := Option.map_eq_some_iff.mp hs
      obtain ⟨hmv, hok⟩ := h.session.step hstep
      refine ⟨hok, ?_⟩
      show Wired t.manager rest _ _ _
      cases hmv with
      | stack _ _ hne => exact absurd rfl (hne r now)
      | call c hc hm hiff _ =>
        rw [hm, (hiff r now).mpr rfl]
        exact (hout ▸ h.wired).deliver h.session.inv now

theorem Ok.run {es : List Step} (h : Ok s) (hr : run next s es = some s') : Ok s' :=
  run_invariant (P := Ok) (fun _ _ _ h₁ hs => h₁.step hs) hr h

theorem Ok.new (config : Config) (limits : Risk.Limits) (maxLocates : Nat) (silent : Bool) :
    Ok (new config limits maxLocates silent) :=
  ⟨.new config limits maxLocates, .new config limits maxLocates⟩

end System

/-- **Convergence with a conforming exchange.** Whatever the strategy calls, the exchange answers and
does of its own accord, and however the three interleave with the delivery of the reports: no report
is counted as invalid or clamped; every order alive at the exchange is non-terminal in the manager,
with at least the exchange's leaves reserved; and when both queues are empty an order is non-terminal
if and only if its active token is alive at the exchange, it is then live with the exchange's leaves
and executed quantity, and every order alive at the exchange is one of these. -/
theorem converges_with_exchange (config : Config) (limits : Risk.Limits) (maxLocates : Nat) (silent : Bool)
    (es : List System.Step) (s : System)
    (h : run System.next (System.new config limits maxLocates silent) es = some s) :
    (s.session.manager.stats.invalidReports = 0 ∧ s.session.manager.stats.clampedReports = 0) ∧
    (∀ t o, s.exchange.live t = some o → ∃ id e, s.session.manager.entry id = some e ∧
      isTerminal e.info.status = false ∧
      (t = Token.fromId e.token ∨ e.nextToken ≠ 0 ∧ t = Token.fromId e.nextToken) ∧
      o.leaves ≤ s.session.manager.reservedQty id) ∧
    (s.inbox = [] → s.outbox = [] →
      (∀ id e, s.session.manager.entry id = some e →
        (isTerminal e.info.status = false ↔ (s.exchange.live (Token.fromId e.token)).isSome) ∧
        ∀ o, s.exchange.live (Token.fromId e.token) = some o →
          e.info.status = .live ∧ e.nextToken = 0 ∧ e.info.leavesQty = o.leaves ∧ e.info.cumQty = o.executed) ∧
      ∀ t o, s.exchange.live t = some o →
        ∃ id e, s.session.manager.entry id = some e ∧ t = Token.fromId e.token) := by
  have hok := (System.Ok.new config limits maxLocates silent).run h
  have hinv := hok.session.inv
  refine ⟨⟨hok.wired.client.invalid, hok.wired.client.clamped⟩, fun t o ho => hok.wired.reserved hinv ho, ?_⟩
  intro hin hout
  have hw : Wired s.session.manager [] s.exchange.live [] s.exchange.matches_ := by
    have := hok.wired
    rwa [hin, hout] at this
  refine ⟨fun id e he => hw.settled hinv he, fun t o ho => ?_⟩
  obtain ⟨id, e, he, hterm, htok, _⟩ := hw.reserved hinv ho
  refine ⟨id, e, he, htok.resolve_right ?_⟩
  rintro ⟨hn, _⟩
  -- a replacement token would still be unanswered
  obtain ⟨hiff, hall⟩ := hw.settled hinv he
  obtain ⟨o', ho'⟩ := Option.isSome_iff_exists.mp (hiff.mp hterm)
  exact hn (hall o' ho').2.1

/-- An order of 100 is accepted and replaced by one of 150; 30 shares execute before the exchange sees
the replace, and everything is delivered in the end. -/
def System.replaceRace : List System.Step :=
  [.call (.submit { locate := 1, price := 10, qty := 100 } 5 Session.openWorld), .call .ret,
    .answer (some (.accepted { token := Token.fromId 1, side := .buy, shares := 100, price := 10 })),
    .deliver 6, .call .ret,
    .call (.replace 1 10 150 7 Session.openWorld), .call .ret,
    .act (.executed { ts := 8, token := Token.fromId 1, shares := 30, price := 10, matchNo := 1 }),
    .answer (some (.replaced
      { a := { token := Token.fromId 2, side := .buy, shares := 120, price := 10 }, previous := Token.fromId 1 })),
    .deliver 8, .call .ret, .call .ret, .deliver 9, .call .ret]

theorem converges_replace_race :
    ∃ s e, run System.next (System.new {} {} 2 false) System.replaceRace = some s ∧
      s.exchange.live (Token.fromId 2) = some ⟨120, 30⟩ ∧ s.session.manager.entry 1 = some e ∧
      e.info.status = .live ∧ e.info.leavesQty = 120 ∧ e.info.cumQty = 30 := by
  have hview : (run System.next (System.new {} {} 2 false) System.replaceRace).map (fun s =>
      (s.inbox, s.outbox, s.exchange.live (Token.fromId 2), (s.session.manager.entry 1).map Entry.token)) =
      some ([], [], some ⟨120, 30⟩, some 2) := rfl
  obtain ⟨s, hs, hview⟩ := Option.map_eq_some_iff.mp hview
  simp only [Prod.mk.injEq, Option.map_eq_some_iff] at hview
  obtain ⟨hin, hout, ho, e, he, ht⟩ := hview
  obtain ⟨_, _, hq⟩ := converges_with_exchange {} {} 2 false System.replaceRace s hs
  obtain ⟨hlive, _, hleaves, hcum⟩ := ((hq hin hout).1 1 e he).2 ⟨120, 30⟩ (ht ▸ ho)
  exact ⟨s, e, hs, ho, he, hlive, hleaves, hcum⟩

end OptiTrade.Oms
