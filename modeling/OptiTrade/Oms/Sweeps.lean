import Mathlib.Data.Finset.Sort
import OptiTrade.Foundations.CallStack
import OptiTrade.Oms.Exposure

/-! # What one `cancel_all` does

A `cancel_all` is watched from its call to its return, whatever the listener does in between: submits,
cancels, replaces, and other sweeps above it on the stack. The orders it has still to reach are the
ids after its cursor that are not above the last id at the call; no call from a callback adds to them
or takes one away. -/

namespace OptiTrade.Oms
set_option autoImplicit false

open Runs

/-- An order a sweep came to, as it was then, and the message it offered with the gateway's answer. -/
structure Reached where
  order : Entry
  attempt : Option (Ouch.Inbound × Bool)

namespace Reached

/-- The gateway took the cancel. -/
def accepted (r : Reached) : Bool := r.attempt.any Prod.snd

/-- The message, if the gateway took it. -/
def taken (r : Reached) : List Ouch.Inbound := ((r.attempt.filter Prod.snd).map Prod.fst).toList

end Reached

/-- One iteration of a sweep. -/
inductive Turn
  | returns (sent : Nat)
  | reaches (r : Reached)

namespace Session

/-- What the innermost `cancel_all` does in this event, if the event is its iteration. -/
def turn (s : Session) : Event → Option Turn
  | .advance w =>
    match s.stack with
    | .sweep none _ sent _ :: _ => some (.returns sent)
    | .sweep (some i) last sent now :: _ =>
      let e := s.manager.slots i
      if last < e.info.id then some (.returns sent)
      else if e.info.status ≠ .pendingCancel then
        some (.reaches ⟨e, (s.manager.cancelEntry i now w.gateway).sent.map fun msg => (msg, w.gateway msg)⟩)
      else some (.reaches ⟨e, none⟩)
    | _ => none
  | _ => none

end Session

/-- A session with what the watched sweep has reached and sent so far and what it returned. -/
structure Watched where
  session : Session
  reached : List Reached := []
  sent : List Ouch.Inbound := []
  returned : Option Nat := none

namespace Watched

/-- What a turn of the sweep adds to the record. -/
def note (w : Watched) : Option Turn → Watched
  | none => w
  | some (.returns sent) => { w with returned := some sent }
  | some (.reaches r) => { w with reached := w.reached ++ [r] }

/-- A step of the session; it is an iteration of the watched sweep if that has not returned and its
frame, the one over `depth` others, is the topmost. -/
def next (depth : Nat) (w : Watched) (e : Event) : Option Watched :=
  (w.session.step e).map fun (s, fx) =>
    if w.returned = none ∧ w.session.stack.length = depth + 1 then
      { w.note (w.session.turn e) with session := s, sent := w.sent ++ Session.sentIn fx }
    else { w with session := s }

/-- The ids of the orders reached so far. -/
def ids (w : Watched) : List Nat := w.reached.map fun r => r.order.info.id

end Watched

/-! ## Steps of the session around a sweep -/

namespace Session
variable {s s' : Session} {e : Event} {rest : List Frame} {cursor : Option Nat} {last sent now : Nat}

theorem Ok.keeps (h : s.Ok) (hne : s.stack ≠ []) (hn : s.next e = some s') : s.manager.Keeps s'.manager := by
  obtain ⟨fx, hs⟩ := next_some hn
  have hr : ∀ r now, e ≠ .report r now := by
    rintro r now rfl
    simp [Session.step, hne] at hs
  cases (h.step hs).1 with
  | stack hm _ _ => exact hm ▸ .refl _
  | call c hc hm hrep _ => exact hm ▸ OrderManager.perform_keeps h.inv hc fun r now hc => hr r now ((hrep r now).mp hc)

theorem Ok.next (h : s.Ok) (hn : s.next e = some s') : s'.Ok := by
  obtain ⟨fx, hs⟩ := next_some hn
  exact (h.step hs).2

theorem step_sweep (hst : s.stack = .sweep cursor last sent now :: rest) {out : Session × List Effect}
    (hs : s.step e = some out) : ∃ w, e = .advance w ∧ out = s.sweep rest cursor last sent now w := by
  have hmay : s.mayCall = false := by rw [mayCall, hst]
  cases e with
  | advance w =>
    simp only [step, hst, Option.some.injEq] at hs
    exact ⟨w, rfl, hs.symm⟩
  | submit req now w => simp [step, hmay] at hs
  | cancel id now w => simp [step, hmay] at hs
  | replace id p q now w => simp [step, hmay] at hs
  | cancelAll now => simp [step, hmay] at hs
  | ret => simp [step, hst] at hs
  | report r now => simp [step, hst] at hs
  | mark l p => simp [step, hmay] at hs
  | killSwitch on => simp [step, hmay] at hs

theorem next_sweep (hst : s.stack = .sweep cursor last sent now :: rest) (hn : s.next e = some s') :
    ∃ w, e = .advance w ∧ s' = (s.sweep rest cursor last sent now w).1 := by
  obtain ⟨fx, hs⟩ := next_some hn
  obtain ⟨w, he, hout⟩ := step_sweep hst hs
  exact ⟨w, he, congrArg Prod.fst hout⟩

theorem sweep_returns (w : World) (h : ∀ i, cursor = some i → last < (s.manager.slots i).info.id) :
    s.sweep rest cursor last sent now w = (⟨s.manager, rest⟩, []) := by
  unfold sweep
  cases cursor with
  | none => rfl
  | some i =>
    dsimp only
    rw [if_pos (h i rfl)]

/-- An iteration that reaches an order leaves the sweep at the next one, perhaps under a callback. -/
theorem sweep_reaches (rest : List Frame) (sent now : Nat) (w : World) {i : Nat} (hi : (s.manager.slots i).info.id ≤ last) :
    ∃ us sent', (s.sweep rest (some i) last sent now w).1.stack =
        us ++ .sweep (s.manager.links.next i) last sent' now :: rest ∧
      sent' = if (s.manager.slots i).info.status ≠ .pendingCancel ∧
        (s.manager.cancelEntry i now w.gateway).result = .ok then sent + 1 else sent := by
  unfold sweep
  dsimp only
  rw [if_neg (Nat.not_lt.mpr hi)]
  by_cases hpc : (s.manager.slots i).info.status ≠ .pendingCancel
  · rw [if_pos hpc]
    rcases finishCall_stack
      ⟨(s.manager.cancelEntry i now w.gateway).state,
        .sweep (s.manager.links.next i) last
          (if (s.manager.cancelEntry i now w.gateway).result = .ok then sent + 1 else sent) now :: rest⟩
      (s.manager.cancelEntry i now w.gateway) now w with hst | hst
    · exact ⟨[], _, hst, by simp [hpc]⟩
    · exact ⟨[.update], _, hst, by simp [hpc]⟩
  · rw [if_neg hpc]
    exact ⟨[], sent, rfl, by simp [hpc]⟩

theorem sentIn_sweep (w : World) {i : Nat} (hi : (s.manager.slots i).info.id ≤ last) :
    sentIn (s.sweep rest (some i) last sent now w).2 =
      if (s.manager.slots i).info.status ≠ .pendingCancel then
        ((s.manager.cancelEntry i now w.gateway).sent.filter w.gateway).toList
      else [] := by
  unfold sweep
  dsimp only
  rw [if_neg (Nat.not_lt.mpr hi)]
  by_cases hpc : (s.manager.slots i).info.status ≠ .pendingCancel
  · rw [if_pos hpc, if_pos hpc, sentIn_finishCall]
  · rw [if_neg hpc, if_neg hpc]
    rfl

/-- A step touches the topmost frame only. -/
theorem framed : Framed next stack := by
  intro s e s' f rest hst hn
  obtain ⟨fx, hs⟩ := next_some hn
  have hcall : ∀ {α : Type} (out : OrderManager.Outcome α) (now : Nat) (w : World),
      ∃ us, (s.finishCall out now w).1.stack = us ++ rest := by
    intro α out now w
    rcases s.finishCall_stack out now w with h | h
    · exact ⟨[f], h.trans hst⟩
    · exact ⟨[.update, f], by rw [h, hst]; rfl⟩
  cases e with
  | submit req now w =>
    simp only [step, Option.ite_none_right_eq_some, Option.some.injEq] at hs
    rw [← show _ = s' from congrArg Prod.fst hs.2]
    exact hcall _ now w
  | cancel id now w =>
    simp only [step, Option.ite_none_right_eq_some, Option.some.injEq] at hs
    rw [← show _ = s' from congrArg Prod.fst hs.2]
    exact hcall _ now w
  | replace id p q now w =>
    simp only [step, Option.ite_none_right_eq_some, Option.some.injEq] at hs
    rw [← show _ = s' from congrArg Prod.fst hs.2]
    exact hcall _ now w
  | cancelAll now =>
    simp only [step, Option.ite_none_right_eq_some, Option.some.injEq, Prod.mk.injEq] at hs
    obtain ⟨_, rfl, _⟩ := hs
    exact ⟨[_, f], by rw [hst]; rfl⟩
  | advance w =>
    cases f with
    | sweep cursor last sent now =>
      obtain ⟨w, _, rfl⟩ := next_sweep hst hn
      by_cases h : ∀ i, cursor = some i → last < (s.manager.slots i).info.id
      · exact ⟨[], congrArg (fun out => out.1.stack) (sweep_returns w h)⟩
      · simp only [not_forall, Nat.not_lt] at h
        obtain ⟨i, rfl, hi⟩ := h
        obtain ⟨us, sent', hus, _⟩ := sweep_reaches rest sent now w hi
        exact ⟨us ++ [.sweep (s.manager.links.next i) last sent' now], by rw [hus]; simp⟩
    | update => simp [step, hst] at hs
    | fill before => simp [step, hst] at hs
  | ret =>
    cases f with
    | sweep cursor last sent now => simp [step, hst] at hs
    | update =>
      simp only [step, hst, Option.some.injEq, Prod.mk.injEq] at hs
      exact ⟨[], congrArg stack hs.1.symm⟩
    | fill before =>
      simp only [step, hst, Option.some.injEq, Prod.mk.injEq] at hs
      exact ⟨[.update], congrArg stack hs.1.symm⟩
  | report r now => simp [step, hst] at hs
  | mark l p =>
    simp only [step, Option.ite_none_right_eq_some, Option.some.injEq, Prod.mk.injEq] at hs
    obtain ⟨_, rfl, _⟩ := hs
    exact ⟨[f], hst⟩
  | killSwitch on =>
    simp only [step, Option.ite_none_right_eq_some, Option.some.injEq, Prod.mk.injEq] at hs
    obtain ⟨_, rfl, _⟩ := hs
    exact ⟨[f], hst⟩

end Session
/-! ## The orders still to reach -/

theorem mem_of_sorted {pre suf : List Nat} {a b : Nat} (h : (pre ++ a :: suf).Pairwise (· < ·)) :
    b ∈ suf ↔ b ∈ pre ++ a :: suf ∧ a < b := by
  obtain ⟨_, hsuf, hpre⟩ := List.pairwise_append.mp h
  constructor
  · intro hb
    exact ⟨by simp [hb], (List.pairwise_cons.mp hsuf).1 b hb⟩
  · rintro ⟨hb, hlt⟩
    rcases List.mem_append.mp hb with hb | hb
    · have := hpre b hb a List.mem_cons_self
      omega
    · rcases List.mem_cons.mp hb with rfl | hb
      · exact absurd hlt (lt_irrefl b)
      · exact hb

theorem head_filter_of_sorted {xs : List Nat} (h : xs.Pairwise (· < ·)) (last : Nat) :
    (xs.filter (· ≤ last)).head? = xs.head?.filter (· ≤ last) := by
  cases xs with
  | nil => rfl
  | cons x xs =>
    by_cases hx : x ≤ last
    · simp [hx, Option.filter]
    · have hnil : xs.filter (· ≤ last) = [] := by
        rw [List.filter_eq_nil_iff]
        intro y hy
        have := (List.pairwise_cons.mp h).1 y hy
        simp only [decide_eq_true_eq]
        omega
      simp [hx, hnil, Option.filter]

namespace OrderManager
variable {m m' : OrderManager} {cursor : Option Nat} {last : Nat} {pre suf : List Nat}

/-- The order the cursor is at, if the sweep will reach it. -/
def due (m : OrderManager) (cursor : Option Nat) (last : Nat) : Option Nat :=
  (cursor.map fun i => (m.slots i).info.id).filter (· ≤ last)

/-- The sweep has been at the orders `pre` and has the orders `suf` to reach. -/
structure Midway (m : OrderManager) (cursor : Option Nat) (last : Nat) (pre suf : List Nat) : Prop where
  last_lt : last < m.nextId
  mem : ∀ id, id ∈ pre ++ suf ↔ id ≤ last ∧ ∃ i < m.fresh, (m.slots i).working = true ∧ (m.slots i).info.id = id
  sorted : (pre ++ suf).Pairwise (· < ·)
  head : suf.head? = m.due cursor last

/-- No call from a callback changes which orders are to be reached. -/
theorem Midway.keeps (h : Midway m cursor last pre suf) (hk : Keeps m m')
    (hcur : ∀ i, cursor = some i → i < m.fresh ∧ (m.slots i).working = true) : Midway m' cursor last pre suf where
  last_lt := h.last_lt.trans_le hk.nextId
  mem := fun id => by
    rw [h.mem]
    refine and_congr_right fun hid => ⟨?_, ?_⟩
    · rintro ⟨i, hi, hw, rfl⟩
      obtain ⟨hi', hw', hid'⟩ := hk.kept i hi hw
      exact ⟨i, hi', hw', hid'⟩
    · rintro ⟨i, hi', hw', rfl⟩
      rcases hk.old i hi' hw' with ⟨hi, hw⟩ | hge
      · exact ⟨i, hi, hw, (hk.kept i hi hw).2.2.symm⟩
      · have := h.last_lt
        omega
  sorted := h.sorted
  head := by
    rw [h.head]
    cases cursor with
    | none => rfl
    | some i =>
      obtain ⟨hi, hw⟩ := hcur i rfl
      simp only [due, Option.map_some, (hk.kept i hi hw).2.2]

/-- The order after the one the cursor is at is the next one to reach. -/
theorem Midway.forward (h : Midway m cursor last pre suf) (hinv : Inv m) {i : Nat} (hc : cursor = some i)
    (hi : i < m.fresh) (hw : (m.slots i).working = true) (hid : (m.slots i).info.id ≤ last) :
    ∃ suf', suf = (m.slots i).info.id :: suf' ∧
      Midway m (m.links.next i) last (pre ++ [(m.slots i).info.id]) suf' := by
  have hhead := h.head
  simp only [hc, due, Option.map_some, Option.filter, decide_eq_true hid, if_true] at hhead
  obtain ⟨suf', rfl⟩ : ∃ suf', suf = (m.slots i).info.id :: suf' := List.head?_eq_some_iff.mp hhead
  refine ⟨suf', rfl, h.last_lt, by simpa using h.mem, by simpa using h.sorted, ?_⟩
  obtain ⟨ws, hlinked, hmem, hsorted, _⟩ := hinv.places.list
  obtain ⟨as, bs, rfl⟩ := List.append_of_mem ((hmem i).mpr ⟨hi, hw⟩)
  have hsorted' : (as.map (fun j => (m.slots j).info.id) ++
      (m.slots i).info.id :: bs.map fun j => (m.slots j).info.id).Pairwise (· < ·) := by
    simpa using List.pairwise_map.mpr hsorted
  have hbs := (List.pairwise_cons.mp (List.pairwise_append.mp hsorted').2.1).2
  -- what is still to reach is what the working list holds behind `i`, up to `last`
  have hsuf : suf' = (bs.map fun j => (m.slots j).info.id).filter (· ≤ last) := by
    refine (List.Pairwise.eq_of_mem_iff (List.pairwise_cons.mp (List.pairwise_append.mp h.sorted).2.1).2
      (hbs.filter _) fun id => ?_)
    rw [mem_of_sorted h.sorted, h.mem, List.mem_filter, mem_of_sorted hsorted', decide_eq_true_eq]
    have hin : id ∈ as.map (fun j => (m.slots j).info.id) ++
        (m.slots i).info.id :: bs.map (fun j => (m.slots j).info.id) ↔
        ∃ j < m.fresh, (m.slots j).working = true ∧ (m.slots j).info.id = id := by
      have hmap : as.map (fun j => (m.slots j).info.id) ++ (m.slots i).info.id :: bs.map (fun j => (m.slots j).info.id)
          = (as ++ i :: bs).map fun j => (m.slots j).info.id := by simp
      rw [hmap, List.mem_map]
      simp only [hmem, and_assoc]
    rw [hin]
    tauto
  rw [hsuf, head_filter_of_sorted hbs, hlinked.next as i bs rfl, List.head?_map, due]

/-- A sweep starts with every order that is not terminal before it. -/
theorem Inv.midway (h : Inv m) : Midway m m.working.head (m.nextId - 1) [] m.nonTerminal.sort := by
  have hmem : ∀ id, id ∈ m.nonTerminal ↔
      ∃ i < m.fresh, (m.slots i).working = true ∧ (m.slots i).info.id = id := by
    intro id
    rw [h.mem_nonTerminal]
    constructor
    · rintro ⟨info, hf, ht⟩
      obtain ⟨i, hi, hid, rfl⟩ := h.find_some.mp hf
      exact ⟨i, hi, by simpa [Entry.working] using ht, hid⟩
    · rintro ⟨i, hi, hw, hid⟩
      exact ⟨_, h.find_some.mpr ⟨i, hi, hid, rfl⟩, by simpa [Entry.working] using hw⟩
  have hle : ∀ i < m.fresh, (m.slots i).info.id ≤ m.nextId - 1 := fun i hi => by
    have := h.ids.id_lt i hi
    omega
  refine ⟨?_, fun id => ?_, m.nonTerminal.sortedLT_sort.pairwise, ?_⟩
  · exact Nat.sub_lt h.nextId_pos one_pos
  · rw [List.nil_append, Finset.mem_sort, hmem]
    constructor
    · rintro ⟨i, hi, hw, rfl⟩
      exact ⟨hle i hi, i, hi, hw, rfl⟩
    · exact fun hx => hx.2
  · obtain ⟨ws, hlinked, hws, hsorted, _⟩ := h.places.list
    have hids : m.nonTerminal.sort = ws.map fun i => (m.slots i).info.id := by
      refine (m.nonTerminal.sortedLT_sort).eq_of_mem_iff (List.pairwise_map.mpr hsorted).sortedLT fun id => ?_
      rw [Finset.mem_sort, hmem, List.mem_map]
      constructor
      · rintro ⟨i, hi, hw, hid⟩
        exact ⟨i, (hws i).mpr ⟨hi, hw⟩, hid⟩
      · rintro ⟨i, hi, hid⟩
        exact ⟨i, ((hws i).mp hi).1, ((hws i).mp hi).2, hid⟩
    rw [hids, hlinked.head, List.head?_map]
    cases ws with
    | nil => rfl
    | cons i ws =>
      have := hle i ((hws i).mp List.mem_cons_self).1
      simp [due, this, Option.filter]

end OrderManager

/-! ## The watched sweep -/

namespace OrderManager

theorem cancelEntry_offer {m : OrderManager} {i : Nat} (hw : (m.slots i).working = true)
    (hpc : (m.slots i).info.status ≠ .pendingCancel) (now : Nat) (gateway : Ouch.Inbound → Bool) :
    ∃ msg, msg = Ouch.Inbound.cancel
        ⟨Ouch.Token.fromId (if (m.slots i).nextToken ≠ 0 then (m.slots i).nextToken else (m.slots i).token), 0⟩ ∧
      (m.cancelEntry i now gateway).sent = some msg ∧
      ((m.cancelEntry i now gateway).result = .ok ↔ gateway msg = true) := by
  refine ⟨_, rfl, ?_⟩
  have hlive : isTerminal (m.slots i).info.status = false := by simpa [Entry.working] using hw
  unfold cancelEntry
  dsimp only
  generalize (if (m.slots i).nextToken ≠ 0 then (m.slots i).nextToken else (m.slots i).token) = target
  rw [if_neg (by simp [hlive, hpc])]
  by_cases hg : gateway (.cancel ⟨Ouch.Token.fromId target, 0⟩) = true
  · rw [if_neg (by simp [hg])]
    simp [hg]
  · rw [if_pos (by simpa using hg)]
    simp [hg]

end OrderManager

/-- The cancel a sweep offers for an order it reaches: none while one is in flight, else to the
replacement token while a replace is in flight, else to the active token. -/
def Reached.Offers (r : Reached) : Prop :=
  r.attempt.map Prod.fst =
    if r.order.info.status = .pendingCancel then none
    else some (.cancel
      ⟨Ouch.Token.fromId (if r.order.nextToken ≠ 0 then r.order.nextToken else r.order.token), 0⟩)

namespace Session
variable {s s' : Session} {ev : Event} {rest : List Frame} {last sent now i : Nat}

theorem turn_returns {cursor : Option Nat} (hst : s.stack = .sweep cursor last sent now :: rest) (w : World)
    (h : ∀ i, cursor = some i → last < (s.manager.slots i).info.id) :
    s.turn (.advance w) = some (.returns sent) := by
  cases cursor with
  | none => simp only [turn, hst]
  | some i =>
    simp only [turn, hst]
    rw [if_pos (h i rfl)]

/-- An iteration that reaches the order in slot `i`. -/
theorem turn_reaches (hst : s.stack = .sweep (some i) last sent now :: rest) (w : World)
    (hw : (s.manager.slots i).working = true) (hi : (s.manager.slots i).info.id ≤ last) :
    ∃ r, s.turn (.advance w) = some (.reaches r) ∧ r.order = s.manager.slots i ∧ r.Offers ∧
      r.taken = sentIn (s.sweep rest (some i) last sent now w).2 ∧
      (r.accepted = true ↔ (s.manager.slots i).info.status ≠ .pendingCancel ∧
        (s.manager.cancelEntry i now w.gateway).result = .ok) := by
  rw [sentIn_sweep w hi]
  simp only [turn, hst]
  rw [if_neg (Nat.not_lt.mpr hi)]
  by_cases hpc : (s.manager.slots i).info.status ≠ .pendingCancel
  · obtain ⟨msg, hmsg, hsent, hok⟩ := OrderManager.cancelEntry_offer hw hpc now w.gateway
    rw [if_pos hpc, if_pos hpc]
    refine ⟨_, rfl, rfl, ?_, ?_, ?_⟩
    · simp [Reached.Offers, hsent, hmsg, hpc]
    · rw [hsent]
      by_cases hg : w.gateway msg = true <;> simp [Reached.taken, Option.filter, hg]
    · simp [Reached.accepted, hsent, hok, hpc]
  · rw [if_neg hpc, if_neg hpc]
    refine ⟨_, rfl, rfl, ?_, rfl, ?_⟩
    · simpa [Reached.Offers] using hpc
    · simp [Reached.accepted, not_not.mp hpc]

end Session

namespace Watched
variable {ids : List Nat} {rest : List Frame} {w w' : Watched} {ev : Event}

/-- Where the watched sweep is: under the frames it has caused, or back. -/
inductive Phase (ids : List Nat) (rest : List Frame) (w : Watched) : Prop
  | running (us : List Frame) (cursor : Option Nat) (last now : Nat) (suf : List Nat) :
      w.returned = none →
      w.session.stack = us ++ .sweep cursor last (w.reached.countP Reached.accepted) now :: rest →
      ids = w.ids ++ suf → w.session.manager.Midway cursor last w.ids suf → Phase ids rest w
  | back : w.returned = some (w.reached.countP Reached.accepted) → w.ids = ids → Phase ids rest w

/-- **The invariant** of a sweep under way: `ids` were working when it began, `rest` is what was in progress then. -/
structure Ok (ids : List Nat) (rest : List Frame) (w : Watched) : Prop where
  session : w.session.Ok
  offers : ∀ r ∈ w.reached, r.Offers
  sent : w.sent = w.reached.flatMap Reached.taken
  phase : Phase ids rest w

theorem next_some {depth : Nat} (h : w.next depth ev = some w') :
    ∃ s fx, w.session.step ev = some (s, fx) ∧ w.session.next ev = some s ∧
      w' = if w.returned = none ∧ w.session.stack.length = depth + 1 then
          { w.note (w.session.turn ev) with session := s, sent := w.sent ++ Session.sentIn fx }
        else { w with session := s } := by
  unfold next at h
  obtain ⟨⟨s, fx⟩, h₁, h₂⟩ := Option.map_eq_some_iff.mp h
  exact ⟨s, fx, h₁, by rw [Session.next, h₁]; rfl, h₂.symm⟩

/-- The watched sweep's own iteration. -/
theorem Ok.own (h : Ok ids rest w) (hret : w.returned = none) {cursor : Option Nat} {last now : Nat}
    {suf : List Nat} (hst : w.session.stack = .sweep cursor last (w.reached.countP Reached.accepted) now :: rest)
    (hids : ids = w.ids ++ suf) (hmid : w.session.manager.Midway cursor last w.ids suf)
    (hn : w.next rest.length ev = some w') : Ok ids rest w' := by
  obtain ⟨s, fx, hstep, hs, hw'⟩ := next_some hn
  rw [if_pos ⟨hret, by rw [hst]; rfl⟩] at hw'
  have hok := h.session.next hs
  have hkeeps := h.session.keeps (by rw [hst]; simp) hs
  obtain ⟨g, rfl, hsweep⟩ := Session.step_sweep hst hstep
  have hs' := congrArg Prod.fst hsweep
  have hfx := congrArg Prod.snd hsweep
  dsimp only at hs' hfx
  by_cases hdone : ∀ i, cursor = some i → last < (w.session.manager.slots i).info.id
  · -- nothing is left to reach
    rw [Session.turn_returns hst g hdone] at hw'
    subst hw'
    have hsuf : suf = [] := by
      rw [← List.head?_eq_none_iff, hmid.head, OrderManager.due]
      cases cursor with
      | none => rfl
      | some i => simp [Option.filter, Nat.not_le.mpr (hdone i rfl)]
    refine ⟨hok, h.offers, ?_, .back rfl (by rw [hids, hsuf, List.append_nil]; rfl)⟩
    show w.sent ++ Session.sentIn fx = w.reached.flatMap Reached.taken
    rw [hfx, Session.sweep_returns g hdone, h.sent]
    simp [Session.sentIn]
  · simp only [not_forall, Nat.not_lt] at hdone
    obtain ⟨i, rfl, hi⟩ := hdone
    obtain ⟨hfresh, hworking⟩ := h.session.cursors i _ _ _ (by rw [hst]; exact List.mem_cons_self)
    obtain ⟨r, hturn, horder, hoffers, htaken, hacc⟩ := Session.turn_reaches hst g hworking hi
    obtain ⟨us, sent', hus, hsent'⟩ :=
      Session.sweep_reaches rest (w.reached.countP Reached.accepted) now g hi
    obtain ⟨suf', rfl, hmid'⟩ := hmid.forward h.session.inv rfl hfresh hworking hi
    rw [hturn] at hw'
    subst hw'
    have hids' : w.ids ++ [(w.session.manager.slots i).info.id] =
        (w.reached ++ [r]).map fun r => r.order.info.id := by
      rw [List.map_append, List.map_singleton, horder]
      rfl
    have hcount : (w.reached ++ [r]).countP Reached.accepted = sent' := by
      rw [hsent', List.countP_append, List.countP_singleton]
      by_cases hr : r.accepted = true
      · rw [if_pos hr, if_pos (hacc.mp hr)]
      · rw [if_neg hr, if_neg (mt hacc.mpr hr), Nat.add_zero]
    refine ⟨hok, fun x hx => ?_, ?_, .running us (w.session.manager.links.next i) last now suf' hret ?_ ?_ ?_⟩
    · rcases List.mem_append.mp hx with hx | hx
      · exact h.offers x hx
      · rw [List.mem_singleton.mp hx]
        exact hoffers
    · show w.sent ++ Session.sentIn fx = (w.reached ++ [r]).flatMap Reached.taken
      rw [hfx, ← htaken, h.sent, List.flatMap_append]
      simp
    · show s.stack = us ++ .sweep _ last ((w.reached ++ [r]).countP Reached.accepted) now :: rest
      rw [hcount, hs', hus]
    · show ids = (w.reached ++ [r]).map (fun r => r.order.info.id) ++ suf'
      rw [hids, ← hids', List.append_assoc]
      rfl
    · show s.manager.Midway _ last ((w.reached ++ [r]).map fun r => r.order.info.id) suf'
      rw [← hids']
      refine hmid'.keeps hkeeps fun j hj => ?_
      obtain ⟨ws, hlinked, hmem, _, _⟩ := h.session.inv.places.list
      exact (hmem j).mp (hlinked.next_mem ((hmem i).mpr ⟨hfresh, hworking⟩) hj)

theorem Ok.step (h : Ok ids rest w) (hn : w.next rest.length ev = some w') : Ok ids rest w' := by
  obtain ⟨s, _, _, hs, hw'⟩ := next_some hn
  cases h.phase with
  | running us cursor last now suf hret hst hids hmid =>
    by_cases hus : us = []
    · subst hus
      exact h.own hret hst hids hmid hn
    · -- the sweep waits for what is above it
      have hlen : ¬w.session.stack.length = rest.length + 1 := by
        rw [hst, List.length_append, List.length_cons]
        have := List.length_pos_of_ne_nil hus
        omega
      rw [if_neg (fun hc => hlen hc.2)] at hw'
      subst hw'
      obtain ⟨us', hst'⟩ := Session.framed.below hus hst hs
      refine ⟨h.session.next hs, h.offers, h.sent, .running us' cursor last now suf hret hst' hids (hmid.keeps ?_ ?_)⟩
      · exact h.session.keeps (by rw [hst]; simp) hs
      · rintro i rfl
        exact h.session.cursors i _ _ _ (by rw [hst]; exact List.mem_append_right us List.mem_cons_self)
  | back hret hids =>
    rw [if_neg (by simp [hret])] at hw'
    subst hw'
    exact ⟨h.session.next hs, h.offers, h.sent, .back hret hids⟩

theorem Ok.run {es : List Event} (h : Ok ids rest w) (hr : run (next rest.length) w es = some w') : Ok ids rest w' :=
  run_invariant (P := Ok ids rest) (fun _ _ _ h₁ hs => h₁.step hs) hr h

theorem Ok.start {s s₀ : Session} (h : s.Ok) {now : Nat} (hs : s.next (.cancelAll now) = some s₀) :
    Ok s.manager.nonTerminal.sort s.stack { session := s₀ } := by
  refine ⟨h.next hs, by simp, rfl, ?_⟩
  obtain ⟨fx, hstep⟩ := Session.next_some hs
  simp only [Session.step, Option.ite_none_right_eq_some, Option.some.injEq, Prod.mk.injEq] at hstep
  obtain ⟨_, rfl, _⟩ := hstep
  exact .running [] _ _ now _ rfl rfl rfl h.inv.midway

end Watched

/-! ## The sweep returns -/

/-- A call the running code makes: everything but its return and the iterations of a sweep. -/
def Event.isCall : Event → Bool
  | .ret => false
  | .advance _ => false
  | _ => true

section
variable {s : ℕ → Session} {e : ℕ → Event}

/-- At `m` the callback that was running at `n` makes a call: it has not returned in between. -/
def CallsAt (s : ℕ → Session) (e : ℕ → Event) (n m : ℕ) : Prop :=
  n ≤ m ∧ (∀ k, n ≤ k → k ≤ m → (s n).stack.length ≤ (s k).stack.length) ∧
    (s m).stack.length = (s n).stack.length ∧ (e m).isCall = true

/-- Until the sweep over `depth` frames returns, callbacks nest only so deep, and each makes finitely many
calls. -/
structure FinitelyDeep (depth : ℕ) (s : ℕ → Session) (e : ℕ → Event) : Prop where
  nesting : ∃ bound, ∀ n, (∀ k ≤ n, depth < (s k).stack.length) → (s n).stack.length ≤ bound
  calls : ∀ n, (∀ k ≤ n, depth < (s k).stack.length) → depth + 1 < (s n).stack.length →
    {m | CallsAt s e n m}.Finite

/-- A running callback. -/
def Frame.IsCallback : Frame → Prop
  | .sweep .. => False
  | _ => True

/-- What a sweep has before it, by ids. -/
def Session.gap (s : Session) : Frame → ℕ
  | .sweep (some i) last _ _ => last + 1 - (s.manager.slots i).info.id
  | _ => 0

/-- A sweep does not go on for ever. -/
theorem Session.no_endless_sweep (hrun : Behavior Session.next s e) {N : ℕ} {rest : List Frame}
    (hok : (s N).Ok) (ha : Activation Session.stack s N rest)
    (hs : ∀ us f, (s N).stack = us ++ f :: rest → ¬f.IsCallback) : False := by
  refine ha.false_of_measure (P := fun s f => s.Ok ∧ ¬f.IsCallback) Session.framed hrun (μ := Session.gap) ?_ ?_
    fun us f hf => ⟨hok, hs us f hf⟩
  · rintro s e s' f us g hst ⟨hok, hf⟩ hn hst'
    cases f with
    | update => exact absurd trivial hf
    | fill before => exact absurd trivial hf
    | sweep cursor last sent now =>
      have hkeeps := hok.keeps (by rw [hst]; simp) hn
      have hok' := hok.next hn
      obtain ⟨w, _, rfl⟩ := Session.next_sweep hst hn
      by_cases hdone : ∀ i, cursor = some i → last < (s.manager.slots i).info.id
      · rw [Session.sweep_returns w hdone] at hst'
        exact (not_popped hst').elim
      · simp only [not_forall, Nat.not_lt] at hdone
        obtain ⟨i, rfl, hi⟩ := hdone
        obtain ⟨us', sent', hus, _⟩ := Session.sweep_reaches rest sent now w hi
        obtain ⟨_, rfl⟩ := cons_inj_of_append (hus.symm.trans hst')
        refine ⟨⟨hok', id⟩, ?_⟩
        obtain ⟨hfresh, hworking⟩ := hok.cursors i _ _ _ (by rw [hst]; exact List.mem_cons_self)
        cases hnext : s.manager.links.next i with
        | none =>
          simp only [Session.gap]
          omega
        | some j =>
          obtain ⟨ws, hlinked, hmem, hsorted, _⟩ := hok.inv.places.list
          obtain ⟨as, bs, rfl⟩ := List.append_of_mem ((hmem i).mpr ⟨hfresh, hworking⟩)
          have hj : j ∈ bs := List.mem_of_head? ((hlinked.next as i bs rfl).symm.trans hnext)
          have hlt := (List.pairwise_cons.mp (List.pairwise_append.mp hsorted).2.1).1 j hj
          obtain ⟨hjf, hjw⟩ := (hmem j).mp (by simp [hj])
          have hid := (hkeeps.kept j hjf hjw).2.2
          simp only [Session.gap]
          omega
  · rintro s e s' f us hus hst ⟨hok, hf⟩ hn
    refine ⟨⟨hok.next hn, hf⟩, le_of_eq ?_⟩
    cases f with
    | update => rfl
    | fill before => rfl
    | sweep cursor last sent now =>
      cases cursor with
      | none => rfl
      | some i =>
        obtain ⟨hi, hw⟩ := hok.cursors i _ _ _ (by rw [hst]; exact List.mem_append_right us List.mem_cons_self)
        have hkeeps := hok.keeps (by rw [hst]; simp) hn
        simp only [Session.gap, (hkeeps.kept i hi hw).2.2]

/-- What a callback does: it returns, a fill going on to its update, or makes a call. -/
theorem Session.next_callback {s s' : Session} {e : Event} {f : Frame} {rest : List Frame} (hf : f.IsCallback)
    (hst : s.stack = f :: rest) (hn : s.next e = some s') :
    (e = .ret ∧ s'.stack = rest) ∨ (e = .ret ∧ (∃ before, f = .fill before) ∧ s'.stack = .update :: rest) ∨
      (e.isCall = true ∧ ∃ us, s'.stack = us ++ f :: rest) := by
  obtain ⟨fx, hs⟩ := Session.next_some hn
  have hcall : ∀ {α : Type} (out : OrderManager.Outcome α) (now : Nat) (w : World),
      ∃ us, (s.finishCall out now w).1.stack = us ++ f :: rest := by
    intro α out now w
    rcases s.finishCall_stack out now w with h | h
    · exact ⟨[], h.trans hst⟩
    · exact ⟨[.update], by rw [h, hst]; rfl⟩
  cases e with
  | submit req now w =>
    simp only [Session.step, Option.ite_none_right_eq_some, Option.some.injEq] at hs
    rw [← show _ = s' from congrArg Prod.fst hs.2]
    exact .inr (.inr ⟨rfl, hcall _ now w⟩)
  | cancel id now w =>
    simp only [Session.step, Option.ite_none_right_eq_some, Option.some.injEq] at hs
    rw [← show _ = s' from congrArg Prod.fst hs.2]
    exact .inr (.inr ⟨rfl, hcall _ now w⟩)
  | replace id p q now w =>
    simp only [Session.step, Option.ite_none_right_eq_some, Option.some.injEq] at hs
    rw [← show _ = s' from congrArg Prod.fst hs.2]
    exact .inr (.inr ⟨rfl, hcall _ now w⟩)
  | cancelAll now =>
    simp only [Session.step, Option.ite_none_right_eq_some, Option.some.injEq, Prod.mk.injEq] at hs
    obtain ⟨_, rfl, _⟩ := hs
    exact .inr (.inr ⟨rfl, [_], by rw [hst]; rfl⟩)
  | advance w =>
    cases f with
    | sweep cursor last sent now => exact hf.elim
    | update => simp [Session.step, hst] at hs
    | fill before => simp [Session.step, hst] at hs
  | ret =>
    cases f with
    | sweep cursor last sent now => exact hf.elim
    | update =>
      simp only [Session.step, hst, Option.some.injEq, Prod.mk.injEq] at hs
      exact .inl ⟨rfl, congrArg Session.stack hs.1.symm⟩
    | fill before =>
      simp only [Session.step, hst, Option.some.injEq, Prod.mk.injEq] at hs
      exact .inr (.inl ⟨rfl, ⟨before, rfl⟩, congrArg Session.stack hs.1.symm⟩)
  | report r now => simp [Session.step, hst] at hs
  | mark l p =>
    simp only [Session.step, Option.ite_none_right_eq_some, Option.some.injEq, Prod.mk.injEq] at hs
    obtain ⟨_, rfl, _⟩ := hs
    exact .inr (.inr ⟨rfl, [], hst⟩)
  | killSwitch on =>
    simp only [Session.step, Option.ite_none_right_eq_some, Option.some.injEq, Prod.mk.injEq] at hs
    obtain ⟨_, rfl, _⟩ := hs
    exact .inr (.inr ⟨rfl, [], hst⟩)

theorem not_always_calls {N : ℕ} {rest : List Frame} (ha : Activation Session.stack s N rest)
    (hfin : ∀ n, rest.length < (s n).stack.length → {m | CallsAt s e n m}.Finite)
    (hcalls : ∀ m ≥ N, ∀ f, (s m).stack = f :: rest → (e m).isCall = true) : False := by
  obtain ⟨n, hn, g, hg⟩ := ha.often N
  have hlen : ∀ {m f}, (s m).stack = f :: rest → (s m).stack.length = (s n).stack.length := by
    intro m f hm
    rw [hm, hg]
    rfl
  refine Set.infinite_of_forall_exists_gt (s := {m | CallsAt s e n m}) (fun k => ?_)
    (hfin n (by rw [hg]; exact Nat.lt_succ_self _))
  obtain ⟨m, hm, f, hf⟩ := ha.often (max n (k + 1))
  have hnm : n ≤ m := (le_max_left _ _).trans hm
  refine ⟨m, ⟨hnm, fun j hnj _ => ?_, hlen hf, hcalls m (hn.trans hnm) f hf⟩,
    Nat.lt_of_succ_le ((le_max_right _ _).trans hm)⟩
  obtain ⟨us, f', hf'⟩ := ha.above j (hn.trans hnj)
  rw [hg, hf', List.length_append, List.length_cons, List.length_cons]
  omega

/-- An update does not go on for ever. -/
theorem no_endless_update (hrun : Behavior Session.next s e) {N : ℕ} {rest : List Frame}
    (ha : Activation Session.stack s N rest)
    (hfin : ∀ n, rest.length < (s n).stack.length → {m | CallsAt s e n m}.Finite)
    (hN : (s N).stack = .update :: rest) : False := by
  have hcb : Frame.update.IsCallback := trivial
  have hupdate : ∀ m ≥ N, ∀ us f, (s m).stack = us ++ f :: rest → f = .update := by
    refine ha.invariant (P := fun _ f => f = .update) Session.framed hrun ?_ ?_ ?_
    · rintro s e s' f us g hst rfl hn hst'
      rcases Session.next_callback hcb hst hn with ⟨_, h⟩ | ⟨_, ⟨_, hfill⟩, _⟩ | ⟨_, us', h⟩
      · exact (not_popped (h.symm.trans hst')).elim
      · cases hfill
      · exact (cons_inj_of_append (h.symm.trans hst')).2.symm
    · exact fun _ _ _ _ _ _ _ h _ => h
    · intro us f h
      exact (cons_inj_of_append (((List.nil_append _).trans hN.symm).trans h)).2.symm
  refine not_always_calls ha hfin fun m hm f hst => ?_
  obtain rfl := hupdate m hm [] f hst
  obtain ⟨us, g, hnext⟩ := ha.above (m + 1) (Nat.le_succ_of_le hm)
  rcases Session.next_callback hcb hst (hrun m) with ⟨_, h⟩ | ⟨_, ⟨_, hfill⟩, _⟩ | ⟨h, _⟩
  · exact (not_popped (h.symm.trans hnext)).elim
  · cases hfill
  · exact h

/-- A callback does not go on for ever. -/
theorem no_endless_callback (hrun : Behavior Session.next s e) {N : ℕ} {rest : List Frame}
    (ha : Activation Session.stack s N rest)
    (hfin : ∀ n, rest.length < (s n).stack.length → {m | CallsAt s e n m}.Finite)
    (hN : ∀ us f, (s N).stack = us ++ f :: rest → f.IsCallback) : False := by
  have hcb : ∀ m ≥ N, ∀ us f, (s m).stack = us ++ f :: rest → f.IsCallback := by
    refine ha.invariant (P := fun _ f => f.IsCallback) Session.framed hrun ?_ ?_ hN
    · rintro s e s' f us g hst hf hn hst'
      rcases Session.next_callback hf hst hn with ⟨_, h⟩ | ⟨_, _, h⟩ | ⟨_, us', h⟩
      · exact (not_popped (h.symm.trans hst')).elim
      · obtain ⟨_, rfl⟩ := cons_inj_of_append (((List.nil_append _).trans h.symm).trans hst')
        trivial
      · obtain ⟨_, rfl⟩ := cons_inj_of_append (h.symm.trans hst')
        exact hf
    · exact fun _ _ _ _ _ _ _ h _ => h
  have hturn : ∀ m ≥ N, ∀ f, (s m).stack = f :: rest →
      (s (m + 1)).stack = .update :: rest ∨ (e m).isCall = true := by
    intro m hm f hst
    obtain ⟨us, g, hnext⟩ := ha.above (m + 1) (Nat.le_succ_of_le hm)
    rcases Session.next_callback (hcb m hm [] f hst) hst (hrun m) with ⟨_, h⟩ | ⟨_, _, h⟩ | ⟨h, _⟩
    · exact (not_popped (h.symm.trans hnext)).elim
    · exact .inl h
    · exact .inr h
  refine not_always_calls ha hfin fun m hm f hst => ?_
  rcases hturn m hm f hst with h | h
  · exact (no_endless_update hrun (ha.later (Nat.le_succ_of_le hm)) hfin h).elim
  · exact h

end
namespace Watched
variable {ids : List Nat} {rest : List Frame} {w : Watched}

theorem run_of_session {depth : Nat} {es : List Event} {s : Session} (hr : run Session.next w.session es = some s) :
    ∃ w', run (next depth) w es = some w' ∧ w'.session = s := by
  induction es generalizing w with
  | nil => exact ⟨w, rfl, Option.some.inj hr⟩
  | cons e es ih =>
    obtain ⟨s₁, hs₁, hr⟩ := run_cons_some hr
    obtain ⟨fx, hstep⟩ := Session.next_some hs₁
    have hnext : ∃ w₁, w.next depth e = some w₁ ∧ w₁.session = s₁ := by
      unfold next
      rw [hstep]
      refine ⟨_, rfl, ?_⟩
      dsimp only
      split_ifs <;> rfl
    obtain ⟨w₁, hw₁, rfl⟩ := hnext
    obtain ⟨w', hw', hs'⟩ := ih hr
    exact ⟨w', by rw [run_cons, hw₁]; exact hw', hs'⟩

/-- **The sweep returns.** -/
theorem Ok.returns {s : ℕ → Session} {e : ℕ → Event} (h : Ok ids rest w) (h₀ : s 0 = w.session)
    (hrun : Behavior Session.next s e) (hfin : FinitelyDeep rest.length s e) :
    ∃ n w', Runs.run (next rest.length) w ((List.range n).map e) = some w' ∧ w'.returned.isSome = true := by
  by_contra hcon
  have hwatch : ∀ n, ∃ w', Runs.run (next rest.length) w ((List.range n).map e) = some w' ∧ w'.session = s n :=
    fun n => run_of_session (h₀ ▸ hrun.run n)
  -- it would be on the stack for ever
  have hstack : ∀ n, (s n).Ok ∧ ∃ us cursor last sent now, (s n).stack = us ++ .sweep cursor last sent now :: rest := by
    intro n
    obtain ⟨w', hw', hs⟩ := hwatch n
    have hok := h.run hw'
    refine ⟨hs ▸ hok.session, ?_⟩
    cases hok.phase with
    | running us cursor last now suf _ hst _ _ => exact ⟨us, cursor, last, _, now, hs ▸ hst⟩
    | back hret _ => exact (hcon ⟨n, w', hw', by rw [hret]; rfl⟩).elim
  have hinside : ∀ n, ∀ k ≤ n, rest.length < (s k).stack.length := by
    intro n k _
    obtain ⟨_, us, cursor, last, sent, now, hst⟩ := hstack k
    rw [hst, List.length_append, List.length_cons]
    omega
  obtain ⟨bound, hbound⟩ := hfin.nesting
  have hover : ∀ n, ∃ us, us ≠ [] ∧ (s n).stack = us ++ rest := by
    intro n
    obtain ⟨_, us, cursor, last, sent, now, hst⟩ := hstack n
    exact ⟨us ++ [.sweep cursor last sent now], by simp, by rw [hst]; simp⟩
  obtain ⟨N, rest', us', hrest', ha⟩ :=
    Session.framed.exists_activation hrun (fun n => hbound n (hinside n)) hover
  obtain ⟨us, f, hf⟩ := ha.above N le_rfl
  have hsame : ∀ us' f', (s N).stack = us' ++ f' :: rest' → f' = f :=
    fun us' f' hf' => (cons_inj_of_append (hf'.symm.trans hf)).2
  by_cases hcb : f.IsCallback
  · -- a callback is above the sweep itself
    have habove : rest.length < rest'.length := by
      cases us' with
      | nil =>
        obtain ⟨_, vs, cursor, last, sent, now, hst⟩ := hstack N
        rw [List.nil_append] at hrest'
        subst hrest'
        rw [← hsame vs _ hst] at hcb
        exact hcb.elim
      | cons g us' =>
        rw [hrest', List.length_append, List.length_cons]
        omega
    refine no_endless_callback hrun ha (fun n hn => hfin.calls n (hinside n) (by omega)) ?_
    exact fun us' f' hf' => hsame us' f' hf' ▸ hcb
  · exact Session.no_endless_sweep hrun (hstack N).1 ha fun us' f' hf' => hsame us' f' hf' ▸ hcb

/-- What holds of a sweep of the orders of `m` at any time: the orders it has reached are the first of
those that were not terminal at the call, in id order; it has sent what the gateway took of its offers;
once it has returned it has reached them all, and returned how many offers the gateway took; until then
the running callback can return or the next iteration be made. -/
structure SweepsOnce (m : OrderManager) (w : Watched) : Prop where
  order : w.ids <+: m.nonTerminal.sort
  offers : ∀ r ∈ w.reached, r.Offers
  sent : w.sent = w.reached.flatMap Reached.taken
  returns : ∀ n, w.returned = some n → w.ids = m.nonTerminal.sort ∧ n = w.reached.countP Reached.accepted
  goesOn : w.returned = none →
    (w.session.next .ret).isSome = true ∨ ∀ g, (w.session.next (.advance g)).isSome = true

theorem Ok.sweepsOnce {m : OrderManager} (h : Ok m.nonTerminal.sort rest w) : SweepsOnce m w where
  order := by
    cases h.phase with
    | running us cursor last now suf _ _ hids _ => exact ⟨suf, hids.symm⟩
    | back _ hids => exact hids ▸ List.prefix_rfl
  offers := h.offers
  sent := h.sent
  returns := fun n hn => by
    cases h.phase with
    | running us cursor last now suf hret _ _ _ =>
      rw [hret] at hn
      cases hn
    | back hret hids => exact ⟨hids, (Option.some.inj (hret.symm.trans hn)).symm⟩
  goesOn := fun hn => by
    cases h.phase with
    | running us cursor last now suf _ hst _ _ =>
      cases us with
      | nil => exact .inr fun g => by simp [Session.next, Session.step, hst]
      | cons f us =>
        rw [List.cons_append] at hst
        cases f with
        | update => exact .inl (by simp [Session.next, Session.step, hst])
        | fill before => exact .inl (by simp [Session.next, Session.step, hst])
        | sweep c l n t => exact .inr fun g => by simp [Session.next, Session.step, hst]
    | back hret _ =>
      rw [hret] at hn
      cases hn

end Watched

namespace Session

/-- **`cancel_all` sweeps once and returns.** Called in any reachable state, whatever the gateway answers
and whatever the listener does, the sweep offers one cancel for each order that was not terminal at the
call and has none in flight when it is reached, as `Watched.SweepsOnce` says; and in every run in which
the callbacks under it nest finitely deep and each makes finitely many calls, it returns. -/
theorem cancel_all_sweeps_once (config : Config) (limits : Risk.Limits) (maxLocates : Nat) (es : List Event)
    (s s₀ : Session) (now : Nat) (h : run next (new config limits maxLocates) es = some s)
    (hc : s.next (.cancelAll now) = some s₀) :
    (∀ es' w, run (Watched.next s.stack.length) { session := s₀ } es' = some w → w.SweepsOnce s.manager) ∧
    ∀ (states : ℕ → Session) (events : ℕ → Event), states 0 = s₀ → Behavior next states events →
      FinitelyDeep s.stack.length states events →
      ∃ n w, run (Watched.next s.stack.length) { session := s₀ } ((List.range n).map events) = some w ∧
        w.returned.isSome = true := by
  have hok := Watched.Ok.start ((Ok.new config limits maxLocates).run h) hc
  exact ⟨fun es' w hr => (hok.run hr).sweepsOnce,
    fun states events h₀ hrun hfin => hok.returns h₀ hrun hfin⟩

/-- Two orders are working. -/
def twoOrders : List Event :=
  [.submit { locate := 1, price := 10, qty := 100 } 5 openWorld, .ret,
    .submit { locate := 1, price := 11, qty := 100 } 6 openWorld, .ret]

/-- The listener answers the first cancel with an order of its own; the gateway is busy for the second. -/
def answeredSweep : List Event :=
  [.advance openWorld, .submit { locate := 1, price := 12, qty := 100 } 8 openWorld, .ret, .ret,
    .advance { openWorld with gateway := fun _ => false }, .advance openWorld]

theorem cancel_all_sweeps_once_listener_submits :
    ∃ s s₀ w, run next (new {} {} 2) twoOrders = some s ∧ s.next (.cancelAll 7) = some s₀ ∧
      run (Watched.next s.stack.length) { session := s₀ } answeredSweep = some w ∧
      w.returned = some 1 ∧ w.ids = [1, 2] ∧ w.SweepsOnce s.manager := by
  have hview : ((run next (new {} {} 2) twoOrders).bind fun s => (s.next (.cancelAll 7)).bind fun s₀ =>
      (run (Watched.next s.stack.length) { session := s₀ } answeredSweep).map fun w => (w.returned, w.ids)) =
      some (some 1, [1, 2]) := by decide +kernel
  obtain ⟨s, hs, hview⟩ := Option.bind_eq_some_iff.mp hview
  obtain ⟨s₀, hs₀, hview⟩ := Option.bind_eq_some_iff.mp hview
  obtain ⟨w, hw, hview⟩ := Option.map_eq_some_iff.mp hview
  obtain ⟨hret, hids⟩ := Prod.mk.inj hview
  exact ⟨s, s₀, w, hs, hs₀, hw, hret, hids, (cancel_all_sweeps_once {} {} 2 twoOrders s s₀ 7 hs hs₀).1 _ w hw⟩

end Session
end OptiTrade.Oms
