import OptiTrade.Oms.Atomicity
import OptiTrade.Oms.History

/-! # What the listener is told

A journal runs a session and keeps everything it shows: the log of callbacks in the order in which
they start, and the last `OrderInfo` of every order. An execution starts `on_fill` first and the
update that reports it only when `on_fill` has returned; `pendings` are the infos of the updates
still owed. -/

namespace OptiTrade.Oms
set_option autoImplicit false

open Runs
open History (shares fillsIn)

/-- A session and the callbacks of its listener, in order. -/
structure Journal where
  session : Session
  /-- The last `OrderInfo` of every order ever submitted. -/
  archive : Nat → Option OrderInfo := fun _ => none
  log : List Effect := []

namespace Journal

def new (config : Config) (limits : Risk.Limits) (maxLocates : Nat) : Journal where
  session := .new config limits maxLocates

/-- A step of the session, written down. -/
def next (j : Journal) (e : Event) : Option Journal :=
  (j.session.step e).map fun (s, fx) =>
    { session := s
      archive := fun id => (s.manager.find id).or (j.archive id)
      log := j.log ++ fx }

/-- The updates among the effects, in order. -/
def updatesIn (fx : List Effect) : List OrderInfo :=
  fx.filterMap fun
    | .update info => some info
    | _ => none

def updatesOf (log : List Effect) (id : Nat) : List OrderInfo := (updatesIn log).filter fun info => info.id = id

def fillsOf (log : List Effect) (id : Nat) : List Fill := (fillsIn log).filter fun f => f.id = id

/-- The infos of the fills whose update has not started yet. -/
def pendings (stack : List Frame) : List OrderInfo :=
  stack.filterMap fun
    | .fill before => some before
    | _ => none

@[simp] theorem updatesIn_append (fx gx : List Effect) : updatesIn (fx ++ gx) = updatesIn fx ++ updatesIn gx :=
  List.filterMap_append

@[simp] theorem fillsIn_append (fx gx : List Effect) : fillsIn (fx ++ gx) = fillsIn fx ++ fillsIn gx :=
  List.filterMap_append

@[simp] theorem updatesOf_append (fx gx : List Effect) (id : Nat) :
    updatesOf (fx ++ gx) id = updatesOf fx id ++ updatesOf gx id := by
  simp [updatesOf]

@[simp] theorem fillsOf_append (fx gx : List Effect) (id : Nat) :
    fillsOf (fx ++ gx) id = fillsOf fx id ++ fillsOf gx id := by
  simp [fillsOf]

theorem fillsOf_eq_nil {fx : List Effect} (h : fillsIn fx = []) (id : Nat) : fillsOf fx id = [] := by
  simp [fillsOf, h]

theorem updatesOf_eq_nil {fx : List Effect} (h : updatesIn fx = []) (id : Nat) : updatesOf fx id = [] := by
  simp [updatesOf, h]

theorem updatesOf_one {fx : List Effect} {u : OrderInfo} (h : updatesIn fx = [u]) (id : Nat) :
    updatesOf fx id = if u.id = id then [u] else [] := by
  by_cases hid : u.id = id
  · simp [updatesOf, h, hid]
  · simp [updatesOf, h, hid]

/-! ## What one step shows -/

/-- What a step shows, and of which change to which order. -/
inductive Shown (s : Session) (e : Event) (fx : List Effect) (s' : Session) : Prop
  | quiet : updatesIn fx = [] → fillsIn fx = [] → s'.manager.nextId = s.manager.nextId →
      (∀ id, s'.manager.entry id = s.manager.entry id) → pendings s'.stack = pendings s.stack → Shown s e fx s'
  | settled (i : Nat) (m₁ : OrderManager) (e' : Entry) (o : Option OrderStatus) : i < s.manager.fresh →
      (s.manager.slots i).working = true → OrderManager.Near s.manager m₁ →
      OrderManager.SameOrder (s.manager.slots i) e' → OrderManager.SameBook (s.manager.slots i) e' →
      s'.manager = m₁.settle i e' o → updatesIn fx = [(s'.manager.slots i).info] → fillsIn fx = [] →
      pendings s'.stack = pendings s.stack →
      (pendings s.stack ≠ [] → (s'.manager.slots i).working = true) → Shown s e fx s'
  | admitted (req : OrderRequest) (now : Nat) (reference : Nat → Int) (tokens : BoundedMap Nat Nat) :
      OrderManager.Submittable s.manager req now reference tokens →
      s'.manager = s.manager.admitted req now tokens →
      updatesIn fx = [(s.manager.newEntry req now).info] → fillsIn fx = [] →
      pendings s'.stack = pendings s.stack → Shown s e fx s'
  | returned (before : OrderInfo) : pendings s.stack = before :: pendings s'.stack → s'.manager = s.manager →
      updatesIn fx = [s.manager.afterFill before] → fillsIn fx = [] → Shown s e fx s'
  | booked (i : Nat) (x : Ouch.Executed) (now : Nat) : e = .report (.executed x) now → s.stack = [] →
      i < s.manager.fresh → (s.manager.slots i).working = true →
      ¬OrderManager.badExecution (s.manager.slots i) x →
      s'.manager = (s.manager.booked i x).settle i ((s.manager.slots i).execute x now) (some .filled) →
      fx = [.fill (History.fillOf (s.manager.slots i) x now)] →
      pendings s'.stack = [(s'.manager.slots i).info] → Shown s e fx s'

theorem updatesIn_taken (w : World) (now : Nat) (sent : Option Ouch.Inbound) :
    updatesIn (Session.taken w now sent) = [] := by
  cases sent with
  | none => rfl
  | some msg =>
    simp only [Session.taken]
    split_ifs <;> rfl

theorem shows_finishCall {α : Type} (s : Session) (out : OrderManager.Outcome α) (now : Nat) (w : World) :
    updatesIn (s.finishCall out now w).2 = out.update.toList ∧
      pendings (s.finishCall out now w).1.stack = pendings s.stack := by
  unfold Session.finishCall
  cases out.update with
  | none => exact ⟨updatesIn_taken w now out.sent, rfl⟩
  | some info =>
    refine ⟨?_, rfl⟩
    rw [updatesIn_append, updatesIn_taken]
    rfl

variable {s s' : Session} {e : Event} {fx : List Effect}

/-- What `cancel_entry` on a used slot shows. -/
theorem shown_cancelEntry (hinv : s.manager.Inv) {i : Nat} (hi : i < s.manager.fresh) (now : Nat) (w : World)
    {out : OrderManager.Outcome SubmitStatus} (hout : s.manager.cancelEntry i now w.gateway = out)
    (hm : s'.manager = out.state) (hu : updatesIn fx = out.update.toList) (hf : fillsIn fx = [])
    (hp : pendings s'.stack = pendings s.stack) : Shown s e fx s' := by
  rcases OrderManager.cancelEntry_cases hinv hi now w.gateway hout with ⟨hs, hn, _⟩ | ⟨hw, _, _, rfl⟩
  · rw [hn] at hu
    rw [hs] at hm
    exact .quiet hu hf (by rw [hm]) (fun _ => by rw [hm]) hp
  · have hl : ((s.manager.slots i).askCancel now).info.leavesQty ≠ 0 := by
      have := ((hinv.entries i hi).phase.working_iff).mp hw
      show (s.manager.slots i).info.leavesQty ≠ 0
      omega
    have hslot : s'.manager.slots i = ((s.manager.slots i).askCancel now).synced := by
      rw [hm, OrderManager.settle_slots_live (.refl _) hl, Function.update_self]
    refine .settled i s.manager ((s.manager.slots i).askCancel now) none hi hw (.refl _) ⟨rfl, rfl, rfl, rfl⟩
      ⟨rfl, rfl, rfl, rfl, rfl⟩ hm ?_ hf hp fun _ => ?_
    · rw [hu, hslot]
      rfl
    · rw [hslot]
      rfl

/-- What one iteration of the innermost `cancel_all` loop shows. -/
theorem shown_sweep (hok : s.Ok) {rest : List Frame} {cursor : Option Nat} {last sent now : Nat} {w : World}
    (hst : s.stack = .sweep cursor last sent now :: rest) :
    Shown s (.advance w) (s.sweep rest cursor last sent now w).2 (s.sweep rest cursor last sent now w).1 := by
  have hp : pendings s.stack = pendings rest := by rw [hst]; rfl
  unfold Session.sweep
  cases cursor with
  | none => exact .quiet rfl rfl rfl (fun _ => rfl) hp.symm
  | some i =>
    dsimp only
    obtain ⟨hi, _⟩ := hok.cursors i last sent now (by rw [hst]; exact List.mem_cons_self)
    by_cases hlast : last < (s.manager.slots i).info.id
    · rw [if_pos hlast]
      exact .quiet rfl rfl rfl (fun _ => rfl) hp.symm
    · rw [if_neg hlast]
      by_cases hpc : (s.manager.slots i).info.status ≠ .pendingCancel
      · rw [if_pos hpc]
        obtain ⟨hu, hq⟩ := shows_finishCall
          ⟨(s.manager.cancelEntry i now w.gateway).state,
            .sweep (s.manager.links.next i) last
              (if (s.manager.cancelEntry i now w.gateway).result = .ok then sent + 1 else sent) now :: rest⟩
          (s.manager.cancelEntry i now w.gateway) now w
        exact shown_cancelEntry hok.inv hi now w rfl (Session.finishCall_manager _ _ now w) hu
          (History.fillsIn_finishCall _ _ now w) (hq.trans hp.symm)
      · rw [if_neg hpc]
        exact .quiet rfl rfl rfl (fun _ => rfl) hp.symm

/-- What a report shows; none comes in while a callback runs. -/
theorem shown_report (hok : s.Ok) (hst : s.stack = []) (r : Ouch.Outbound) (now : Nat) :
    Shown s (.report r now) (s.report r now).2 (s.report r now).1 := by
  have hp : pendings s.stack = [] := by rw [hst]; rfl
  have hpr := s.processed hok.inv r now
  generalize s.report r now = out at hpr ⊢
  cases hpr with
  | ignored m' hm =>
    rcases hm with rfl | rfl | rfl
    · exact .quiet rfl rfl rfl (fun _ => rfl) hp.symm
    · exact .quiet rfl rfl rfl (fun _ => rfl) hp.symm
    · exact .quiet rfl rfl rfl (fun _ => rfl) hp.symm
  | updated i m₁ e' o hi hw hm hso hsb _ _ _ _ =>
    exact .settled i m₁ e' o hi hw hm hso hsb rfl rfl rfl hp.symm fun h => absurd hp h
  | booked i x m' hr hi hw hb hm =>
    refine .booked i x now (by rw [hr]) hst hi hw hb hm ?_ rfl
    rw [hm]
    by_cases hl : ((s.manager.slots i).execute x now).info.leavesQty = 0
    · rw [OrderManager.settle_dead hl]
      simp only [Function.update_self]
      rfl
    · rw [OrderManager.settle_live hl]
      simp only [Function.update_self]
      rfl

/-- **What a step shows is `Shown`.** -/
theorem shown (hok : s.Ok) (hs : s.step e = some (s', fx)) : Shown s e fx s' := by
  have hinv := hok.inv
  cases e with
  | submit req now w =>
    simp only [Session.step, Option.ite_none_right_eq_some, Option.some.injEq] at hs
    obtain ⟨_, hs⟩ := hs
    obtain ⟨hu, hp⟩ := shows_finishCall s (s.manager.submit req now w.symbol w.reference w.gateway) now w
    have hf := History.fillsIn_finishCall s (s.manager.submit req now w.symbol w.reference w.gateway) now w
    have hm := Session.finishCall_manager s (s.manager.submit req now w.symbol w.reference w.gateway) now w
    rw [hs] at hu hp hf hm
    rcases OrderManager.submit_cases s.manager req now w.symbol w.reference w.gateway rfl with
      ⟨hstate, hn, _⟩ | ⟨tokens, hsub, _, hout⟩
    · rw [hstate] at hm
      rw [hn] at hu
      exact .quiet hu hf (by rw [hm]) (fun _ => by rw [hm]) hp
    · rw [hout] at hm hu
      exact .admitted req now w.reference tokens hsub hm hu hf hp
  | cancel id now w =>
    simp only [Session.step, Option.ite_none_right_eq_some, Option.some.injEq] at hs
    obtain ⟨_, hs⟩ := hs
    obtain ⟨hu, hp⟩ := shows_finishCall s (s.manager.cancel id now w.gateway) now w
    have hf := History.fillsIn_finishCall s (s.manager.cancel id now w.gateway) now w
    have hm := Session.finishCall_manager s (s.manager.cancel id now w.gateway) now w
    rw [hs] at hu hp hf hm
    cases hslot : s.manager.slotOf id with
    | none =>
      have hout : s.manager.cancel id now w.gateway = ⟨.unknownOrder, s.manager, none, none⟩ := by
        unfold OrderManager.cancel
        rw [hslot]
      rw [hout] at hm hu
      exact .quiet hu hf (by rw [hm]) (fun _ => by rw [hm]) hp
    | some i =>
      have hout : s.manager.cancelEntry i now w.gateway = s.manager.cancel id now w.gateway := by
        unfold OrderManager.cancel
        rw [hslot]
      exact shown_cancelEntry hinv ((hinv.ids.find id i).mp hslot).1 now w hout hm hu hf hp
  | replace id p q now w =>
    simp only [Session.step, Option.ite_none_right_eq_some, Option.some.injEq] at hs
    obtain ⟨_, hs⟩ := hs
    obtain ⟨hu, hp⟩ := shows_finishCall s (s.manager.replace id p q now w.reference w.gateway) now w
    have hf := History.fillsIn_finishCall s (s.manager.replace id p q now w.reference w.gateway) now w
    have hm := Session.finishCall_manager s (s.manager.replace id p q now w.reference w.gateway) now w
    rw [hs] at hu hp hf hm
    rcases OrderManager.replace_cases hinv id p q now w.reference w.gateway rfl with
      ⟨hstate, hn, _⟩ | ⟨i, tokens, hid, hrep, _, hout⟩
    · rw [hstate] at hm
      rw [hn] at hu
      exact .quiet hu hf (by rw [hm]) (fun _ => by rw [hm]) hp
    · rw [hout] at hm hu
      have hi := ((hinv.ids.find id i).mp hid).1
      have hl : ((s.manager.slots i).askReplace s.manager.nextToken p q now).info.leavesQty ≠ 0 := by
        have := ((hinv.entries i hi).phase.working_iff).mp hrep.working
        show (s.manager.slots i).info.leavesQty ≠ 0
        omega
      have hslot : s'.manager.slots i = ((s.manager.slots i).askReplace s.manager.nextToken p q now).synced := by
        rw [hm, OrderManager.settle_slots_live (OrderManager.Near.offered s.manager i q now tokens) hl,
          Function.update_self]
      refine .settled i _ ((s.manager.slots i).askReplace s.manager.nextToken p q now) none hi hrep.working
        (OrderManager.Near.offered s.manager i q now tokens) ⟨rfl, rfl, rfl, rfl⟩ ⟨rfl, rfl, rfl, rfl, rfl⟩ hm ?_ hf hp
        fun _ => ?_
      · rw [hu, hslot]
        rfl
      · rw [hslot]
        rfl
  | cancelAll now =>
    simp only [Session.step, Option.ite_none_right_eq_some, Option.some.injEq, Prod.mk.injEq] at hs
    obtain ⟨_, rfl, rfl⟩ := hs
    exact .quiet rfl rfl rfl (fun _ => rfl) rfl
  | advance w =>
    simp only [Session.step] at hs
    split at hs
    · rename_i cursor last sent now rest hst
      have hfx : _ = fx := congrArg Prod.snd (Option.some.inj hs)
      have hs : _ = s' := congrArg Prod.fst (Option.some.inj hs)
      rw [← hs, ← hfx]
      exact shown_sweep hok hst
    · cases hs
  | ret =>
    simp only [Session.step] at hs
    split at hs
    · rename_i rest hst
      obtain ⟨rfl, rfl⟩ := Prod.mk.inj (Option.some.inj hs)
      exact .quiet rfl rfl rfl (fun _ => rfl) (by rw [hst]; rfl)
    · rename_i before rest hst
      obtain ⟨rfl, rfl⟩ := Prod.mk.inj (Option.some.inj hs)
      exact .returned before (by rw [hst]; rfl) rfl rfl rfl
    · cases hs
  | report r now =>
    simp only [Session.step, Option.ite_none_right_eq_some, Option.some.injEq] at hs
    obtain ⟨hst, hs⟩ := hs
    have hsh := shown_report hok (List.isEmpty_iff.mp hst) r now
    rwa [hs] at hsh
  | mark l p =>
    simp only [Session.step, Option.ite_none_right_eq_some, Option.some.injEq, Prod.mk.injEq] at hs
    obtain ⟨_, rfl, rfl⟩ := hs
    exact .quiet rfl rfl rfl (fun _ => rfl) rfl
  | killSwitch on =>
    simp only [Session.step, Option.ite_none_right_eq_some, Option.some.injEq, Prod.mk.injEq] at hs
    obtain ⟨_, rfl, rfl⟩ := hs
    exact .quiet rfl rfl rfl (fun _ => rfl) rfl

/-! ## The archive -/

theorem admitted_forgets {m : OrderManager} (h : m.Inv) {req : OrderRequest} {now : Nat} {reference : Nat → Int}
    {tokens : BoundedMap Nat Nat} (hs : OrderManager.Submittable m req now reference tokens) {id : Nat}
    {info : OrderInfo} (hf : m.find id = some info) (hf' : (m.admitted req now tokens).find id = none) :
    isTerminal info.status = true := by
  obtain ⟨j, hj, hid, rfl⟩ := h.find_some.mp hf
  have hslot : j = m.nextSlot := by
    by_contra hne
    have hsl : (m.admitted req now tokens).slots j = m.slots j := Function.update_of_ne hne _ _
    have hlt : j < (m.admitted req now tokens).fresh := by
      rw [OrderManager.admitted_fresh]
      split_ifs <;> omega
    rw [(h.admitted hs).find_some.mpr ⟨j, hlt, by rw [hsl]; exact hid, by rw [hsl]⟩] at hf'
    cases hf'
  subst hslot
  rcases h.nextSlot_cases hs.slot with ⟨_, h₂⟩ | ⟨_, _, h₃, _⟩
  · omega
  · simpa [Entry.working] using h₃

/-- What the archive knows of the orders, and what the updates still owed will show. -/
structure Recorded (j : Journal) : Prop where
  ok : j.session.Ok
  current : ∀ id info, j.session.manager.find id = some info → j.archive id = some info
  issued : ∀ id info, j.archive id = some info → info.id = id ∧ id < j.session.manager.nextId
  known : ∀ f ∈ fillsIn j.log, f.id < j.session.manager.nextId
  cum : ∀ id info, j.archive id = some info → info.cumQty = shares (fillsOf j.log id)
  alone : (pendings j.session.stack).length ≤ 1
  owed : ∀ b ∈ pendings j.session.stack, j.archive b.id = some (j.session.manager.afterFill b)
  final : ∀ b ∈ pendings j.session.stack, isTerminal (j.session.manager.afterFill b).status = true →
    j.session.manager.afterFill b = b

variable {j j' : Journal}

theorem next_some (hn : j.next e = some j') :
    ∃ fx, j.session.step e = some (j'.session, fx) ∧
      (∀ id, j'.archive id = (j'.session.manager.find id).or (j.archive id)) ∧ j'.log = j.log ++ fx := by
  unfold next at hn
  obtain ⟨⟨s₁, fx⟩, h₁, h₂⟩ := Option.map_eq_some_iff.mp hn
  subst h₂
  exact ⟨fx, h₁, fun _ => rfl, rfl⟩

theorem afterFill_congr {m m' : OrderManager} {b : OrderInfo} (h : m'.find b.id = m.find b.id) :
    m'.afterFill b = m.afterFill b := by
  unfold OrderManager.afterFill
  rw [h]

theorem Recorded.fills_nil (hr : Recorded j) {id : Nat} (hid : j.session.manager.nextId ≤ id) :
    fillsOf j.log id = [] := by
  refine List.filter_eq_nil_iff.mpr fun f hf => ?_
  have := hr.known f hf
  simp only [decide_eq_true_eq]
  omega

section
variable (hr : Recorded j) (hok : j'.session.Ok)
  (harch : ∀ id, j'.archive id = (j'.session.manager.find id).or (j.archive id)) (hlog : j'.log = j.log ++ fx)
include hr hok harch hlog

omit hok hlog in
theorem Recorded.archive_same {id : Nat} (hf : j'.session.manager.find id = j.session.manager.find id) :
    j'.archive id = j.archive id := by
  rw [harch, hf]
  cases h : j.session.manager.find id with
  | none => rfl
  | some info => exact (hr.current id info h).symm

/-- A step that leaves every order alone and starts no fill. -/
theorem Recorded.quiet (hfills : fillsIn fx = []) (hnext : j'.session.manager.nextId = j.session.manager.nextId)
    (hfind : ∀ id, j'.session.manager.find id = j.session.manager.find id)
    (hlen : (pendings j'.session.stack).length ≤ 1)
    (hsub : ∀ b ∈ pendings j'.session.stack, b ∈ pendings j.session.stack) :
    Recorded j' ∧ ∀ id, j'.archive id = j.archive id := by
  have hsame : ∀ id, j'.archive id = j.archive id := fun id => hr.archive_same harch (hfind id)
  refine ⟨⟨hok, ?_, ?_, ?_, ?_, hlen, ?_, ?_⟩, hsame⟩
  · intro id info hf
    rw [hsame]
    exact hr.current id info (hfind id ▸ hf)
  · intro id info hi
    rw [hsame] at hi
    rw [hnext]
    exact hr.issued id info hi
  · intro f hf
    rw [hlog, fillsIn_append, hfills, List.append_nil] at hf
    rw [hnext]
    exact hr.known f hf
  · intro id info hi
    rw [hsame] at hi
    rw [hlog, fillsOf_append, fillsOf_eq_nil hfills, List.append_nil]
    exact hr.cum id info hi
  · intro b hb
    rw [hsame, afterFill_congr (hfind b.id)]
    exact hr.owed b (hsub b hb)
  · intro b hb ht
    rw [afterFill_congr (hfind b.id)] at ht ⊢
    exact hr.final b (hsub b hb) ht

omit hok hlog in
/-- A step that settles one working order. -/
theorem Recorded.settled {i : Nat} {m₁ : OrderManager} {e' : Entry} {o : Option OrderStatus}
    (hi : i < j.session.manager.fresh) (hm : OrderManager.Near j.session.manager m₁)
    (hso : OrderManager.SameOrder (j.session.manager.slots i) e') (hs' : j'.session.manager = m₁.settle i e' o) :
    (j'.session.manager.slots i).info.id = (j.session.manager.slots i).info.id ∧
    j'.session.manager.nextId = j.session.manager.nextId ∧
    j'.archive (j.session.manager.slots i).info.id = some (j'.session.manager.slots i).info ∧
    (∀ id, j'.session.manager.find id = if id = (j.session.manager.slots i).info.id
      then some (j'.session.manager.slots i).info else j.session.manager.find id) ∧
    ∀ id, id ≠ (j.session.manager.slots i).info.id → j'.archive id = j.archive id := by
  have hfind : ∀ id, j'.session.manager.find id = if id = (j.session.manager.slots i).info.id
      then some (j'.session.manager.slots i).info else j.session.manager.find id := by
    intro id
    rw [OrderManager.find_eq_entry, hs', OrderManager.settle_entry hr.ok.inv hi hm]
    split_ifs <;> rfl
  refine ⟨?_, ?_, ?_, hfind, fun id hid => ?_⟩
  · obtain ⟨e'', hid, hsl⟩ := m₁.settle_slots i e' o
    rw [hs', hsl, Function.update_self, hid, hso.id]
  · rw [hs', (m₁.settle_table i e' o).nextId, hm.table.nextId]
  · rw [harch, hfind, if_pos rfl]
    rfl
  · refine hr.archive_same harch ?_
    rw [hfind, if_neg hid]

theorem Recorded.settle {i : Nat} {m₁ : OrderManager} {e' : Entry} {o : Option OrderStatus}
    (hi : i < j.session.manager.fresh) (hm : OrderManager.Near j.session.manager m₁)
    (hso : OrderManager.SameOrder (j.session.manager.slots i) e')
    (hsb : OrderManager.SameBook (j.session.manager.slots i) e') (hs' : j'.session.manager = m₁.settle i e' o)
    (hfills : fillsIn fx = []) (hp : pendings j'.session.stack = pendings j.session.stack)
    (hlive : pendings j.session.stack ≠ [] → (j'.session.manager.slots i).working = true) : Recorded j' := by
  obtain ⟨hid, hnext, hself, hfind, hne⟩ := hr.settled harch hi hm hso hs'
  have hcur := hr.current _ _ (hr.ok.inv.find_some.mpr ⟨i, hi, rfl, rfl⟩)
  have hof : ∀ id, fillsOf j'.log id = fillsOf j.log id := by
    intro id
    rw [hlog, fillsOf_append, fillsOf_eq_nil hfills, List.append_nil]
  have hafter : ∀ b, b.id ≠ (j.session.manager.slots i).info.id →
      j'.session.manager.afterFill b = j.session.manager.afterFill b :=
    fun b h => afterFill_congr (by rw [hfind, if_neg h])
  refine ⟨hok, ?_, ?_, ?_, ?_, hp ▸ hr.alone, ?_, ?_⟩
  · intro id info hf
    rw [harch, hf]
    rfl
  · intro id info hinfo
    rw [hnext]
    by_cases h : id = (j.session.manager.slots i).info.id
    · subst h
      rw [hself] at hinfo
      rw [← Option.some.inj hinfo]
      exact ⟨hid, (hr.issued _ _ hcur).2⟩
    · exact hr.issued id info (hne id h ▸ hinfo)
  · intro f hf
    rw [hlog, fillsIn_append, hfills, List.append_nil] at hf
    rw [hnext]
    exact hr.known f hf
  · intro id info hinfo
    rw [hof]
    by_cases h : id = (j.session.manager.slots i).info.id
    · subst h
      rw [hself] at hinfo
      have hbook : (j'.session.manager.slots i).info.cumQty = e'.info.cumQty := by
        rw [hs']
        exact (m₁.settle_sameBook i e' o).cumQty
      rw [← Option.some.inj hinfo, hbook, hsb.cumQty]
      exact hr.cum _ _ hcur
    · exact hr.cum id info (hne id h ▸ hinfo)
  · intro b hb
    by_cases h : b.id = (j.session.manager.slots i).info.id
    · rw [h, hself, OrderManager.afterFill, hfind, if_pos h]
      rfl
    · rw [hne _ h, hafter b h]
      exact hr.owed b (hp ▸ hb)
  · intro b hb ht
    by_cases h : b.id = (j.session.manager.slots i).info.id
    · -- nothing ends while a fill is being reported
      have hw := hlive (List.ne_nil_of_mem (hp ▸ hb))
      rw [OrderManager.afterFill, hfind, if_pos h, Option.getD_some] at ht
      simp [Entry.working, ht] at hw
    · rw [hafter b h] at ht ⊢
      exact hr.final b (hp ▸ hb) ht

/-- A step that admits an order. -/
theorem Recorded.admitted {req : OrderRequest} {now : Nat} {reference : Nat → Int} {tokens : BoundedMap Nat Nat}
    (hs : OrderManager.Submittable j.session.manager req now reference tokens)
    (hs' : j'.session.manager = j.session.manager.admitted req now tokens) (hfills : fillsIn fx = [])
    (hp : pendings j'.session.stack = pendings j.session.stack) :
    Recorded j' ∧
    j'.archive j.session.manager.nextId = some (j.session.manager.newEntry req now).info ∧
    ∀ id, id ≠ j.session.manager.nextId → j'.archive id = j.archive id := by
  have hinv := hr.ok.inv
  have hnext : j'.session.manager.nextId = j.session.manager.nextId + 1 := by rw [hs']; rfl
  have hfind : j'.session.manager.find j.session.manager.nextId = some (j.session.manager.newEntry req now).info := by
    rw [OrderManager.find_eq_entry, hs', (OrderManager.admitted_entry hinv hs 0).1]
    rfl
  have hkeep : ∀ id, id ≠ j.session.manager.nextId → j'.session.manager.find id = j.session.manager.find id ∨
      (j'.session.manager.find id = none ∧ ∀ info, j.session.manager.find id = some info →
        isTerminal info.status = true) := by
    intro id hid
    rcases (OrderManager.admitted_entry hinv hs id).2 hid with h | h
    · exact .inl (by rw [OrderManager.find_eq_entry, hs', h]; rfl)
    · have hn : (j.session.manager.admitted req now tokens).find id = none := by
        rw [OrderManager.find_eq_entry, h]
        rfl
      exact .inr ⟨hs' ▸ hn, fun info hf => admitted_forgets hinv hs hf hn⟩
  have hself : j'.archive j.session.manager.nextId = some (j.session.manager.newEntry req now).info := by
    rw [harch, hfind]
    rfl
  have hne : ∀ id, id ≠ j.session.manager.nextId → j'.archive id = j.archive id := by
    intro id hid
    rcases hkeep id hid with h | ⟨h, _⟩
    · exact hr.archive_same harch h
    · rw [harch, h]
      rfl
  have hof : ∀ id, fillsOf j'.log id = fillsOf j.log id := by
    intro id
    rw [hlog, fillsOf_append, fillsOf_eq_nil hfills, List.append_nil]
  have hold : ∀ b ∈ pendings j.session.stack, b.id ≠ j.session.manager.nextId := by
    intro b hb h
    have := (hr.issued _ _ (hr.owed b hb)).2
    omega
  -- an update still owed shows its order, or the copy of one that has ended
  have hafter : ∀ b ∈ pendings j.session.stack,
      j'.session.manager.afterFill b = j.session.manager.afterFill b := by
    intro b hb
    rcases hkeep b.id (hold b hb) with h | ⟨h, hterm⟩
    · exact afterFill_congr h
    · have hb' : j'.session.manager.afterFill b = b := by
        rw [OrderManager.afterFill, h]
        rfl
      rw [hb']
      cases hf : j.session.manager.find b.id with
      | none =>
        rw [OrderManager.afterFill, hf]
        rfl
      | some info =>
        refine (hr.final b hb ?_).symm
        rw [OrderManager.afterFill, hf]
        exact hterm info hf
  refine ⟨⟨hok, ?_, ?_, ?_, ?_, hp ▸ hr.alone, ?_, ?_⟩, hself, hne⟩
  · intro id info hf
    rw [harch, hf]
    rfl
  · intro id info hinfo
    rw [hnext]
    by_cases h : id = j.session.manager.nextId
    · subst h
      rw [hself] at hinfo
      rw [← Option.some.inj hinfo]
      exact ⟨rfl, Nat.lt_succ_self _⟩
    · obtain ⟨h₁, h₂⟩ := hr.issued id info (hne id h ▸ hinfo)
      exact ⟨h₁, h₂.trans (Nat.lt_succ_self _)⟩
  · intro f hf
    rw [hlog, fillsIn_append, hfills, List.append_nil] at hf
    rw [hnext]
    exact (hr.known f hf).trans (Nat.lt_succ_self _)
  · intro id info hinfo
    rw [hof]
    by_cases h : id = j.session.manager.nextId
    · subst h
      rw [hself] at hinfo
      rw [← Option.some.inj hinfo, hr.fills_nil (le_refl _)]
      rfl
    · exact hr.cum id info (hne id h ▸ hinfo)
  · intro b hb
    rw [hp] at hb
    rw [hne _ (hold b hb), hafter b hb]
    exact hr.owed b hb
  · intro b hb ht
    rw [hp] at hb
    rw [hafter b hb] at ht ⊢
    exact hr.final b hb ht

/-- A step that books an execution. -/
theorem Recorded.book {i : Nat} {x : Ouch.Executed} {now : Nat} (hi : i < j.session.manager.fresh)
    (hb : ¬OrderManager.badExecution (j.session.manager.slots i) x)
    (hs' : j'.session.manager = (j.session.manager.booked i x).settle i
      ((j.session.manager.slots i).execute x now) (some .filled))
    (hfx : fx = [.fill (History.fillOf (j.session.manager.slots i) x now)])
    (hp : pendings j'.session.stack = [(j'.session.manager.slots i).info]) :
    Recorded j' ∧
    (j'.session.manager.slots i).info.cumQty = (j.session.manager.slots i).info.cumQty + x.shares := by
  have hso : OrderManager.SameOrder (j.session.manager.slots i) ((j.session.manager.slots i).execute x now) :=
    ⟨rfl, rfl, rfl, rfl⟩
  obtain ⟨hid, hnext, hself, hfind, hne⟩ := hr.settled harch hi (OrderManager.Near.booked _ i x) hso hs'
  have hinv := hr.ok.inv
  have hcur := hr.current _ _ (hinv.find_some.mpr ⟨i, hi, rfl, rfl⟩)
  have hcum : (j'.session.manager.slots i).info.cumQty = (j.session.manager.slots i).info.cumQty + x.shares := by
    obtain ⟨_, _, _, _, hcum, _⟩ := execute_numbers (hinv.entries i hi).sizes now hb
    rw [hs', ((j.session.manager.booked i x).settle_sameBook i _ _).cumQty, hcum]
  have hafter : j'.session.manager.afterFill (j'.session.manager.slots i).info = (j'.session.manager.slots i).info := by
    rw [OrderManager.afterFill, hfind, if_pos hid]
    rfl
  refine ⟨⟨hok, ?_, ?_, ?_, ?_, ?_, ?_, ?_⟩, hcum⟩
  · intro id info hf
    rw [harch, hf]
    rfl
  · intro id info hinfo
    rw [hnext]
    by_cases h : id = (j.session.manager.slots i).info.id
    · subst h
      rw [hself] at hinfo
      rw [← Option.some.inj hinfo]
      exact ⟨hid, (hr.issued _ _ hcur).2⟩
    · exact hr.issued id info (hne id h ▸ hinfo)
  · intro f hf
    rw [hlog, fillsIn_append, hfx] at hf
    rw [hnext]
    rcases List.mem_append.mp hf with hf | hf
    · exact hr.known f hf
    · rw [List.mem_singleton.mp hf]
      exact (hr.issued _ _ hcur).2
  · intro id info hinfo
    rw [hlog, fillsOf_append, hfx, History.shares_append]
    by_cases h : id = (j.session.manager.slots i).info.id
    · subst h
      rw [hself] at hinfo
      rw [← Option.some.inj hinfo, hcum, hr.cum _ _ hcur]
      simp [fillsOf, fillsIn, History.fillOf, shares]
    · rw [hr.cum id info (hne id h ▸ hinfo)]
      simp [fillsOf, fillsIn, History.fillOf, shares, Ne.symm h]
  · rw [hp]
    rfl
  · intro b hb
    rw [hp] at hb
    obtain rfl := List.mem_singleton.mp hb
    rw [hafter, hid]
    exact hself
  · intro b hb _
    rw [hp] at hb
    obtain rfl := List.mem_singleton.mp hb
    exact hafter

end

/-! ## The log -/

/-- Every update shows the shares of the fills started before it. -/
def Counted (log : List Effect) : Prop :=
  ∀ pre u post, log = pre ++ .update u :: post → u.cumQty = shares (fillsOf pre u.id)

theorem Counted.append {log : List Effect} (h : Counted log)
    (hfx : ∀ u ∈ updatesIn fx, fillsIn fx = [] ∧ u.cumQty = shares (fillsOf log u.id)) : Counted (log ++ fx) := by
  intro pre u post heq
  rcases List.append_eq_append_iff.mp heq with ⟨mid, rfl, hmid⟩ | ⟨mid, hmid, hfx'⟩
  · -- the update is among the new effects
    have hu : u ∈ updatesIn fx := by
      rw [hmid]
      simp [updatesIn]
    obtain ⟨hnil, hcum⟩ := hfx u hu
    rw [hmid, fillsIn_append] at hnil
    rw [hcum, fillsOf_append, fillsOf_eq_nil (List.append_eq_nil_iff.mp hnil).1, List.append_nil]
  · cases mid with
    | nil =>
      rw [List.nil_append] at hfx'
      have hu : u ∈ updatesIn fx := by
        rw [← hfx']
        simp [updatesIn]
      rw [List.append_nil] at hmid
      rw [(hfx u hu).2, hmid]
    | cons x mid =>
      obtain ⟨rfl, _⟩ := List.cons.inj hfx'
      exact h pre u mid hmid

/-- The order has no update owed to it. -/
def Settled (j : Journal) (id : Nat) : Prop := ∀ b ∈ pendings j.session.stack, b.id ≠ id

/-- The updates of an order that show it as ended. -/
def endsOf (log : List Effect) (id : Nat) : List OrderInfo :=
  (updatesOf log id).filter fun u => isTerminal u.status

/-- What the log says of every order. -/
structure Faithful (j : Journal) : Prop where
  recorded : Recorded j
  counted : Counted j.log
  first : ∀ id u, (updatesOf j.log id).head? = some u → u.status = .pendingNew
  told : ∀ id info, j.archive id = some info → updatesOf j.log id ≠ []
  last : ∀ id, j.Settled id → (updatesOf j.log id).getLast? = j.archive id
  still : ∀ id info, j.archive id = some info → (isTerminal info.status = true → ¬j.Settled id) → endsOf j.log id = []
  ended : ∀ id info, j.archive id = some info → isTerminal info.status = true → j.Settled id → endsOf j.log id = [info]

/-- A step that starts no update and leaves the archive alone up to orders with an update owed. -/
theorem Faithful.silent (hf : Faithful j) (hr : Recorded j') (hlog : j'.log = j.log ++ fx) (hu : updatesIn fx = [])
    (hkeys : ∀ id info', j'.archive id = some info' → ∃ info, j.archive id = some info ∧
      (¬j'.Settled id → endsOf j.log id = []))
    (hset : ∀ id, j'.Settled id → j.Settled id ∧ j'.archive id = j.archive id) : Faithful j' := by
  have hof : ∀ id, updatesOf j'.log id = updatesOf j.log id := by
    intro id
    rw [hlog, updatesOf_append, updatesOf_eq_nil hu, List.append_nil]
  have hends : ∀ id, endsOf j'.log id = endsOf j.log id := by
    intro id
    rw [endsOf, hof]
    rfl
  refine ⟨hr, ?_, ?_, ?_, ?_, ?_, ?_⟩
  · rw [hlog]
    exact hf.counted.append fun u hm => by rw [hu] at hm; cases hm
  · intro id u h
    exact hf.first id u (hof id ▸ h)
  · intro id info hi
    rw [hof]
    obtain ⟨old, hold, _⟩ := hkeys id info hi
    exact hf.told id old hold
  · intro id hs
    rw [hof, (hset id hs).2]
    exact hf.last id (hset id hs).1
  · intro id info hi hopen
    rw [hends]
    by_cases hs : j'.Settled id
    · obtain ⟨hs₁, hs₂⟩ := hset id hs
      exact hf.still id info (hs₂ ▸ hi) fun ht => absurd hs (hopen ht)
    · exact (hkeys id info hi).choose_spec.2 hs
  · intro id info hi ht hs
    rw [hends]
    obtain ⟨hs₁, hs₂⟩ := hset id hs
    exact hf.ended id info (hs₂ ▸ hi) ht hs₁

/-- A step that starts one update, of an order not shown as ended so far. -/
theorem Faithful.update (hf : Faithful j) (hr : Recorded j') (hlog : j'.log = j.log ++ fx) {u : OrderInfo}
    (hu : updatesIn fx = [u]) (hfills : fillsIn fx = []) (hself : j'.archive u.id = some u)
    (hne : ∀ id, id ≠ u.id → j'.archive id = j.archive id) (hnew : updatesOf j.log u.id = [] → u.status = .pendingNew)
    (hopen : endsOf j.log u.id = []) (hset : ∀ id, id ≠ u.id → (j'.Settled id ↔ j.Settled id))
    (hterm : isTerminal u.status = true → j'.Settled u.id) : Faithful j' := by
  have hof : ∀ id, updatesOf j'.log id = updatesOf j.log id ++ if u.id = id then [u] else [] := by
    intro id
    rw [hlog, updatesOf_append, updatesOf_one hu]
  have hof_ne : ∀ id, id ≠ u.id → updatesOf j'.log id = updatesOf j.log id := by
    intro id hid
    rw [hof, if_neg (Ne.symm hid), List.append_nil]
  have hends_ne : ∀ id, id ≠ u.id → endsOf j'.log id = endsOf j.log id := by
    intro id hid
    rw [endsOf, hof_ne id hid]
    rfl
  have hends : endsOf j'.log u.id = if isTerminal u.status then [u] else [] := by
    rw [endsOf, hof, if_pos rfl, List.filter_append]
    rw [endsOf] at hopen
    rw [hopen, List.nil_append]
    by_cases ht : isTerminal u.status = true
    · simp [ht]
    · simp [ht]
  refine ⟨hr, ?_, ?_, ?_, ?_, ?_, ?_⟩
  · rw [hlog]
    refine hf.counted.append fun v hv => ?_
    rw [hu] at hv
    obtain rfl := List.mem_singleton.mp hv
    have hcum := hr.cum _ _ hself
    rw [hlog, fillsOf_append, fillsOf_eq_nil hfills, List.append_nil] at hcum
    exact ⟨hfills, hcum⟩
  · intro id v h
    by_cases hid : id = u.id
    · subst hid
      rw [hof, if_pos rfl] at h
      cases hold : updatesOf j.log u.id with
      | nil =>
        rw [hold] at h
        obtain rfl : u = v := by simpa using h
        exact hnew hold
      | cons w ws =>
        rw [hold] at h
        refine hf.first u.id v ?_
        rw [hold]
        simpa using h
    · exact hf.first id v (hof_ne id hid ▸ h)
  · intro id info hi
    by_cases hid : id = u.id
    · subst hid
      rw [hof, if_pos rfl]
      simp
    · rw [hof_ne id hid]
      exact hf.told id info (hne id hid ▸ hi)
  · intro id hs
    by_cases hid : id = u.id
    · subst hid
      rw [hof, if_pos rfl, hself]
      simp
    · rw [hof_ne id hid, hne id hid]
      exact hf.last id ((hset id hid).mp hs)
  · intro id info hi hop
    by_cases hid : id = u.id
    · subst hid
      rw [hself] at hi
      obtain rfl := Option.some.inj hi
      rw [hends, if_neg fun ht => hop ht (hterm ht)]
    · rw [hends_ne id hid]
      exact hf.still id info (hne id hid ▸ hi) fun ht hs => hop ht ((hset id hid).mpr hs)
  · intro id info hi ht hs
    by_cases hid : id = u.id
    · subst hid
      rw [hself] at hi
      obtain rfl := Option.some.inj hi
      rw [hends, if_pos ht]
    · rw [hends_ne id hid]
      exact hf.ended id info (hne id hid ▸ hi) ht ((hset id hid).mp hs)

theorem settled_congr (hp : pendings j'.session.stack = pendings j.session.stack) (id : Nat) :
    j'.Settled id ↔ j.Settled id := by
  unfold Settled
  rw [hp]

/-- **The log stays faithful.** -/
theorem Faithful.step (hf : Faithful j) (hn : j.next e = some j') : Faithful j' := by
  obtain ⟨fx, hs, harch, hlog⟩ := next_some hn
  have hr := hf.recorded
  have hinv := hr.ok.inv
  have hok := (hr.ok.step hs).2
  cases shown hr.ok hs with
  | quiet hu hfills hnext hent hp =>
    have hfind : ∀ id, j'.session.manager.find id = j.session.manager.find id := by
      intro id
      rw [OrderManager.find_eq_entry, hent]
      rfl
    obtain ⟨hr', hsame⟩ := hr.quiet hok harch hlog hfills hnext hfind (hp ▸ hr.alone) (fun b hb => hp ▸ hb)
    refine hf.silent hr' hlog hu (fun id info hi => ?_) fun id hset => ⟨(settled_congr hp id).mp hset, hsame id⟩
    refine ⟨info, hsame id ▸ hi, fun hset => ?_⟩
    exact hf.still id info (hsame id ▸ hi) fun _ h => hset ((settled_congr hp id).mpr h)
  | settled i m₁ e' o hi hw hm hso hsb hs' hu hfills hp hlive =>
    obtain ⟨hid, _, hself, _, hne⟩ := hr.settled harch hi hm hso hs'
    have hr' := hr.settle hok harch hlog hi hm hso hsb hs' hfills hp hlive
    have hcur := hr.current _ _ (hinv.find_some.mpr ⟨i, hi, rfl, rfl⟩)
    have hopen : isTerminal (j.session.manager.slots i).info.status = false := by simpa [Entry.working] using hw
    rw [← hid] at hself hne hcur
    refine hf.update hr' hlog hu hfills hself hne (fun hnil => absurd hnil (hf.told _ _ hcur)) ?_
      (fun id _ => settled_congr hp id) fun ht => ?_
    · exact hf.still _ _ hcur fun ht => by rw [hopen] at ht; cases ht
    · -- an order ends only when nothing is owed
      have hnil : pendings j.session.stack = [] := by
        by_contra hne'
        have hw' := hlive hne'
        simp [Entry.working, ht] at hw'
      unfold Settled
      rw [hp, hnil]
      simp
  | admitted req now reference tokens hsub hs' hu hfills hp =>
    obtain ⟨hr', hself, hne⟩ := hr.admitted hok harch hlog hsub hs' hfills hp
    have hset : j.Settled j.session.manager.nextId := by
      intro b hb h
      have := (hr.issued _ _ (hr.owed b hb)).2
      omega
    have hnone : j.archive j.session.manager.nextId = none := by
      cases ha : j.archive j.session.manager.nextId with
      | none => rfl
      | some info => exact absurd (hr.issued _ _ ha).2 (Nat.lt_irrefl _)
    have hnil : updatesOf j.log j.session.manager.nextId = [] := by
      have := hf.last _ hset
      rwa [hnone, List.getLast?_eq_none_iff] at this
    refine hf.update hr' hlog hu hfills hself hne (fun _ => rfl) ?_ (fun id _ => settled_congr hp id) fun ht => ?_
    · show (updatesOf j.log j.session.manager.nextId).filter _ = []
      rw [hnil]
      rfl
    · cases ht
  | returned before hp hs' hu hfills =>
    have hmem : before ∈ pendings j.session.stack := by rw [hp]; exact List.mem_cons_self
    have hnil : pendings j'.session.stack = [] := by
      have := hr.alone
      rw [hp, List.length_cons] at this
      exact List.eq_nil_of_length_eq_zero (by omega)
    obtain ⟨hr', hsame⟩ := hr.quiet hok harch hlog hfills (by rw [hs']) (fun id => by rw [hs']) (by rw [hnil]; simp)
      (by rw [hnil]; simp)
    have howed := hr.owed before hmem
    have hid := (hr.issued _ _ howed).1
    rw [← hid] at howed
    refine hf.update hr' hlog hu hfills ?_ (fun id _ => hsame id) (fun h => absurd h (hf.told _ _ howed)) ?_
      (fun id hne => ?_) fun _ => ?_
    · rw [hsame]
      exact howed
    · exact hf.still _ _ howed fun _ hset => hset before hmem hid.symm
    · unfold Settled
      rw [hp, hnil]
      simpa using fun h : before.id = id => hne (h.symm.trans hid.symm)
    · unfold Settled
      rw [hnil]
      simp
  | booked i x now he hst hi hw hb hs' hfx hp =>
    have hso : OrderManager.SameOrder (j.session.manager.slots i) ((j.session.manager.slots i).execute x now) :=
      ⟨rfl, rfl, rfl, rfl⟩
    obtain ⟨hid, _, hself, _, hne⟩ := hr.settled harch hi (OrderManager.Near.booked _ i x) hso hs'
    obtain ⟨hr', _⟩ := hr.book hok harch hlog hi hb hs' hfx hp
    have hcur := hr.current _ _ (hinv.find_some.mpr ⟨i, hi, rfl, rfl⟩)
    have hopen : isTerminal (j.session.manager.slots i).info.status = false := by simpa [Entry.working] using hw
    have hall : ∀ id, j.Settled id := by
      intro id b hb
      rw [hst] at hb
      cases hb
    have hset : ∀ id, j'.Settled id ↔ id ≠ (j.session.manager.slots i).info.id := by
      intro id
      unfold Settled
      rw [hp, List.forall_mem_singleton, hid]
      exact ne_comm
    refine hf.silent hr' hlog (by rw [hfx]; rfl) (fun id info hinfo => ?_) fun id hs => ?_
    · by_cases h : id = (j.session.manager.slots i).info.id
      · subst h
        exact ⟨_, hcur, fun _ => hf.still _ _ hcur fun ht => by rw [hopen] at ht; cases ht⟩
      · exact ⟨info, hne id h ▸ hinfo, fun hns => absurd ((hset id).mpr h) hns⟩
    · exact ⟨hall id, hne id ((hset id).mp hs)⟩

theorem Faithful.new (config : Config) (limits : Risk.Limits) (maxLocates : Nat) :
    Faithful (new config limits maxLocates) := by
  refine ⟨⟨.new config limits maxLocates, ?_, ?_, ?_, ?_, Nat.zero_le _, ?_, ?_⟩, ?_, ?_, ?_, ?_, ?_, ?_⟩
  · intro id info hf
    obtain ⟨i, hi, _⟩ := (OrderManager.Inv.new config limits maxLocates).find_some.mp hf
    exact absurd hi (Nat.not_lt_zero _)
  · intro id info h; cases h
  · intro f h; cases h
  · intro id info h; cases h
  · intro b h; cases h
  · intro b h; cases h
  · intro pre u post h
    exact absurd h.symm (by simp [Journal.new])
  · intro id u h; cases h
  · intro id info h; cases h
  · intro id _; rfl
  · intro id info h; cases h
  · intro id info h; cases h

theorem Faithful.run {es : List Event} (hf : Faithful j) (hr : run next j es = some j') : Faithful j' :=
  run_invariant (P := Faithful) (fun _ _ _ h hs => h.step hs) hr hf

/-- A step starts `on_fill` once if it books an execution and not at all otherwise. -/
theorem Faithful.fills_step (hf : Faithful j) (hn : j.next e = some j') :
    (fillsIn j'.log = fillsIn j.log ∧
      ∀ id info, j.archive id = some info → (j'.archive id).map OrderInfo.cumQty = some info.cumQty) ∨
    ∃ x now before after, e = .report (.executed x) now ∧ j.archive before.id = some before ∧
      j'.archive before.id = some after ∧ after.cumQty = before.cumQty + x.shares ∧ 0 < x.shares ∧
      (∀ id, id ≠ before.id → j'.archive id = j.archive id) ∧
      fillsIn j'.log = fillsIn j.log ++
        [⟨before.id, before.req.locate, before.req.side, x.shares, x.price, now, x.matchNo⟩] := by
  obtain ⟨fx, hs, harch, hlog⟩ := next_some hn
  have hr := hf.recorded
  have hr' := (hf.step hn).recorded
  have hok := (hr.ok.step hs).2
  -- without a fill the executed quantities are those of the same fills
  have hquiet : fillsIn fx = [] → (fillsIn j'.log = fillsIn j.log ∧
      ∀ id info, j.archive id = some info → (j'.archive id).map OrderInfo.cumQty = some info.cumQty) := by
    intro hfills
    refine ⟨by rw [hlog, fillsIn_append, hfills, List.append_nil], fun id info hi => ?_⟩
    cases h' : j'.archive id with
    | none =>
      rw [harch] at h'
      rw [(Option.or_eq_none_iff.mp h').2] at hi
      cases hi
    | some info' =>
      rw [Option.map_some, hr'.cum id info' h', hr.cum id info hi, hlog, fillsOf_append, fillsOf_eq_nil hfills,
        List.append_nil]
  cases shown hr.ok hs with
  | quiet _ hfills _ _ _ => exact .inl (hquiet hfills)
  | settled _ _ _ _ _ _ _ _ _ _ _ hfills _ _ => exact .inl (hquiet hfills)
  | admitted _ _ _ _ _ _ _ hfills _ => exact .inl (hquiet hfills)
  | returned _ _ _ _ hfills => exact .inl (hquiet hfills)
  | booked i x now he hst hi hw hb hs' hfx hp =>
    have hso : OrderManager.SameOrder (j.session.manager.slots i) ((j.session.manager.slots i).execute x now) :=
      ⟨rfl, rfl, rfl, rfl⟩
    obtain ⟨_, _, hself, _, hne⟩ := hr.settled harch hi (OrderManager.Near.booked _ i x) hso hs'
    obtain ⟨_, hcum⟩ := hr.book hok harch hlog hi hb hs' hfx hp
    have hcur := hr.current _ _ (hr.ok.inv.find_some.mpr ⟨i, hi, rfl, rfl⟩)
    have hpos := (execute_numbers (hr.ok.inv.entries i hi).sizes now hb).1
    refine .inr ⟨x, now, _, _, he, hcur, hself, hcum, hpos, hne, ?_⟩
    rw [hlog, fillsIn_append, hfx]
    rfl

/-- With room for one order, a submit made from `on_fill` gets the slot of the order being reported. -/
def slotReused : List Event :=
  [.submit { locate := 1, price := 10, qty := 30 } 5 Session.openWorld, .ret,
    .report (.accepted { token := Ouch.Token.fromId 1, side := .buy, shares := 30, price := 10 }) 6, .ret,
    .report (.executed { ts := 7, token := Ouch.Token.fromId 1, shares := 30, price := 10, matchNo := 1 }) 7,
    .submit { locate := 1, price := 11, qty := 20 } 7 Session.openWorld, .ret, .ret, .ret]

end Journal

/-- **The listener stream is faithful.** In every run, with calls nested in callbacks to any depth:
once nothing is running the last update of every order shows its current `OrderInfo`, or its final one
if it lost its slot; the first update of an order is pending_new; an order that has ended was shown
with a terminal status once, by its last update, and no other order was; `on_fill` starts once for
every `Executed` that is booked and never otherwise; and every update shows exactly the shares of the
fills started before it. -/
theorem listener_stream_faithful (config : Config) (limits : Risk.Limits) (maxLocates : Nat) (es : List Event)
    (j : Journal) (h : run Journal.next (Journal.new config limits maxLocates) es = some j) :
    (j.session.stack = [] → ∀ id,
      (Journal.updatesOf j.log id).getLast? = j.archive id ∧
      ∀ info, j.archive id = some info →
        (Journal.updatesOf j.log id).filter (fun u => isTerminal u.status) =
          if isTerminal info.status then [info] else []) ∧
    (∀ id info, j.session.manager.find id = some info → j.archive id = some info) ∧
    (∀ id u, (Journal.updatesOf j.log id).head? = some u → u.status = .pendingNew) ∧
    (∀ e j', j.next e = some j' →
      (fillsIn j'.log = fillsIn j.log ∧
        ∀ id info, j.archive id = some info → (j'.archive id).map OrderInfo.cumQty = some info.cumQty) ∨
      ∃ x now before after, e = .report (.executed x) now ∧ j.archive before.id = some before ∧
        j'.archive before.id = some after ∧ after.cumQty = before.cumQty + x.shares ∧ 0 < x.shares ∧
        (∀ id, id ≠ before.id → j'.archive id = j.archive id) ∧
        fillsIn j'.log = fillsIn j.log ++
          [⟨before.id, before.req.locate, before.req.side, x.shares, x.price, now, x.matchNo⟩]) ∧
    ∀ pre u post, j.log = pre ++ .update u :: post → u.cumQty = shares (Journal.fillsOf pre u.id) := by
  have hf := (Journal.Faithful.new config limits maxLocates).run h
  refine ⟨fun hst id => ?_, hf.recorded.current, hf.first, fun e j' hn => hf.fills_step hn, hf.counted⟩
  have hset : j.Settled id := by
    intro b hb
    rw [hst] at hb
    cases hb
  refine ⟨hf.last id hset, fun info hi => ?_⟩
  by_cases ht : isTerminal info.status = true
  · rw [if_pos ht]
    exact hf.ended id info hi ht hset
  · rw [if_neg ht]
    exact hf.still id info hi fun h' => absurd h' ht

/-- The order filled while its slot went to another is last shown as it ended. -/
theorem listener_stream_slot_reused :
    ∃ j, run Journal.next (Journal.new { maxOrders := 1 } {} 2) Journal.slotReused = some j ∧
      j.session.stack = [] ∧ j.session.manager.find 1 = none ∧
      ((j.archive 1).map OrderInfo.status, (j.archive 2).map OrderInfo.status) = (some .filled, some .pendingNew) ∧
      (Journal.updatesOf j.log 1).getLast? = j.archive 1 := by
  refine ⟨_, rfl, rfl, rfl, rfl, ?_⟩
  exact ((listener_stream_faithful { maxOrders := 1 } {} 2 Journal.slotReused _ rfl).1 rfl 1).1

end OptiTrade.Oms
