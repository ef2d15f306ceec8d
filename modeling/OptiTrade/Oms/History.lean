import Mathlib.Algebra.BigOperators.Group.List.Basic
import OptiTrade.Oms.HardLimits

/-! # Positions and fills over the whole history

A history runs a session and remembers what a listener has seen of it: every fill, and the last
`OrderInfo` of every order, also when its slot has gone to another one. `Told` ties the two to the
manager and the risk engine. -/

namespace OptiTrade.Oms
set_option autoImplicit false

open Finset Runs
open Risk (kInt64Max clamp64)

/-! ## The table as a map from ids -/

namespace OrderManager
variable {m m₁ : OrderManager}

theorem settle_entry (h : Inv m) {i : Nat} (hi : i < m.fresh) (hm : Near m m₁) (e : Entry)
    (o : Option OrderStatus) (id : Nat) :
    (m₁.settle i e o).entry id =
      if id = (m.slots i).info.id then some ((m₁.settle i e o).slots i) else m.entry id := by
  obtain ⟨e', _, hsl⟩ := m₁.settle_slots i e o
  have ht := m₁.settle_table i e o
  have hslot : (m₁.settle i e o).slotOf id = m.slotOf id := by
    unfold slotOf
    rw [ht.byId, hm.table.byId]
  unfold entry
  rw [hslot]
  by_cases hid : id = (m.slots i).info.id
  · rw [if_pos hid, slotOf, (h.ids.find id i).mpr ⟨hi, hid.symm⟩]
    rfl
  · rw [if_neg hid]
    cases hs : m.slotOf id with
    | none => rfl
    | some j =>
      have hj := (h.ids.find id j).mp hs
      have hji : j ≠ i := fun e' => hid (e' ▸ hj.2.symm)
      rw [Option.map_some, Option.map_some, hsl, Function.update_of_ne hji, hm.slots]

theorem admitted_entry (h : Inv m) {req : OrderRequest} {now : Nat} {reference : Nat → Int}
    {tokens : BoundedMap Nat Nat} (hs : Submittable m req now reference tokens) (id : Nat) :
    (m.admitted req now tokens).entry m.nextId = some (m.newEntry req now) ∧
      (id ≠ m.nextId → (m.admitted req now tokens).entry id = m.entry id ∨
        (m.admitted req now tokens).entry id = none) := by
  have h' := h.admitted hs
  have hself : (m.admitted req now tokens).slots m.nextSlot = m.newEntry req now := Function.update_self _ _ _
  have hlt : m.nextSlot < (m.admitted req now tokens).fresh := by
    rw [admitted_fresh]
    rcases h.nextSlot_cases hs.slot with ⟨h₁, h₂⟩ | ⟨h₁, h₂, _⟩
    · rw [if_pos h₁]; omega
    · rw [if_neg (by omega)]; exact h₂
  refine ⟨h'.entry_some.mpr ⟨m.nextSlot, hlt, by rw [hself]; rfl, hself⟩, fun hne => ?_⟩
  cases hent : (m.admitted req now tokens).entry id with
  | none => exact .inr rfl
  | some e =>
    left
    obtain ⟨j, hj, hid, he⟩ := h'.entry_some.mp hent
    have hji : j ≠ m.nextSlot := by
      rintro rfl
      rw [hself] at hid
      exact hne hid.symm
    have hsl : (m.admitted req now tokens).slots j = m.slots j := Function.update_of_ne hji _ _
    rw [hsl] at hid he
    refine (h.entry_some.mpr ⟨j, ?_, hid, he⟩).symm
    rw [admitted_fresh] at hj
    rcases h.nextSlot_cases hs.slot with ⟨h₁, h₂⟩ | ⟨h₁, _⟩
    · rw [if_pos h₁] at hj; omega
    · rwa [if_neg (by omega)] at hj

theorem find_eq_entry (m : OrderManager) (id : Nat) : m.find id = (m.entry id).map Entry.info := rfl

end OrderManager

/-! ## Histories -/

/-- A session and all it has said of its orders. -/
structure History where
  session : Session
  /-- The last `OrderInfo` of every order ever submitted. -/
  archive : Nat → Option OrderInfo := fun _ => none
  fills : List Fill := []

namespace History

def fillsIn (fx : List Effect) : List Fill :=
  fx.filterMap fun
    | .fill f => some f
    | _ => none

def new (config : Config) (limits : Risk.Limits) (maxLocates : Nat) : History where
  session := .new config limits maxLocates

/-- A step of the session, written down. -/
def next (h : History) (e : Event) : Option History :=
  (h.session.step e).map fun (s, fx) =>
    { session := s
      archive := fun id => (s.manager.find id).or (h.archive id)
      fills := h.fills ++ fillsIn fx }

def fillsOf (h : History) (id : Nat) : List Fill := h.fills.filter fun f => f.id = id

/-- The shares executed in `fs`. -/
def shares (fs : List Fill) : Nat := (fs.map Fill.qty).sum

/-- The money that changed hands in `fs`. -/
def money (fs : List Fill) : Int := (fs.map fun f => f.price * (f.qty : Int)).sum

/-- The match numbers an order remembers after `fs`. -/
def recent (fs : List Fill) : List Nat := (fs.map Fill.matchNo).drop (fs.length - kMatchMemory)

/-- What an order with this info adds to the position of instrument `l`. -/
def signed (l : Nat) : Option OrderInfo → Int
  | some info =>
    if info.req.locate = l then
      match info.req.side with
      | .buy => info.cumQty
      | .sell => -info.cumQty
    else 0
  | none => 0

/-- No position has reached the saturation bound. -/
def unsaturated (h : History) : Prop :=
  ∀ l, -kInt64Max < (h.session.manager.risk.position l).qty ∧
    (h.session.manager.risk.position l).qty < kInt64Max

@[simp] theorem shares_append (fs gs : List Fill) : shares (fs ++ gs) = shares fs + shares gs := by
  simp [shares]

@[simp] theorem money_append (fs gs : List Fill) : money (fs ++ gs) = money fs + money gs := by
  simp [money]

/-! ## The ring of match numbers -/

/-- The ring holds the last match numbers of `ns`. -/
structure Remembers (e : Entry) (ns : List Nat) : Prop where
  count : e.matchCount = ns.length
  cell : ∀ k (hk : k < ns.length), ns.length ≤ k + 8 → e.matches_ (k % 8) = ns.get ⟨k, hk⟩

theorem Remembers.nil {e : Entry} (h : e.matchCount = 0) : Remembers e [] :=
  ⟨h, fun k hk => absurd hk (Nat.not_lt_zero k)⟩

theorem Remembers.append {e e' : Entry} {ns : List Nat} (h : Remembers e ns) {n : Nat}
    (hm : e'.matches_ = Function.update e.matches_ (e.matchCount % kMatchMemory) n)
    (hc : e'.matchCount = e.matchCount + 1) : Remembers e' (ns ++ [n]) where
  count := by rw [hc, h.count, List.length_append]; rfl
  cell := by
    intro k hk hlen
    rw [List.length_append, List.length_singleton] at hk hlen
    rw [hm, h.count]
    show Function.update e.matches_ (ns.length % 8) n (k % 8) = _
    by_cases hkl : k = ns.length
    · subst hkl
      simp
    · have hne : k % 8 ≠ ns.length % 8 := by omega
      rw [Function.update_of_ne hne, h.cell k (by omega) (by omega)]
      simp [List.getElem_append_left (by omega : k < ns.length)]

/-- `seenMatch` looks through the last eight match numbers. -/
theorem Remembers.seenMatch_iff {e : Entry} {ns : List Nat} (h : Remembers e ns) (n : Nat) :
    e.seenMatch n = true ↔ n ∈ ns.drop (ns.length - kMatchMemory) := by
  unfold Entry.seenMatch kMatchMemory
  rw [List.any_eq_true, h.count]
  constructor
  · rintro ⟨j, hj, hjn⟩
    have hj := List.mem_range.mp hj
    -- the remembered position that falls on cell `j`
    have hk : ∃ k, k < ns.length ∧ ns.length ≤ k + 8 ∧ k % 8 = j := by
      by_cases hlen : ns.length ≤ 8
      · exact ⟨j, by omega, by omega, by omega⟩
      · refine ⟨ns.length - 8 + (j + 8 - ns.length % 8) % 8, ?_, ?_, ?_⟩ <;> omega
    obtain ⟨k, hk₁, hk₂, hk₃⟩ := hk
    have hcell := h.cell k hk₁ hk₂
    rw [hk₃, eq_of_beq hjn] at hcell
    rw [hcell, List.get_eq_getElem]
    have hidx : ns.length - 8 + (k - (ns.length - 8)) = k := by omega
    exact List.mem_drop_iff_getElem.mpr ⟨k - (ns.length - 8), by omega, by simp [hidx]⟩
  · intro hn
    obtain ⟨k, hk, hkn⟩ := List.mem_drop_iff_getElem.mp hn
    refine ⟨(ns.length - 8 + k) % 8, List.mem_range.mpr (by omega), ?_⟩
    rw [h.cell (ns.length - 8 + k) (by omega) (by omega), List.get_eq_getElem]
    simp [hkn]

/-! ## What a history knows -/

/-- **The invariant**: the fills are what the orders and the positions say. -/
structure Told (h : History) : Prop where
  ok : h.session.Ok
  current : ∀ id info, h.session.manager.find id = some info → h.archive id = some info
  issued : ∀ id info, h.archive id = some info → id < h.session.manager.nextId
  known : ∀ f ∈ h.fills, f.id < h.session.manager.nextId
  cum : ∀ id info, h.archive id = some info → info.cumQty = shares (h.fillsOf id)
  avg : ∀ id info, h.archive id = some info → info.avgPrice = money (h.fillsOf id) / (info.cumQty : Int)
  notional : ∀ id e, h.session.manager.entry id = some e → (e.notional : Int) = money (h.fillsOf id)
  memory : ∀ id e, h.session.manager.entry id = some e →
    Remembers e ((h.fillsOf id).map Fill.matchNo)
  position : ∀ l, (h.session.manager.risk.slots l).pos.qty =
    ∑ id ∈ range h.session.manager.nextId, signed l (h.archive id)
  off : ∀ l, h.session.manager.risk.locates ≤ l → (h.session.manager.risk.slots l).pos.qty = 0

variable {h h' : History} {e : Event}

theorem next_some (hn : h.next e = some h') :
    ∃ fx, h.session.step e = some (h'.session, fx) ∧
      (∀ id, h'.archive id = (h'.session.manager.find id).or (h.archive id)) ∧ h'.fills = h.fills ++ fillsIn fx := by
  unfold next at hn
  obtain ⟨⟨s, fx⟩, h₁, h₂⟩ := Option.map_eq_some_iff.mp hn
  subst h₂
  exact ⟨fx, h₁, fun _ => rfl, rfl⟩

/-- A step without a fill that keeps or closes every tabled order, and adds at most a new one. -/
theorem Told.quiet (ht : Told h) (hok : h'.session.Ok) (hfills : h'.fills = h.fills)
    (harch : ∀ id, h'.archive id = (h'.session.manager.find id).or (h.archive id))
    (hnext : h.session.manager.nextId ≤ h'.session.manager.nextId)
    (hpos : OrderManager.SamePositions h.session.manager.risk h'.session.manager.risk)
    (hloc : h'.session.manager.risk.locates = h.session.manager.risk.locates)
    (hent : ∀ id e', h'.session.manager.entry id = some e' →
      (∃ e, h.session.manager.entry id = some e ∧ OrderManager.SameOrder e { e' with reserved := e.reserved } ∧
        OrderManager.SameBook e e') ∨
      (h.session.manager.nextId ≤ id ∧ id < h'.session.manager.nextId ∧ e'.info.cumQty = 0 ∧
        e'.info.avgPrice = 0 ∧ e'.notional = 0 ∧ e'.matchCount = 0)) : Told h' := by
  have hof : ∀ id, h'.fillsOf id = h.fillsOf id := fun id => by rw [fillsOf, fillsOf, hfills]
  have hnone : ∀ id, h.session.manager.nextId ≤ id → h.fillsOf id = [] := by
    intro id hid
    refine List.filter_eq_nil_iff.mpr fun f hf => ?_
    have := ht.known f hf
    simp only [decide_eq_true_eq]
    omega
  -- where the archive changes at all, it is by an order that has booked the same or is new
  have hstep : ∀ id info, h'.archive id = some info →
      (∃ old, h.archive id = some old ∧ info.cumQty = old.cumQty ∧ info.avgPrice = old.avgPrice ∧
        info.req.locate = old.req.locate ∧ info.req.side = old.req.side) ∨
      (h.session.manager.nextId ≤ id ∧ id < h'.session.manager.nextId ∧ info.cumQty = 0 ∧ info.avgPrice = 0) := by
    intro id info hinfo
    rw [harch, OrderManager.find_eq_entry] at hinfo
    cases hent' : h'.session.manager.entry id with
    | none =>
      rw [hent'] at hinfo
      exact .inl ⟨info, hinfo, rfl, rfl, rfl, rfl⟩
    | some e' =>
      rw [hent'] at hinfo
      obtain rfl : e'.info = info := by simpa using hinfo
      rcases hent id e' hent' with ⟨e, he, hso, hsb⟩ | ⟨h₁, h₂, h₃, h₄, _⟩
      · exact .inl ⟨e.info, ht.current id e.info (by rw [OrderManager.find_eq_entry, he]; rfl), hsb.cumQty,
          hsb.avgPrice, hso.locate, hso.side⟩
      · exact .inr ⟨h₁, h₂, h₃, h₄⟩
  refine ⟨hok, ?_, ?_, ?_, ?_, ?_, ?_, ?_, ?_, fun l hl => by rw [hpos]; exact ht.off l (hloc ▸ hl)⟩
  · intro id info hf
    rw [harch, hf]
    rfl
  · intro id info hinfo
    rcases hstep id info hinfo with ⟨old, hold, _⟩ | ⟨_, h₂, _⟩
    · exact (ht.issued id old hold).trans_le hnext
    · exact h₂
  · rw [hfills]
    exact fun f hf => (ht.known f hf).trans_le hnext
  · intro id info hinfo
    rw [hof]
    rcases hstep id info hinfo with ⟨old, hold, hc, _⟩ | ⟨h₁, _, h₃, _⟩
    · rw [hc]; exact ht.cum id old hold
    · rw [h₃, hnone id h₁]; rfl
  · intro id info hinfo
    rw [hof]
    rcases hstep id info hinfo with ⟨old, hold, hc, ha, _⟩ | ⟨h₁, _, h₃, h₄⟩
    · rw [hc, ha]; exact ht.avg id old hold
    · rw [h₄, hnone id h₁]; simp [money]
  · intro id e' he'
    rw [hof]
    rcases hent id e' he' with ⟨e, he, _, hsb⟩ | ⟨h₁, _, _, _, h₅, _⟩
    · rw [hsb.notional]; exact ht.notional id e he
    · rw [h₅, hnone id h₁]; rfl
  · intro id e' he'
    rw [hof]
    rcases hent id e' he' with ⟨e, he, _, hsb⟩ | ⟨h₁, _, _, _, _, h₆⟩
    · obtain ⟨hc, hcell⟩ := ht.memory id e he
      exact ⟨by rw [hsb.matchCount, hc], fun k hk hl => by rw [hsb.matches_]; exact hcell k hk hl⟩
    · rw [hnone id h₁]
      exact .nil h₆
  · intro l
    rw [hpos, ht.position]
    have hsub : range h.session.manager.nextId ⊆ range h'.session.manager.nextId :=
      range_subset_range.mpr hnext
    have hsame : ∀ id, signed l (h'.archive id) = signed l (h.archive id) := by
      intro id
      cases hinfo : h'.archive id with
      | none =>
        have : h.archive id = none := by
          rw [harch] at hinfo
          exact (Option.or_eq_none_iff.mp hinfo).2
        rw [this]
      | some info =>
        rcases hstep id info hinfo with ⟨old, hold, hc, _, hl, hs⟩ | ⟨h₁, _, h₃, _⟩
        · rw [hold]
          simp only [signed, hc, hl, hs]
        · have hnn : h.archive id = none := by
            cases ho : h.archive id with
            | none => rfl
            | some old => have := ht.issued id old ho; omega
          rw [hnn]
          simp only [signed, h₃]
          split_ifs <;> cases info.req.side <;> rfl
    rw [← sum_subset hsub fun id _ hid => ?_]
    · exact sum_congr rfl fun id _ => (hsame id).symm
    · rw [hsame]
      cases ho : h.archive id with
      | none => rfl
      | some old => exact absurd (mem_range.mpr (ht.issued id old ho)) hid

/-- The fill a booked execution is shown as. -/
def fillOf (e : Entry) (x : Ouch.Executed) (now : Nat) : Fill :=
  ⟨e.info.id, e.info.req.locate, e.info.req.side, x.shares, x.price, now, x.matchNo⟩

/-- `h'` is `h` when the execution `x` of the order in slot `i` has been booked. -/
structure Booking (h h' : History) (i : Nat) (x : Ouch.Executed) (now : Nat) : Prop where
  used : i < h.session.manager.fresh
  good : ¬OrderManager.badExecution (h.session.manager.slots i) x
  manager : h'.session.manager = (h.session.manager.booked i x).settle i ((h.session.manager.slots i).execute x now)
    (some .filled)
  fills : h'.fills = h.fills ++ [fillOf (h.session.manager.slots i) x now]
  archive : ∀ id, h'.archive id = (h'.session.manager.find id).or (h.archive id)

section
variable {i : Nat} {x : Ouch.Executed} {now : Nat}

open OrderManager (Near SameBook)

theorem Booking.nextId (hb : Booking h h' i x now) : h'.session.manager.nextId = h.session.manager.nextId := by
  rw [hb.manager, ((h.session.manager.booked i x).settle_table i _ _).nextId]
  exact (Near.booked h.session.manager i x).table.nextId

theorem Booking.locates (hb : Booking h h' i x now) :
    h'.session.manager.risk.locates = h.session.manager.risk.locates := by
  rw [hb.manager, (OrderManager.settle_limits _ i _ _).2, (Near.booked _ i x).ledger.locates]

theorem Booking.entry (hb : Booking h h' i x now) (ht : Told h) (id : Nat) : h'.session.manager.entry id =
    if id = (h.session.manager.slots i).info.id then some (h'.session.manager.slots i) else h.session.manager.entry id := by
  rw [hb.manager]
  exact OrderManager.settle_entry ht.ok.inv hb.used (Near.booked _ i x) _ _ id

theorem Booking.sameBook (hb : Booking h h' i x now) :
    SameBook ((h.session.manager.slots i).execute x now) (h'.session.manager.slots i) := by
  rw [hb.manager]
  exact OrderManager.settle_sameBook _ i _ _

theorem Booking.sameSlot (hb : Booking h h' i x now) :
    (h'.session.manager.slots i).info.req.locate = (h.session.manager.slots i).info.req.locate ∧
      (h'.session.manager.slots i).info.req.side = (h.session.manager.slots i).info.req.side := by
  rw [hb.manager]
  by_cases hl : ((h.session.manager.slots i).execute x now).info.leavesQty = 0
  · rw [OrderManager.settle_dead hl]
    simp only [Function.update_self]
    exact ⟨rfl, rfl⟩
  · rw [OrderManager.settle_live hl]
    simp only [Function.update_self]
    exact ⟨rfl, rfl⟩

theorem Booking.fillsOf_self (hb : Booking h h' i x now) : h'.fillsOf (h.session.manager.slots i).info.id =
    h.fillsOf (h.session.manager.slots i).info.id ++ [fillOf (h.session.manager.slots i) x now] := by
  rw [fillsOf, fillsOf, hb.fills, List.filter_append]
  simp [fillOf]

theorem Booking.fillsOf_ne (hb : Booking h h' i x now) {id : Nat} (hid : id ≠ (h.session.manager.slots i).info.id) :
    h'.fillsOf id = h.fillsOf id := by
  rw [fillsOf, fillsOf, hb.fills, List.filter_append]
  simp [fillOf, Ne.symm hid]

theorem Booking.archive_self (hb : Booking h h' i x now) (ht : Told h) :
    h'.archive (h.session.manager.slots i).info.id = some (h'.session.manager.slots i).info := by
  rw [hb.archive, OrderManager.find_eq_entry, hb.entry ht, if_pos rfl]
  rfl

theorem Booking.archive_ne (hb : Booking h h' i x now) (ht : Told h) {id : Nat}
    (hid : id ≠ (h.session.manager.slots i).info.id) : h'.archive id = h.archive id := by
  rw [hb.archive, OrderManager.find_eq_entry, hb.entry ht, if_neg hid]
  cases he : h.session.manager.entry id with
  | none => rfl
  | some e => exact (ht.current id e.info (by rw [OrderManager.find_eq_entry, he]; rfl)).symm

theorem Booking.money_self (hb : Booking h h' i x now) (ht : Told h) :
    money (h'.fillsOf (h.session.manager.slots i).info.id) =
      (((h.session.manager.slots i).execute x now).notional : Int) := by
  have hinv := ht.ok.inv
  obtain ⟨-, hprice, -, -, -, -, -, hnot, -⟩ := execute_numbers (hinv.entries i hb.used).sizes now hb.good
  have hcast : (x.price.toNat : Int) = x.price := Int.toNat_of_nonneg hprice.le
  rw [hb.fillsOf_self, money_append, ← ht.notional _ _ (hinv.entry_slot hb.used), hnot]
  push_cast
  rw [hcast]
  simp [money, fillOf]

/-- The shares that the execution adds to the position, signed. -/
def gain (e : Entry) (x : Ouch.Executed) : Int := if e.info.req.side = .buy then x.shares else -x.shares

theorem Booking.qty (hb : Booking h h' i x now) (ht : Told h) (l : Nat) : (h'.session.manager.risk.slots l).pos.qty =
    if l = (h.session.manager.slots i).info.req.locate then
      clamp64 ((h.session.manager.risk.slots l).pos.qty + gain (h.session.manager.slots i) x)
    else (h.session.manager.risk.slots l).pos.qty := by
  have hinv := ht.ok.inv
  obtain ⟨hq, hprice, -⟩ := execute_numbers (hinv.entries i hb.used).sizes now hb.good
  rw [hb.manager, OrderManager.settle_pos]
  show (((h.session.manager.noteClamp _).risk.onFill _ _ _ _).slots l).pos.qty = _
  rw [(OrderManager.noteClamp_tokens h.session.manager _).2.2,
    Risk.RiskEngine.onFill_qty (hinv.ledger.locate i hb.used) (by omega) hprice]
  unfold gain
  split_ifs with h₁ h₂ <;> first | rfl | rw [h₁]

/-- What the orders add up to changes by the gain of the order. -/
theorem Booking.sum_signed (hb : Booking h h' i x now) (ht : Told h) (l : Nat) :
    ∑ id ∈ range h'.session.manager.nextId, signed l (h'.archive id) =
      ∑ id ∈ range h.session.manager.nextId, signed l (h.archive id) +
        if l = (h.session.manager.slots i).info.req.locate then gain (h.session.manager.slots i) x else 0 := by
  have hinv := ht.ok.inv
  have hid := mem_range.mpr (hinv.ids.id_lt i hb.used)
  obtain ⟨-, -, -, -, hcum, -⟩ := execute_numbers (hinv.entries i hb.used).sizes now hb.good
  obtain ⟨hloc, hside⟩ := hb.sameSlot
  have hrest : ∑ id ∈ (range h.session.manager.nextId).erase (h.session.manager.slots i).info.id, signed l (h'.archive id) =
      ∑ id ∈ (range h.session.manager.nextId).erase (h.session.manager.slots i).info.id, signed l (h.archive id) :=
    sum_congr rfl fun id hid => by rw [hb.archive_ne ht (mem_erase.mp hid).1]
  rw [hb.nextId, ← add_sum_erase _ _ hid, ← add_sum_erase _ _ hid, hrest, hb.archive_self ht,
    ht.current _ _ (hinv.find_some.mpr ⟨i, hb.used, rfl, rfl⟩)]
  generalize ∑ id ∈ (range h.session.manager.nextId).erase (h.session.manager.slots i).info.id,
    signed l (h.archive id) = rest
  simp only [signed, gain, hloc, hside, hb.sameBook.cumQty, hcum]
  by_cases hl : (h.session.manager.slots i).info.req.locate = l
  · rw [if_pos hl, if_pos hl, if_pos hl.symm]
    cases (h.session.manager.slots i).info.req.side with
    | buy => rw [if_pos rfl]; push_cast; omega
    | sell => rw [if_neg (by decide)]; push_cast; omega
  · rw [if_neg hl, if_neg hl, if_neg (Ne.symm hl)]
    omega

/-- Below the saturation bound the position is what the orders add up to. -/
theorem Booking.position (hb : Booking h h' i x now) (ht : Told h) (hsat : h'.unsaturated) (l : Nat) :
    (h'.session.manager.risk.slots l).pos.qty = ∑ id ∈ range h'.session.manager.nextId, signed l (h'.archive id) := by
  have hqty := hb.qty ht l
  rw [hb.sum_signed ht, ← ht.position l]
  by_cases hl : l = (h.session.manager.slots i).info.req.locate
  · have hlo : l < h'.session.manager.risk.locates := by
      rw [hb.locates, hl]
      exact ht.ok.inv.ledger.locate i hb.used
    have hs := hsat l
    unfold Risk.RiskEngine.position at hs
    rw [if_pos hlo] at hs
    rw [if_pos hl] at hqty ⊢
    rw [hqty] at hs ⊢
    -- strictly inside the bound nothing was clamped
    unfold Risk.clamp64 at hs ⊢
    split_ifs at hs ⊢ <;> omega
  · rw [if_neg hl] at hqty ⊢
    rw [hqty, add_zero]

/-- A step that books an execution. -/
theorem Told.booked (ht : Told h) (hok : h'.session.Ok) (hb : Booking h h' i x now) (hsat : h'.unsaturated) : Told h' := by
  have hinv := ht.ok.inv
  obtain ⟨-, -, -, -, hcum, -, -, hnot, hcount, havg⟩ := execute_numbers (hinv.entries i hb.used).sizes now hb.good
  have hbook := hb.sameBook
  have hlt := hinv.ids.id_lt i hb.used
  refine ⟨hok, ?current, ?issued, ?known, ?cum, ?avg, ?notional, ?memory, hb.position ht hsat, ?off⟩
  case current =>
    intro id info hf
    rw [hb.archive, hf]
    rfl
  case issued =>
    intro id info hinfo
    rw [hb.nextId]
    by_cases hid : id = (h.session.manager.slots i).info.id
    · rw [hid]
      exact hlt
    · rw [hb.archive_ne ht hid] at hinfo
      exact ht.issued id info hinfo
  case known =>
    intro f hf
    rw [hb.nextId]
    rw [hb.fills, List.mem_append, List.mem_singleton] at hf
    rcases hf with hf | hf
    · exact ht.known f hf
    · rw [hf]
      exact hlt
  case cum =>
    intro id info hinfo
    by_cases hid : id = (h.session.manager.slots i).info.id
    · rw [hid] at hinfo ⊢
      rw [hb.archive_self ht] at hinfo
      have hcur := ht.current _ _ (hinv.find_some.mpr ⟨i, hb.used, rfl, rfl⟩)
      rw [hb.fillsOf_self, shares_append, ← ht.cum _ _ hcur, ← Option.some.inj hinfo, hbook.cumQty, hcum]
      simp [shares, fillOf]
    · rw [hb.archive_ne ht hid] at hinfo
      rw [hb.fillsOf_ne hid]
      exact ht.cum id info hinfo
  case avg =>
    intro id info hinfo
    by_cases hid : id = (h.session.manager.slots i).info.id
    · rw [hid] at hinfo ⊢
      rw [hb.archive_self ht] at hinfo
      rw [hb.money_self ht, ← Option.some.inj hinfo, hbook.avgPrice, hbook.cumQty, havg, hnot, hcum]
      push_cast
      rfl
    · rw [hb.archive_ne ht hid] at hinfo
      rw [hb.fillsOf_ne hid]
      exact ht.avg id info hinfo
  case notional =>
    intro id e' he'
    rw [hb.entry ht] at he'
    by_cases hid : id = (h.session.manager.slots i).info.id
    · rw [if_pos hid] at he'
      rw [hid, hb.money_self ht, ← Option.some.inj he', hbook.notional]
    · rw [if_neg hid] at he'
      rw [hb.fillsOf_ne hid]
      exact ht.notional id e' he'
  case memory =>
    intro id e' he'
    rw [hb.entry ht] at he'
    by_cases hid : id = (h.session.manager.slots i).info.id
    · rw [if_pos hid] at he'
      rw [hid, hb.fillsOf_self, List.map_append, ← Option.some.inj he']
      refine (ht.memory _ _ (hinv.entry_slot hb.used)).append ?_ ?_
      · rw [hbook.matches_]
        rfl
      · rw [hbook.matchCount, hcount]
    · rw [if_neg hid] at he'
      rw [hb.fillsOf_ne hid]
      exact ht.memory id e' he'
  case off =>
    intro l hl
    rw [hb.locates] at hl
    have hslot := hinv.ledger.locate i hb.used
    rw [hb.qty ht, if_neg (by omega)]
    exact ht.off l hl

end

/-! ## Steps and runs -/

theorem fillsIn_taken (w : World) (now : Nat) (sent : Option Ouch.Inbound) (fx : List Effect) :
    fillsIn (Session.taken w now sent ++ fx) = fillsIn fx := by
  cases sent with
  | none => rfl
  | some msg =>
    simp only [Session.taken]
    split_ifs <;> rfl

theorem fillsIn_finishCall {α : Type} (s : Session) (out : OrderManager.Outcome α) (now : Nat) (w : World) :
    fillsIn (s.finishCall out now w).2 = [] := by
  unfold Session.finishCall
  cases out.update with
  | none => exact (congrArg fillsIn (List.append_nil _).symm).trans (fillsIn_taken w now out.sent [])
  | some info => exact fillsIn_taken w now out.sent [.update info]

/-- Only an execution shows a fill. -/
theorem fillsIn_step {s s' : Session} {fx : List Effect} (hs : s.step e = some (s', fx))
    (he : ∀ x now, e ≠ .report (.executed x) now) : fillsIn fx = [] := by
  have hfin : ∀ out : OrderManager × Option OrderInfo, fillsIn (Session.finishReport out).2 = [] := by
    rintro ⟨m, _ | info⟩ <;> rfl
  cases e with
  | submit req now w =>
    simp only [Session.step, Option.ite_none_right_eq_some, Option.some.injEq] at hs
    rw [← show _ = fx from congrArg Prod.snd hs.2]
    exact fillsIn_finishCall s _ now w
  | cancel id now w =>
    simp only [Session.step, Option.ite_none_right_eq_some, Option.some.injEq] at hs
    rw [← show _ = fx from congrArg Prod.snd hs.2]
    exact fillsIn_finishCall s _ now w
  | replace id p q now w =>
    simp only [Session.step, Option.ite_none_right_eq_some, Option.some.injEq] at hs
    rw [← show _ = fx from congrArg Prod.snd hs.2]
    exact fillsIn_finishCall s _ now w
  | cancelAll now =>
    simp only [Session.step, Option.ite_none_right_eq_some, Option.some.injEq, Prod.mk.injEq] at hs
    rw [← hs.2.2]
    rfl
  | advance w =>
    simp only [Session.step] at hs
    split at hs
    · rw [← show _ = fx from congrArg Prod.snd (Option.some.inj hs)]
      unfold Session.sweep
      split
      · rfl
      · dsimp only
        split
        · rfl
        · split
          · exact fillsIn_finishCall _ _ _ w
          · rfl
    · cases hs
  | ret =>
    simp only [Session.step] at hs
    split at hs
    · rw [← show _ = fx from congrArg Prod.snd (Option.some.inj hs)]
      rfl
    · rw [← show _ = fx from congrArg Prod.snd (Option.some.inj hs)]
      rfl
    · cases hs
  | report r now =>
    simp only [Session.step, Option.ite_none_right_eq_some, Option.some.injEq] at hs
    rw [← show _ = fx from congrArg Prod.snd hs.2]
    cases r with
    | accepted a => exact hfin _
    | canceled c => exact hfin _
    | rejected r => exact hfin _
    | replaced rp => exact hfin _
    | executed x => exact absurd rfl (he x now)
  | mark l p =>
    simp only [Session.step, Option.ite_none_right_eq_some, Option.some.injEq, Prod.mk.injEq] at hs
    rw [← hs.2.2]
    rfl
  | killSwitch on =>
    simp only [Session.step, Option.ite_none_right_eq_some, Option.some.injEq, Prod.mk.injEq] at hs
    rw [← hs.2.2]
    rfl

/-- The two ways a session takes an execution. -/
theorem executed_step {s s' : Session} (hok : s.Ok) {x : Ouch.Executed} {now : Nat} {fx : List Effect}
    (hs : s.step (.report (.executed x) now) = some (s', fx)) :
    (fx = [] ∧ s'.stack = [] ∧
      (s'.manager = s.manager.unknown ∨ s'.manager = s.manager.late ∨ s'.manager = s.manager.invalid)) ∨
    ∃ i, s.manager.resolve x.token = some (i, false) ∧ (s.manager.slots i).working = true ∧
      ¬OrderManager.badExecution (s.manager.slots i) x ∧ fx = [.fill (fillOf (s.manager.slots i) x now)] ∧
      s'.manager = (s.manager.booked i x).settle i ((s.manager.slots i).execute x now) (some .filled) := by
  simp only [Session.step, Option.ite_none_right_eq_some, Option.some.injEq] at hs
  have hs := hs.2
  simp only [Session.report] at hs
  cases OrderManager.onExecuted_handled hok.inv x now with
  | unknown _ hout =>
    rw [hout] at hs
    cases hs
    exact .inl ⟨rfl, rfl, .inl rfl⟩
  | late _ _ _ _ hout =>
    rw [hout] at hs
    cases hs
    exact .inl ⟨rfl, rfl, .inr (.inl rfl)⟩
  | invalid _ _ _ _ _ hout =>
    rw [hout] at hs
    cases hs
    exact .inl ⟨rfl, rfl, .inr (.inr rfl)⟩
  | applied i b hr hw hb hout =>
    have hbf : b = false := by simpa using fun h' => hb (.inl h')
    rw [hout] at hs
    cases hs
    refine .inr ⟨i, hbf ▸ hr, hw, fun h' => hb (.inr h'), ?_, rfl⟩
    -- the settled entry shows the order under its own id, instrument and side
    by_cases hl : ((s.manager.slots i).execute x now).info.leavesQty = 0
    · rw [OrderManager.settle_dead hl]
      simp only [Function.update_self]
      rfl
    · rw [OrderManager.settle_live hl]
      simp only [Function.update_self]
      rfl

theorem Told.step (ht : Told h) (hn : h.next e = some h') (hsat : h'.unsaturated) : Told h' := by
  obtain ⟨fx, hs, harch, hfills⟩ := next_some hn
  obtain ⟨hmv, hok⟩ := ht.ok.step hs
  have hkeep : ∀ {m' : OrderManager}, h'.session.manager = m' → fillsIn fx = [] →
      m'.nextId = h.session.manager.nextId → (∀ id, m'.entry id = h.session.manager.entry id) →
      OrderManager.SamePositions h.session.manager.risk m'.risk →
      m'.risk.locates = h.session.manager.risk.locates → Told h' := by
    intro m' hm hfx hnext hent hpos hloc
    refine ht.quiet hok (by rw [hfills, hfx, List.append_nil]) harch (by rw [hm, hnext]) (by rw [hm]; exact hpos)
      (by rw [hm]; exact hloc) ?_
    intro id e' he'
    rw [hm, hent] at he'
    exact .inl ⟨e', he', ⟨rfl, rfl, rfl, rfl⟩, ⟨rfl, rfl, rfl, rfl, rfl⟩⟩
  by_cases hex : ∃ x now, e = .report (.executed x) now
  · obtain ⟨x, now, rfl⟩ := hex
    rcases executed_step ht.ok hs with ⟨hfx, _, hm | hm | hm⟩ | ⟨i, hr, _, hb, hfx, hm⟩
    · exact hkeep hm (by rw [hfx]; rfl) rfl (fun _ => rfl) (.refl _) rfl
    · exact hkeep hm (by rw [hfx]; rfl) rfl (fun _ => rfl) (.refl _) rfl
    · exact hkeep hm (by rw [hfx]; rfl) rfl (fun _ => rfl) (.refl _) rfl
    · have hi := ((OrderManager.resolve_some ht.ok.inv.tokens).mp hr).1
      exact ht.booked hok ⟨hi, hb, hm, by rw [hfills, hfx]; rfl, harch⟩ hsat
  · have hne : ∀ x now, e ≠ .report (.executed x) now := fun x now he => hex ⟨x, now, he⟩
    have hfx := fillsIn_step hs hne
    cases hmv with
    | stack hm _ _ => exact hkeep hm hfx rfl (fun _ => rfl) (.refl _) rfl
    | call c hc hm he =>
      have hloc : h'.session.manager.risk.locates = h.session.manager.risk.locates := by
        rw [hm]
        exact (ht.ok.inv.perform_limits hc).2
      cases ht.ok.inv.touched hc with
      | none htab hsl _ hpos =>
        refine hkeep hm hfx htab.nextId (fun id => ?_) hpos (hm ▸ hloc)
        unfold OrderManager.entry OrderManager.slotOf
        rw [htab.byId, hsl]
      | executed i x now hcx _ _ _ _ => exact absurd ((he (.executed x) now).mp hcx) (hne x now)
      | settled i m₁ e' o hi hw hnear hpos hso hsb hout =>
        rw [hout] at hm
        have hnext : h'.session.manager.nextId = h.session.manager.nextId := by
          rw [hm, (m₁.settle_table i e' o).nextId, hnear.table.nextId]
        refine ht.quiet hok (by rw [hfills, hfx, List.append_nil]) harch hnext.ge ?_ hloc ?_
        · intro k
          rw [hm, OrderManager.settle_pos]
          exact hpos k
        · intro id e'' he''
          rw [hm, OrderManager.settle_entry ht.ok.inv hi hnear] at he''
          by_cases hid : id = (h.session.manager.slots i).info.id
          · rw [if_pos hid] at he''
            refine .inl ⟨h.session.manager.slots i, by rw [hid]; exact ht.ok.inv.entry_slot hi, ?_, ?_⟩
            · rw [← Option.some.inj he'']
              by_cases hl : e'.info.leavesQty = 0
              · rw [OrderManager.settle_dead hl]
                simp only [Function.update_self]
                exact ⟨hso.id, hso.locate, hso.side, rfl⟩
              · rw [OrderManager.settle_live hl]
                simp only [Function.update_self]
                exact ⟨hso.id, hso.locate, hso.side, rfl⟩
            · rw [← Option.some.inj he'']
              by_cases hl : e'.info.leavesQty = 0
              · rw [OrderManager.settle_dead hl]
                simp only [Function.update_self]
                exact ⟨hsb.cumQty, hsb.avgPrice, hsb.notional, hsb.matches_, hsb.matchCount⟩
              · rw [OrderManager.settle_live hl]
                simp only [Function.update_self]
                exact ⟨hsb.cumQty, hsb.avgPrice, hsb.notional, hsb.matches_, hsb.matchCount⟩
          · rw [if_neg hid] at he''
            exact .inl ⟨e'', he'', ⟨rfl, rfl, rfl, rfl⟩, ⟨rfl, rfl, rfl, rfl, rfl⟩⟩
      | admitted req now reference tokens hsub hout =>
        rw [hout] at hm
        refine ht.quiet hok (by rw [hfills, hfx, List.append_nil]) harch (by rw [hm]; exact Nat.le_succ _) ?_ hloc ?_
        · intro k
          rw [hm, OrderManager.admitted_risk, Risk.RiskEngine.onOrderOpen_pos]
          exact OrderManager.admitOrder_positions _ now k
        · intro id e'' he''
          rw [hm] at he''
          by_cases hid : id = h.session.manager.nextId
          · subst hid
            rw [(OrderManager.admitted_entry ht.ok.inv hsub 0).1] at he''
            rw [← Option.some.inj he'', hm]
            exact .inr ⟨le_refl _, Nat.lt_succ_self _, rfl, rfl, rfl, rfl⟩
          · rcases (OrderManager.admitted_entry ht.ok.inv hsub id).2 hid with hold | hold
            · rw [hold] at he''
              exact .inl ⟨e'', he'', ⟨rfl, rfl, rfl, rfl⟩, ⟨rfl, rfl, rfl, rfl, rfl⟩⟩
            · rw [hold] at he''
              cases he''

theorem Told.new (config : Config) (limits : Risk.Limits) (maxLocates : Nat) : Told (new config limits maxLocates) := by
  refine ⟨.new config limits maxLocates, ?_, ?_, ?_, ?_, ?_, ?_, ?_, ?_, fun _ _ => rfl⟩
  · intro id info hf
    obtain ⟨i, hi, _⟩ := (OrderManager.Inv.new config limits maxLocates).find_some.mp hf
    exact absurd hi (Nat.not_lt_zero _)
  · intro id info hinfo; cases hinfo
  · intro f hf; cases hf
  · intro id info hinfo; cases hinfo
  · intro id info hinfo; cases hinfo
  · intro id e he
    obtain ⟨i, hi, _⟩ := (OrderManager.Inv.new config limits maxLocates).entry_some.mp he
    exact absurd hi (Nat.not_lt_zero _)
  · intro id e he
    obtain ⟨i, hi, _⟩ := (OrderManager.Inv.new config limits maxLocates).entry_some.mp he
    exact absurd hi (Nat.not_lt_zero _)
  · intro l
    rfl

/-- A valid execution on the active token of a working order, and what becomes of it. -/
theorem Told.execution (ht : Told h) (hstack : h.session.stack = []) {id : Nat} {e : Entry} {x : Ouch.Executed}
    (now : Nat) (he : h.session.manager.entry id = some e) (hw : isTerminal e.info.status = false)
    (htok : x.token = Ouch.Token.fromId e.token) (hq : 1 ≤ x.shares) (hp : 1 ≤ x.price)
    (hp' : x.price < 2 ^ 32) (hmax : e.info.cumQty + x.shares ≤ 999999) :
    ∃ h', h.next (.report (.executed x) now) = some h' ∧
      if x.matchNo ∈ recent (h.fillsOf id) then
        h'.fills = h.fills ∧ h'.session = { h.session with manager := h.session.manager.invalid }
      else h'.fills = h.fills ++ [fillOf e x now] := by
  have hinv := ht.ok.inv
  obtain ⟨i, hi, hid, rfl⟩ := hinv.entry_some.mp he
  have hr : h.session.manager.resolve x.token = some (i, false) := by
    rw [OrderManager.resolve_some hinv.tokens]
    exact ⟨hi, htok⟩
  have hwk : (h.session.manager.slots i).working = true := by simp [Entry.working, hw]
  have hcum := (hinv.entries i hi).sizes.cum_le
  have hseen := (ht.memory id _ he).seenMatch_iff x.matchNo
  rw [List.length_map] at hseen
  have hbad : OrderManager.badExecution (h.session.manager.slots i) x ↔ x.matchNo ∈ recent (h.fillsOf id) := by
    unfold OrderManager.badExecution
    rw [hseen, sub32_eq hcum (by unfold kMaxOrderQty u32Max; omega)]
    unfold kMaxWirePrice kMaxOrderQty
    constructor
    · rintro (h₁ | h₁ | h₁ | h₁ | h₁)
      · omega
      · omega
      · omega
      · omega
      · exact h₁
    · exact fun h₁ => .inr (.inr (.inr (.inr h₁)))
  have hen : ∃ s' fx, h.session.step (.report (.executed x) now) = some (s', fx) :=
    ⟨_, _, by simp only [Session.step, hstack]; rfl⟩
  obtain ⟨s', fx, hs⟩ := hen
  refine ⟨⟨s', fun id => (s'.manager.find id).or (h.archive id), h.fills ++ fillsIn fx⟩,
    by unfold next; rw [hs]; rfl, ?_⟩
  have hrep : h.session.report (.executed x) now = (s', fx) := by
    simp only [Session.step, Option.ite_none_right_eq_some, Option.some.injEq] at hs
    exact hs.2
  simp only [Session.report] at hrep
  cases OrderManager.onExecuted_handled hinv x now with
  | unknown hn _ => rw [hr] at hn; cases hn
  | late j b hr' hw' _ =>
    rw [hr] at hr'
    cases hr'
    rw [hwk] at hw'
    cases hw'
  | invalid j b hr' _ hb hout =>
    rw [hr] at hr'
    cases hr'
    rw [hout] at hrep
    cases hrep
    rw [if_pos (hbad.mp (hb.resolve_left (by decide)))]
    refine ⟨List.append_nil _, ?_⟩
    show (⟨_, []⟩ : Session) = ⟨_, h.session.stack⟩
    rw [hstack]
  | applied j b hr' _ hb hout =>
    rw [hr] at hr'
    cases hr'
    rw [if_neg fun h' => hb (.inr (hbad.mpr h'))]
    rcases executed_step ht.ok hs with ⟨hfx, _, _⟩ | ⟨k, hk, _, _, hfx, _⟩
    · rw [hout] at hrep
      cases hrep
      cases hfx
    · rw [hr] at hk
      cases hk
      show h.fills ++ fillsIn fx = _
      rw [hfx]
      rfl

end History

/-- **Position and fill conservation.** Along every run in which no position reaches the saturation
bound: each position is the signed sum of the executed quantities of all orders ever submitted on the
instrument; the executed quantity and the average price of each order are those of the fills booked
on it; and a well-formed execution on the active token of a working order is booked once if its match
number is not among the last eight of that order, and otherwise only counted as invalid. -/
theorem positions_and_fills_conserved (config : Config) (limits : Risk.Limits) (maxLocates : Nat)
    (es : List Event) (h : History) (hr : run History.next (History.new config limits maxLocates) es = some h)
    (hsat : Along History.next (fun u e => ∀ u', u.next e = some u' → u'.unsaturated)
      (History.new config limits maxLocates) es) :
    (∀ l, (h.session.manager.risk.position l).qty =
      ∑ id ∈ range h.session.manager.nextId, History.signed l (h.archive id)) ∧
    (∀ id info, h.archive id = some info →
      info.cumQty = History.shares (h.fillsOf id) ∧
      info.avgPrice = History.money (h.fillsOf id) / (info.cumQty : Int)) ∧
    (∀ id info, h.session.manager.find id = some info → h.archive id = some info) ∧
    (∀ id info, h.archive id = some info → id < h.session.manager.nextId) ∧
    ∀ id e (x : Ouch.Executed) now, h.session.stack = [] → h.session.manager.entry id = some e →
      isTerminal e.info.status = false → x.token = Ouch.Token.fromId e.token → 1 ≤ x.shares → 1 ≤ x.price →
      x.price < 2 ^ 32 → e.info.cumQty + x.shares ≤ 999999 →
      ∃ h', h.next (.report (.executed x) now) = some h' ∧
        if x.matchNo ∈ History.recent (h.fillsOf id) then
          h'.fills = h.fills ∧ h'.session = { h.session with manager := h.session.manager.invalid }
        else h'.fills = h.fills ++ [History.fillOf e x now] := by
  have ht : h.Told := run_invariant_along (P := History.Told)
    (fun u e u' hu hq hstep => hu.step hstep (hq u' hstep)) hr hsat (.new config limits maxLocates)
  refine ⟨fun l => ?_, fun id info hi => ⟨ht.cum id info hi, ht.avg id info hi⟩, ht.current, ht.issued, ?_⟩
  · rw [← ht.position l]
    unfold Risk.RiskEngine.position
    split_ifs with hl
    · rfl
    · exact (ht.off l (not_lt.mp hl)).symm
  · intro id e x now hstack he hw htok h₁ h₂ h₃ h₄
    exact ht.execution hstack now he hw htok h₁ h₂ h₃ h₄

/-- The 30 shares of the run are the position, the fill and the executed quantity. -/
theorem positions_and_fills_replace_in_flight :
    ∃ h, run History.next (History.new {} {} 2) Session.replaceInFlight = some h ∧
      (h.session.manager.risk.position 1).qty = 30 ∧ History.shares (h.fillsOf 1) = 30 ∧
      (h.session.manager.risk.position 1).qty =
        ∑ id ∈ range h.session.manager.nextId, History.signed 1 (h.archive id) := by
  have key : ∀ u : History, u.session.manager.risk.locates = 2 →
      (∀ l < 2, -kInt64Max < (u.session.manager.risk.slots l).pos.qty ∧
        (u.session.manager.risk.slots l).pos.qty < kInt64Max) → u.unsaturated := by
    intro u hl hu l
    unfold Risk.RiskEngine.position
    rw [hl]
    split_ifs with h
    · exact hu l h
    · decide
  refine ⟨_, rfl, rfl, rfl, ?_⟩
  refine (positions_and_fills_conserved {} {} 2 Session.replaceInFlight _ rfl ?_).1 1
  refine ⟨fun u hu => ?_, fun u hu => ?_⟩ <;> cases hu
  · exact key _ rfl (by decide)
  refine ⟨fun u hu => ?_, fun u hu => ?_⟩ <;> cases hu
  · exact key _ rfl (by decide)
  refine ⟨fun u hu => ?_, fun u hu => ?_⟩ <;> cases hu
  · exact key _ rfl (by decide)
  refine ⟨fun u hu => ?_, fun u hu => ?_⟩ <;> cases hu
  · exact key _ rfl (by decide)
  refine ⟨fun u hu => ?_, fun u hu => ?_⟩ <;> cases hu
  · exact key _ rfl (by decide)
  refine ⟨fun u hu => ?_, fun u hu => ?_⟩ <;> cases hu
  · exact key _ rfl (by decide)
  refine ⟨fun u hu => ?_, fun u hu => trivial⟩
  cases hu
  exact key _ rfl (by decide)

end OptiTrade.Oms
