import OptiTrade.Oms.Lifecycle
import OptiTrade.Risk.Limits

/-! # A new order comes in

`submit` either leaves the manager as it was or ends in `admitted`. -/

namespace OptiTrade.Oms
set_option autoImplicit false

open Ouch (Token)
open Risk (RiskEngine kInt64Max)
open Risk.RiskEngine (SameLedger)

namespace OrderManager

/-- The order a successful `submit` puts into the table. -/
def newEntry (m : OrderManager) (req : OrderRequest) (now : Nat) : Entry :=
  { info := { id := m.nextId, req := req, leavesQty := req.qty, lastUpdate := now }
    token := m.nextToken, reserved := req.qty }

/-- The manager after a successful `submit`; `tokens` is the token map with the new token. -/
def admitted (m : OrderManager) (req : OrderRequest) (now : Nat) (tokens : BoundedMap Nat Nat) :
    OrderManager :=
  let old := m.slots m.nextSlot
  let unused := m.fresh < m.capacity
  { m with
    slots := Function.update m.slots m.nextSlot (m.newEntry req now)
    fresh := if unused then m.fresh + 1 else m.fresh
    finished := if unused then m.finished else m.finished.pop
    byId := ((if unused then m.byId else m.byId.erase old.info.id).insert m.nextId m.nextSlot).1
    tokens := if unused then tokens else tokens.erase old.token
    links := (m.links.pushBack m.working m.nextSlot).1
    working := (m.links.pushBack m.working m.nextSlot).2
    nextId := m.nextId + 1
    nextToken := m.nextToken + 1
    opened := m.opened + 1
    risk := (m.risk.admitOrder now).onOrderOpen req.locate req.side req.qty }

theorem admitted_fresh (m : OrderManager) (req : OrderRequest) (now : Nat) (tokens : BoundedMap Nat Nat) :
    (m.admitted req now tokens).fresh = if m.fresh < m.capacity then m.fresh + 1 else m.fresh := rfl

theorem admitted_byId (m : OrderManager) (req : OrderRequest) (now : Nat) (tokens : BoundedMap Nat Nat) :
    (m.admitted req now tokens).byId =
      ((if m.fresh < m.capacity then m.byId else m.byId.erase (m.slots m.nextSlot).info.id).insert m.nextId
        m.nextSlot).1 := rfl

theorem admitted_risk (m : OrderManager) (req : OrderRequest) (now : Nat) (tokens : BoundedMap Nat Nat) :
    (m.admitted req now tokens).risk = (m.risk.admitOrder now).onOrderOpen req.locate req.side req.qty := rfl

/-- The message a successful `submit` hands to the gateway. -/
def enterMsg (m : OrderManager) (req : OrderRequest) (symbol : Nat → Symbol) : Ouch.EnterOrder :=
  { token := Token.fromId m.nextToken, side := req.side, shares := req.qty
    stock := symbol req.locate, price := req.price, timeInForce := wireTif req.tif }

/-- What has to hold for `submit` to reach the gateway. -/
structure Submittable (m : OrderManager) (req : OrderRequest) (now : Nat) (reference : Nat → Int)
    (tokens : BoundedMap Nat Nat) : Prop where
  qty_pos : 1 ≤ req.qty
  qty_le : req.qty ≤ kMaxOrderQty
  price_pos : 0 < req.price
  price_le : req.price ≤ kMaxWirePrice
  slot : m.slotAvailable = true
  token_le : m.nextToken ≤ Token.kMaxId
  verdict : m.risk.evaluate req.locate req.side req.price req.qty (reference req.locate) now = .none
  inserted : m.tokens.insert m.nextToken m.nextSlot = (tokens, true)

/-- A `submit` that is refused leaves the manager as it was, and a message it offered was refused by
the gateway; otherwise the order is in the table. -/
theorem submit_cases (m : OrderManager) (req : OrderRequest) (now : Nat) (symbol : Nat → Symbol)
    (reference : Nat → Int) (gateway : Ouch.Inbound → Bool) {out : Outcome SubmitResult}
    (h : m.submit req now symbol reference gateway = out) :
    (out.state = m ∧ out.update = none ∧ ∀ msg, out.sent = some msg → gateway msg = false) ∨
    ∃ tokens, Submittable m req now reference tokens ∧
      gateway (.enter (m.enterMsg req symbol)) = true ∧
      out = ⟨⟨.ok, m.nextId, .none⟩, m.admitted req now tokens, some (.enter (m.enterMsg req symbol)),
          some (m.newEntry req now).info⟩ := by
  unfold submit at h
  dsimp only at h
  split at h
  · exact .inl (h ▸ ⟨rfl, rfl, by simp⟩)
  rename_i h₁
  split at h
  · exact .inl (h ▸ ⟨rfl, rfl, by simp⟩)
  split at h
  · exact .inl (h ▸ ⟨rfl, rfl, by simp⟩)
  rename_i h₃
  split at h
  · exact .inl (h ▸ ⟨rfl, rfl, by simp⟩)
  rename_i h₄
  split at h
  · exact .inl (h ▸ ⟨rfl, rfl, by simp⟩)
  rename_i h₅
  have hins : m.tokens.insert m.nextToken m.nextSlot = ((m.tokens.insert m.nextToken m.nextSlot).1, true) := by
    ext1
    · rfl
    · simpa using h₅
  split at h
  · rename_i h₆
    subst h
    refine .inl ⟨?_, rfl, ?_⟩
    · show { m with tokens := _ } = m
      rw [BoundedMap.erase_insert hins]
    · intro msg hmsg
      rw [← Option.some.inj hmsg]
      simpa using h₆
  · rename_i h₆
    right
    simp only [valid, Bool.not_eq_true', Bool.and_eq_false_iff, decide_eq_false_iff_not, not_or, not_not] at h₁
    have h₃' : m.slotAvailable = true ∧ m.tokenAvailable = true := by simpa using h₃
    have htok := h₃'.2
    simp only [tokenAvailable, Bool.and_eq_true, decide_eq_true_eq] at htok
    refine ⟨_, ⟨h₁.1.1.1, h₁.1.1.2, h₁.1.2, h₁.2, h₃'.1, htok.1, by simpa using h₄, hins⟩,
      by simpa [enterMsg] using h₆, ?_⟩
    rw [← h]
    by_cases hf : m.fresh < m.capacity
    · simp only [takeSlot, admitted, hf, if_true]
      rfl
    · simp only [takeSlot, admitted, hf, if_false]
      rfl

variable {m : OrderManager} {req : OrderRequest} {now : Nat} {reference : Nat → Int}
  {tokens : BoundedMap Nat Nat}

/-- The slot a new order gets: the next unused one, or that of the oldest finished order. -/
theorem Inv.nextSlot_cases (h : Inv m) (hslot : m.slotAvailable = true) :
    (m.fresh < m.capacity ∧ m.nextSlot = m.fresh) ∨
    (m.fresh = m.capacity ∧ m.nextSlot < m.fresh ∧ (m.slots m.nextSlot).working = false ∧
      m.finished.toList = m.nextSlot :: m.finished.pop.toList) := by
  unfold nextSlot
  by_cases hf : m.fresh < m.capacity
  · exact .inl ⟨hf, if_pos hf⟩
  · right
    have hcap := h.ids.fresh_le
    have hcount : m.finished.count ≠ 0 := by simpa [slotAvailable, hf] using hslot
    have hpos : 0 < m.capacity := by
      rcases Nat.eq_zero_or_pos m.capacity with hz | hp
      · have hempty : m.finished.toList = [] := by
          apply List.eq_nil_iff_forall_not_mem.mpr
          intro j hj
          have := ((h.places.ring_mem j).mp hj).1
          omega
        exact absurd (RingBuffer.toList_eq_nil.mp hempty) hcount
      · exact hp
    have hlist := RingBuffer.toList_pop hcount (by rw [h.places.ring_size]; exact h.places.ring_head hpos)
    have hmem : m.finished.front ∈ m.finished.toList := by
      rw [hlist]
      exact List.mem_cons_self
    obtain ⟨hlt, hw⟩ := (h.places.ring_mem _).mp hmem
    rw [if_neg hf]
    exact ⟨by omega, hlt, hw, hlist⟩

theorem Submittable.locate_lt (hs : Submittable m req now reference tokens) :
    req.locate < m.risk.locates :=
  (RiskEngine.assess_none hs.verdict).locate_lt

theorem newEntry_lifecycle (hs : Submittable m req now reference tokens) :
    Lifecycle (m.newEntry req now) := by
  have hp := hs.qty_pos
  refine ⟨⟨hp, hs.qty_le, ?_, hs.price_pos, hs.price_le, ?_, ?_⟩, ?_, ?_⟩
  · simp [newEntry]
  · simp [newEntry]
  · simp [newEntry]
  · refine ⟨?_, ?_, ?_, ?_, ?_, ?_, ?_, ?_⟩ <;> simp [newEntry, Entry.working, isTerminal, hp]
  · simp [newEntry, Entry.working, isTerminal, Entry.want]

/-! ## The parts of the table -/

section
variable (h : Inv m)
  (hcases : (m.fresh < m.capacity ∧ m.nextSlot = m.fresh) ∨
    (m.fresh = m.capacity ∧ m.nextSlot < m.fresh ∧ (m.slots m.nextSlot).working = false ∧
      m.finished.toList = m.nextSlot :: m.finished.pop.toList))
  (hi : m.nextSlot < (m.admitted req now tokens).fresh) (hf : m.fresh ≤ (m.admitted req now tokens).fresh)
  (hother : ∀ j < (m.admitted req now tokens).fresh, j ≠ m.nextSlot → j < m.fresh)

include h hcases hi hf hother

theorem Inv.admitted_ids : Ids (m.admitted req now tokens) := by
  have hfind : m.byId.find m.nextId = none := by
    cases hc : m.byId.find m.nextId with
    | none => rfl
    | some i =>
      obtain ⟨hi', hid⟩ := (h.ids.find _ i).mp hc
      have := h.ids.id_lt i hi'
      omega
  rcases hcases with ⟨h₁, h₂⟩ | ⟨h₁, h₂, _, _⟩
  · have hins := BoundedMap.insert_fresh (m := m.byId) m.nextSlot hfind
      (by rw [h.ids.size, h.ids.limit]; exact h₁)
    have hins' : m.byId.insert m.nextId m.nextSlot = ((m.byId.insert m.nextId m.nextSlot).1, true) := by
      rw [hins]
    have hby : (m.admitted req now tokens).byId = (m.byId.insert m.nextId m.nextSlot).1 := by
      rw [admitted_byId, if_pos h₁]
    refine h.ids.put rfl hi hf hother rfl ?_ ?_ ?_ rfl h.nextId_pos rfl ?_
    · rw [admitted_fresh, if_pos h₁]
      exact h₁
    · rw [hby, hins]
    · rw [hby, BoundedMap.size_insert_true hins', h.ids.size, admitted_fresh, if_pos h₁]
    · intro id
      rw [hby, BoundedMap.find_insert_true hins']
      split_ifs with h₃ h₄
      · rfl
      · omega
      · rfl
  · have hnot : ¬m.fresh < m.capacity := by omega
    have hold : m.byId.find (m.slots m.nextSlot).info.id = some m.nextSlot := (h.ids.find _ _).mpr ⟨h₂, rfl⟩
    have hsz := BoundedMap.size_erase hold
    have hins := BoundedMap.insert_fresh (m := m.byId.erase (m.slots m.nextSlot).info.id) m.nextSlot
      (k := m.nextId) (by rw [BoundedMap.find_erase, hfind]; simp)
      (by rw [BoundedMap.limit_erase, h.ids.limit]; have := h.ids.size; omega)
    have hins' : (m.byId.erase (m.slots m.nextSlot).info.id).insert m.nextId m.nextSlot =
        (((m.byId.erase (m.slots m.nextSlot).info.id).insert m.nextId m.nextSlot).1, true) := by
      rw [hins]
    have hby : (m.admitted req now tokens).byId =
        ((m.byId.erase (m.slots m.nextSlot).info.id).insert m.nextId m.nextSlot).1 := by
      rw [admitted_byId, if_neg hnot]
    refine h.ids.put rfl hi hf hother rfl ?_ ?_ ?_ rfl h.nextId_pos rfl ?_
    · rw [admitted_fresh, if_neg hnot]
      exact h₁.le
    · rw [hby, hins]
      rfl
    · have := h.ids.size
      rw [hby, BoundedMap.size_insert_true hins', admitted_fresh, if_neg hnot]
      omega
    · intro id
      rw [hby, BoundedMap.find_insert_true hins', BoundedMap.find_erase]
      by_cases h₃ : id = m.nextId
      · rw [if_pos h₃, if_pos h₃]
      · rw [if_neg h₃, if_neg h₃]
        by_cases h₄ : (m.slots m.nextSlot).info.id = id
        · rw [if_pos h₄.symm, if_pos ⟨h₂, h₄⟩]
        · rw [if_neg (fun h' => h₄ h'.symm), if_neg fun h' => h₄ h'.2]

theorem Inv.admitted_tokens (hs : Submittable m req now reference tokens) :
    Tokens (m.admitted req now tokens) := by
  have hpos := h.tokens.next_pos
  have htok : ∀ t, (m.newEntry req now).hasToken t ↔ t = m.nextToken := by
    intro t
    simp only [Entry.hasToken, newEntry]
    constructor
    · rintro (h' | ⟨h', hne⟩)
      · exact h'.symm
      · exact absurd h'.symm hne
    · exact fun h' => .inl h'.symm
  refine h.tokens.put rfl hi hf hother rfl ?_ (Nat.le_succ _) ?_ ?_ ?_
  · show (if m.fresh < m.capacity then tokens else tokens.erase (m.slots m.nextSlot).token).limit = _
    have hlim := BoundedMap.limit_insert hs.inserted
    split_ifs
    · exact hlim
    · rw [BoundedMap.limit_erase, hlim]
  · exact ⟨hpos, Nat.lt_succ_self _, Nat.succ_pos _, hs.token_le, Nat.zero_le _, hpos.ne'⟩
  · intro t ht j hj _ hjt
    rw [htok] at ht
    have := h.tokens.hasToken_lt hj hjt
    omega
  · intro t
    have hins := BoundedMap.find_insert_true hs.inserted t
    rcases hcases with ⟨h₁, h₂⟩ | ⟨h₁, h₂, h₃, _⟩
    · show (if m.fresh < m.capacity then tokens else _).find t = _
      rw [if_pos h₁, hins]
      by_cases ht : t = m.nextToken
      · rw [if_pos ht, if_pos ((htok t).mpr ht)]
      · rw [if_neg ht, if_neg (fun h' => ht ((htok t).mp h')), if_neg (fun h' => by omega)]
    · -- a finished order holds no replacement token, so its active one is all there is to forget
      have hno : (m.slots m.nextSlot).nextToken = 0 := by
        by_contra hne
        have hph := (h.entries _ h₂).phase.repl_status hne
        rw [Entry.working] at h₃
        rcases hph with h' | h' <;> rw [h'] at h₃ <;> cases h₃
      have hlt := h.tokens.token_lt _ h₂
      show (if m.fresh < m.capacity then tokens else _).find t = _
      rw [if_neg (by omega), BoundedMap.find_erase, hins]
      by_cases ht : t = m.nextToken
      · rw [if_neg (by omega), if_pos ht, if_pos ((htok t).mpr ht)]
      · rw [if_neg ht, if_neg (fun h' => ht ((htok t).mp h'))]
        by_cases hold : t = (m.slots m.nextSlot).token
        · rw [if_pos hold, if_pos ⟨h₂, .inl hold.symm⟩]
        · rw [if_neg hold, if_neg]
          rintro ⟨_, h' | ⟨h', hne⟩⟩
          · exact hold h'.symm
          · rw [hno] at h'
            exact hne h'.symm

theorem Inv.admitted_places (hold : m.nextSlot < m.fresh → (m.slots m.nextSlot).working = false) :
    Places (m.admitted req now tokens) := by
  refine h.places.put h.ids rfl hi hf hother rfl hold rfl rfl ?_ ?_ ?_ ?_ rfl rfl rfl
  · show (if m.fresh < m.capacity then m.finished else m.finished.pop).size = _
    split_ifs <;> rfl
  · intro hc
    show (if m.fresh < m.capacity then m.finished else m.finished.pop).head < _
    split_ifs
    · exact h.places.ring_head hc
    · have := RingBuffer.head_pop_lt m.finished (by rw [h.places.ring_size]; exact hc)
      rwa [h.places.ring_size] at this
  · show (if m.fresh < m.capacity then m.finished else m.finished.pop).toList.Nodup
    rcases hcases with ⟨h₁, _⟩ | ⟨h₁, _, _, h₄⟩
    · rw [if_pos h₁]; exact h.places.ring_nodup
    · have hn := h.places.ring_nodup
      rw [h₄] at hn
      rw [if_neg (by omega)]
      exact (List.nodup_cons.mp hn).2
  · intro j
    show j ∈ (if m.fresh < m.capacity then m.finished else m.finished.pop).toList ↔ _
    rcases hcases with ⟨h₁, h₂⟩ | ⟨h₁, _, _, h₄⟩
    · rw [if_pos h₁]
      refine ⟨fun hj => ⟨hj, fun e => ?_⟩, fun hj => hj.1⟩
      have := ((h.places.ring_mem j).mp hj).1
      omega
    · have hn := h.places.ring_nodup
      rw [h₄] at hn
      have hnot := (List.nodup_cons.mp hn).1
      rw [if_neg (by omega), h₄, List.mem_cons]
      constructor
      · intro hj
        exact ⟨.inr hj, fun e => hnot (e ▸ hj)⟩
      · rintro ⟨hj | hj, hne⟩
        · exact absurd hj hne
        · exact hj

end

/-- **An order comes in.** -/
theorem Inv.admitted (h : Inv m) (hs : Submittable m req now reference tokens) :
    Inv (m.admitted req now tokens) := by
  have hloc := hs.locate_lt
  have hcases := h.nextSlot_cases hs.slot
  have hsame := RiskEngine.admitOrder_sameLedger m.risk now
  have hqty : req.qty ≠ 0 := by have := hs.qty_pos; omega
  have hle := hs.qty_le
  have hnn := h.ledger.shares_nonneg req.locate req.side
  have hhi := h.ledger.shares_le h.ids req.locate req.side
  have hcount := h.ledger.count_lt h.ids req.locate req.side
  have hlife := newEntry_lifecycle hs
  have hold : m.nextSlot < m.fresh → (m.slots m.nextSlot).working = false := by
    intro hlt
    rcases hcases with ⟨_, h₂⟩ | ⟨_, _, h₃, _⟩
    · omega
    · exact h₃
  have hfresh := admitted_fresh m req now tokens
  have hi : m.nextSlot < (m.admitted req now tokens).fresh := by
    rw [hfresh]
    rcases hcases with ⟨h₁, h₂⟩ | ⟨h₁, h₂, _⟩
    · rw [if_pos h₁]; omega
    · rw [if_neg (by omega)]; exact h₂
  have hf : m.fresh ≤ (m.admitted req now tokens).fresh := by
    rw [hfresh]
    split_ifs <;> omega
  have hother : ∀ j < (m.admitted req now tokens).fresh, j ≠ m.nextSlot → j < m.fresh := by
    intro j hj hne
    rw [hfresh] at hj
    rcases hcases with ⟨h₁, h₂⟩ | ⟨h₁, h₂, _⟩
    · rw [if_pos h₁] at hj; omega
    · rwa [if_neg (by omega)] at hj
  refine ⟨?_, ?_, ?_, ?_, Nat.le_add_left _ _, ?_⟩
  · exact h.admitted_ids hcases hi hf hother
  · exact h.admitted_tokens hcases hi hf hother hs
  · exact h.admitted_places hcases hi hf hother hold
  · refine h.ledger.put rfl ?_ hloc hle ?_ ?_ ?_ ?_
    · rw [hfresh]
      rcases hcases with ⟨h₁, h₂⟩ | ⟨h₁, h₂, h₃, _⟩
      · exact .inl ⟨h₂, if_pos h₁⟩
      · exact .inr ⟨h₂, if_neg (by omega), h₃⟩
    · exact RiskEngine.onOrderOpen_locates.trans hsame.locates
    · intro l sd
      show (((m.risk.admitOrder now).onOrderOpen req.locate req.side req.qty).slots l).openShares sd = _
      rw [RiskEngine.onOrderOpen_shares (by rw [hsame.locates]; exact hloc) hqty
        (by rw [hsame.shares]; exact hnn) (by
          rw [hsame.shares]; unfold kInt64Max kMaxOrderQty at *; omega), hsame.shares]
      congr 1
      simp only [Entry.held, newEntry, Entry.working, isTerminal, Bool.not_false, true_and,
        eq_comm (a := l), eq_comm (a := sd)]
      split_ifs <;> rfl
    · intro l sd
      show (((m.risk.admitOrder now).onOrderOpen req.locate req.side req.qty).slots l).openCount sd = _
      rw [RiskEngine.onOrderOpen_count (by rw [hsame.locates]; exact hloc) hqty
        (by rw [hsame.count]; omega), hsame.count]
      congr 1
      simp only [Entry.counted, newEntry, Entry.working, isTerminal, Bool.not_false, true_and,
        eq_comm (a := l), eq_comm (a := sd)]
    · show ((m.risk.admitOrder now).onOrderOpen req.locate req.side req.qty).openTotal = m.opened + 1
      rw [RiskEngine.onOrderOpen_openTotal (by rw [hsame.locates]; exact hloc) hqty
        (by rw [hsame.count]; omega), hsame.total, h.ledger.total]
  · intro j hj
    by_cases hji : j = m.nextSlot
    · subst hji
      show Lifecycle (Function.update m.slots m.nextSlot _ m.nextSlot)
      rw [Function.update_self]
      exact hlife
    · show Lifecycle (Function.update m.slots m.nextSlot _ j)
      rw [Function.update_of_ne hji]
      exact h.entries j (hother j hj hji)

end OrderManager
end OptiTrade.Oms
