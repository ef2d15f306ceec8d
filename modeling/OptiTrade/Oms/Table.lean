import OptiTrade.Foundations.Sums
import OptiTrade.Oms.OrderManager

/-! # The order table

Ids, tokens and places of the tabled orders. `Ids`, `Tokens` and `Places` read disjoint parts of
the manager, so an operation that leaves a part alone keeps its invariant by congruence; the rest
of the module says how the few operations that move an order keep each part. -/

namespace OptiTrade.Oms
set_option autoImplicit false

open Ouch (Token)

/-- The order is not terminal. -/
def Entry.working (e : Entry) : Bool := !isTerminal e.info.status

/-- The order is reachable under token `t`. -/
def Entry.hasToken (e : Entry) (t : Nat) : Prop := e.token = t ∨ (e.nextToken = t ∧ t ≠ 0)

instance (e : Entry) (t : Nat) : Decidable (e.hasToken t) := by
  unfold Entry.hasToken
  infer_instance

namespace OrderManager

/-- The id map holds exactly the tabled orders, one per used slot. -/
structure Ids (m : OrderManager) : Prop where
  fresh_le : m.fresh ≤ m.capacity
  capacity_lt : m.capacity < kNone
  limit : m.byId.limit = m.capacity
  size : m.byId.size = m.fresh
  find : ∀ id i, m.byId.find id = some i ↔ i < m.fresh ∧ (m.slots i).info.id = id
  id_pos : ∀ i < m.fresh, 1 ≤ (m.slots i).info.id
  id_lt : ∀ i < m.fresh, (m.slots i).info.id < m.nextId

/-- The token map holds exactly the active token of each tabled order and the replacement token of
each replace in flight. -/
structure Tokens (m : OrderManager) : Prop where
  limit : m.tokens.limit = 2 * m.capacity
  find : ∀ t i, m.tokens.find t = some i ↔ i < m.fresh ∧ (m.slots i).hasToken t
  next_pos : 0 < m.nextToken
  token_pos : ∀ i < m.fresh, 0 < (m.slots i).token
  token_lt : ∀ i < m.fresh, (m.slots i).token < m.nextToken
  nextToken_lt : ∀ i < m.fresh, (m.slots i).nextToken < m.nextToken
  token_le : ∀ i < m.fresh, (m.slots i).token ≤ Token.kMaxId
  nextToken_le : ∀ i < m.fresh, (m.slots i).nextToken ≤ Token.kMaxId
  distinct : ∀ i < m.fresh, (m.slots i).token ≠ (m.slots i).nextToken

/-- Every used slot is in the working list or in the ring of finished orders, once. -/
structure Places (m : OrderManager) : Prop where
  ring_size : m.finished.size = m.capacity
  ring_head : 0 < m.capacity → m.finished.head < m.capacity
  ring_nodup : m.finished.toList.Nodup
  ring_mem : ∀ i, i ∈ m.finished.toList ↔ i < m.fresh ∧ (m.slots i).working = false
  list : ∃ ws, Linked m.links m.working ws ∧
    (∀ i, i ∈ ws ↔ i < m.fresh ∧ (m.slots i).working = true) ∧
    ws.Pairwise (fun i j => (m.slots i).info.id < (m.slots j).info.id) ∧ ws.length = m.opened

variable {m m' : OrderManager}

/-! ## Congruence -/

theorem Ids.congr (h : Ids m) (hf : m'.fresh = m.fresh) (hc : m'.capacity = m.capacity)
    (hb : m'.byId = m.byId) (hn : m'.nextId = m.nextId)
    (hid : ∀ i < m.fresh, (m'.slots i).info.id = (m.slots i).info.id) : Ids m' where
  fresh_le := by rw [hf, hc]; exact h.fresh_le
  capacity_lt := by rw [hc]; exact h.capacity_lt
  limit := by rw [hb, hc]; exact h.limit
  size := by rw [hb, hf]; exact h.size
  find := fun id i => by
    rw [hb, hf, h.find]
    refine and_congr_right fun hi => ?_
    rw [hid i hi]
  id_pos := fun i hi => by
    rw [hf] at hi
    rw [hid i hi]
    exact h.id_pos i hi
  id_lt := fun i hi => by
    rw [hf] at hi
    rw [hid i hi, hn]
    exact h.id_lt i hi

theorem Tokens.congr (h : Tokens m) (hf : m'.fresh = m.fresh) (hc : m'.capacity = m.capacity)
    (ht : m'.tokens = m.tokens) (hn : m'.nextToken = m.nextToken)
    (hk : ∀ i < m.fresh, (m'.slots i).token = (m.slots i).token ∧
      (m'.slots i).nextToken = (m.slots i).nextToken) : Tokens m' where
  limit := by rw [ht, hc]; exact h.limit
  find := fun t i => by
    rw [ht, hf, h.find]
    refine and_congr_right fun hi => ?_
    rw [Entry.hasToken, Entry.hasToken, (hk i hi).1, (hk i hi).2]
  next_pos := by rw [hn]; exact h.next_pos
  token_pos := fun i hi => by rw [hf] at hi; rw [(hk i hi).1]; exact h.token_pos i hi
  token_lt := fun i hi => by rw [hf] at hi; rw [(hk i hi).1, hn]; exact h.token_lt i hi
  nextToken_lt := fun i hi => by rw [hf] at hi; rw [(hk i hi).2, hn]; exact h.nextToken_lt i hi
  token_le := fun i hi => by rw [hf] at hi; rw [(hk i hi).1]; exact h.token_le i hi
  nextToken_le := fun i hi => by rw [hf] at hi; rw [(hk i hi).2]; exact h.nextToken_le i hi
  distinct := fun i hi => by rw [hf] at hi; rw [(hk i hi).1, (hk i hi).2]; exact h.distinct i hi

theorem Places.congr (h : Places m) (hf : m'.fresh = m.fresh) (hc : m'.capacity = m.capacity)
    (hr : m'.finished = m.finished) (hl : m'.links = m.links) (hw : m'.working = m.working)
    (ho : m'.opened = m.opened)
    (hk : ∀ i < m.fresh, (m'.slots i).info.id = (m.slots i).info.id ∧
      (m'.slots i).working = (m.slots i).working) : Places m' where
  ring_size := by rw [hr, hc]; exact h.ring_size
  ring_head := by rw [hr, hc]; exact h.ring_head
  ring_nodup := by rw [hr]; exact h.ring_nodup
  ring_mem := fun i => by
    rw [hr, hf, h.ring_mem]
    refine and_congr_right fun hi => ?_
    rw [(hk i hi).2]
  list := by
    obtain ⟨ws, h₁, h₂, h₃, h₄⟩ := h.list
    refine ⟨ws, by rw [hl, hw]; exact h₁, ?_, ?_, by rw [ho]; exact h₄⟩
    · intro i
      rw [hf, h₂]
      refine and_congr_right fun hi => ?_
      rw [(hk i hi).2]
    · refine h₃.imp_of_mem fun {i j} hi hj hij => ?_
      rw [(hk i ((h₂ i).mp hi).1).1, (hk j ((h₂ j).mp hj).1).1]
      exact hij

/-! ## Tokens -/

theorem Tokens.slot_unique (h : Tokens m) {i j t : Nat} (hi : i < m.fresh) (hj : j < m.fresh)
    (hti : (m.slots i).hasToken t) (htj : (m.slots j).hasToken t) : i = j := by
  have h₁ := (h.find t i).mpr ⟨hi, hti⟩
  have h₂ := (h.find t j).mpr ⟨hj, htj⟩
  rw [h₁] at h₂
  exact Option.some.inj h₂

theorem Tokens.hasToken_lt (h : Tokens m) {i t : Nat} (hi : i < m.fresh) (ht : (m.slots i).hasToken t) :
    t < m.nextToken := by
  rcases ht with ht | ⟨ht, _⟩
  · rw [← ht]; exact h.token_lt i hi
  · rw [← ht]; exact h.nextToken_lt i hi

theorem Tokens.find_next (h : Tokens m) : m.tokens.find m.nextToken = none := by
  cases hf : m.tokens.find m.nextToken with
  | none => rfl
  | some i =>
    obtain ⟨hi, ht⟩ := (h.find _ i).mp hf
    exact absurd (h.hasToken_lt hi ht) (lt_irrefl _)

/-- What an entry must look like to be put into a slot. -/
structure TokensFit (e : Entry) (next : Nat) : Prop where
  token_pos : 0 < e.token
  token_lt : e.token < next
  nextToken_lt : e.nextToken < next
  token_le : e.token ≤ Token.kMaxId
  nextToken_le : e.nextToken ≤ Token.kMaxId
  distinct : e.token ≠ e.nextToken

theorem Tokens.fit (h : Tokens m) {i : Nat} (hi : i < m.fresh) : TokensFit (m.slots i) m.nextToken :=
  ⟨h.token_pos i hi, h.token_lt i hi, h.nextToken_lt i hi, h.token_le i hi, h.nextToken_le i hi,
    h.distinct i hi⟩

/-- Slot `i`, used before or not, gets entry `e`; the token map forgets the tokens of the old entry
and learns those of the new one. -/
theorem Tokens.put (h : Tokens m) {i : Nat} {e : Entry} (hs : m'.slots = Function.update m.slots i e)
    (hi : i < m'.fresh) (hf : m.fresh ≤ m'.fresh) (hother : ∀ j < m'.fresh, j ≠ i → j < m.fresh)
    (hc : m'.capacity = m.capacity) (hlim : m'.tokens.limit = m.tokens.limit)
    (hn : m.nextToken ≤ m'.nextToken) (hfit : TokensFit e m'.nextToken)
    (hfree : ∀ t, e.hasToken t → ∀ j < m.fresh, j ≠ i → ¬(m.slots j).hasToken t)
    (hfind : ∀ t, m'.tokens.find t =
      if e.hasToken t then some i
      else if i < m.fresh ∧ (m.slots i).hasToken t then none else m.tokens.find t) : Tokens m' := by
  have hslot : ∀ j, j ≠ i → m'.slots j = m.slots j := fun j hj => by rw [hs, Function.update_of_ne hj]
  have hself : m'.slots i = e := by rw [hs, Function.update_self]
  have hfits : ∀ j < m'.fresh, TokensFit (m'.slots j) m'.nextToken := by
    intro j hj
    by_cases hji : j = i
    · rw [hji, hself]; exact hfit
    · have hold := h.fit (hother j hj hji)
      rw [hslot j hji]
      exact ⟨hold.token_pos, hold.token_lt.trans_le hn, hold.nextToken_lt.trans_le hn, hold.token_le,
        hold.nextToken_le, hold.distinct⟩
  refine ⟨by rw [hlim, hc]; exact h.limit, ?_, h.next_pos.trans_le hn, fun j hj => (hfits j hj).token_pos,
    fun j hj => (hfits j hj).token_lt, fun j hj => (hfits j hj).nextToken_lt,
    fun j hj => (hfits j hj).token_le, fun j hj => (hfits j hj).nextToken_le,
    fun j hj => (hfits j hj).distinct⟩
  intro t j
  rw [hfind]
  by_cases hji : j = i
  · subst hji
    rw [hself]
    by_cases ht : e.hasToken t
    · simp [ht, hi]
    · rw [if_neg ht]
      refine iff_of_false ?_ fun h' => ht h'.2
      split_ifs with hold
      · simp
      · rw [h.find]
        exact hold
  · rw [hslot j hji]
    have hlt : j < m'.fresh ↔ j < m.fresh := ⟨fun hj => hother j hj hji, fun hj => hj.trans_le hf⟩
    by_cases ht : e.hasToken t
    · rw [if_pos ht]
      refine iff_of_false (fun h' => hji (Option.some.inj h').symm) ?_
      rintro ⟨hj, hjt⟩
      exact hfree t ht j (hlt.mp hj) hji hjt
    · rw [if_neg ht]
      split_ifs with hold
      · refine iff_of_false (by simp) ?_
        rintro ⟨hj, hjt⟩
        exact hji (h.slot_unique (hlt.mp hj) hold.1 hjt hold.2)
      · rw [h.find, hlt]

/-- The order in slot `i` loses its replacement token. -/
theorem Tokens.drop (h : Tokens m) {i : Nat} (hi : i < m.fresh) {e : Entry}
    (hs : m'.slots = Function.update m.slots i e) (he : e.token = (m.slots i).token) (he' : e.nextToken = 0)
    (hf : m'.fresh = m.fresh) (hc : m'.capacity = m.capacity) (hn : m'.nextToken = m.nextToken)
    (ht : m'.tokens = if (m.slots i).nextToken ≠ 0 then m.tokens.erase (m.slots i).nextToken else m.tokens) :
    Tokens m' := by
  have hfit := h.fit hi
  have htok : ∀ t, e.hasToken t ↔ t = (m.slots i).token := by
    intro t
    unfold Entry.hasToken
    rw [he, he']
    have := hfit.token_pos
    constructor
    · rintro (h' | ⟨h', hne⟩)
      · exact h'.symm
      · exact absurd h'.symm hne
    · exact fun h' => .inl h'.symm
  refine h.put hs (by rw [hf]; exact hi) hf.ge (fun j hj _ => hf ▸ hj) hc ?_ hn.ge ?_ ?_ ?_
  · rw [ht]
    split_ifs <;> rfl
  · rw [hn]
    exact ⟨he ▸ hfit.token_pos, he ▸ hfit.token_lt, by rw [he']; exact h.next_pos, he ▸ hfit.token_le,
      by rw [he']; exact Nat.zero_le _, by rw [he, he']; exact hfit.token_pos.ne'⟩
  · intro t het j hj hji hjt
    rw [htok] at het
    exact hji (h.slot_unique hj hi hjt (.inl het.symm))
  · intro t
    by_cases h₁ : e.hasToken t
    · rw [if_pos h₁]
      rw [htok] at h₁
      have hold : m.tokens.find t = some i := (h.find t i).mpr ⟨hi, .inl h₁.symm⟩
      rw [ht]
      split_ifs with h₂
      · rw [BoundedMap.find_erase_ne _ (by rw [h₁]; exact hfit.distinct), hold]
      · exact hold
    · rw [if_neg h₁]
      rw [htok] at h₁
      rw [ht]
      by_cases h₂ : (m.slots i).nextToken = t ∧ t ≠ 0
      · rw [if_pos (by rw [h₂.1]; exact h₂.2), if_pos ⟨hi, .inr h₂⟩, h₂.1]
        simp
      · have hno : ¬(i < m.fresh ∧ (m.slots i).hasToken t) := fun h' => h'.2.elim (fun e' => h₁ e'.symm) h₂
        rw [if_neg hno]
        split_ifs with h₃
        · exact BoundedMap.find_erase_ne _ fun e' => h₂ ⟨e'.symm, by rw [e']; exact h₃⟩
        · rfl

/-- The replacement token of slot `i` becomes its active one. -/
theorem Tokens.swap (h : Tokens m) {i : Nat} (hi : i < m.fresh) {e : Entry}
    (hs : m'.slots = Function.update m.slots i e) (he : e.token = (m.slots i).nextToken) (he' : e.nextToken = 0)
    (hne : (m.slots i).nextToken ≠ 0)
    (hf : m'.fresh = m.fresh) (hc : m'.capacity = m.capacity) (hn : m'.nextToken = m.nextToken)
    (ht : m'.tokens = m.tokens.erase (m.slots i).token) : Tokens m' := by
  have hfit := h.fit hi
  have htok : ∀ t, e.hasToken t ↔ t = (m.slots i).nextToken := by
    intro t
    unfold Entry.hasToken
    rw [he, he']
    constructor
    · rintro (h' | ⟨h', hne'⟩)
      · exact h'.symm
      · exact absurd h'.symm hne'
    · exact fun h' => .inl h'.symm
  refine h.put hs (by rw [hf]; exact hi) hf.ge (fun j hj _ => hf ▸ hj) hc (by rw [ht]; rfl) hn.ge ?_ ?_ ?_
  · rw [hn]
    exact ⟨he ▸ Nat.pos_of_ne_zero hne, he ▸ hfit.nextToken_lt, by rw [he']; exact h.next_pos,
      he ▸ hfit.nextToken_le, by rw [he']; exact Nat.zero_le _, by rw [he, he']; exact hne⟩
  · intro t het j hj hji hjt
    rw [htok] at het
    exact hji (h.slot_unique hj hi hjt (.inr ⟨het.symm, het ▸ hne⟩))
  · intro t
    rw [ht]
    by_cases h₁ : e.hasToken t
    · rw [if_pos h₁]
      rw [htok] at h₁
      rw [BoundedMap.find_erase_ne _ (by rw [h₁]; exact hfit.distinct.symm)]
      exact (h.find t i).mpr ⟨hi, .inr ⟨h₁.symm, h₁ ▸ hne⟩⟩
    · rw [if_neg h₁]
      rw [htok] at h₁
      by_cases h₂ : t = (m.slots i).token
      · rw [if_pos ⟨hi, .inl h₂.symm⟩, h₂]
        simp
      · rw [BoundedMap.find_erase_ne _ h₂, if_neg]
        rintro ⟨_, h' | ⟨h', _⟩⟩
        · exact h₂ h'.symm
        · exact h₁ h'.symm

/-- A replace of the order in slot `i` goes out under the next token. -/
theorem Tokens.offer (h : Tokens m) {i : Nat} (hi : i < m.fresh) {e : Entry}
    (hs : m'.slots = Function.update m.slots i e) (he : e.token = (m.slots i).token)
    (he' : e.nextToken = m.nextToken) (hold : (m.slots i).nextToken = 0)
    (hf : m'.fresh = m.fresh) (hc : m'.capacity = m.capacity) (hn : m'.nextToken = m.nextToken + 1)
    (hmax : m.nextToken ≤ Token.kMaxId) (ht : m.tokens.insert m.nextToken i = (m'.tokens, true)) :
    Tokens m' := by
  have hfit := h.fit hi
  have hlt := h.token_lt i hi
  have htok : ∀ t, e.hasToken t ↔ t = (m.slots i).token ∨ t = m.nextToken := by
    intro t
    have := h.next_pos
    unfold Entry.hasToken
    rw [he, he']
    constructor
    · rintro (h' | ⟨h', _⟩)
      · exact .inl h'.symm
      · exact .inr h'.symm
    · rintro (h' | h')
      · exact .inl h'.symm
      · exact .inr ⟨h'.symm, by omega⟩
  refine h.put hs (by rw [hf]; exact hi) hf.ge (fun j hj _ => hf ▸ hj) hc (BoundedMap.limit_insert ht)
    (by omega) ?_ ?_ ?_
  · refine ⟨he ▸ hfit.token_pos, ?_, ?_, he ▸ hfit.token_le, he' ▸ hmax, ?_⟩
    · rw [he, hn]; omega
    · rw [he', hn]; omega
    · rw [he, he']; omega
  · intro t het j hj hji hjt
    rcases (htok t).mp het with het | het
    · exact hji (h.slot_unique hj hi hjt (.inl het.symm))
    · have := h.hasToken_lt hj hjt
      omega
  · intro t
    rw [BoundedMap.find_insert_true ht]
    by_cases h₁ : t = m.nextToken
    · rw [if_pos h₁, if_pos ((htok t).mpr (.inr h₁))]
    · rw [if_neg h₁]
      by_cases h₂ : t = (m.slots i).token
      · rw [if_pos ((htok t).mpr (.inl h₂))]
        exact (h.find t i).mpr ⟨hi, .inl h₂.symm⟩
      · rw [if_neg (fun h' => ((htok t).mp h').elim h₂ h₁), if_neg]
        rintro ⟨_, h' | ⟨h', hne⟩⟩
        · exact h₂ h'.symm
        · omega

/-! ## Places -/

theorem Places.not_mem_ring (h : Places m) {i : Nat} (hw : (m.slots i).working = true) : i ∉ m.finished.toList := by
  intro hm
  have := ((h.ring_mem i).mp hm).2
  rw [hw] at this
  cases this

theorem Places.ring_room (h : Places m) (hids : Ids m) {i : Nat} (hi : i < m.fresh)
    (hw : (m.slots i).working = true) : m.finished.count < m.finished.size := by
  have hsub : (i :: m.finished.toList).length ≤ (List.range m.fresh).length := by
    refine (List.subperm_of_subset (List.nodup_cons.mpr ⟨h.not_mem_ring hw, h.ring_nodup⟩) ?_).length_le
    intro j hj
    rcases List.mem_cons.mp hj with rfl | hj
    · exact List.mem_range.mpr hi
    · exact List.mem_range.mpr ((h.ring_mem j).mp hj).1
  rw [List.length_cons, RingBuffer.length_toList, List.length_range] at hsub
  have := hids.fresh_le
  rw [h.ring_size]
  omega

/-- The working order in slot `i` finishes. -/
theorem Places.finish (h : Places m) (hids : Ids m) {i : Nat} (hi : i < m.fresh)
    (hw : (m.slots i).working = true) {e : Entry} (hs : m'.slots = Function.update m.slots i e)
    (he : e.info.id = (m.slots i).info.id) (hew : e.working = false)
    (hf : m'.fresh = m.fresh) (hc : m'.capacity = m.capacity) (hr : m'.finished = m.finished.push i)
    (hl : m'.links = (m.links.unlink m.working i).1) (hwk : m'.working = (m.links.unlink m.working i).2)
    (ho : m'.opened = m.opened - 1) : Places m' := by
  have hslot : ∀ j, j ≠ i → m'.slots j = m.slots j := fun j hj => by rw [hs, Function.update_of_ne hj]
  have hself : m'.slots i = e := by rw [hs, Function.update_self]
  have hid : ∀ j, (m'.slots j).info.id = (m.slots j).info.id := by
    intro j
    by_cases hj : j = i
    · rw [hj, hself, he]
    · rw [hslot j hj]
  obtain ⟨ws, h₁, h₂, h₃, h₄⟩ := h.list
  have himem : i ∈ ws := (h₂ i).mpr ⟨hi, hw⟩
  have hring := h.not_mem_ring hw
  have hroom := h.ring_room hids hi hw
  have hlist : m'.finished.toList = m.finished.toList ++ [i] := by
    rw [hr, RingBuffer.toList_push _ _ hroom]
  refine ⟨by rw [hr, hc]; exact h.ring_size, by rw [hr, hc]; exact h.ring_head, ?_, ?_, ?_⟩
  · rw [hlist, List.nodup_append]
    refine ⟨h.ring_nodup, by simp, ?_⟩
    intro a ha b hb
    rw [List.mem_singleton] at hb
    exact fun e' => hring (hb ▸ e' ▸ ha)
  · intro j
    rw [hlist, List.mem_append, List.mem_singleton, h.ring_mem, hf]
    by_cases hj : j = i
    · subst hj
      rw [hself, hew]
      simp [hi]
    · rw [hslot j hj]
      simp [hj]
  · refine ⟨ws.erase i, by rw [hl, hwk]; exact h₁.unlink himem, ?_, ?_, ?_⟩
    · intro j
      rw [h₁.nodup.mem_erase_iff, h₂, hf]
      by_cases hj : j = i
      · subst hj
        rw [hself, hew]
        simp
      · rw [hslot j hj]
        simp [hj]
    · refine (h₃.sublist List.erase_sublist).imp fun {a b} hab => ?_
      rw [hid a, hid b]
      exact hab
    · rw [List.length_erase_of_mem himem, h₄, ho]

/-! ## A new order -/

/-- Slot `i` gets the order with the next id. -/
theorem Ids.put (h : Ids m) {i : Nat} {e : Entry} (hs : m'.slots = Function.update m.slots i e)
    (hi : i < m'.fresh) (hf : m.fresh ≤ m'.fresh) (hother : ∀ j < m'.fresh, j ≠ i → j < m.fresh)
    (hc : m'.capacity = m.capacity) (hcap : m'.fresh ≤ m.capacity) (hlim : m'.byId.limit = m.byId.limit)
    (hsize : m'.byId.size = m'.fresh) (he : e.info.id = m.nextId) (hpos : 1 ≤ m.nextId)
    (hn : m'.nextId = m.nextId + 1)
    (hfind : ∀ id, m'.byId.find id =
      if id = m.nextId then some i
      else if i < m.fresh ∧ (m.slots i).info.id = id then none else m.byId.find id) : Ids m' := by
  have hslot : ∀ j, j ≠ i → m'.slots j = m.slots j := fun j hj => by rw [hs, Function.update_of_ne hj]
  have hself : m'.slots i = e := by rw [hs, Function.update_self]
  refine ⟨by rw [hc]; exact hcap, by rw [hc]; exact h.capacity_lt, by rw [hlim, hc]; exact h.limit, hsize,
    ?_, ?_, ?_⟩
  · intro id j
    rw [hfind]
    by_cases hji : j = i
    · subst hji
      rw [hself, he]
      by_cases hid : id = m.nextId
      · simp [hid, hi]
      · rw [if_neg hid]
        refine iff_of_false ?_ fun h' => hid h'.2.symm
        split_ifs with hold
        · simp
        · rw [h.find]
          exact hold
    · rw [hslot j hji]
      have hlt : j < m'.fresh ↔ j < m.fresh := ⟨fun hj => hother j hj hji, fun hj => hj.trans_le hf⟩
      by_cases hid : id = m.nextId
      · rw [if_pos hid]
        refine iff_of_false (fun h' => hji (Option.some.inj h').symm) ?_
        rintro ⟨hj, hjd⟩
        have := h.id_lt j (hlt.mp hj)
        omega
      · rw [if_neg hid]
        split_ifs with hold
        · refine iff_of_false (by simp) ?_
          rintro ⟨hj, hjd⟩
          have h₁ := (h.find id j).mpr ⟨hlt.mp hj, hjd⟩
          rw [(h.find id i).mpr hold] at h₁
          exact hji (Option.some.inj h₁).symm
        · rw [h.find, hlt]
  · intro j hj
    by_cases hji : j = i
    · rw [hji, hself, he]; exact hpos
    · rw [hslot j hji]; exact h.id_pos j (hother j hj hji)
  · intro j hj
    by_cases hji : j = i
    · rw [hji, hself, he, hn]; omega
    · rw [hslot j hji, hn]
      have := h.id_lt j (hother j hj hji)
      omega

/-- Slot `i`, unused or holding the oldest finished order, gets a working order. -/
theorem Places.put (h : Places m) (hids : Ids m) {i : Nat} {e : Entry}
    (hs : m'.slots = Function.update m.slots i e) (hi : i < m'.fresh) (hf : m.fresh ≤ m'.fresh)
    (hother : ∀ j < m'.fresh, j ≠ i → j < m.fresh) (hc : m'.capacity = m.capacity)
    (hold : i < m.fresh → (m.slots i).working = false) (he : e.info.id = m.nextId) (hew : e.working = true)
    (hrs : m'.finished.size = m.finished.size) (hrh : 0 < m.capacity → m'.finished.head < m.capacity)
    (hrn : m'.finished.toList.Nodup) (hrm : ∀ j, j ∈ m'.finished.toList ↔ j ∈ m.finished.toList ∧ j ≠ i)
    (hl : m'.links = (m.links.pushBack m.working i).1) (hwk : m'.working = (m.links.pushBack m.working i).2)
    (ho : m'.opened = m.opened + 1) : Places m' := by
  have hslot : ∀ j, j ≠ i → m'.slots j = m.slots j := fun j hj => by rw [hs, Function.update_of_ne hj]
  have hself : m'.slots i = e := by rw [hs, Function.update_self]
  have hlt : ∀ j, j ≠ i → (j < m'.fresh ↔ j < m.fresh) :=
    fun j hji => ⟨fun hj => hother j hj hji, fun hj => hj.trans_le hf⟩
  obtain ⟨ws, h₁, h₂, h₃, h₄⟩ := h.list
  have hnot : i ∉ ws := fun hm => by
    have hwi := (h₂ i).mp hm
    rw [hold hwi.1] at hwi
    cases hwi.2
  refine ⟨by rw [hrs, hc]; exact h.ring_size, by rw [hc]; exact hrh, hrn, ?_, ?_⟩
  · intro j
    rw [hrm, h.ring_mem]
    by_cases hji : j = i
    · subst hji
      rw [hself, hew]
      simp
    · rw [hslot j hji, hlt j hji]
      simp [hji]
  · refine ⟨ws ++ [i], by rw [hl, hwk]; exact h₁.pushBack hnot, ?_, ?_, by rw [ho, ← h₄]; simp⟩
    · intro j
      rw [List.mem_append, List.mem_singleton, h₂]
      by_cases hji : j = i
      · subst hji
        rw [hself, hew]
        simp [hi]
      · rw [hslot j hji, hlt j hji]
        simp [hji]
    · rw [List.pairwise_append]
      refine ⟨?_, by simp, ?_⟩
      · refine h₃.imp_of_mem fun {a b} ha hb hab => ?_
        rw [hslot a fun e' => hnot (e' ▸ ha), hslot b fun e' => hnot (e' ▸ hb)]
        exact hab
      · intro a ha b hb
        rw [List.mem_singleton] at hb
        rw [hb, hself, he, hslot a fun e' => hnot (e' ▸ ha)]
        exact hids.id_lt a ((h₂ a).mp ha).1

end OrderManager
end OptiTrade.Oms
