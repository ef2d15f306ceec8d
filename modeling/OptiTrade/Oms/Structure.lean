import OptiTrade.Oms.Atomicity

/-! # The order table over a whole run

A registry runs a session and remembers which tokens and ids were given out and in which order the
orders finished. `Evolves` is what one operation does to the table, its tokens included. -/

namespace OptiTrade.Oms
set_option autoImplicit false

open Runs
open Ouch (Token)

namespace OrderManager
variable {m m' : OrderManager}

/-! ## Room in the token map -/

theorem Tokens.size_le (h : Tokens m) :
    m.tokens.size ≤ m.fresh + ((List.range m.fresh).filter fun i => (m.slots i).nextToken ≠ 0).length := by
  have hsub : m.tokens.entries.keys ⊆ (List.range m.fresh).map (fun i => (m.slots i).token) ++
      ((List.range m.fresh).filter fun i => (m.slots i).nextToken ≠ 0).map fun i => (m.slots i).nextToken := by
    intro t ht
    obtain ⟨i, hi⟩ := Option.isSome_iff_exists.mp ((m.tokens.mem_keys_iff t).mp ht)
    obtain ⟨hlt, htok⟩ := (h.find t i).mp hi
    rw [List.mem_append, List.mem_map, List.mem_map]
    rcases htok with htok | ⟨htok, hne⟩
    · exact .inl ⟨i, List.mem_range.mpr hlt, htok⟩
    · refine .inr ⟨i, List.mem_filter.mpr ⟨List.mem_range.mpr hlt, ?_⟩, htok⟩
      simpa [htok] using hne
  have hlen := (m.tokens.keys_nodup.subperm hsub).length_le
  rw [List.length_append, List.length_map, List.length_map, List.length_range] at hlen
  exact hlen

theorem Inv.token_room (h : Inv m) (hfree : m.fresh < m.capacity ∨ ∃ i < m.fresh, (m.slots i).nextToken = 0) :
    m.tokens.size < m.tokens.limit := by
  have hsize := h.tokens.size_le
  have hcap := h.ids.fresh_le
  have hle := (List.range m.fresh).length_filter_le fun i => decide ((m.slots i).nextToken ≠ 0)
  rw [List.length_range] at hle
  rw [h.tokens.limit]
  rcases hfree with hfree | ⟨i, hi, hn⟩
  · omega
  · have hlt : ((List.range m.fresh).filter fun i => decide ((m.slots i).nextToken ≠ 0)).length <
        (List.range m.fresh).length := by
      rw [List.length_filter_lt_length_iff_exists]
      exact ⟨i, List.mem_range.mpr hi, by simpa using hn⟩
    rw [List.length_range] at hlt
    omega

theorem Inv.finished_nextToken (h : Inv m) {i : Nat} (hi : i < m.fresh) (hw : (m.slots i).working = false) :
    (m.slots i).nextToken = 0 := by
  by_contra hne
  rcases (h.entries i hi).phase.repl_status hne with hst | hst
  · rw [Entry.working, hst] at hw
    cases hw
  · rw [Entry.working, hst] at hw
    cases hw

theorem Inv.slotAvailable_iff (h : Inv m) :
    m.slotAvailable = false ↔ ∀ i < m.capacity, i < m.fresh ∧ (m.slots i).working = true := by
  have hcount : m.finished.count = 0 ↔ ∀ i < m.fresh, (m.slots i).working = true := by
    rw [← RingBuffer.toList_eq_nil, List.eq_nil_iff_forall_not_mem]
    refine forall_congr' fun i => ?_
    rw [h.places.ring_mem, not_and, Bool.not_eq_false]
  have hle := h.ids.fresh_le
  simp only [slotAvailable, Bool.or_eq_false_iff, decide_eq_false_iff_not, bne_eq_false_iff_eq]
  constructor
  · rintro ⟨hf, hc⟩ i hi
    have hif : i < m.fresh := by omega
    exact ⟨hif, hcount.mp hc i hif⟩
  · intro hall
    refine ⟨fun hf => absurd (hall m.fresh hf).1 (lt_irrefl _), hcount.mpr fun i hi => (hall i (by omega)).2⟩

theorem Inv.token_room_of_slot (h : Inv m) (hs : m.slotAvailable = true) : m.tokens.size < m.tokens.limit := by
  rcases h.nextSlot_cases hs with ⟨h₁, _⟩ | ⟨_, h₂, h₃, _⟩
  · exact h.token_room (.inl h₁)
  · exact h.token_room (.inr ⟨m.nextSlot, h₂, h.finished_nextToken h₂ h₃⟩)

theorem tokenAvailable_iff (hroom : m.tokens.size < m.tokens.limit) :
    m.tokenAvailable = true ↔ m.nextToken ≤ Token.kMaxId := by
  simp [tokenAvailable, hroom]

/-- **When `submit` is out of capacity.** -/
theorem Inv.submit_capacity (h : Inv m) {req : OrderRequest} {now : Nat} {symbol : Nat → Symbol}
    {reference : Nat → Int} {gateway : Ouch.Inbound → Bool} (hv : valid req = true)
    (hsym : (symbol req.locate).isEmpty = false) :
    (m.submit req now symbol reference gateway).result.status = .capacity ↔
      (∀ i < m.capacity, i < m.fresh ∧ (m.slots i).working = true) ∨ Token.kMaxId < m.nextToken := by
  unfold OrderManager.submit
  rw [if_neg (by simp [hv]), if_neg (by simp [hsym])]
  by_cases hs : m.slotAvailable = true
  · have hroom := h.token_room_of_slot hs
    have hnot : ¬∀ i < m.capacity, i < m.fresh ∧ (m.slots i).working = true := by
      rw [← h.slotAvailable_iff, hs]
      decide
    by_cases ht : m.nextToken ≤ Token.kMaxId
    · have hins := BoundedMap.insert_fresh m.nextSlot h.tokens.find_next hroom
      rw [if_neg (by simp [hs, (tokenAvailable_iff hroom).mpr ht])]
      dsimp only
      rw [hins]
      simp only [Bool.not_true, Bool.false_eq_true, if_false]
      have hrhs : ¬((∀ i < m.capacity, i < m.fresh ∧ (m.slots i).working = true) ∨ Token.kMaxId < m.nextToken) := by
        rintro (h' | h')
        · exact hnot h'
        · omega
      refine iff_of_false ?_ hrhs
      split_ifs <;> simp
    · rw [if_pos (by simp [hs, (tokenAvailable_iff hroom).not.mpr ht])]
      exact iff_of_true rfl (.inr (by omega))
  · have hs' : m.slotAvailable = false := by simpa using hs
    rw [if_pos (by simp [hs'])]
    exact iff_of_true rfl (.inl (h.slotAvailable_iff.mp hs'))

/-- **When `replace` is out of capacity.** -/
theorem Inv.replace_capacity (h : Inv m) {id newQty now : Nat} {newPrice : Int} {reference : Nat → Int}
    {gateway : Ouch.Inbound → Bool}
    (hc : (m.replace id newPrice newQty now reference gateway).result = .capacity) :
    Token.kMaxId < m.nextToken := by
  by_contra ht
  unfold OrderManager.replace at hc
  cases hslot : m.slotOf id with
  | none => simp [hslot] at hc
  | some i =>
    rw [hslot] at hc
    dsimp only at hc
    have hi := ((h.ids.find id i).mp hslot).1
    by_cases hlive : (m.slots i).info.status ≠ .live
    · rw [if_pos hlive] at hc
      cases hc
    · rw [if_neg hlive] at hc
      have hn : (m.slots i).nextToken = 0 := by
        by_contra hne
        rw [not_not] at hlive
        rcases (h.entries i hi).phase.repl_status hne with hst | hst
        · rw [hlive] at hst; cases hst
        · rw [hlive] at hst; cases hst
      have hroom := h.token_room (.inr ⟨i, hi, hn⟩)
      have hins := BoundedMap.insert_fresh i h.tokens.find_next hroom
      have havail := (tokenAvailable_iff hroom).mpr (by omega)
      rw [havail, hins] at hc
      simp only [Bool.not_true, Bool.false_eq_true, if_false] at hc
      split_ifs at hc

/-! ## What an operation gives out -/

/-- The tokens on the messages the gateway took, each with the id of its order. -/
def newTokens (m : OrderManager) (sent : List Ouch.Inbound) : List (Token × Nat) :=
  sent.filterMap fun
    | .enter x => some (x.token, m.nextId)
    | .replace x => (m.resolve x.existing).map fun p => (x.replacement, (m.slots p.1).info.id)
    | .cancel _ => none

/-- The ids of the orders the gateway took. -/
def newIds (m : OrderManager) (sent : List Ouch.Inbound) : List Nat :=
  sent.filterMap fun
    | .enter _ => some m.nextId
    | _ => none

/-- The ids of the orders that were working in `m` and are terminal in `m'`. -/
def newlyEnded (m m' : OrderManager) : List Nat :=
  ((List.range m.fresh).filter fun i => (m.slots i).working && !(m'.slots i).working).map fun i =>
    (m.slots i).info.id

/-- What an operation does to the table: nothing, it settles a working order, minting a replacement
token or not, or a new order comes in. -/
inductive Evolves (m : OrderManager) (sent : List Ouch.Inbound) (m' : OrderManager) : Prop
  | same : SameTable m m' → SamePlaces m m' → m'.slots = m.slots → m'.nextToken = m.nextToken →
      m.newTokens sent = [] → m.newIds sent = [] → Evolves m sent m'
  | settled (i : Nat) (m₁ : OrderManager) (e : Entry) (o : Option OrderStatus) : i < m.fresh →
      (m.slots i).working = true → Near m m₁ → e.info.id = (m.slots i).info.id → m' = m₁.settle i e o →
      (m₁.nextToken = m.nextToken ∧ m.newTokens sent = [] ∧ (∀ t, e.hasToken t → (m.slots i).hasToken t) ∨
        m₁.nextToken = m.nextToken + 1 ∧ m.nextToken ≤ Token.kMaxId ∧
          m.newTokens sent = [(Token.fromId m.nextToken, (m.slots i).info.id)] ∧
          ∀ t, e.hasToken t → (m.slots i).hasToken t ∨ t = m.nextToken) →
      m.newIds sent = [] → Evolves m sent m'
  | admitted (req : OrderRequest) (now : Nat) (reference : Nat → Int) (tokens : BoundedMap Nat Nat) :
      Submittable m req now reference tokens → m' = m.admitted req now tokens →
      m.newTokens sent = [(Token.fromId m.nextToken, m.nextId)] → m.newIds sent = [m.nextId] → Evolves m sent m'

theorem settle_hasToken {m₁ : OrderManager} {i t : Nat} {e : Entry} {o : Option OrderStatus} (hm : Near m m₁)
    (ht : ((m₁.settle i e o).slots i).hasToken t) : e.hasToken t := by
  by_cases hl : e.info.leavesQty = 0
  · rw [settle_slots_dead hm hl, Function.update_self] at ht
    rcases ht with ht | ⟨ht, hne⟩
    · exact .inl ht
    · exact absurd ht.symm hne
  · rw [settle_slots_live hm hl, Function.update_self] at ht
    exact ht

theorem Evolves.refused {sent : List Ouch.Inbound} (h : m' = m) (hs : m.newTokens sent = []) (hi : m.newIds sent = []) :
    Evolves m sent m' := by
  subst h
  exact .same ⟨rfl, rfl, rfl, rfl⟩ ⟨rfl, rfl, rfl, rfl⟩ rfl rfl hs hi

theorem Inv.evolves_report (h : Inv m) (r : Ouch.Outbound) (now : Nat) : Evolves m [] (m.onReport r now) := by
  have hp := Session.processed ⟨m, []⟩ h r now
  rw [← Session.report_manager ⟨m, []⟩ r now]
  generalize Session.report ⟨m, []⟩ r now = out at hp ⊢
  cases hp with
  | ignored m' hi =>
    rcases hi with rfl | rfl | rfl <;> exact .same ⟨rfl, rfl, rfl, rfl⟩ ⟨rfl, rfl, rfl, rfl⟩ rfl rfl rfl rfl
  | updated i m₁ e o hi hw hm hs _ ht hn _ _ =>
    exact .settled i m₁ e o hi hw hm hs.id rfl (.inl ⟨hn, rfl, ht⟩) rfl
  | booked i x m' _ hi hw _ hm =>
    refine .settled i _ ((m.slots i).execute x now) (some .filled) hi hw (Near.booked m i x) rfl hm
      (.inl ⟨(noteClamp_tokens m _).2.1, rfl, fun _ ht => ht⟩) rfl

/-- **What one operation does to the table.** -/
theorem Inv.evolves (h : Inv m) {c : Call} (hc : m.Fits c) : Evolves m (m.sends c) (m.perform c) := by
  cases c with
  | submit req now w =>
    rcases submit_cases m req now w.symbol w.reference w.gateway rfl with ⟨hs, _, hno⟩ | ⟨tokens, hs, hg, hout⟩
    · have hnil : m.sends (.submit req now w) = [] := by
        simp only [sends]
        rw [Option.filter_eq_none_iff.mpr fun msg hmsg => by simp [hno msg hmsg]]
        rfl
      rw [hnil]
      exact .refused hs rfl rfl
    · have hsent : m.sends (.submit req now w) = [.enter (m.enterMsg req w.symbol)] := by
        simp [sends, hout, Option.filter, hg]
      rw [hsent]
      exact .admitted req now w.reference tokens hs (by rw [OrderManager.perform, hout]) rfl rfl
  | cancelEntry i now w =>
    have hnil : m.newTokens (m.sends (.cancelEntry i now w)) = [] ∧ m.newIds (m.sends (.cancelEntry i now w)) = [] := by
      rcases cancelEntry_cases h hc now w.gateway rfl with ⟨_, _, hno⟩ | ⟨_, _, hg, hout⟩
      · simp only [sends]
        rw [Option.filter_eq_none_iff.mpr fun msg hmsg => by simp [hno msg hmsg]]
        exact ⟨rfl, rfl⟩
      · simp [sends, hout, Option.filter, hg, newTokens, newIds]
    rcases cancelEntry_cases h hc now w.gateway rfl with ⟨hs, _, _⟩ | ⟨hw, _, _, hout⟩
    · exact .refused hs hnil.1 hnil.2
    · exact .settled i m ((m.slots i).askCancel now) none hc hw (.refl m) rfl (by rw [OrderManager.perform, hout])
        (.inl ⟨rfl, hnil.1, fun _ ht => ht⟩) hnil.2
  | replace id p q now w =>
    rcases replace_cases h id p q now w.reference w.gateway rfl with ⟨hs, _, hno⟩ | ⟨i, tokens, hid, hr, hg, hout⟩
    · have hnil : m.sends (.replace id p q now w) = [] := by
        simp only [sends]
        rw [Option.filter_eq_none_iff.mpr fun msg hmsg => by simp [hno msg hmsg]]
        rfl
      rw [hnil]
      exact .refused hs rfl rfl
    · have hi := ((h.ids.find id i).mp hid).1
      have hres : m.resolve (Token.fromId (m.slots i).token) = some (i, false) :=
        (resolve_some h.tokens).mpr ⟨hi, rfl⟩
      have hsent : m.sends (.replace id p q now w) = [.replace (m.replaceMsg i p q)] := by
        simp [sends, hout, Option.filter, hg]
      have hnew : m.newTokens [.replace (m.replaceMsg i p q)] = [(Token.fromId m.nextToken, (m.slots i).info.id)] := by
        simp only [newTokens, replaceMsg, List.filterMap_cons, List.filterMap_nil, hres, Option.map_some]
      rw [hsent]
      refine .settled i _ ((m.slots i).askReplace m.nextToken p q now) none hi hr.working
        (Near.offered m i q now tokens) rfl (by rw [OrderManager.perform, hout]) (.inr ⟨rfl, hr.token_le, hnew, ?_⟩) rfl
      intro t ht
      rcases ht with ht | ⟨ht, _⟩
      · exact .inl (.inl ht)
      · exact .inr ht.symm
  | report r now => exact h.evolves_report r now
  | mark l p => exact .same ⟨rfl, rfl, rfl, rfl⟩ ⟨rfl, rfl, rfl, rfl⟩ rfl rfl rfl rfl
  | killSwitch on => exact .same ⟨rfl, rfl, rfl, rfl⟩ ⟨rfl, rfl, rfl, rfl⟩ rfl rfl rfl rfl

/-! ## Orders that finish -/

theorem newlyEnded_nil (hs : ∀ i < m.fresh, (m.slots i).working = true → (m'.slots i).working = true) :
    m.newlyEnded m' = [] := by
  unfold newlyEnded
  rw [List.map_eq_nil_iff, List.filter_eq_nil_iff]
  intro i hi
  have := hs i (List.mem_range.mp hi)
  cases hw : (m.slots i).working with
  | false => simp
  | true => simp [this hw]

theorem newlyEnded_singleton {i : Nat} (hi : i < m.fresh) (hw : (m.slots i).working = true)
    (hw' : (m'.slots i).working = false) (hs : ∀ j < m.fresh, j ≠ i → (m'.slots j).working = (m.slots j).working) :
    m.newlyEnded m' = [(m.slots i).info.id] := by
  have hfilter : (List.range m.fresh).filter (fun j => (m.slots j).working && !(m'.slots j).working) =
      (List.range m.fresh).filter (· == i) := by
    refine List.filter_congr fun j hj => ?_
    by_cases hji : j = i
    · subst hji
      simp [hw, hw']
    · rw [hs j (List.mem_range.mp hj) hji]
      simp [hji]
  rw [newlyEnded, hfilter, List.filter_beq, List.count_eq_one_of_mem List.nodup_range (List.mem_range.mpr hi)]
  rfl

/-- The ring when a working order is settled. -/
theorem Inv.ring_settle (h : Inv m) {i : Nat} (hi : i < m.fresh)
    (hw : (m.slots i).working = true) {m₁ : OrderManager} {e : Entry} {o : Option OrderStatus}
    (hm : Near m m₁) (h' : (m₁.settle i e o).Inv) :
    m.newlyEnded (m₁.settle i e o) = [] ∧ (m₁.settle i e o).finished = m.finished ∨
    m.newlyEnded (m₁.settle i e o) = [(m.slots i).info.id] ∧
      (m₁.settle i e o).finished.toList = m.finished.toList ++ [i] := by
  have hfresh : (m₁.settle i e o).fresh = m.fresh := (m₁.settle_table i e o).fresh.trans hm.table.fresh
  by_cases hl : e.info.leavesQty = 0
  · right
    have hsl := settle_slots_dead hm (i := i) (o := o) hl
    have hfin : (m₁.settle i e o).finished = m.finished.push i := by
      rw [settle_dead hl, ← hm.places.finished]
    have hw' : ((m₁.settle i e o).slots i).working = false := by
      have hph := (h'.entries i (hfresh ▸ hi)).phase.working_iff
      rw [hsl, Function.update_self] at hph ⊢
      by_contra hne
      have := hph.mp (by simpa using hne)
      exact absurd this (by simp [Entry.finish])
    refine ⟨newlyEnded_singleton hi hw hw' fun j _ hj => by rw [hsl, Function.update_of_ne hj], ?_⟩
    rw [hfin, RingBuffer.toList_push _ _ (h.places.ring_room h.ids hi hw)]
  · left
    have hsl := settle_slots_live hm (i := i) (o := o) hl
    refine ⟨newlyEnded_nil fun j hj hjw => ?_, ?_⟩
    · by_cases hji : j = i
      · subst hji
        refine (h'.entries j (hfresh ▸ hi)).phase.working_iff.mpr ?_
        rw [hsl, Function.update_self]
        exact Nat.pos_of_ne_zero hl
      · rw [hsl, Function.update_of_ne hji]
        exact hjw
    · rw [settle_live hl]
      exact hm.places.finished

end OrderManager

/-! ## Registries -/

/-- A session and the tokens it has given out. -/
structure Registry where
  session : Session
  /-- Every token given out, with the id of its order. -/
  issued : List (Token × Nat) := []
  /-- Every id given out. -/
  ids : List Nat := []
  /-- The ids of the finished orders, in the order they finished. -/
  ended : List Nat := []

namespace Registry

def new (config : Config) (limits : Risk.Limits) (maxLocates : Nat) : Registry where
  session := .new config limits maxLocates

/-- A step of the session, written down. -/
def next (r : Registry) (e : Event) : Option Registry :=
  (r.session.step e).map fun (s, fx) =>
    { session := s
      issued := r.issued ++ r.session.manager.newTokens (Session.sentIn fx)
      ids := r.ids ++ r.session.manager.newIds (Session.sentIn fx)
      ended := r.ended ++ r.session.manager.newlyEnded s.manager }

/-- What the registry knows of the table. -/
structure Agrees (r : Registry) (m : OrderManager) : Prop where
  minted : ∀ p ∈ r.issued, ∃ n, n ≤ Token.kMaxId ∧ n < m.nextToken ∧ p.1 = Token.fromId n
  nodup : (r.issued.map Prod.fst).Nodup
  owner : ∀ i < m.fresh, ∀ t, (m.slots i).hasToken t → (Token.fromId t, (m.slots i).info.id) ∈ r.issued
  ids : r.ids = List.range' 1 (m.nextId - 1)
  unused : ∀ i, m.fresh ≤ i → m.slots i = {}
  ended_nodup : r.ended.Nodup
  ended_lt : ∀ id ∈ r.ended, id < m.nextId
  ring : ∃ k ≤ r.ended.length, (m.finished.toList.map fun i => (m.slots i).info.id) = r.ended.drop k ∧
    ∀ id ∈ r.ended.take k, m.slotOf id = none

variable {r r' : Registry} {m m' : OrderManager}

theorem Agrees.not_ended (ha : Agrees r m) (h : m.Inv) {i : Nat} (hi : i < m.fresh) (hw : (m.slots i).working = true) :
    (m.slots i).info.id ∉ r.ended := by
  obtain ⟨k, _, hring, hgone⟩ := ha.ring
  intro hmem
  rw [← List.take_append_drop k r.ended, List.mem_append] at hmem
  have hslot : m.slotOf (m.slots i).info.id = some i := (h.ids.find _ i).mpr ⟨hi, rfl⟩
  rcases hmem with hmem | hmem
  · rw [hgone _ hmem] at hslot
    cases hslot
  · rw [← hring] at hmem
    obtain ⟨j, hj, hid⟩ := List.mem_map.mp hmem
    obtain ⟨hjf, hjw⟩ := (h.places.ring_mem j).mp hj
    have hslot' : m.slotOf (m.slots i).info.id = some j := (h.ids.find _ j).mpr ⟨hjf, hid⟩
    rw [hslot, Option.some.injEq] at hslot'
    rw [← hslot', hw] at hjw
    cases hjw

/-- One more token is given out. -/
theorem Agrees.mint (ha : Agrees r m) (hle : m.nextToken ≤ Token.kMaxId) (id : Nat) :
    (∀ p ∈ r.issued ++ [(Token.fromId m.nextToken, id)],
      ∃ n, n ≤ Token.kMaxId ∧ n < m.nextToken + 1 ∧ p.1 = Token.fromId n) ∧
    ((r.issued ++ [(Token.fromId m.nextToken, id)]).map Prod.fst).Nodup := by
  constructor
  · intro p hp
    rcases List.mem_append.mp hp with hp | hp
    · obtain ⟨n, h₁, h₂, h₃⟩ := ha.minted p hp
      exact ⟨n, h₁, by omega, h₃⟩
    · rw [List.mem_singleton] at hp
      exact ⟨m.nextToken, hle, by omega, by rw [hp]⟩
  · rw [List.map_append, List.nodup_append]
    refine ⟨ha.nodup, by simp, ?_⟩
    intro t ht t' ht' heq
    obtain ⟨p, hp, rfl⟩ := List.mem_map.mp ht
    obtain ⟨n, h₁, h₂, h₃⟩ := ha.minted p hp
    rw [List.map_singleton, List.mem_singleton] at ht'
    have := Token.fromId_injective h₁ hle (h₃.symm.trans (heq.trans ht'))
    omega

/-- The registry after an operation that gives out `sent` and leaves `m'`. -/
def after (r : Registry) (m m' : OrderManager) (sent : List Ouch.Inbound) (s : Session) : Registry :=
  ⟨s, r.issued ++ m.newTokens sent, r.ids ++ m.newIds sent, r.ended ++ m.newlyEnded m'⟩

theorem Agrees.same (ha : Agrees r m) {sent : List Ouch.Inbound} {s : Session}
    (ht : OrderManager.SameTable m m') (hp : OrderManager.SamePlaces m m') (hs : m'.slots = m.slots)
    (hn : m'.nextToken = m.nextToken) (h₁ : m.newTokens sent = []) (h₂ : m.newIds sent = []) :
    Agrees (r.after m m' sent s) m' := by
  have h₃ : m.newlyEnded m' = [] := OrderManager.newlyEnded_nil fun i _ hw => by rw [hs]; exact hw
  have heq : r.after m m' sent s = ⟨s, r.issued, r.ids, r.ended⟩ := by simp [after, h₁, h₂, h₃]
  rw [heq]
  refine ⟨by rw [hn]; exact ha.minted, ha.nodup, by rw [ht.fresh, hs]; exact ha.owner, by rw [ht.nextId]; exact ha.ids,
    by rw [ht.fresh, hs]; exact ha.unused, ha.ended_nodup, by rw [ht.nextId]; exact ha.ended_lt, ?_⟩
  rw [hp.finished, hs]
  unfold OrderManager.slotOf
  rw [ht.byId]
  exact ha.ring

theorem Agrees.settle (ha : Agrees r m) (h : m.Inv) {sent : List Ouch.Inbound} {s : Session} {i : Nat}
    {m₁ : OrderManager} {e : Entry} {o : Option OrderStatus} (hi : i < m.fresh) (hw : (m.slots i).working = true)
    (hm : OrderManager.Near m m₁) (hid : e.info.id = (m.slots i).info.id) (h' : (m₁.settle i e o).Inv)
    (htok : m₁.nextToken = m.nextToken ∧ m.newTokens sent = [] ∧ (∀ t, e.hasToken t → (m.slots i).hasToken t) ∨
      m₁.nextToken = m.nextToken + 1 ∧ m.nextToken ≤ Token.kMaxId ∧
        m.newTokens sent = [(Token.fromId m.nextToken, (m.slots i).info.id)] ∧
        ∀ t, e.hasToken t → (m.slots i).hasToken t ∨ t = m.nextToken)
    (hids : m.newIds sent = []) : Agrees (r.after m (m₁.settle i e o) sent s) (m₁.settle i e o) := by
  have hfresh : (m₁.settle i e o).fresh = m.fresh := (m₁.settle_table i e o).fresh.trans hm.table.fresh
  have hnext : (m₁.settle i e o).nextId = m.nextId := (m₁.settle_table i e o).nextId.trans hm.table.nextId
  have hbyId : (m₁.settle i e o).byId = m.byId := (m₁.settle_table i e o).byId.trans hm.table.byId
  obtain ⟨e', he', hsl⟩ := m₁.settle_slots i e o
  rw [hm.slots] at hsl
  have hidj : ∀ j, ((m₁.settle i e o).slots j).info.id = (m.slots j).info.id := by
    intro j
    rw [hsl]
    by_cases hj : j = i
    · rw [hj, Function.update_self, he', hid]
    · rw [Function.update_of_ne hj]
  have howner : ∀ j < m.fresh, ∀ t, ((m₁.settle i e o).slots j).hasToken t →
      (Token.fromId t, (m.slots j).info.id) ∈ r.issued ++ m.newTokens sent := by
    intro j hj t ht
    rw [List.mem_append]
    by_cases hji : j = i
    · subst hji
      rcases htok with ⟨_, _, hold⟩ | ⟨_, _, hnew, hold⟩
      · exact .inl (ha.owner j hj t (hold t (OrderManager.settle_hasToken hm ht)))
      · rcases hold t (OrderManager.settle_hasToken hm ht) with hold | rfl
        · exact .inl (ha.owner j hj t hold)
        · exact .inr (by rw [hnew]; simp)
    · rw [hsl, Function.update_of_ne hji] at ht
      exact .inl (ha.owner j hj t ht)
  have hmint : (∀ p ∈ r.issued ++ m.newTokens sent,
      ∃ n, n ≤ Token.kMaxId ∧ n < (m₁.settle i e o).nextToken ∧ p.1 = Token.fromId n) ∧
      ((r.issued ++ m.newTokens sent).map Prod.fst).Nodup := by
    rw [OrderManager.settle_nextToken]
    rcases htok with ⟨hn, hnone, _⟩ | ⟨hn, hle, hnew, _⟩
    · rw [hn, hnone, List.append_nil]
      exact ⟨ha.minted, ha.nodup⟩
    · rw [hn, hnew]
      exact ha.mint hle _
  have hring := h.ring_settle hi hw hm h'
  have hended : ∀ id ∈ m.newlyEnded (m₁.settle i e o), id = (m.slots i).info.id := by
    intro id hmem
    rcases hring with ⟨hnil, _⟩ | ⟨hone, _⟩
    · rw [hnil] at hmem; cases hmem
    · rw [hone, List.mem_singleton] at hmem; exact hmem
  refine ⟨hmint.1, hmint.2, fun j hj t ht => ?_, ?_, fun j hj => ?_, ?_, fun id hmem => ?_, ?_⟩
  · rw [hidj]
    exact howner j (hfresh ▸ hj) t ht
  · show r.ids ++ m.newIds sent = _
    rw [hids, List.append_nil, hnext]
    exact ha.ids
  · rw [hsl, Function.update_of_ne (by omega)]
    exact ha.unused j (hfresh ▸ hj)
  · show (r.ended ++ _).Nodup
    rcases hring with ⟨hnil, _⟩ | ⟨hone, _⟩
    · rw [hnil, List.append_nil]
      exact ha.ended_nodup
    · rw [hone, List.nodup_append]
      refine ⟨ha.ended_nodup, by simp, fun a hmem b hb hab => ?_⟩
      rw [List.mem_singleton] at hb
      exact ha.not_ended h hi hw (hb ▸ hab ▸ hmem)
  · rw [hnext]
    rcases List.mem_append.mp hmem with hmem | hmem
    · exact ha.ended_lt id hmem
    · rw [hended id hmem]
      exact h.ids.id_lt i hi
  · obtain ⟨k, hk, hmap, hgone⟩ := ha.ring
    refine ⟨k, ?_, ?_, fun id hmem => ?_⟩
    · show k ≤ (r.ended ++ _).length
      rw [List.length_append]
      omega
    · show _ = (r.ended ++ _).drop k
      rw [List.drop_append_of_le_length hk, ← hmap]
      have hmap' : ∀ l : List Nat, l.map (fun j => ((m₁.settle i e o).slots j).info.id) =
          l.map fun j => (m.slots j).info.id := fun l => List.map_congr_left fun j _ => hidj j
      rw [hmap']
      rcases hring with ⟨hnil, hsame⟩ | ⟨hone, hpush⟩
      · rw [hnil, hsame, List.append_nil]
      · rw [hone, hpush, List.map_append]
        rfl
    · have hmem : id ∈ r.ended.take k := by
        have : (r.ended ++ m.newlyEnded (m₁.settle i e o)).take k = r.ended.take k :=
          List.take_append_of_le_length hk
        rw [← this]
        exact hmem
      unfold OrderManager.slotOf
      rw [hbyId]
      exact hgone id hmem

theorem Agrees.admitted (ha : Agrees r m) (h : m.Inv) {sent : List Ouch.Inbound} {s : Session} {req : OrderRequest}
    {now : Nat} {reference : Nat → Int} {tokens : BoundedMap Nat Nat}
    (hs : OrderManager.Submittable m req now reference tokens)
    (h₁ : m.newTokens sent = [(Token.fromId m.nextToken, m.nextId)]) (h₂ : m.newIds sent = [m.nextId]) :
    Agrees (r.after m (m.admitted req now tokens) sent s) (m.admitted req now tokens) := by
  have h' := h.admitted hs
  have hcases := h.nextSlot_cases hs.slot
  have hslots : ∀ j, j ≠ m.nextSlot → (m.admitted req now tokens).slots j = m.slots j :=
    fun j hj => Function.update_of_ne hj _ _
  have hself : (m.admitted req now tokens).slots m.nextSlot = m.newEntry req now := Function.update_self _ _ _
  have hfresh := OrderManager.admitted_fresh m req now tokens
  have hother : ∀ j < (m.admitted req now tokens).fresh, j ≠ m.nextSlot → j < m.fresh := by
    intro j hj hne
    rw [hfresh] at hj
    rcases hcases with ⟨hlt, hsl⟩ | ⟨heq, _⟩
    · rw [if_pos hlt] at hj; omega
    · rwa [if_neg (by omega)] at hj
  have hquiet : m.newlyEnded (m.admitted req now tokens) = [] := by
    refine OrderManager.newlyEnded_nil fun j hj hw => ?_
    have hne : j ≠ m.nextSlot := by
      rintro rfl
      rcases hcases with ⟨_, hsl⟩ | ⟨_, _, hold, _⟩
      · omega
      · rw [hw] at hold; cases hold
    rw [hslots j hne]
    exact hw
  have heq : r.after m (m.admitted req now tokens) sent s =
      ⟨s, r.issued ++ [(Token.fromId m.nextToken, m.nextId)], r.ids ++ [m.nextId], r.ended⟩ := by
    simp [after, h₁, h₂, hquiet]
  rw [heq]
  have hmint := ha.mint hs.token_le m.nextId
  have hpos := h.nextId_pos
  refine ⟨hmint.1, hmint.2, fun j hj t ht => ?_, ?_, fun j hj => ?_, ha.ended_nodup, fun id hid => ?_, ?_⟩
  · by_cases hne : j = m.nextSlot
    · subst hne
      rw [hself] at ht ⊢
      rcases ht with ht | ⟨ht, hz⟩
      · rw [← ht]
        exact List.mem_append_right _ (List.mem_singleton.mpr rfl)
      · exact absurd ht.symm hz
    · rw [hslots j hne] at ht ⊢
      exact List.mem_append_left _ (ha.owner j (hother j hj hne) t ht)
  · show r.ids ++ [m.nextId] = List.range' 1 (m.nextId + 1 - 1)
    rw [ha.ids, show m.nextId + 1 - 1 = m.nextId - 1 + 1 by omega, List.range'_concat]
    congr 2
    omega
  · rw [hfresh] at hj
    have hne : j ≠ m.nextSlot := by
      rcases hcases with ⟨hlt, hsl⟩ | ⟨hge, hsl, _⟩
      · rw [if_pos hlt] at hj; omega
      · rw [if_neg (by omega)] at hj; omega
    rw [hslots j hne]
    refine ha.unused j ?_
    split_ifs at hj <;> omega
  · exact (ha.ended_lt id hid).trans (Nat.lt_succ_self _)
  · obtain ⟨k, hk, hmap, hgone⟩ := ha.ring
    -- an id that no used slot but the new one had is forgotten
    have hforget : ∀ id, id < m.nextId → (∀ j < m.fresh, j ≠ m.nextSlot → (m.slots j).info.id ≠ id) →
        (m.admitted req now tokens).slotOf id = none := by
      intro id hlt hno
      cases hf : (m.admitted req now tokens).slotOf id with
      | none => rfl
      | some j =>
        obtain ⟨hj, hid⟩ := (h'.ids.find id j).mp hf
        by_cases hne : j = m.nextSlot
        · rw [hne, hself] at hid
          have : m.nextId = id := hid
          omega
        · rw [hslots j hne] at hid
          exact absurd hid (hno j (hother j hj hne) hne)
    have hold : ∀ id ∈ r.ended.take k, (m.admitted req now tokens).slotOf id = none := by
      intro id hid
      refine hforget id (ha.ended_lt id (List.mem_of_mem_take hid)) fun j hj _ hjid => ?_
      have hsome : m.slotOf id = some j := (h.ids.find id j).mpr ⟨hj, hjid⟩
      rw [hgone id hid] at hsome
      cases hsome
    have hkeep : ∀ l : List Nat, m.nextSlot ∉ l →
        l.map (fun j => ((m.admitted req now tokens).slots j).info.id) = l.map fun j => (m.slots j).info.id := by
      intro l hl
      refine List.map_congr_left fun j hj => ?_
      rw [hslots j (fun e => hl (e ▸ hj))]
    rcases hcases with ⟨hlt, hsl⟩ | ⟨hge, hlt, hdead, hpop⟩
    · refine ⟨k, hk, ?_, hold⟩
      show (if m.fresh < m.capacity then m.finished else m.finished.pop).toList.map _ = _
      rw [if_pos hlt, hkeep _ (fun hmem => ?_), hmap]
      have := ((h.places.ring_mem _).mp hmem).1
      omega
    · have hnd := h.places.ring_nodup
      rw [hpop] at hnd hmap
      rw [List.map_cons] at hmap
      have hklt : k < r.ended.length := by
        by_contra hge
        rw [List.drop_eq_nil_of_le (by omega)] at hmap
        cases hmap
      rw [List.drop_eq_getElem_cons hklt] at hmap
      obtain ⟨hhead, htail⟩ := List.cons.inj hmap
      refine ⟨k + 1, hklt, ?_, fun id hid => ?_⟩
      · show (if m.fresh < m.capacity then m.finished else m.finished.pop).toList.map _ = _
        rw [if_neg (by omega), hkeep _ (List.nodup_cons.mp hnd).1, htail]
      · rw [List.take_succ_eq_append_getElem hklt, List.mem_append, List.mem_singleton] at hid
        rcases hid with hid | rfl
        · exact hold id hid
        · refine hforget _ (ha.ended_lt _ (List.getElem_mem hklt)) fun j hj hne hjid => hne ?_
          -- two used slots never hold one id
          have h₃ := (h.ids.find _ j).mpr ⟨hj, hjid⟩
          have h₄ := (h.ids.find _ m.nextSlot).mpr ⟨hlt, hhead⟩
          rw [h₃] at h₄
          exact Option.some.inj h₄

theorem Agrees.new (config : Config) (limits : Risk.Limits) (maxLocates : Nat) :
    Agrees (new config limits maxLocates) (new config limits maxLocates).session.manager where
  minted := by simp [Registry.new]
  nodup := List.nodup_nil
  owner := fun i hi => absurd hi (Nat.not_lt_zero i)
  ids := rfl
  unused := fun _ _ => rfl
  ended_nodup := List.nodup_nil
  ended_lt := by simp [Registry.new]
  ring := ⟨0, le_refl _, rfl, by simp [Registry.new]⟩

/-- **The invariant.** -/
structure Ok (r : Registry) : Prop where
  session : r.session.Ok
  agrees : Agrees r r.session.manager

theorem Ok.step {e : Event} (h : Ok r) (hn : r.next e = some r') : Ok r' := by
  unfold Registry.next at hn
  obtain ⟨⟨s, fx⟩, hstep, rfl⟩ := Option.map_eq_some_iff.mp hn
  obtain ⟨hmv, hok⟩ := h.session.step hstep
  refine ⟨hok, ?_⟩
  show Agrees (r.after r.session.manager s.manager (Session.sentIn fx) s) s.manager
  have hinv := h.session.inv
  cases hmv with
  | stack hm hfx _ =>
    rw [hm, hfx]
    exact h.agrees.same ⟨rfl, rfl, rfl, rfl⟩ ⟨rfl, rfl, rfl, rfl⟩ rfl rfl rfl rfl
  | call c hc hm _ hfx =>
    have hinv' := hinv.perform hc
    have hev := hinv.evolves hc
    rw [← hm, ← hfx] at hev
    rw [← hm] at hinv'
    cases hev with
    | same ht hp hs hn h₁ h₂ => exact h.agrees.same ht hp hs hn h₁ h₂
    | settled i m₁ e o hi hw hnear hid hout htok hids =>
      rw [hout] at hinv' ⊢
      exact h.agrees.settle hinv hi hw hnear hid hinv' htok hids
    | admitted req now reference tokens hs hout h₁ h₂ =>
      rw [hout]
      exact h.agrees.admitted hinv hs h₁ h₂

theorem Ok.run {es : List Event} (h : Ok r) (hr : run next r es = some r') : Ok r' :=
  run_invariant (P := Ok) (fun _ _ _ h₁ hs => h₁.step hs) hr h

theorem Ok.new (config : Config) (limits : Risk.Limits) (maxLocates : Nat) : Ok (new config limits maxLocates) :=
  ⟨.new config limits maxLocates, .new config limits maxLocates⟩

/-- The order table and its tokens, seen with what was given out so far. -/
structure Structured (r : Registry) (m : OrderManager) : Prop where
  /-- The used slots come first; the others are as they were built. -/
  used : m.fresh ≤ m.capacity ∧ ∀ i, m.fresh ≤ i → m.slots i = {}
  /-- The working list: each non-terminal order once, by increasing id. -/
  working : ∃ ws, Linked m.links m.working ws ∧
    (∀ i, i ∈ ws ↔ i < m.fresh ∧ isTerminal (m.slots i).info.status = false) ∧
    ws.Pairwise fun i j => (m.slots i).info.id < (m.slots j).info.id
  /-- The ring: each terminal order once. -/
  finished : m.finished.toList.Nodup ∧
    ∀ i, i ∈ m.finished.toList ↔ i < m.fresh ∧ isTerminal (m.slots i).info.status = true
  /-- The ring is what is left of the finished orders when the first `k` have been forgotten. -/
  in_order : r.ended.Nodup ∧ ∃ k, (m.finished.toList.map fun i => (m.slots i).info.id) = r.ended.drop k ∧
    ∀ id ∈ r.ended.take k, m.find id = none
  ids : ∀ id i, m.byId.find id = some i ↔ i < m.fresh ∧ (m.slots i).info.id = id
  tokens : ∀ t i, m.tokens.find t = some i ↔
    i < m.fresh ∧ ((m.slots i).token = t ∨ (m.slots i).nextToken = t ∧ t ≠ 0)
  distinct : ∀ i < m.fresh, (m.slots i).token ≠ (m.slots i).nextToken
  below : ∀ t i, m.tokens.find t = some i → t < m.nextToken
  /-- No id and no token is given out twice, and a token leads to the order it was given out for. -/
  ids_once : r.ids.Nodup ∧ (r.issued.map Prod.fst).Nodup
  owner : ∀ t i, m.tokens.find t = some i → (Token.fromId t, (m.slots i).info.id) ∈ r.issued
  /-- A new order gets a new id and a new token, in an unused slot or that of the order that finished first. -/
  submit_ok : ∀ req now (w : World), let out := m.submit req now w.symbol w.reference w.gateway
    out.result.status = .ok → out.result.id ∉ r.ids ∧
      (∀ x, out.sent = some (.enter x) → x.token ∉ r.issued.map Prod.fst) ∧
      out.state.slotOf out.result.id = if m.fresh < m.capacity then some m.fresh else m.finished.toList.head?
  submit_capacity : ∀ req now (w : World), OrderManager.valid req = true → (w.symbol req.locate).isEmpty = false →
    ((m.submit req now w.symbol w.reference w.gateway).result.status = .capacity ↔
      (∀ i < m.capacity, i < m.fresh ∧ isTerminal (m.slots i).info.status = false) ∨ Token.kMaxId < m.nextToken)
  replace_capacity : ∀ id price qty now (w : World),
    (m.replace id price qty now w.reference w.gateway).result = .capacity → Token.kMaxId < m.nextToken

theorem working_iff {e : Entry} : e.working = true ↔ isTerminal e.info.status = false := by
  simp [Entry.working]

/-- A successful `submit` gives out what was never given out. -/
theorem Agrees.submit_ok (ha : Agrees r m) (h : m.Inv) {req : OrderRequest} {now : Nat} {w : World}
    (hok : (m.submit req now w.symbol w.reference w.gateway).result.status = .ok) :
    (m.submit req now w.symbol w.reference w.gateway).result.id ∉ r.ids ∧
      (∀ x, (m.submit req now w.symbol w.reference w.gateway).sent = some (.enter x) →
        x.token ∉ r.issued.map Prod.fst) ∧
      (m.submit req now w.symbol w.reference w.gateway).state.slotOf
        (m.submit req now w.symbol w.reference w.gateway).result.id =
        if m.fresh < m.capacity then some m.fresh else m.finished.toList.head? := by
  rcases OrderManager.submit_cases m req now w.symbol w.reference w.gateway rfl with
    ⟨_, hu, _⟩ | ⟨tokens, hs, _, hout⟩
  · -- a call without an update did not succeed
    exfalso
    unfold OrderManager.submit at hok hu
    dsimp only at hok hu
    split_ifs at hok hu
  · rw [hout]
    have h' := h.admitted hs
    have hpos := h.nextId_pos
    refine ⟨?_, fun x hx => ?_, ?_⟩
    · rw [ha.ids, List.mem_range'_1]
      show ¬(1 ≤ m.nextId ∧ m.nextId < _)
      omega
    · simp only [Option.some.injEq, Ouch.Inbound.enter.injEq] at hx
      subst hx
      intro hmem
      obtain ⟨p, hp, heq⟩ := List.mem_map.mp hmem
      obtain ⟨n, h₁, h₂, h₃⟩ := ha.minted p hp
      have := Token.fromId_injective h₁ hs.token_le (h₃.symm.trans heq)
      omega
    · have hself : (m.admitted req now tokens).slots m.nextSlot = m.newEntry req now := Function.update_self _ _ _
      have hfresh := OrderManager.admitted_fresh m req now tokens
      have hslot : (m.admitted req now tokens).slotOf m.nextId = some m.nextSlot := by
        refine (h'.ids.find _ _).mpr ⟨?_, by rw [hself]; rfl⟩
        rcases h.nextSlot_cases hs.slot with ⟨hlt, hsl⟩ | ⟨hge, hlt, _⟩
        · rw [hfresh, if_pos hlt]; omega
        · rw [hfresh, if_neg (by omega)]; exact hlt
      show (m.admitted req now tokens).slotOf m.nextId = _
      rw [hslot]
      rcases h.nextSlot_cases hs.slot with ⟨hlt, hsl⟩ | ⟨hge, _, _, hpop⟩
      · rw [if_pos hlt, hsl]
      · rw [if_neg (by omega), hpop]
        rfl

theorem Ok.structured (h : Ok r) : Structured r r.session.manager := by
  have hinv := h.session.inv
  obtain ⟨ws, hlinked, hmem, hsorted, _⟩ := hinv.places.list
  obtain ⟨k, _, hmap, hgone⟩ := h.agrees.ring
  refine
    { used := ⟨hinv.ids.fresh_le, h.agrees.unused⟩
      working := ⟨ws, hlinked, fun i => by rw [hmem, working_iff], hsorted⟩
      finished := ⟨hinv.places.ring_nodup, fun i => by rw [hinv.places.ring_mem]; simp [Entry.working]⟩
      in_order := ⟨h.agrees.ended_nodup, k, hmap, fun id hid => by
        rw [OrderManager.find, OrderManager.entry, hgone id hid]; rfl⟩
      ids := hinv.ids.find
      tokens := hinv.tokens.find
      distinct := hinv.tokens.distinct
      below := fun t i ht => ?_
      ids_once := ⟨by rw [h.agrees.ids]; exact List.nodup_range', h.agrees.nodup⟩
      owner := fun t i ht => ?_
      submit_ok := fun req now w hok => h.agrees.submit_ok hinv hok
      submit_capacity := fun req now w hv hsym => ?_
      replace_capacity := fun id price qty now w hc => hinv.replace_capacity hc }
  · obtain ⟨hi, htok⟩ := (hinv.tokens.find t i).mp ht
    exact hinv.tokens.hasToken_lt hi htok
  · obtain ⟨hi, htok⟩ := (hinv.tokens.find t i).mp ht
    exact h.agrees.owner i hi t htok
  · rw [hinv.submit_capacity hv hsym]
    simp only [working_iff]

end Registry

/-- **Order table and token structure.** After every run of calls and reports, listener re-entrancy
included, the table is structured as `Registry.Structured` says. -/
theorem order_table_structured (config : Config) (limits : Risk.Limits) (maxLocates : Nat) (es : List Event)
    (r : Registry) (h : run Registry.next (Registry.new config limits maxLocates) es = some r) :
    Registry.Structured r r.session.manager :=
  ((Registry.Ok.new config limits maxLocates).run h).structured

theorem order_table_structured_replace_in_flight :
    ∃ r, run Registry.next (Registry.new {} {} 2) Session.replaceInFlight = some r ∧
      r.session.manager.tokens.find 2 = some 0 ∧ (Token.fromId 2, 1) ∈ r.issued ∧ r.ids = [1] := by
  have hview : (run Registry.next (Registry.new {} {} 2) Session.replaceInFlight).map (fun r =>
      (r.session.manager.tokens.find 2, (r.session.manager.slots 0).info.id, r.ids)) = some (some 0, 1, [1]) := rfl
  obtain ⟨r, hr, hview⟩ := Option.map_eq_some_iff.mp hview
  simp only [Prod.mk.injEq] at hview
  obtain ⟨hfind, hid, hids⟩ := hview
  have hown := (order_table_structured {} {} 2 Session.replaceInFlight r hr).owner 2 0 hfind
  rw [hid] at hown
  exact ⟨r, hr, hfind, hown, hids⟩

end OptiTrade.Oms
