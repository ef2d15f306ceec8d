import OptiTrade.Oms.Convergence
import OptiTrade.Oms.Inventory
import OptiTrade.Oms.Structure

/-! # Positions are sums of executions

As long as what could fill is in the range of the risk engine's integers, an execution moves the position of its
instrument by its shares, no less. A book of owners remembers on which instrument and side the order behind each token
was submitted; by it, a position is the signed sum of the executions delivered. -/

namespace OptiTrade.Oms
set_option autoImplicit false

open Ouch (Token)
open Risk (RiskEngine kInt64Max)

namespace OrderManager
variable {m m' : OrderManager}

/-! ## The range -/

/-- **A verdict keeps the range**: shares it let in on one side do not carry the position out of it. -/
theorem Capped.widen (hc : Capped kInt64Max m) (h : Inv m) (hlim : m.risk.limits.maxPosition ≤ kInt64Max)
    {l qty add : Nat} {side : Side} {replacing : Bool} (hp : m.risk.Passed l side qty add replacing)
    (hpos : ∀ k, m'.pos k = m.pos k)
    (hsh : ∀ k sd, m'.shares k sd = m.shares k sd + if k = l ∧ sd = side then (add : Int) else 0) :
    Capped kInt64Max m' := by
  have hup := hc.upper l
  have hlo := hc.lower l
  -- a verdict allows what the limit does, or what is closer to zero than the position
  have hleg : m.pos l + m.shares l .buy + (if side = .buy then (add : Int) else 0) ≤ kInt64Max ∧
      -kInt64Max ≤ m.pos l - m.shares l .sell - (if side = .sell then (add : Int) else 0) := by
    by_cases hadd : add = 0
    · subst hadd
      exact ⟨by simpa using hup, by simpa using hlo⟩
    have hpass := hp.position hadd
    obtain ⟨h₁, h₂⟩ := hc.pos_le h l
    unfold Risk.magnitude at hpass
    unfold pos shares at *
    cases side <;> simp only [RiskEngine.leg, reduceCtorEq, if_true, if_false] at hpass ⊢ <;> split_ifs at hpass <;> omega
  refine ⟨fun k => ?_, fun k => ?_⟩
  · have hk := hc.upper k
    rw [hpos, hsh]
    split_ifs with hkey
    · obtain ⟨rfl, rfl⟩ := hkey
      rw [if_pos rfl] at hleg
      omega
    · omega
  · have hk := hc.lower k
    rw [hpos, hsh]
    split_ifs with hkey
    · obtain ⟨rfl, rfl⟩ := hkey
      rw [if_pos rfl] at hleg
      omega
    · omega

theorem Capped.range {cap : Int} (hc : Capped cap m) (h : Inv m) : ∀ l, -cap ≤ m.pos l ∧ m.pos l ≤ cap := fun l =>
  hc.pos_le h l

/-- **Every call keeps the range.** -/
theorem Capped.perform (hc : Capped kInt64Max m) (h : Inv m) (hlim : m.risk.limits.maxPosition ≤ kInt64Max) {c : Call}
    (hf : m.Fits c) (hx : ∀ x now, c = .report (.executed x) now → ∀ i, m.resolve x.token = some (i, false) →
      (m.slots i).working = true → ¬badExecution (m.slots i) x → x.shares ≤ (m.slots i).info.leavesQty) :
    Capped kInt64Max (m.perform c) := by
  cases c with
  | submit req now w =>
    rcases submit_cases m req now w.symbol w.reference w.gateway rfl with ⟨hs, _, _⟩ | ⟨tokens, hs, _, hout⟩
    · rw [OrderManager.perform, hs]
      exact hc
    · rw [OrderManager.perform, hout]
      exact hc.widen h hlim (RiskEngine.assess_none hs.verdict) (fun k => admitted_pos k) (admitted_shares h hs)
  | cancelEntry i now w => exact hc.eases (.releases h (hc.range h) (h.releases_cancelEntry hf now w.gateway))
  | replace id p q now w =>
    rcases replace_cases h id p q now w.reference w.gateway rfl with ⟨hs, _, _⟩ | ⟨i, tokens, hid, hr, _, hout⟩
    · rw [OrderManager.perform, hs]
      exact hc
    · rw [OrderManager.perform, hout]
      exact hc.widen h hlim (RiskEngine.assess_none hr.verdict) (fun k => replaced_pos k)
        (replaced_shares h ((h.ids.find id i).mp hid).1 hr)
  | report r now =>
    exact hc.eases (.releases h (hc.range h) (h.releases_onReport r now fun x hr => hx x now (by rw [hr])))
  | mark l p =>
    exact hc.eases (.of_same (fun k => by unfold pos; rw [OrderManager.perform, RiskEngine.mark_pos p k])
      fun k sd => congrFun ((RiskEngine.mark_sameLedger m.risk l p).shares k) sd)
  | killSwitch on => exact hc.eases (.of_same (fun _ => rfl) fun _ _ => rfl)

theorem Capped.new (config : Config) (limits : Risk.Limits) (maxLocates : Nat) :
    Capped kInt64Max (.new config (.new limits maxLocates)) :=
  ⟨fun _ => show (0 : Int) + 0 ≤ _ by decide, fun _ => show _ ≤ (0 : Int) - 0 by decide⟩

/-! ## Executions -/

/-- The shares an owner of an order on `owner` wins or loses on instrument `l` by an execution. -/
def impact (owner : Nat × Side) (l shares : Nat) : Int :=
  if l = owner.1 then (if owner.2 = .buy then (shares : Int) else -shares) else 0

/-- The instrument and side of an order. -/
def key (m : OrderManager) (i : Nat) : Nat × Side := ((m.slots i).info.req.locate, (m.slots i).info.req.side)

/-- An execution within the leaves is not clamped away. -/
theorem Capped.movedBy (hc : Capped kInt64Max m) (h : Inv m) {i : Nat} (hi : i < m.fresh)
    (hw : (m.slots i).working = true) {x : Ouch.Executed} (hle : x.shares ≤ (m.slots i).info.leavesQty) :
    m.movedBy i x = x.shares := by
  have hheld : ((m.slots i).held (m.slots i).info.req.locate (m.slots i).info.req.side : Int) ≤
      m.shares (m.slots i).info.req.locate (m.slots i).info.req.side := h.ledger.held_le_shares hi _ _
  rw [show (m.slots i).held _ _ = (m.slots i).reserved by simp [Entry.held, hw],
    reserved_eq_max (h.entries i hi) hw] at hheld
  have hup := hc.upper (m.slots i).info.req.locate
  have hlo := hc.lower (m.slots i).info.req.locate
  obtain ⟨h₁, h₂⟩ := hc.pos_le h (m.slots i).info.req.locate
  unfold OrderManager.movedBy
  unfold pos at *
  cases hsd : (m.slots i).info.req.side with
  | buy =>
    rw [hsd] at hheld
    dsimp only
    rw [if_pos rfl, Risk.clamp64, if_neg (by omega), if_neg (by omega)]
    omega
  | sell =>
    rw [hsd] at hheld
    dsimp only
    rw [if_neg (by decide), Risk.clamp64, if_neg (by omega), if_neg (by omega)]
    omega

/-- **An execution within the leaves moves the position by its shares.** -/
theorem Capped.executed_seen (hc : Capped kInt64Max m) (h : Inv m) {i : Nat} (hi : i < m.fresh)
    (hw : (m.slots i).working = true) {x : Ouch.Executed} (hbad : ¬badExecution (m.slots i) x)
    (hle : x.shares ≤ (m.slots i).info.leavesQty) (now l : Nat) :
    ((m.booked i x).settle i ((m.slots i).execute x now) (some .filled)).seen l = m.seen l + impact (m.key i) l x.shares := by
  have hpos := h.executed_pos hi hbad now l
  have hloc : ((m.booked i x).settle i ((m.slots i).execute x now) (some .filled)).risk.locates = m.risk.locates :=
    (settle_limits _ _ _ _).2.trans (Near.booked m i x).ledger.locates
  rw [hc.movedBy h hi hw hle] at hpos
  by_cases hl : l < m.risk.locates
  · rw [seen_eq hl, seen_eq (hloc ▸ hl), hpos]
    rfl
  · have hne : l ≠ (m.slots i).info.req.locate := by
      rintro rfl
      exact hl (h.ledger.locate i hi)
    unfold OrderManager.seen RiskEngine.position impact key
    rw [if_neg hl, if_neg (hloc ▸ hl), if_neg hne]
    rfl

end OrderManager

/-! ## Owners -/

/-- The instrument and side of the order behind each token. -/
abbrev Owners := Token → Option (Nat × Side)

/-- The request that an event submits. -/
def Event.request : Event → Option OrderRequest
  | .submit req _ _ => some req
  | _ => none

namespace Owners
open OrderManager

/-- A message has been sent: a new order is on the instrument and side of its request, a replacement on those of the
order that it replaces. -/
def note (req : Option OrderRequest) (o : Owners) : Ouch.Inbound → Owners
  | .enter m => Function.update o m.token (req.map fun r => (r.locate, r.side))
  | .replace m => Function.update o m.replacement (o m.existing)
  | .cancel _ => o

/-- What a report says about the position on instrument `l`. -/
def moved (o : Owners) (l : Nat) : Ouch.Outbound → Int
  | .executed x => (o x.token).elim 0 fun k => impact k l x.shares
  | _ => 0

/-- The signed sum of the executions. -/
def position (o : Owners) (l : Nat) (ms : List Ouch.Outbound) : Int := (ms.map (o.moved l)).sum

variable {o o' : Owners} {m m' m₁ : OrderManager} {ms : List Ouch.Outbound}

theorem position_congr (hext : ∀ t k, o t = some k → o' t = some k) (hknown : ∀ x, .executed x ∈ ms → (o x.token).isSome)
    (l : Nat) : o'.position l ms = o.position l ms := by
  unfold position
  refine congrArg List.sum (List.map_congr_left fun r hr => ?_)
  cases r with
  | executed x =>
    obtain ⟨k, hk⟩ := Option.isSome_iff_exists.mp (hknown x hr)
    unfold moved
    dsimp only
    rw [hk, hext _ _ hk]
  | accepted a => rfl
  | canceled c => rfl
  | rejected j => rfl
  | replaced rp => rfl

/-- Owners are known of minted tokens only, and of the tokens of every working order. -/
structure Owned (o : Owners) (m : OrderManager) : Prop where
  minted : ∀ t, o t ≠ none → t ∈ m.minted
  orders : ∀ i < m.fresh, (m.slots i).working = true → ∀ t, (m.slots i).hasToken t → o (Token.fromId t) = some (m.key i)

namespace Owned

theorem same (ho : Owned o m) (hf : m'.fresh = m.fresh) (hs : m'.slots = m.slots) (hn : m'.nextToken = m.nextToken) :
    Owned o m' := by
  refine ⟨fun t ht => minted_congr hn ▸ ho.minted t ht, ?_⟩
  unfold key
  rw [hf, hs]
  exact ho.orders

theorem settle (ho : Owned o m) {i : Nat} (hi : i < m.fresh) (hw : (m.slots i).working = true) (hm : Near m m₁) {e : Entry}
    {out : Option OrderStatus} (hsame : SameOrder (m.slots i) e) (hext : ∀ t k, o t = some k → o' t = some k)
    (htok : ∀ t, e.hasToken t → o' (Token.fromId t) = some (m.key i)) (hmint : ∀ t, o' t ≠ none → t ∈ m₁.minted) :
    Owned o' (m₁.settle i e out) := by
  refine ⟨fun t ht => minted_congr (settle_nextToken m₁ i e out) ▸ hmint t ht, fun j hj hjw t ht => ?_⟩
  obtain ⟨hj', hjw', -, hloc, hside⟩ := Fewer.settle hi hw hm hsame (o := out) j hj hjw
  rw [show (m₁.settle i e out).key j = m.key j from Prod.ext hloc hside]
  by_cases hji : j = i
  · subst hji
    exact htok t (settle_hasToken hm ht)
  · obtain ⟨e', -, hsl⟩ := m₁.settle_slots i e out
    rw [hsl, Function.update_of_ne hji, hm.slots] at ht
    exact hext _ _ (ho.orders j hj' hjw' t ht)

theorem extends_fresh (ho : Owned o m) (hle : m.nextToken ≤ Token.kMaxId) (k : Option (Nat × Side)) :
    ∀ t k', o t = some k' → Function.update o (Token.fromId m.nextToken) k t = some k' := by
  intro t k' ht
  have hne : t ≠ Token.fromId m.nextToken := by
    rintro rfl
    exact next_not_minted hle (ho.minted _ (by rw [ht]; exact Option.some_ne_none k'))
  rw [Function.update_of_ne hne, ht]

theorem minted_fresh (ho : Owned o m) (hle : m.nextToken ≤ Token.kMaxId) (hn : m₁.nextToken = m.nextToken + 1)
    (k : Option (Nat × Side)) : ∀ t, Function.update o (Token.fromId m.nextToken) k t ≠ none → t ∈ m₁.minted := by
  intro t ht
  rw [minted_succ hle hn]
  by_cases hne : t = Token.fromId m.nextToken
  · exact .inl hne
  · rw [Function.update_of_ne hne] at ht
    exact .inr (ho.minted t ht)

theorem admitted (ho : Owned o m) (h : Inv m) {req : OrderRequest} {now : Nat} {reference : Nat → Int}
    {tokens : BoundedMap Nat Nat} (hs : Submittable m req now reference tokens) :
    Owned (Function.update o (Token.fromId m.nextToken) (some (req.locate, req.side))) (m.admitted req now tokens) := by
  refine ⟨ho.minted_fresh hs.token_le rfl _, fun i hi hw t ht => ?_⟩
  rcases admitted_slots h hs hi with ⟨-, he⟩ | ⟨hi', he⟩
  · unfold key
    rw [he] at ht ⊢
    rcases ht with ht | ⟨ht, hne⟩
    · rw [← show m.nextToken = t from ht, Function.update_self]
      rfl
    · exact absurd ht.symm hne
  · unfold key
    rw [he] at hw ht ⊢
    exact ho.extends_fresh hs.token_le _ _ _ (ho.orders i hi' hw t ht)

theorem report (ho : Owned o m) (h : Inv m) (r : Ouch.Outbound) (now : Nat) : Owned o (m.onReport r now) := by
  have hp := Session.processed ⟨m, []⟩ h r now
  rw [← Session.report_manager ⟨m, []⟩ r now]
  generalize Session.report ⟨m, []⟩ r now = out at hp ⊢
  cases hp with
  | ignored m' hi => rcases hi with rfl | rfl | rfl <;> exact ho.same rfl rfl rfl
  | updated i m₁ e out hi hw hm hs _ ht hn _ _ =>
    exact ho.settle hi hw hm hs (fun _ _ => id) (fun t het => ho.orders i hi hw t (ht t het))
      fun t hto => minted_congr hn ▸ ho.minted t hto
  | booked i x m' _ hi hw _ hm =>
    subst hm
    exact ho.settle hi hw (Near.booked m i x) ⟨rfl, rfl, rfl, rfl⟩ (fun _ _ => id) (ho.orders i hi hw)
      fun t hto => (show (m.booked i x).minted = m.minted from minted_congr (noteClamp_tokens m _).2.1) ▸ ho.minted t hto

/-- **A call** notes the owners of the tokens that it sends. -/
theorem perform (ho : Owned o m) (h : Inv m) {c : Call} (hf : m.Fits c) {req : Option OrderRequest}
    (hreq : ∀ r now w, c = .submit r now w → req = some r) :
    Owned ((m.sends c).foldl (note req) o) (m.perform c) ∧
      ∀ t k, o t = some k → (m.sends c).foldl (note req) o t = some k := by
  have hquiet : ∀ {m'}, m' = m → Owned (([] : List Ouch.Inbound).foldl (note req) o) m' ∧
      ∀ t k, o t = some k → ([] : List Ouch.Inbound).foldl (note req) o t = some k := fun hm' => ⟨hm' ▸ ho, fun _ _ => id⟩
  cases c with
  | submit r now w =>
    obtain rfl := hreq r now w rfl
    rcases submit_cases m r now w.symbol w.reference w.gateway rfl with ⟨hs, _, hno⟩ | ⟨tokens, hs, hg, hout⟩
    · rw [sends, sent_none hno]
      exact hquiet hs
    · rw [sends, OrderManager.perform, hout, sent_some hg]
      exact ⟨ho.admitted h hs, ho.extends_fresh hs.token_le _⟩
  | cancelEntry i now w =>
    rcases cancelEntry_cases h hf now w.gateway rfl with ⟨hs, _, hno⟩ | ⟨hw, _, hg, hout⟩
    · rw [sends, sent_none hno]
      exact hquiet hs
    · rw [sends, OrderManager.perform, hout, sent_some hg]
      exact ⟨ho.settle hf hw (.refl m) ⟨rfl, rfl, rfl, rfl⟩ (fun _ _ => id) (ho.orders i hf hw) ho.minted, fun _ _ => id⟩
  | replace id p q now w =>
    rcases replace_cases h id p q now w.reference w.gateway rfl with ⟨hs, _, hno⟩ | ⟨i, tokens, hid, hr, hg, hout⟩
    · rw [sends, sent_none hno]
      exact hquiet hs
    · have hi := ((h.ids.find id i).mp hid).1
      have howner : o (Token.fromId (m.slots i).token) = some (m.key i) := ho.orders i hi hr.working _ (.inl rfl)
      rw [sends, OrderManager.perform, hout, sent_some hg]
      show Owned (Function.update o (Token.fromId m.nextToken) (o (Token.fromId (m.slots i).token))) _ ∧
        ∀ t k, o t = some k → Function.update o (Token.fromId m.nextToken) (o (Token.fromId (m.slots i).token)) t = some k
      rw [howner]
      have hext := ho.extends_fresh hr.token_le (some (m.key i))
      refine ⟨ho.settle hi hr.working (Near.offered m i q now tokens) ⟨rfl, rfl, rfl, rfl⟩ hext (fun t ht => ?_)
        (ho.minted_fresh hr.token_le rfl _), hext⟩
      rcases ht with ht | ⟨ht, _⟩
      · exact hext _ _ (ho.orders i hi hr.working t (.inl ht))
      · rw [← show m.nextToken = t from ht, Function.update_self]
  | report r now => exact ⟨ho.report h r now, fun _ _ => id⟩
  | mark l p => exact ⟨ho.same rfl rfl rfl, fun _ _ => id⟩
  | killSwitch on => exact ⟨ho.same rfl rfl rfl, fun _ _ => id⟩

end Owned

/-! ## Positions -/

/-- The executions among the reports `ms` are those of known owners, and the positions are their signed sums. -/
structure Booked (o : Owners) (ms : List Ouch.Outbound) (m : OrderManager) : Prop where
  capped : Capped kInt64Max m
  owned : Owned o m
  known : ∀ x, .executed x ∈ ms → (o x.token).isSome
  position : ∀ l, m.seen l = o.position l ms

namespace Booked

theorem new (config : Config) (limits : Risk.Limits) (maxLocates : Nat) :
    Booked (fun _ => none) [] (.new config (.new limits maxLocates)) where
  capped := .new config limits maxLocates
  owned := ⟨fun t ht => absurd rfl ht, fun i hi => absurd hi (Nat.not_lt_zero i)⟩
  known := fun x hx => by cases hx
  position := fun l => by
    unfold OrderManager.seen RiskEngine.position
    split_ifs <;> rfl

theorem call (hb : Booked o ms m) (h : Inv m) (hlim : m.risk.limits.maxPosition ≤ kInt64Max) {c : Call} (hf : m.Fits c)
    (hr : ∀ r now, c ≠ .report r now) {req : Option OrderRequest} (hreq : ∀ r now w, c = .submit r now w → req = some r) :
    Booked ((m.sends c).foldl (note req) o) ms (m.perform c) := by
  obtain ⟨howned, hext⟩ := hb.owned.perform h hf hreq
  refine ⟨hb.capped.perform h hlim hf fun x now hc => absurd hc (hr _ now), howned, fun x hx => ?_, fun l => ?_⟩
  · obtain ⟨k, hk⟩ := Option.isSome_iff_exists.mp (hb.known x hx)
    rw [hext _ _ hk]
    rfl
  · rw [h.perform_seen hf fun x now => hr _ now, hb.position l, position_congr hext hb.known]

/-- **A report that is delivered** moves the position by the shares it executes. -/
theorem deliver (hb : Booked o ms m) (h : Inv m) {ρ : Ouch.Outbound} {outbox : List Ouch.Outbound} {b : Protocol.Book Token}
    {inbox : List Ouch.Inbound} {used : List Nat} (hw : Wired m (ρ :: outbox) b inbox used)
    (hlim : m.risk.limits.maxPosition ≤ kInt64Max) (now : Nat) : Booked o (ms ++ [ρ]) (m.onReport ρ now) := by
  have howned := hb.owned.report h ρ now
  have hsum : ∀ l, o.position l (ms ++ [ρ]) = o.position l ms + o.moved l ρ := fun l => by
    unfold Owners.position
    rw [List.map_append, List.sum_append, List.map_singleton, List.sum_singleton]
  obtain ⟨w, hl, -⟩ := hw.conforms.deliver
  by_cases hx : ∃ x, ρ = .executed x
  · obtain ⟨x, rfl⟩ := hx
    obtain ⟨i, hi, hwk, htok, -, hle, hbad, -, hout⟩ :=
      execution_booked h now (hw.proper _ List.mem_cons_self) hl hw.unseen
    have howner : o x.token = some (m.key i) := htok ▸ hb.owned.orders i hi hwk _ (.inl rfl)
    refine ⟨hb.capped.perform h hlim (c := .report (.executed x) now) trivial fun x' now' hc j hj _ _ => ?_, howned,
      fun x' hx' => ?_, fun l => ?_⟩
    · cases hc
      obtain ⟨hj, hjtok⟩ := (resolve_some h.tokens).mp hj
      obtain rfl := h.tokens.fromId_unique hi hj (htok.symm.trans hjtok)
      exact hle
    · rcases List.mem_append.mp hx' with hx' | hx'
      · exact hb.known x' hx'
      · cases List.mem_singleton.mp hx'
        rw [howner]
        rfl
    · rw [show m.onReport (.executed x) now = _ from hout, hb.capped.executed_seen h hi hwk hbad hle, hsum, hb.position l,
        show o.moved l (.executed x) = (o x.token).elim 0 fun k => impact k l x.shares from rfl, howner]
      rfl
  · have hne : ∀ x now', Call.report ρ now ≠ .report (.executed x) now' := by
      rintro x now' hc
      cases hc
      exact hx ⟨x, rfl⟩
    refine ⟨hb.capped.perform h hlim (c := .report ρ now) trivial fun x now' hc => absurd hc (hne x now'), howned,
      fun x' hx' => ?_, fun l => ?_⟩
    · rcases List.mem_append.mp hx' with hx' | hx'
      · exact hb.known x' hx'
      · exact absurd ⟨x', (List.mem_singleton.mp hx').symm⟩ hx
    · have hquiet : o.moved l ρ = 0 := by
        cases ρ with
        | executed x => exact absurd ⟨x, rfl⟩ hx
        | accepted a => rfl
        | canceled c => rfl
        | rejected j => rfl
        | replaced rp => rfl
      rw [hsum, hquiet, add_zero, ← hb.position l, ← h.perform_seen (c := .report ρ now) trivial hne]
      rfl

end Booked
end Owners
end OptiTrade.Oms
