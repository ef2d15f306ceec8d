import OptiTrade.Foundations.Simulation
import OptiTrade.Oms.Client
import OptiTrade.Oms.Structure
import OptiTrade.Ouch.Stream

/-! # What the manager writes

Every message that leaves the manager is a message of the order-entry format, and all of them in a row are a session that
the other end can read: no token is used twice, and a cancel or a replace names a token that came before. -/

namespace OptiTrade.Oms
set_option autoImplicit false

open Runs
open Ouch (Token Inbound OnWire)

/-- The message fits the wire. -/
def Written (m : Inbound) : Prop := m.Typed ∧ m.Encodable ∧ OnWire m.wirePrice

/-- A client that has given out the tokens `ts` sends a message: a new order or a replacement brings a token of its own, and
what is replaced or canceled has been brought before. -/
inductive Speaks : List Token → Inbound → List Token → Prop
  | enter {ts : List Token} (m : Ouch.EnterOrder) : m.token ∉ ts → Written (.enter m) → Speaks ts (.enter m) (ts ++ [m.token])
  | replace {ts : List Token} (m : Ouch.ReplaceOrder) : m.existing ∈ ts → m.replacement ∉ ts → Written (.replace m) →
      Speaks ts (.replace m) (ts ++ [m.replacement])
  | cancel {ts : List Token} (m : Ouch.CancelOrder) : m.token ∈ ts → Written (.cancel m) → Speaks ts (.cancel m) ts

theorem Speaks.written {ts ts' : List Token} {m : Inbound} (h : Speaks ts m ts') : Written m := by
  cases h with
  | enter m _ hw => exact hw
  | replace m _ _ hw => exact hw
  | cancel m _ hw => exact hw

theorem follows_written {ts ts' : List Token} {ms : List Inbound} (h : Follows Speaks ts ms ts') : ∀ m ∈ ms, Written m := by
  induction h with
  | nil ts => exact fun m hm => by cases hm
  | cons hs _ ih =>
    intro m hm
    rcases List.mem_cons.mp hm with rfl | hm
    · exact hs.written
    · exact ih m hm

theorem wireTif_lt (t : Tif) : OrderManager.wireTif t < 2 ^ 32 := by
  cases t <;> decide

theorem onWire_price {p : Int} (h : 0 < p) (hle : p ≤ kMaxWirePrice) : OnWire p := by
  unfold kMaxWirePrice at hle
  exact ⟨h.le, by omega⟩

theorem qty_lt {q : Nat} (h : q ≤ kMaxOrderQty) : q < 2 ^ 32 := by
  unfold kMaxOrderQty at h
  omega

/-- **What an operation writes fits the wire.** -/
theorem sends_written {m : OrderManager} (h : m.Inv) {c : Call} (hc : m.Fits c) : ∀ x ∈ m.sends c, Written x := by
  have hnone : ∀ {sent : List Inbound}, sent = [] → ∀ x ∈ sent, Written x := by
    rintro sent rfl x hx
    cases hx
  cases c with
  | submit q now w =>
    rcases OrderManager.submit_cases m q now w.symbol w.reference w.gateway rfl with ⟨-, -, hno⟩ | ⟨tokens, hs, hg, hout⟩
    · exact hnone (OrderManager.sent_none hno)
    · rw [OrderManager.sends, hout, OrderManager.sent_some hg]
      intro x hx
      rw [List.mem_singleton.mp hx]
      exact ⟨⟨qty_lt hs.qty_le, wireTif_lt _, Nat.two_pow_pos _⟩, ⟨hs.qty_pos, hs.qty_le, fun hc => by cases hc⟩,
        onWire_price hs.price_pos hs.price_le⟩
  | cancelEntry i now w =>
    rcases OrderManager.cancelEntry_cases h hc now w.gateway rfl with ⟨-, -, hno⟩ | ⟨-, -, hg, hout⟩
    · exact hnone (OrderManager.sent_none hno)
    · rw [OrderManager.sends, hout, OrderManager.sent_some hg]
      intro x hx
      rw [List.mem_singleton.mp hx]
      exact ⟨Nat.two_pow_pos _, trivial, le_refl 0, by norm_num [Inbound.wirePrice]⟩
  | replace id p q now w =>
    rcases OrderManager.replace_cases h id p q now w.reference w.gateway rfl with ⟨-, -, hno⟩ | ⟨i, tokens, hslot, hr, hg, hout⟩
    · exact hnone (OrderManager.sent_none hno)
    · rw [OrderManager.sends, hout, OrderManager.sent_some hg]
      have hqty : 1 ≤ q := Nat.one_le_of_lt hr.cum_lt
      intro x hx
      rw [List.mem_singleton.mp hx]
      exact ⟨⟨qty_lt hr.qty_le, wireTif_lt _, Nat.two_pow_pos _⟩, ⟨hqty, hr.qty_le⟩, onWire_price hr.price_pos hr.price_le⟩
  | report ρ now => exact hnone rfl
  | mark l p => exact hnone rfl
  | killSwitch on => exact hnone rfl

namespace Registry
variable {r : Registry} {m : OrderManager}

/-- The tokens given out. -/
def tokens (r : Registry) : List Token := r.issued.map Prod.fst

theorem Agrees.next_new (ha : Agrees r m) (hle : m.nextToken ≤ Token.kMaxId) : Token.fromId m.nextToken ∉ r.tokens := by
  intro hm
  obtain ⟨p, hp, heq⟩ := List.mem_map.mp hm
  obtain ⟨n, hn, hlt, htok⟩ := ha.minted p hp
  have hsame := Token.fromId_injective hn hle (htok.symm.trans heq)
  omega

theorem Agrees.held (ha : Agrees r m) {i : Nat} (hi : i < m.fresh) {t : Nat} (ht : (m.slots i).hasToken t) :
    Token.fromId t ∈ r.tokens :=
  List.mem_map_of_mem (f := Prod.fst) (ha.owner i hi t ht)

/-- **An operation writes at most one message**, which the tokens given out so far allow. -/
theorem Agrees.speaks (ha : Agrees r m) (h : m.Inv) {c : Call} (hc : m.Fits c) :
    Follows Speaks r.tokens (m.sends c) (r.tokens ++ (m.newTokens (m.sends c)).map Prod.fst) := by
  have hnone : ∀ {sent : List Inbound}, sent = [] → Follows Speaks r.tokens sent (r.tokens ++ (m.newTokens sent).map Prod.fst) := by
    rintro sent rfl
    rw [show r.tokens ++ (m.newTokens []).map Prod.fst = r.tokens from List.append_nil _]
    exact .nil _
  have hw := sends_written h hc
  cases c with
  | submit q now w =>
    rcases OrderManager.submit_cases m q now w.symbol w.reference w.gateway rfl with ⟨-, -, hno⟩ | ⟨tokens, hs, hg, hout⟩
    · exact hnone (OrderManager.sent_none hno)
    · rw [OrderManager.sends, hout, OrderManager.sent_some hg] at hw ⊢
      exact .cons (.enter (m.enterMsg q w.symbol) (ha.next_new hs.token_le) (hw _ List.mem_cons_self)) (.nil _)
  | cancelEntry i now w =>
    rcases OrderManager.cancelEntry_cases h hc now w.gateway rfl with ⟨-, -, hno⟩ | ⟨-, -, hg, hout⟩
    · exact hnone (OrderManager.sent_none hno)
    · have hheld : (m.slots i).hasToken (m.slots i).target := by
        unfold Entry.target
        split_ifs with hn
        · exact .inr ⟨rfl, hn⟩
        · exact .inl rfl
      rw [OrderManager.sends, hout, OrderManager.sent_some hg] at hw ⊢
      rw [show r.tokens ++ (m.newTokens [.cancel _]).map Prod.fst = r.tokens from List.append_nil _]
      exact .cons (.cancel _ (ha.held hc hheld) (hw _ List.mem_cons_self)) (.nil _)
  | replace id p q now w =>
    rcases OrderManager.replace_cases h id p q now w.reference w.gateway rfl with ⟨-, -, hno⟩ | ⟨i, tokens, hslot, hr, hg, hout⟩
    · exact hnone (OrderManager.sent_none hno)
    · have hi : i < m.fresh := ((h.ids.find id i).mp hslot).1
      have hres : m.resolve (Token.fromId (m.slots i).token) = some (i, false) :=
        (OrderManager.resolve_some h.tokens).mpr ⟨hi, rfl⟩
      have hnew : m.newTokens [.replace (m.replaceMsg i p q)] = [(Token.fromId m.nextToken, (m.slots i).info.id)] := by
        simp only [OrderManager.newTokens, OrderManager.replaceMsg, List.filterMap_cons, List.filterMap_nil, hres, Option.map_some]
      rw [OrderManager.sends, hout, OrderManager.sent_some hg] at hw ⊢
      rw [hnew]
      exact .cons (.replace (m.replaceMsg i p q) (ha.held hi (.inl rfl)) (ha.next_new hr.token_le) (hw _ List.mem_cons_self)) (.nil _)
  | report ρ now => exact hnone rfl
  | mark l p => exact hnone rfl
  | killSwitch on => exact hnone rfl

/-- **Step lemma.** -/
theorem Ok.speaks (h : Ok r) {e : Event} {s : Session} {fx : List Effect} (hs : r.session.step e = some (s, fx)) :
    Follows Speaks r.tokens (Session.sentIn fx)
      (r.tokens ++ (r.session.manager.newTokens (Session.sentIn fx)).map Prod.fst) := by
  obtain ⟨-, hfx⟩ := Session.step_operation hs
  cases ho : r.session.operation e with
  | none =>
    rw [ho] at hfx
    rw [hfx, show r.tokens ++ (r.session.manager.newTokens (Option.elim none [] _)).map Prod.fst = r.tokens from List.append_nil _]
    exact .nil _
  | some c =>
    rw [ho] at hfx
    rw [hfx]
    exact h.agrees.speaks h.session.inv (h.session.fits ho)

end Registry

/-- The session and everything it has sent. -/
def Session.writes (p : Session × List Inbound) (e : Event) : Option (Session × List Inbound) :=
  (p.1.step e).map fun (t, fx) => (t, p.2 ++ sentIn fx)

/-- **Run lemma.** -/
theorem Registry.speaks_run {p : Session × List Inbound} {es : List Event} {config : Config} {limits : Risk.Limits}
    {maxLocates : Nat} (hr : run Session.writes (Session.new config limits maxLocates, []) es = some p) :
    ∃ ts, Follows Speaks [] p.2 ts := by
  have hinv : ∃ r : Registry, r.session = p.1 ∧ r.Ok ∧ Follows Speaks [] p.2 r.tokens := by
    refine run_invariant (P := fun p : Session × List Inbound => ∃ r : Registry, r.session = p.1 ∧ r.Ok ∧ Follows Speaks [] p.2 r.tokens)
      ?_ hr ⟨.new config limits maxLocates, rfl, .new config limits maxLocates, .nil _⟩
    rintro ⟨s, ms⟩ e p' ⟨r, rfl, hok, hms⟩ hs
    obtain ⟨⟨t, fx⟩, hstep, rfl⟩ := Option.map_eq_some_iff.mp hs
    have hnext : r.next e = some (r.after r.session.manager t.manager (Session.sentIn fx) t) := by
      unfold Registry.next
      rw [hstep]
      rfl
    refine ⟨_, rfl, hok.step hnext, ?_⟩
    have h := hms.append (hok.speaks hstep)
    rwa [show r.tokens ++ (r.session.manager.newTokens (Session.sentIn fx)).map Prod.fst =
      (r.after r.session.manager t.manager (Session.sentIn fx) t).tokens from List.map_append.symm] at h
  obtain ⟨r, -, -, h⟩ := hinv
  exact ⟨r.tokens, h⟩

theorem decodeInboundStream_written : Ouch.Inverts Ouch.decodeInboundStream Ouch.encodeInboundFramed Inbound.wireLength Written := by
  refine Ouch.inverts_of_frames (fun m => Be.bytes m.fields)
    (fun m out hm hout => Ouch.emitFramed_take hout ((Ouch.fitsWirePrice_iff _).mpr hm.2.2) m.tiles_fields m.span_fields)
    (fun m _ => ?_) fun m hm => Ouch.decodeInbound_fields hm.1 hm.2.1 hm.2.2
  rw [Be.length_bytes, m.span_fields]
  cases m with
  | enter m => exact (by decide : Ouch.kEnterOrderLength < 2 ^ 16)
  | replace m => exact (by decide : Ouch.kReplaceOrderLength < 2 ^ 16)
  | cancel m => exact (by decide : Ouch.kCancelOrderLength < 2 ^ 16)

/-- **The manager speaks the protocol.** Whatever is called, re-entered and reported: every message that leaves the manager
fits the format, each new order and each replacement brings a token that was never used, and what is replaced or canceled
was brought before; and framed one after the other the messages are a stream that the other end reads to its end, as
exactly these messages. -/
theorem manager_speaks_ouch (config : Config) (limits : Risk.Limits) (maxLocates : Nat) (es : List Event) (s : Session)
    (ms : List Inbound) (hr : run Session.writes (Session.new config limits maxLocates, []) es = some (s, ms))
    (out : Inbound → List Byte) (hout : ∀ m ∈ ms, m.wireLength + 2 ≤ (out m).length) :
    (∃ ts, Follows Speaks [] ms ts) ∧
    let stream := ms.flatMap fun m => (Ouch.encodeInboundFramed m (out m)).1.take (Ouch.encodeInboundFramed m (out m)).2
    Ouch.decodeInboundStream stream =
      some { consumed := stream.length, delivered := ms, messages := ms.length, skipped := 0, lastError := none } := by
  obtain ⟨ts, hts⟩ := Registry.speaks_run hr
  refine ⟨⟨ts, hts⟩, ?_⟩
  have h := decodeInboundStream_written (ms.map fun m => (m, out m)) fun p hp => by
    obtain ⟨m, hm, rfl⟩ := List.mem_map.mp hp
    exact ⟨follows_written hts m hm, hout m hm⟩
  rw [List.flatMap_map, List.map_map, List.length_map] at h
  rw [show ms.map (Prod.fst ∘ fun m => (m, out m)) = ms from List.map_id ms] at h
  exact h

/-- An order and its replacement, in buffers of sixty-four bytes. -/
theorem manager_speaks_ouch_replace_in_flight :
    ∃ s ms, run Session.writes (Session.new {} {} 4, []) Session.replaceInFlight = some (s, ms) ∧ ms.length = 2 ∧
      ∃ ts, Follows Speaks [] ms ts := by
  have hview : (run Session.writes (Session.new {} {} 4, []) Session.replaceInFlight).map (fun p =>
      (p.2.length, decide (∀ m ∈ p.2, m.wireLength + 2 ≤ 64))) = some (2, true) := by
    decide +kernel
  obtain ⟨⟨s, ms⟩, hr, hv⟩ := Option.map_eq_some_iff.mp hview
  obtain ⟨hlen, hroom⟩ := Prod.mk.inj hv
  refine ⟨s, ms, hr, hlen, (manager_speaks_ouch {} {} 4 Session.replaceInFlight s ms hr (fun _ => List.replicate 64 0) fun m hm => ?_).1⟩
  rw [List.length_replicate]
  exact of_decide_eq_true hroom m hm

end OptiTrade.Oms
