import OptiTrade.Itch.RoundTrip
import OptiTrade.Ouch.Wire

/-! # OUCH encoding and decoding are inverse

Both directions. The side codes are lossy: a short sale entered as exempt comes back as `T`, and a
report only says whether the order buys or sells. -/

namespace OptiTrade.Ouch
set_option autoImplicit false

open Be (Fields Tiles span store bytes loadAt byteAt slice)

/-! ## What the fields of a record read back as -/

section
variable {fs : Fields} {off : Nat}

theorem token_field {t : Token} (h : Tiles 0 fs) (hm : (off, t.chars) ∈ fs) : Token.fromWire (bytes fs) off = t := by
  have hs := Be.slice_field h hm t.size_eq
  unfold Token.fromWire
  rw [dif_pos (by rw [hs]; exact t.size_eq)]
  cases t
  simp only [hs]

theorem firm_field {f : Firm} (h : Tiles 0 fs) (hm : (off, f.chars) ∈ fs) : Firm.fromWire (bytes fs) off = f := by
  have hs := Be.slice_field h hm f.size_eq
  unfold Firm.fromWire
  rw [dif_pos (by rw [hs]; exact f.size_eq)]
  cases f
  simp only [hs]

theorem readPrice_field {v : Int} (h : Tiles 0 fs) (hm : (off, putPrice v) ∈ fs) (hv : 0 ≤ v ∧ v ≤ 2 ^ 32 - 1) :
    readPrice (bytes fs) off = v := Be.loadAt_low h hm hv

end

theorem parseSide_sideChar {side : Side} {short : Bool} (h : short = true → side = .sell) :
    parseSide (sideChar side short) = some (side, short) := by
  cases side with
  | buy =>
    cases short with
    | true => cases h rfl
    | false => rfl
  | sell =>
    cases short with
    | true => rfl
    | false => rfl

section
variable {b : List Byte} {off : Nat}

theorem slice_token (h : off + 14 ≤ b.length) :
    slice b off (Token.fromWire b off).chars.length = (Token.fromWire b off).chars := by
  rw [Token.size_eq]
  unfold Token.fromWire
  rw [dif_pos (Be.length_slice h)]

theorem slice_firm (h : off + 4 ≤ b.length) :
    slice b off (Firm.fromWire b off).chars.length = (Firm.fromWire b off).chars := by
  rw [Firm.size_eq]
  unfold Firm.fromWire
  rw [dif_pos (Be.length_slice h)]

theorem slice_price (h : off + 4 ≤ b.length) :
    slice b off (putPrice (readPrice b off)).length = putPrice (readPrice b off) := Be.slice_low h

theorem slice_char {c : Byte} (h : off + 1 ≤ b.length) (hc : byteAt b off = c) : slice b off [c].length = [c] := by
  rw [← hc]
  exact Be.slice_byte h

end

theorem fitsWirePrice_iff (px : Int) : fitsWirePrice px = true ↔ 0 ≤ px ∧ px ≤ 2 ^ 32 - 1 := by
  simp only [fitsWirePrice, Bool.and_eq_true, decide_eq_true_eq]
  omega

theorem fits_readPrice (b : List Byte) (off : Nat) : fitsWirePrice (readPrice b off) = true := by
  have h := Be.loadAt_lt b off 4
  rw [fitsWirePrice_iff]
  unfold readPrice
  omega

/-! ## The checks before a reader -/

section
variable {α : Type} {length : Byte → Nat} {body : Byte → List Byte → Except DecodeError α}

theorem decodeWith_typed {p : List Byte} (hlen : p.length = length (byteAt p 0)) (hpos : 0 < p.length) :
    decodeWith length body p = body (byteAt p 0) p := by
  cases p with
  | nil => cases hpos
  | cons b p =>
    have hb : byteAt (b :: p) 0 = b := rfl
    rw [hb] at hlen ⊢
    show (if length b = 0 then _ else _) = _
    rw [if_neg (by omega), if_neg (by omega), if_neg (by omega)]

theorem decodeWith_ok {b : List Byte} {m : α} (h : decodeWith length body b = .ok m) :
    b.length = length (byteAt b 0) ∧ 0 < b.length ∧ body (byteAt b 0) b = .ok m := by
  unfold decodeWith at h
  split at h
  · cases h
  · rename_i type rest
    split_ifs at h with h₁ h₂ h₃
    exact ⟨le_antisymm (not_lt.mp h₃) (not_lt.mp h₂), Nat.succ_pos _, h⟩

end

theorem deliver_ok {α β : Type} {wrap : α → β} {r : Option α} {m : β} :
    deliver wrap r = .ok m ↔ ∃ a, r = some a ∧ wrap a = m := by
  cases r with
  | none => exact iff_of_false (fun h => by cases h) (fun ⟨_, h, _⟩ => by cases h)
  | some a =>
    constructor
    · intro h
      exact ⟨a, rfl, Except.ok.inj h⟩
    · rintro ⟨_, h, rfl⟩
      cases h
      rfl

theorem emitFramed_written {out : List Byte} {len : Nat} {fits : Bool} {fs : Fields} (hlen : len + 2 ≤ out.length)
    (hfits : fits = true) (ht : Tiles 0 fs) (hs : span fs = len) :
    emitFramed out len fits fs = (store 2 len ++ bytes fs ++ out.drop (len + 2), len + 2) := by
  unfold emitFramed
  rw [if_neg (by rw [hfits]; simpa using hlen), Be.putAll_tiles ht (by rw [List.length_drop]; omega), hs]
  have htake : (out.take 2).length = 2 := by
    rw [List.length_take]
    omega
  unfold Be.put
  rw [Be.length_store, List.take_zero, List.nil_append, Nat.zero_add, List.drop_append_of_le_length (by omega),
    List.drop_eq_nil_of_le (by omega)]
  simp [Nat.add_comm 2 len]

theorem emitFramed_eq_zero {out : List Byte} {len : Nat} {fits : Bool} {fs : Fields} :
    (emitFramed out len fits fs).2 = 0 ↔ out.length < len + 2 ∨ ¬fits := by
  unfold emitFramed
  split_ifs with h
  · exact iff_of_true rfl h
  · exact iff_of_false (by simp) h

theorem emitFramed_refused {out : List Byte} {len : Nat} {fits : Bool} (fs : Fields)
    (h : out.length < len + 2 ∨ ¬fits) : emitFramed out len fits fs = (out, 0) := if_pos h

/-! ## Client to exchange -/

namespace Inbound

/-- The values fit the types of their fields. -/
def Typed : Inbound → Prop
  | .enter m => m.shares < 2 ^ 32 ∧ m.timeInForce < 2 ^ 32 ∧ m.minQty < 2 ^ 32
  | .replace m => m.shares < 2 ^ 32 ∧ m.timeInForce < 2 ^ 32 ∧ m.minQty < 2 ^ 32
  | .cancel m => m.shares < 2 ^ 32

/-- Shares the exchange takes, and a short sale that sells. -/
def Encodable : Inbound → Prop
  | .enter m => 1 ≤ m.shares ∧ m.shares ≤ kMaxOrderQty ∧ (m.shortSell = true → m.side = .sell)
  | .replace m => 1 ≤ m.shares ∧ m.shares ≤ kMaxOrderQty
  | .cancel _ => True

theorem tiles_fields (m : Inbound) : Tiles 0 m.fields := by
  cases m with
  | enter m =>
    simp [fields, writeEnterOrder, putPrice, Tiles, m.token.size_eq, m.stock.size_eq, m.firm.size_eq]
  | replace m => simp [fields, writeReplaceOrder, putPrice, Tiles, m.existing.size_eq, m.replacement.size_eq]
  | cancel m => simp [fields, writeCancelOrder, Tiles, m.token.size_eq]

theorem span_fields (m : Inbound) : span m.fields = m.wireLength := by
  cases m with
  | enter m =>
    simp [fields, writeEnterOrder, putPrice, span, wireLength, kEnterOrderLength, m.token.size_eq, m.stock.size_eq,
      m.firm.size_eq]
  | replace m =>
    simp [fields, writeReplaceOrder, putPrice, span, wireLength, kReplaceOrderLength, m.existing.size_eq,
      m.replacement.size_eq]
  | cancel m => simp [fields, writeCancelOrder, span, wireLength, kCancelOrderLength, m.token.size_eq]

def type : Inbound → Byte
  | .enter _ => ascii 'O'
  | .replace _ => ascii 'U'
  | .cancel _ => ascii 'X'

theorem type_field (m : Inbound) : byteAt (bytes m.fields) 0 = m.type := by
  refine Be.byteAt_field (tiles_fields m) ?_
  cases m with
  | enter m => exact List.mem_cons_self
  | replace m => exact List.mem_cons_self
  | cancel m => exact List.mem_cons_self

theorem inboundLength_type (m : Inbound) : inboundLength m.type = m.wireLength := by
  cases m with
  | enter m => rfl
  | replace m => rfl
  | cancel m => rfl

theorem wireLength_pos (m : Inbound) : 0 < m.wireLength := by
  cases m with
  | enter m => exact Nat.zero_lt_succ _
  | replace m => exact Nat.zero_lt_succ _
  | cancel m => exact Nat.zero_lt_succ _

end Inbound

theorem inboundBody_cases (p : List Byte) :
    inboundBody (ascii 'O') p = deliver .enter (readEnterOrder p) ∧
    inboundBody (ascii 'U') p = deliver .replace (readReplaceOrder p) ∧
    inboundBody (ascii 'X') p = deliver .cancel (readCancelOrder p) := by
  unfold inboundBody
  refine ⟨if_pos rfl, ?_, ?_⟩
  · rw [if_neg (by decide), if_pos rfl]
  · rw [if_neg (by decide), if_neg (by decide), if_pos rfl]

theorem validOrderShares_iff (q : Nat) : validOrderShares q = true ↔ 1 ≤ q ∧ q ≤ kMaxOrderQty := by
  simp [validOrderShares]

/-- The inbound decoder inverts the encoder. -/
theorem decodeInbound_fields {m : Inbound} (ht : m.Typed) (he : m.Encodable)
    (hpx : 0 ≤ m.wirePrice ∧ m.wirePrice ≤ 2 ^ 32 - 1) : decodeInbound (bytes m.fields) = .ok m := by
  have htile := m.tiles_fields
  have hlen : (bytes m.fields).length = m.wireLength := by rw [Be.length_bytes, m.span_fields]
  have hdec : decodeInbound (bytes m.fields) = inboundBody m.type (bytes m.fields) := by
    rw [← m.type_field]
    refine decodeWith_typed ?_ ?_
    · rw [m.type_field, m.inboundLength_type, hlen]
    · rw [hlen]
      exact m.wireLength_pos
  rw [hdec]
  obtain ⟨hO, hU, hX⟩ := inboundBody_cases (bytes m.fields)
  cases m with
  | enter m =>
    obtain ⟨h₁, h₂, h₃⟩ := ht
    refine hO.trans ?_
    have hside : byteAt (bytes (Inbound.enter m).fields) 15 = sideChar m.side m.shortSell :=
      Be.byteAt_field htile (by simp [Inbound.fields, writeEnterOrder])
    have hshares : loadAt (bytes (Inbound.enter m).fields) 16 4 = m.shares :=
      Be.loadAt_field htile (by simp [Inbound.fields, writeEnterOrder]) h₁
    unfold readEnterOrder
    rw [hside, parseSide_sideChar he.2.2, hshares]
    dsimp only
    rw [(validOrderShares_iff _).mpr ⟨he.1, he.2.1⟩,
      token_field (t := m.token) htile (by simp [Inbound.fields, writeEnterOrder]),
      Itch.fromWire_field (s := m.stock) htile (by simp [Inbound.fields, writeEnterOrder]),
      readPrice_field (v := m.price) htile (by simp [Inbound.fields, writeEnterOrder]) hpx,
      Be.loadAt_field (v := m.timeInForce) htile (by simp [Inbound.fields, writeEnterOrder]) h₂,
      firm_field (f := m.firm) htile (by simp [Inbound.fields, writeEnterOrder]),
      Be.byteAt_field (b := m.display) htile (by simp [Inbound.fields, writeEnterOrder]),
      Be.byteAt_field (b := m.capacity) htile (by simp [Inbound.fields, writeEnterOrder]),
      Be.byteAt_field (b := m.intermarketSweep) htile (by simp [Inbound.fields, writeEnterOrder]),
      Be.loadAt_field (v := m.minQty) htile (by simp [Inbound.fields, writeEnterOrder]) h₃,
      Be.byteAt_field (b := m.crossType) htile (by simp [Inbound.fields, writeEnterOrder]),
      Be.byteAt_field (b := m.customerType) htile (by simp [Inbound.fields, writeEnterOrder])]
    rfl
  | replace m =>
    obtain ⟨h₁, h₂, h₃⟩ := ht
    refine hU.trans ?_
    have hshares : loadAt (bytes (Inbound.replace m).fields) 29 4 = m.shares :=
      Be.loadAt_field htile (by simp [Inbound.fields, writeReplaceOrder]) h₁
    unfold readReplaceOrder
    rw [hshares, (validOrderShares_iff _).mpr he,
      token_field (t := m.existing) htile (by simp [Inbound.fields, writeReplaceOrder]),
      token_field (t := m.replacement) htile (by simp [Inbound.fields, writeReplaceOrder]),
      readPrice_field (v := m.price) htile (by simp [Inbound.fields, writeReplaceOrder]) hpx,
      Be.loadAt_field (v := m.timeInForce) htile (by simp [Inbound.fields, writeReplaceOrder]) h₂,
      Be.byteAt_field (b := m.display) htile (by simp [Inbound.fields, writeReplaceOrder]),
      Be.byteAt_field (b := m.intermarketSweep) htile (by simp [Inbound.fields, writeReplaceOrder]),
      Be.loadAt_field (v := m.minQty) htile (by simp [Inbound.fields, writeReplaceOrder]) h₃]
    rfl
  | cancel m =>
    refine hX.trans ?_
    unfold readCancelOrder
    rw [token_field (t := m.token) htile (by simp [Inbound.fields, writeCancelOrder]),
      Be.loadAt_field (v := m.shares) htile (by simp [Inbound.fields, writeCancelOrder]) ht]
    rfl

/-- What re-encoding an accepted message changes: an exempt short sale is written as a short sale. -/
def canonicalInbound (b : List Byte) : List Byte :=
  if byteAt b 0 = ascii 'O' ∧ byteAt b 15 = ascii 'E' then b.set 15 (ascii 'T') else b

theorem parseSide_eq {c : Byte} {side : Side} {short : Bool} (h : parseSide c = some (side, short)) :
    (c = ascii 'E' ∧ side = .sell ∧ short = true) ∨ c = sideChar side short := by
  unfold parseSide at h
  split_ifs at h with h₁ h₂ h₃ h₄
  · cases h
    exact .inr h₁
  · cases h
    exact .inr h₂
  · cases h
    exact .inr h₃
  · cases h
    exact .inl ⟨h₄, rfl, rfl⟩

/-- A message whose fields are those of the record. -/
structure Reads (p : List Byte) (len : Nat) (px : Int) (fs : Fields) : Prop where
  fits : fitsWirePrice px = true
  length : len = p.length
  slices : ∀ f ∈ fs, slice p f.1 f.2.length = f.2

theorem Reads.bytes_eq {p : List Byte} {len : Nat} {px : Int} {fs : Fields} (h : Reads p len px fs)
    (ht : Tiles 0 fs) (hs : span fs = len) : bytes fs = p := by
  have := Be.bytes_eq ht (by rw [hs, h.length, Nat.zero_add]) h.slices
  simpa using this

theorem reads_enterOrder {b : List Byte} {m : EnterOrder} (ht : byteAt b 0 = ascii 'O') (hlen : b.length = 49)
    (hside : byteAt b 15 ≠ ascii 'E') (h : readEnterOrder b = some m) :
    Reads b kEnterOrderLength m.price (writeEnterOrder m) := by
  unfold readEnterOrder at h
  split at h
  · cases h
  · rename_i side short hs
    have hc : byteAt b 15 = sideChar side short := (parseSide_eq hs).resolve_left fun h' => hside h'.1
    split_ifs at h
    obtain rfl := Option.some.inj h
    refine ⟨fits_readPrice b 28, hlen.symm, ?_⟩
    simp only [writeEnterOrder, List.forall_mem_cons, List.not_mem_nil, false_imp_iff, implies_true, and_true]
    exact ⟨slice_char (by omega) ht, slice_token (by omega), slice_char (by omega) hc, Be.slice_store (by omega),
      Itch.slice_symbol (by omega), slice_price (by omega), Be.slice_store (by omega), slice_firm (by omega),
      Be.slice_byte (by omega), Be.slice_byte (by omega), Be.slice_byte (by omega), Be.slice_store (by omega),
      Be.slice_byte (by omega), Be.slice_byte (by omega)⟩

theorem reads_replaceOrder {b : List Byte} {m : ReplaceOrder} (ht : byteAt b 0 = ascii 'U') (hlen : b.length = 47)
    (h : readReplaceOrder b = some m) : Reads b kReplaceOrderLength m.price (writeReplaceOrder m) := by
  unfold readReplaceOrder at h
  split_ifs at h
  obtain rfl := Option.some.inj h
  refine ⟨fits_readPrice b 33, hlen.symm, ?_⟩
  simp only [writeReplaceOrder, List.forall_mem_cons, List.not_mem_nil, false_imp_iff, implies_true, and_true]
  exact ⟨slice_char (by omega) ht, slice_token (by omega), slice_token (by omega), Be.slice_store (by omega),
    slice_price (by omega), Be.slice_store (by omega), Be.slice_byte (by omega), Be.slice_byte (by omega),
    Be.slice_store (by omega)⟩

theorem reads_cancelOrder {b : List Byte} {m : CancelOrder} (ht : byteAt b 0 = ascii 'X') (hlen : b.length = 19)
    (h : readCancelOrder b = some m) : Reads b kCancelOrderLength 0 (writeCancelOrder m) := by
  obtain rfl := Option.some.inj h
  refine ⟨rfl, hlen.symm, ?_⟩
  simp only [writeCancelOrder, List.forall_mem_cons, List.not_mem_nil, false_imp_iff, implies_true, and_true]
  exact ⟨slice_char (by omega) ht, slice_token (by omega), Be.slice_store (by omega)⟩

theorem fromWire_set {b : List Byte} {i : Nat} (c : Byte) {off : Nat} :
    ((i < off ∨ off + 14 ≤ i) → Token.fromWire (b.set i c) off = Token.fromWire b off) ∧
    ((i < off ∨ off + 4 ≤ i) → Firm.fromWire (b.set i c) off = Firm.fromWire b off) ∧
    ((i < off ∨ off + 8 ≤ i) → Symbol.fromWire (b.set i c) off = Symbol.fromWire b off) := by
  refine ⟨fun h => ?_, fun h => ?_, fun h => ?_⟩
  · unfold Token.fromWire
    simp only [Be.slice_set c h]
  · unfold Firm.fromWire
    simp only [Be.slice_set c h]
  · unfold Symbol.fromWire
    simp only [Be.slice_set c h]

theorem readEnterOrder_exempt {b : List Byte} (hlen : b.length = 49) (h : byteAt b 15 = ascii 'E') :
    readEnterOrder (b.set 15 (ascii 'T')) = readEnterOrder b := by
  have hside : parseSide (byteAt (b.set 15 (ascii 'T')) 15) = parseSide (byteAt b 15) := by
    rw [Be.byteAt_set _ (by omega), h]
    rfl
  unfold readEnterOrder readPrice
  rw [hside]
  simp (disch := omega) only [Be.loadAt_set, Be.byteAt_set_ne, (fromWire_set _).1, (fromWire_set _).2.1,
    (fromWire_set _).2.2]

theorem inboundLength_supported {type : Byte} (h : 0 < inboundLength type) :
    type = ascii 'O' ∨ type = ascii 'U' ∨ type = ascii 'X' := by
  unfold inboundLength at h
  split_ifs at h with h₁ h₂ h₃
  · exact .inl h₁
  · exact .inr (.inl h₂)
  · exact .inr (.inr h₃)
  · cases h

theorem canonicalInbound_of_ne {b : List Byte} (h : ¬(byteAt b 0 = ascii 'O' ∧ byteAt b 15 = ascii 'E')) :
    canonicalInbound b = b := if_neg h

theorem length_canonicalInbound (b : List Byte) : (canonicalInbound b).length = b.length := by
  unfold canonicalInbound
  split_ifs
  · exact List.length_set
  · rfl

/-- The encoder inverts the inbound decoder, up to the exempt code. -/
theorem reads_decodeInbound {b : List Byte} {m : Inbound} (h : decodeInbound b = .ok m) :
    Reads (canonicalInbound b) m.wireLength m.wirePrice m.fields := by
  obtain ⟨hlen, hpos, hbody⟩ := decodeWith_ok h
  obtain ⟨hO, hU, hX⟩ := inboundBody_cases b
  rcases inboundLength_supported (hlen ▸ hpos) with ht | ht | ht
  · rw [ht] at hlen hbody
    have hlen : b.length = 49 := hlen
    obtain ⟨a, ha, rfl⟩ := deliver_ok.mp (hO.symm.trans hbody)
    by_cases hE : byteAt b 15 = ascii 'E'
    · unfold canonicalInbound
      rw [if_pos ⟨ht, hE⟩]
      refine reads_enterOrder ?_ (by rw [List.length_set]; exact hlen) ?_ ((readEnterOrder_exempt hlen hE).trans ha)
      · rw [Be.byteAt_set_ne _ (by decide)]
        exact ht
      · rw [Be.byteAt_set _ (by omega)]
        decide
    · rw [canonicalInbound_of_ne fun h' => hE h'.2]
      exact reads_enterOrder ht hlen hE ha
  · rw [ht] at hlen hbody
    rw [canonicalInbound_of_ne (by rw [ht]; exact fun h' => absurd h'.1 (by decide))]
    obtain ⟨a, ha, rfl⟩ := deliver_ok.mp (hU.symm.trans hbody)
    exact reads_replaceOrder ht hlen ha
  · rw [ht] at hlen hbody
    rw [canonicalInbound_of_ne (by rw [ht]; exact fun h' => absurd h'.1 (by decide))]
    obtain ⟨a, ha, rfl⟩ := deliver_ok.mp (hX.symm.trans hbody)
    exact reads_cancelOrder ht hlen ha

def sideCodes : List Byte := [ascii 'B', ascii 'S', ascii 'T', ascii 'E']

theorem parseSide_isSome {c : Byte} : (∃ r, parseSide c = some r) ↔ c ∈ sideCodes := by
  unfold parseSide sideCodes
  split_ifs with h₁ h₂ h₃ h₄
  · exact iff_of_true ⟨_, rfl⟩ (by simp [h₁])
  · exact iff_of_true ⟨_, rfl⟩ (by simp [h₂])
  · exact iff_of_true ⟨_, rfl⟩ (by simp [h₃])
  · exact iff_of_true ⟨_, rfl⟩ (by simp [h₄])
  · exact iff_of_false (fun ⟨_, h⟩ => by cases h) (by simp [h₁, h₂, h₃, h₄])

theorem readEnterOrder_isSome {b : List Byte} :
    (∃ m, readEnterOrder b = some m) ↔
      byteAt b 15 ∈ sideCodes ∧ 1 ≤ loadAt b 16 4 ∧ loadAt b 16 4 ≤ kMaxOrderQty := by
  rw [← parseSide_isSome, ← validOrderShares_iff]
  unfold readEnterOrder
  cases hs : parseSide (byteAt b 15) with
  | none => simp
  | some r =>
    cases hv : validOrderShares (loadAt b 16 4) with
    | true => simp
    | false => simp

theorem readReplaceOrder_isSome {b : List Byte} :
    (∃ m, readReplaceOrder b = some m) ↔ 1 ≤ loadAt b 29 4 ∧ loadAt b 29 4 ≤ kMaxOrderQty := by
  rw [← validOrderShares_iff]
  unfold readReplaceOrder
  cases hv : validOrderShares (loadAt b 29 4) with
  | true => simp
  | false => simp

theorem deliver_isOk {α β : Type} {wrap : α → β} {r : Option α} :
    (∃ m, deliver wrap r = .ok m) ↔ ∃ a, r = some a := by
  constructor
  · rintro ⟨m, h⟩
    obtain ⟨a, ha, _⟩ := deliver_ok.mp h
    exact ⟨a, ha⟩
  · rintro ⟨a, h⟩
    exact ⟨wrap a, deliver_ok.mpr ⟨a, h, rfl⟩⟩

/-- The fields that `decode_inbound` checks hold allowed values. -/
def InboundOk (b : List Byte) : Prop :=
  (byteAt b 0 = ascii 'O' →
    byteAt b 15 ∈ sideCodes ∧ 1 ≤ loadAt b 16 4 ∧ loadAt b 16 4 ≤ kMaxOrderQty) ∧
  (byteAt b 0 = ascii 'U' → 1 ≤ loadAt b 29 4 ∧ loadAt b 29 4 ≤ kMaxOrderQty)

theorem inboundBody_isOk {b : List Byte} (ht : byteAt b 0 = ascii 'O' ∨ byteAt b 0 = ascii 'U' ∨ byteAt b 0 = ascii 'X') :
    (∃ m, inboundBody (byteAt b 0) b = .ok m) ↔ InboundOk b := by
  obtain ⟨hO, hU, hX⟩ := inboundBody_cases b
  unfold InboundOk
  rcases ht with h | h | h
  · rw [h, hO, deliver_isOk, readEnterOrder_isSome]
    exact ⟨fun h' => ⟨fun _ => h', fun h'' => absurd h'' (by decide)⟩, fun h' => h'.1 rfl⟩
  · rw [h, hU, deliver_isOk, readReplaceOrder_isSome]
    exact ⟨fun h' => ⟨fun h'' => absurd h'' (by decide), fun _ => h'⟩, fun h' => h'.2 rfl⟩
  · rw [h, hX]
    exact iff_of_true ⟨_, rfl⟩ ⟨fun h' => absurd h' (by decide), fun h' => absurd h' (by decide)⟩

theorem decodeInbound_isOk {b : List Byte} :
    (∃ m, decodeInbound b = .ok m) ↔
      byteAt b 0 ∈ [ascii 'O', ascii 'U', ascii 'X'] ∧ b.length = inboundLength (byteAt b 0) ∧ InboundOk b := by
  simp only [List.mem_cons, List.not_mem_nil, or_false]
  constructor
  · rintro ⟨m, h⟩
    obtain ⟨hlen, hpos, hbody⟩ := decodeWith_ok h
    have ht := inboundLength_supported (hlen ▸ hpos)
    exact ⟨ht, hlen, (inboundBody_isOk ht).mp ⟨m, hbody⟩⟩
  · rintro ⟨ht, hlen, hok⟩
    have hpos : 0 < b.length := by
      rw [hlen]
      rcases ht with h | h | h <;> rw [h] <;> decide
    obtain ⟨m, hm⟩ := (inboundBody_isOk ht).mpr hok
    exact ⟨m, (decodeWith_typed hlen hpos).trans hm⟩

/-! ## Exchange to client -/

def Accepted.Typed (m : Accepted) : Prop :=
  m.ts < 2 ^ 64 ∧ m.shares < 2 ^ 32 ∧ m.timeInForce < 2 ^ 32 ∧ m.ref < 2 ^ 64 ∧ m.minQty < 2 ^ 32

namespace Outbound

/-- The values fit the types of their fields. -/
def Typed : Outbound → Prop
  | .accepted m => m.Typed
  | .replaced m => m.a.Typed
  | .canceled m => m.ts < 2 ^ 64 ∧ m.decrement < 2 ^ 32
  | .executed m => m.ts < 2 ^ 64 ∧ m.shares < 2 ^ 32 ∧ m.matchNo < 2 ^ 64
  | .rejected m => m.ts < 2 ^ 64

/-- The state of an accepted order is live or dead. -/
def Encodable : Outbound → Prop
  | .accepted m => m.orderState = ascii 'L' ∨ m.orderState = ascii 'D'
  | .replaced m => m.a.orderState = ascii 'L' ∨ m.a.orderState = ascii 'D'
  | .canceled _ | .executed _ | .rejected _ => True

theorem tiles_fields (m : Outbound) : Tiles 0 m.fields := by
  cases m with
  | accepted m =>
    simp [fields, writeAccepted, acceptedFields, putPrice, Tiles, m.token.size_eq, m.stock.size_eq, m.firm.size_eq]
  | replaced m =>
    simp [fields, writeReplaced, acceptedFields, putPrice, Tiles, m.a.token.size_eq, m.a.stock.size_eq,
      m.a.firm.size_eq, m.previous.size_eq]
  | canceled m => simp [fields, writeCanceled, Tiles, m.token.size_eq]
  | executed m => simp [fields, writeExecuted, putPrice, Tiles, m.token.size_eq]
  | rejected m => simp [fields, writeRejected, Tiles, m.token.size_eq]

theorem span_fields (m : Outbound) : span m.fields = m.wireLength := by
  cases m with
  | accepted m =>
    simp [fields, writeAccepted, acceptedFields, putPrice, span, wireLength, kAcceptedLength, m.token.size_eq,
      m.stock.size_eq, m.firm.size_eq]
  | replaced m =>
    simp [fields, writeReplaced, acceptedFields, putPrice, span, wireLength, kReplacedLength, m.a.token.size_eq,
      m.a.stock.size_eq, m.a.firm.size_eq, m.previous.size_eq]
  | canceled m => simp [fields, writeCanceled, span, wireLength, kCanceledLength, m.token.size_eq]
  | executed m => simp [fields, writeExecuted, putPrice, span, wireLength, kExecutedLength, m.token.size_eq]
  | rejected m => simp [fields, writeRejected, span, wireLength, kRejectedLength, m.token.size_eq]

def type : Outbound → Byte
  | .accepted _ => ascii 'A'
  | .replaced _ => ascii 'U'
  | .canceled _ => ascii 'C'
  | .executed _ => ascii 'E'
  | .rejected _ => ascii 'J'

theorem type_field (m : Outbound) : byteAt (bytes m.fields) 0 = m.type := by
  refine Be.byteAt_field (tiles_fields m) ?_
  cases m with
  | accepted m => exact List.mem_cons_self
  | replaced m => exact List.mem_cons_self
  | canceled m => exact List.mem_cons_self
  | executed m => exact List.mem_cons_self
  | rejected m => exact List.mem_cons_self

theorem outboundLength_type (m : Outbound) : outboundLength m.type = m.wireLength := by
  cases m with
  | accepted m => rfl
  | replaced m => rfl
  | canceled m => rfl
  | executed m => rfl
  | rejected m => rfl

theorem wireLength_pos (m : Outbound) : 0 < m.wireLength := by
  cases m with
  | accepted m => exact Nat.zero_lt_succ _
  | replaced m => exact Nat.zero_lt_succ _
  | canceled m => exact Nat.zero_lt_succ _
  | executed m => exact Nat.zero_lt_succ _
  | rejected m => exact Nat.zero_lt_succ _

theorem bytes_fields {m : Outbound} (h : fitsWirePrice m.wirePrice = true) : bytes m.fields = write m := by
  have hpx : ∀ px : Int, fitsWirePrice px = true → putPrice px = store 4 px.toNat := by
    intro px hp
    rw [fitsWirePrice_iff] at hp
    unfold putPrice
    rw [Int.emod_eq_of_lt hp.1 (by omega)]
  cases m with
  | accepted m => simp [fields, writeAccepted, acceptedFields, write, writeAcceptedCommon, hpx m.price h]
  | replaced m => simp [fields, writeReplaced, acceptedFields, write, writeAcceptedCommon, hpx m.a.price h]
  | canceled m => simp [fields, writeCanceled, write]
  | executed m => simp [fields, writeExecuted, write, hpx m.price h]
  | rejected m => simp [fields, writeRejected, write]

end Outbound

theorem outboundBody_cases (p : List Byte) :
    outboundBody (ascii 'A') p = deliver .accepted (readAccepted p) ∧
    outboundBody (ascii 'U') p = deliver .replaced (readReplaced p) ∧
    outboundBody (ascii 'C') p = deliver .canceled (readCanceled p) ∧
    outboundBody (ascii 'E') p = deliver .executed (readExecuted p) ∧
    outboundBody (ascii 'J') p = deliver .rejected (readRejected p) := by
  unfold outboundBody
  refine ⟨if_pos rfl, ?_, ?_, ?_, ?_⟩
  · rw [if_neg (by decide), if_pos rfl]
  · rw [if_neg (by decide), if_neg (by decide), if_pos rfl]
  · rw [if_neg (by decide), if_neg (by decide), if_neg (by decide), if_pos rfl]
  · rw [if_neg (by decide), if_neg (by decide), if_neg (by decide), if_neg (by decide), if_pos rfl]

/-- The part that `Accepted` and `Replaced` share is read back from either record. -/
theorem readAcceptedCommon_fields {m : Accepted} {type : Byte} {rest : Fields} (ht : m.Typed)
    (he : m.orderState = ascii 'L' ∨ m.orderState = ascii 'D') (hpx : 0 ≤ m.price ∧ m.price ≤ 2 ^ 32 - 1)
    (htile : Tiles 0 (acceptedFields type m ++ rest)) :
    readAcceptedCommon (bytes (acceptedFields type m ++ rest)) m.bboWeight = some m := by
  obtain ⟨h₁, h₂, h₃, h₄, h₅⟩ := ht
  have hside : byteAt (bytes (acceptedFields type m ++ rest)) 23 = sideChar m.side false :=
    Be.byteAt_field htile (by simp [acceptedFields])
  have hstate : byteAt (bytes (acceptedFields type m ++ rest)) 64 = m.orderState :=
    Be.byteAt_field htile (by simp [acceptedFields])
  have hlive : ¬(m.orderState ≠ ascii 'L' ∧ m.orderState ≠ ascii 'D') := by
    rintro ⟨hL, hD⟩
    exact he.elim hL hD
  unfold readAcceptedCommon
  rw [hside, parseSide_sideChar (by simp), hstate]
  dsimp only
  rw [if_neg hlive, Be.loadAt_field (v := m.ts) htile (by simp [acceptedFields]) h₁,
    token_field (t := m.token) htile (by simp [acceptedFields]),
    Be.loadAt_field (v := m.shares) htile (by simp [acceptedFields]) h₂,
    Itch.fromWire_field (s := m.stock) htile (by simp [acceptedFields]),
    readPrice_field (v := m.price) htile (by simp [acceptedFields]) hpx,
    Be.loadAt_field (v := m.timeInForce) htile (by simp [acceptedFields]) h₃,
    firm_field (f := m.firm) htile (by simp [acceptedFields]),
    Be.byteAt_field (b := m.display) htile (by simp [acceptedFields]),
    Be.loadAt_field (v := m.ref) htile (by simp [acceptedFields]) h₄,
    Be.byteAt_field (b := m.capacity) htile (by simp [acceptedFields]),
    Be.byteAt_field (b := m.intermarketSweep) htile (by simp [acceptedFields]),
    Be.loadAt_field (v := m.minQty) htile (by simp [acceptedFields]) h₅,
    Be.byteAt_field (b := m.crossType) htile (by simp [acceptedFields])]

/-- The outbound decoder inverts the encoder. -/
theorem decodeOutbound_fields {m : Outbound} (ht : m.Typed) (he : m.Encodable)
    (hpx : 0 ≤ m.wirePrice ∧ m.wirePrice ≤ 2 ^ 32 - 1) : decodeOutbound (bytes m.fields) = .ok m := by
  have htile := m.tiles_fields
  have hlen : (bytes m.fields).length = m.wireLength := by rw [Be.length_bytes, m.span_fields]
  have hdec : decodeOutbound (bytes m.fields) = outboundBody m.type (bytes m.fields) := by
    rw [← m.type_field]
    refine decodeWith_typed ?_ ?_
    · rw [m.type_field, m.outboundLength_type, hlen]
    · rw [hlen]
      exact m.wireLength_pos
  rw [hdec]
  obtain ⟨hA, hU, hC, hE, hJ⟩ := outboundBody_cases (bytes m.fields)
  cases m with
  | accepted m =>
    refine hA.trans (deliver_ok.mpr ⟨m, ?_, rfl⟩)
    have hbbo : byteAt (bytes (Outbound.accepted m).fields) 65 = m.bboWeight :=
      Be.byteAt_field htile (by simp [Outbound.fields, writeAccepted])
    unfold readAccepted
    rw [hbbo]
    exact readAcceptedCommon_fields ht he hpx htile
  | replaced m =>
    refine hU.trans (deliver_ok.mpr ⟨m, ?_, rfl⟩)
    have hbbo : byteAt (bytes (Outbound.replaced m).fields) 79 = m.a.bboWeight :=
      Be.byteAt_field htile (by simp [Outbound.fields, writeReplaced])
    have hprev : Token.fromWire (bytes (Outbound.replaced m).fields) 65 = m.previous :=
      token_field htile (by simp [Outbound.fields, writeReplaced])
    have hcommon : readAcceptedCommon (bytes (Outbound.replaced m).fields) m.a.bboWeight = some m.a :=
      readAcceptedCommon_fields ht he hpx htile
    unfold readReplaced
    rw [hbbo, hprev, hcommon]
    rfl
  | canceled m =>
    obtain ⟨h₁, h₂⟩ := ht
    refine hC.trans (deliver_ok.mpr ⟨m, ?_, rfl⟩)
    unfold readCanceled
    rw [Be.loadAt_field (v := m.ts) htile (by simp [Outbound.fields, writeCanceled]) h₁,
      token_field (t := m.token) htile (by simp [Outbound.fields, writeCanceled]),
      Be.loadAt_field (v := m.decrement) htile (by simp [Outbound.fields, writeCanceled]) h₂,
      Be.byteAt_field (b := m.reason) htile (by simp [Outbound.fields, writeCanceled])]
  | executed m =>
    obtain ⟨h₁, h₂, h₃⟩ := ht
    refine hE.trans (deliver_ok.mpr ⟨m, ?_, rfl⟩)
    unfold readExecuted
    rw [Be.loadAt_field (v := m.ts) htile (by simp [Outbound.fields, writeExecuted]) h₁,
      token_field (t := m.token) htile (by simp [Outbound.fields, writeExecuted]),
      Be.loadAt_field (v := m.shares) htile (by simp [Outbound.fields, writeExecuted]) h₂,
      readPrice_field (v := m.price) htile (by simp [Outbound.fields, writeExecuted]) hpx,
      Be.byteAt_field (b := m.liquidity) htile (by simp [Outbound.fields, writeExecuted]),
      Be.loadAt_field (v := m.matchNo) htile (by simp [Outbound.fields, writeExecuted]) h₃]
  | rejected m =>
    refine hJ.trans (deliver_ok.mpr ⟨m, ?_, rfl⟩)
    unfold readRejected
    rw [Be.loadAt_field (v := m.ts) htile (by simp [Outbound.fields, writeRejected]) ht,
      token_field (t := m.token) htile (by simp [Outbound.fields, writeRejected]),
      Be.byteAt_field (b := m.reason) htile (by simp [Outbound.fields, writeRejected])]

/-- What re-encoding an accepted report changes: `Accepted` and `Replaced` only keep that the order sells. -/
def canonicalOutbound (b : List Byte) : List Byte :=
  if (byteAt b 0 = ascii 'A' ∨ byteAt b 0 = ascii 'U') ∧ (byteAt b 23 = ascii 'T' ∨ byteAt b 23 = ascii 'E') then
    b.set 23 (ascii 'S')
  else b

theorem length_canonicalOutbound (b : List Byte) : (canonicalOutbound b).length = b.length := by
  unfold canonicalOutbound
  split_ifs
  · exact List.length_set
  · rfl

/-- The shared part with a side that a report is written with. -/
theorem slices_acceptedCommon {b : List Byte} {m : Accepted} {type bbo : Byte} (ht : byteAt b 0 = type)
    (hlen : 65 ≤ b.length) (hside : ¬(byteAt b 23 = ascii 'T' ∨ byteAt b 23 = ascii 'E'))
    (h : readAcceptedCommon b bbo = some m) :
    fitsWirePrice m.price = true ∧ m.bboWeight = bbo ∧ ∀ f ∈ acceptedFields type m, slice b f.1 f.2.length = f.2 := by
  unfold readAcceptedCommon at h
  split at h
  · cases h
  · rename_i side short hs
    have hc : byteAt b 23 = sideChar side false := by
      rcases parseSide_eq hs with hE | hc
      · exact absurd (.inr hE.1) hside
      · cases side with
        | buy => exact hc
        | sell =>
          cases short with
          | true => exact absurd (.inl hc) hside
          | false => exact hc
    split_ifs at h
    obtain rfl := Option.some.inj h
    refine ⟨fits_readPrice b 36, rfl, ?_⟩
    simp only [acceptedFields, List.forall_mem_cons, List.not_mem_nil, false_imp_iff, implies_true, and_true]
    exact ⟨slice_char (by omega) ht, Be.slice_store (by omega), slice_token (by omega), slice_char (by omega) hc,
      Be.slice_store (by omega), Itch.slice_symbol (by omega), slice_price (by omega), Be.slice_store (by omega),
      slice_firm (by omega), Be.slice_byte (by omega), Be.slice_store (by omega), Be.slice_byte (by omega),
      Be.slice_byte (by omega), Be.slice_store (by omega), Be.slice_byte (by omega), Be.slice_byte (by omega)⟩

theorem reads_accepted {b : List Byte} {m : Accepted} (ht : byteAt b 0 = ascii 'A') (hlen : b.length = 66)
    (hside : ¬(byteAt b 23 = ascii 'T' ∨ byteAt b 23 = ascii 'E')) (h : readAccepted b = some m) :
    Reads b kAcceptedLength m.price (writeAccepted m) := by
  obtain ⟨hpx, hbbo, hcommon⟩ := slices_acceptedCommon ht (by omega) hside h
  refine ⟨hpx, hlen.symm, fun f hf => ?_⟩
  rcases List.mem_append.mp hf with hf | hf
  · exact hcommon f hf
  · rw [List.mem_singleton.mp hf, hbbo]
    exact Be.slice_byte (by omega)

theorem reads_replaced {b : List Byte} {m : Replaced} (ht : byteAt b 0 = ascii 'U') (hlen : b.length = 80)
    (hside : ¬(byteAt b 23 = ascii 'T' ∨ byteAt b 23 = ascii 'E')) (h : readReplaced b = some m) :
    Reads b kReplacedLength m.a.price (writeReplaced m) := by
  obtain ⟨a, ha, rfl⟩ := Option.map_eq_some_iff.mp h
  obtain ⟨hpx, hbbo, hcommon⟩ := slices_acceptedCommon ht (by omega) hside ha
  have htail : ∀ f ∈ [(65, (Token.fromWire b 65).chars), (79, [byteAt b 79])], slice b f.1 f.2.length = f.2 := by
    simp only [List.forall_mem_cons, List.not_mem_nil, false_imp_iff, implies_true, and_true]
    exact ⟨slice_token (by omega), Be.slice_byte (by omega)⟩
  refine ⟨hpx, hlen.symm, fun f hf => ?_⟩
  rcases List.mem_append.mp hf with hf | hf
  · exact hcommon f hf
  · rw [hbbo] at hf
    exact htail f hf

theorem reads_canceled {b : List Byte} {m : Canceled} (ht : byteAt b 0 = ascii 'C') (hlen : b.length = 28)
    (h : readCanceled b = some m) : Reads b kCanceledLength 0 (writeCanceled m) := by
  obtain rfl := Option.some.inj h
  refine ⟨rfl, hlen.symm, ?_⟩
  simp only [writeCanceled, List.forall_mem_cons, List.not_mem_nil, false_imp_iff, implies_true, and_true]
  exact ⟨slice_char (by omega) ht, Be.slice_store (by omega), slice_token (by omega), Be.slice_store (by omega),
    Be.slice_byte (by omega)⟩

theorem reads_executed {b : List Byte} {m : Executed} (ht : byteAt b 0 = ascii 'E') (hlen : b.length = 40)
    (h : readExecuted b = some m) : Reads b kExecutedLength m.price (writeExecuted m) := by
  obtain rfl := Option.some.inj h
  refine ⟨fits_readPrice b 27, hlen.symm, ?_⟩
  simp only [writeExecuted, List.forall_mem_cons, List.not_mem_nil, false_imp_iff, implies_true, and_true]
  exact ⟨slice_char (by omega) ht, Be.slice_store (by omega), slice_token (by omega), Be.slice_store (by omega),
    slice_price (by omega), Be.slice_byte (by omega), Be.slice_store (by omega)⟩

theorem reads_rejected {b : List Byte} {m : Rejected} (ht : byteAt b 0 = ascii 'J') (hlen : b.length = 24)
    (h : readRejected b = some m) : Reads b kRejectedLength 0 (writeRejected m) := by
  obtain rfl := Option.some.inj h
  refine ⟨rfl, hlen.symm, ?_⟩
  simp only [writeRejected, List.forall_mem_cons, List.not_mem_nil, false_imp_iff, implies_true, and_true]
  exact ⟨slice_char (by omega) ht, Be.slice_store (by omega), slice_token (by omega), Be.slice_byte (by omega)⟩

theorem readAcceptedCommon_short {b : List Byte} (bbo : Byte) (hlen : 23 < b.length)
    (h : byteAt b 23 = ascii 'T' ∨ byteAt b 23 = ascii 'E') :
    readAcceptedCommon (b.set 23 (ascii 'S')) bbo = readAcceptedCommon b bbo := by
  have hS : parseSide (byteAt (b.set 23 (ascii 'S')) 23) = some (.sell, false) := by
    rw [Be.byteAt_set _ hlen]
    rfl
  have hT : parseSide (byteAt b 23) = some (.sell, true) := by
    rcases h with h | h <;> rw [h] <;> rfl
  unfold readAcceptedCommon readPrice
  rw [hS, hT]
  simp (disch := omega) only [Be.loadAt_set, Be.byteAt_set_ne, (fromWire_set _).1, (fromWire_set _).2.1,
    (fromWire_set _).2.2]

theorem outboundLength_supported {type : Byte} (h : 0 < outboundLength type) :
    type = ascii 'A' ∨ type = ascii 'U' ∨ type = ascii 'C' ∨ type = ascii 'E' ∨ type = ascii 'J' := by
  unfold outboundLength at h
  split_ifs at h with h₁ h₂ h₃ h₄ h₅
  · exact .inl h₁
  · exact .inr (.inl h₂)
  · exact .inr (.inr (.inl h₃))
  · exact .inr (.inr (.inr (.inl h₄)))
  · exact .inr (.inr (.inr (.inr h₅)))
  · cases h

/-- The encoder inverts the outbound decoder, up to the codes of a short sale. -/
theorem reads_decodeOutbound {b : List Byte} {m : Outbound} (h : decodeOutbound b = .ok m) :
    Reads (canonicalOutbound b) m.wireLength m.wirePrice m.fields := by
  obtain ⟨hlen, hpos, hbody⟩ := decodeWith_ok h
  obtain ⟨hA, hU, hC, hE, hJ⟩ := outboundBody_cases b
  have hkeep : (byteAt b 0 ≠ ascii 'A' ∧ byteAt b 0 ≠ ascii 'U') → canonicalOutbound b = b :=
    fun hn => if_neg fun h' => h'.1.elim hn.1 hn.2
  rcases outboundLength_supported (hlen ▸ hpos) with ht | ht | ht | ht | ht
  · rw [ht] at hlen hbody
    have hlen : b.length = 66 := hlen
    obtain ⟨a, ha, rfl⟩ := deliver_ok.mp (hA.symm.trans hbody)
    unfold canonicalOutbound
    by_cases hs : byteAt b 23 = ascii 'T' ∨ byteAt b 23 = ascii 'E'
    · rw [if_pos ⟨.inl ht, hs⟩]
      refine reads_accepted ?_ (by rw [List.length_set]; exact hlen) ?_ ?_
      · rw [Be.byteAt_set_ne _ (by decide)]
        exact ht
      · rw [Be.byteAt_set _ (by omega)]
        decide
      · unfold readAccepted at ha ⊢
        rw [readAcceptedCommon_short _ (by omega) hs, Be.byteAt_set_ne _ (by decide)]
        exact ha
    · rw [if_neg fun h' => hs h'.2]
      exact reads_accepted ht hlen hs ha
  · rw [ht] at hlen hbody
    have hlen : b.length = 80 := hlen
    obtain ⟨a, ha, rfl⟩ := deliver_ok.mp (hU.symm.trans hbody)
    unfold canonicalOutbound
    by_cases hs : byteAt b 23 = ascii 'T' ∨ byteAt b 23 = ascii 'E'
    · rw [if_pos ⟨.inr ht, hs⟩]
      refine reads_replaced ?_ (by rw [List.length_set]; exact hlen) ?_ ?_
      · rw [Be.byteAt_set_ne _ (by decide)]
        exact ht
      · rw [Be.byteAt_set _ (by omega)]
        decide
      · unfold readReplaced at ha ⊢
        rw [readAcceptedCommon_short _ (by omega) hs, Be.byteAt_set_ne _ (by decide),
          (fromWire_set _).1 (.inl (by decide))]
        exact ha
    · rw [if_neg fun h' => hs h'.2]
      exact reads_replaced ht hlen hs ha
  · rw [hkeep (by rw [ht]; decide)]
    rw [ht] at hlen hbody
    obtain ⟨a, ha, rfl⟩ := deliver_ok.mp (hC.symm.trans hbody)
    exact reads_canceled ht hlen ha
  · rw [hkeep (by rw [ht]; decide)]
    rw [ht] at hlen hbody
    obtain ⟨a, ha, rfl⟩ := deliver_ok.mp (hE.symm.trans hbody)
    exact reads_executed ht hlen ha
  · rw [hkeep (by rw [ht]; decide)]
    rw [ht] at hlen hbody
    obtain ⟨a, ha, rfl⟩ := deliver_ok.mp (hJ.symm.trans hbody)
    exact reads_rejected ht hlen ha

theorem readAcceptedCommon_isSome {b : List Byte} {c : Byte} :
    (∃ m, readAcceptedCommon b c = some m) ↔
      byteAt b 23 ∈ sideCodes ∧ (byteAt b 64 = ascii 'L' ∨ byteAt b 64 = ascii 'D') := by
  rw [← parseSide_isSome]
  unfold readAcceptedCommon
  cases hs : parseSide (byteAt b 23) with
  | none => simp
  | some r =>
    dsimp only
    by_cases hst : byteAt b 64 = ascii 'L' ∨ byteAt b 64 = ascii 'D'
    · rw [if_neg (by tauto)]
      simp [hst]
    · rw [if_pos (by tauto)]
      simp [hst]

/-- The fields that `decode_outbound` checks hold allowed values. -/
def OutboundOk (b : List Byte) : Prop :=
  byteAt b 0 = ascii 'A' ∨ byteAt b 0 = ascii 'U' →
    byteAt b 23 ∈ sideCodes ∧ (byteAt b 64 = ascii 'L' ∨ byteAt b 64 = ascii 'D')

theorem outboundBody_isOk {b : List Byte} (ht : byteAt b 0 = ascii 'A' ∨ byteAt b 0 = ascii 'U' ∨
    byteAt b 0 = ascii 'C' ∨ byteAt b 0 = ascii 'E' ∨ byteAt b 0 = ascii 'J') :
    (∃ m, outboundBody (byteAt b 0) b = .ok m) ↔ OutboundOk b := by
  obtain ⟨hA, hU, hC, hE, hJ⟩ := outboundBody_cases b
  unfold OutboundOk
  rcases ht with h | h | h | h | h
  · rw [h, hA, deliver_isOk]
    unfold readAccepted
    rw [readAcceptedCommon_isSome]
    exact ⟨fun h' _ => h', fun h' => h' (.inl rfl)⟩
  · rw [h, hU, deliver_isOk]
    unfold readReplaced
    rw [← readAcceptedCommon_isSome (b := b) (c := byteAt b 79)]
    constructor
    · rintro ⟨_, hr⟩ _
      obtain ⟨a, ha, _⟩ := Option.map_eq_some_iff.mp hr
      exact ⟨a, ha⟩
    · intro h'
      obtain ⟨a, ha⟩ := h' (.inr rfl)
      exact ⟨_, Option.map_eq_some_iff.mpr ⟨a, ha, rfl⟩⟩
  · rw [h, hC]
    exact iff_of_true ⟨_, rfl⟩ fun h' => absurd h' (by decide)
  · rw [h, hE]
    exact iff_of_true ⟨_, rfl⟩ fun h' => absurd h' (by decide)
  · rw [h, hJ]
    exact iff_of_true ⟨_, rfl⟩ fun h' => absurd h' (by decide)

theorem decodeOutbound_isOk {b : List Byte} :
    (∃ m, decodeOutbound b = .ok m) ↔
      byteAt b 0 ∈ [ascii 'A', ascii 'U', ascii 'C', ascii 'E', ascii 'J'] ∧
      b.length = outboundLength (byteAt b 0) ∧ OutboundOk b := by
  simp only [List.mem_cons, List.not_mem_nil, or_false]
  constructor
  · rintro ⟨m, h⟩
    obtain ⟨hlen, hpos, hbody⟩ := decodeWith_ok h
    have ht := outboundLength_supported (hlen ▸ hpos)
    exact ⟨ht, hlen, (outboundBody_isOk ht).mp ⟨m, hbody⟩⟩
  · rintro ⟨ht, hlen, hok⟩
    have hpos : 0 < b.length := by
      rw [hlen]
      rcases ht with h | h | h | h | h <;> rw [h] <;> decide
    obtain ⟨m, hm⟩ := (outboundBody_isOk ht).mpr hok
    exact ⟨m, (decodeWith_typed hlen hpos).trans hm⟩

/-! ## The round trip -/

/-- A price that the four bytes of the wire can carry. -/
def OnWire (px : Int) : Prop := 0 ≤ px ∧ px ≤ 2 ^ 32 - 1

/-- What a decoder and the two encoders of one direction are to each other: decoding what was encoded
delivers the message, encoding what was decoded gives its canonical form, the decoder accepts exactly
`Accepts`, and an encoder returns 0, with the buffer untouched, exactly when there is no room or the
price does not fit; the framed one otherwise puts the length in front. -/
structure RoundTrip {M : Type} (decode : List Byte → Except DecodeError M)
    (encode encodeFramed : M → List Byte → List Byte × Nat) (wireLength : M → Nat) (wirePrice : M → Int)
    (Good : M → Prop) (canonical : List Byte → List Byte) (Accepts : List Byte → Prop) : Prop where
  decode_encode : ∀ m, Good m → OnWire (wirePrice m) → ∀ out, wireLength m ≤ out.length →
    (encode m out).2 = wireLength m ∧ decode ((encode m out).1.take (wireLength m)) = .ok m
  encode_decode : ∀ b m, decode b = .ok m → ∀ out, b.length ≤ out.length →
    (encode m out).2 = b.length ∧ (encode m out).1.take b.length = canonical b
  accepts : ∀ b, (∃ m, decode b = .ok m) ↔ Accepts b
  refused : ∀ m out, ((encode m out).2 = 0 ↔ out.length < wireLength m ∨ ¬OnWire (wirePrice m)) ∧
    ((encode m out).2 = 0 → (encode m out).1 = out)
  refused_framed : ∀ m out,
    ((encodeFramed m out).2 = 0 ↔ out.length < wireLength m + 2 ∨ ¬OnWire (wirePrice m)) ∧
    ((encodeFramed m out).2 = 0 → (encodeFramed m out).1 = out)
  framed : ∀ m out, (encodeFramed m out).2 ≠ 0 →
    encodeFramed m out = (store 2 (wireLength m) ++ (encode m (out.drop 2)).1, wireLength m + 2)

section
variable {M : Type} {decode : List Byte → Except DecodeError M} {wireLength : M → Nat} {wirePrice : M → Int}
  {fields : M → Fields} {Good : M → Prop} {canonical : List Byte → List Byte} {Accepts : List Byte → Prop}

theorem RoundTrip.intro (ht : ∀ m, Tiles 0 (fields m)) (hs : ∀ m, span (fields m) = wireLength m)
    (hpos : ∀ m, 0 < wireLength m)
    (hdec : ∀ m, Good m → OnWire (wirePrice m) → decode (bytes (fields m)) = .ok m)
    (hreads : ∀ b m, decode b = .ok m → Reads (canonical b) (wireLength m) (wirePrice m) (fields m))
    (hcanon : ∀ b, (canonical b).length = b.length) (hacc : ∀ b, (∃ m, decode b = .ok m) ↔ Accepts b) :
    RoundTrip decode (fun m out => Be.emit out (wireLength m) (fitsWirePrice (wirePrice m)) (fields m))
      (fun m out => emitFramed out (wireLength m) (fitsWirePrice (wirePrice m)) (fields m)) wireLength wirePrice
      Good canonical Accepts := by
  have hlen : ∀ m, (bytes (fields m)).length = wireLength m := fun m => by rw [Be.length_bytes, hs]
  have htake : ∀ m out, wireLength m ≤ out.length → fitsWirePrice (wirePrice m) = true →
      (Be.emit out (wireLength m) (fitsWirePrice (wirePrice m)) (fields m)).2 = wireLength m ∧
      (Be.emit out (wireLength m) (fitsWirePrice (wirePrice m)) (fields m)).1.take (wireLength m) =
        bytes (fields m) := by
    intro m out hout hfits
    rw [Be.emit_written hout hfits (ht m) (hs m)]
    refine ⟨rfl, ?_⟩
    rw [List.take_append_of_le_length (hlen m).ge, List.take_of_length_le (hlen m).le]
  refine ⟨fun m hg hpx out hout => ?_, fun b m h out hout => ?_, hacc, fun m out => ?_, fun m out => ?_,
    fun m out h => ?_⟩
  · obtain ⟨h₁, h₂⟩ := htake m out hout ((fitsWirePrice_iff _).mpr hpx)
    exact ⟨h₁, by rw [h₂]; exact hdec m hg hpx⟩
  · have hr := hreads b m h
    have hb : wireLength m = b.length := by rw [hr.length, hcanon]
    rw [← hb] at hout ⊢
    obtain ⟨h₁, h₂⟩ := htake m out hout hr.fits
    exact ⟨h₁, h₂.trans (hr.bytes_eq (ht m) (hs m))⟩
  · have hz := @Be.emit_eq_zero out _ (fitsWirePrice (wirePrice m)) (fields m) (hpos m)
    refine ⟨by rw [hz, fitsWirePrice_iff]; rfl, fun h => ?_⟩
    rw [Be.emit_refused _ (hz.mp h)]
  · refine ⟨by rw [emitFramed_eq_zero, fitsWirePrice_iff]; rfl, fun h => ?_⟩
    rw [emitFramed_refused _ (emitFramed_eq_zero.mp h)]
  · have hn := not_or.mp (mt emitFramed_eq_zero.mpr h)
    have hroom : wireLength m + 2 ≤ out.length := not_lt.mp hn.1
    rw [emitFramed_written hroom (not_not.mp hn.2) (ht m) (hs m),
      Be.emit_written (by rw [List.length_drop]; omega) (not_not.mp hn.2) (ht m) (hs m), List.drop_drop,
      Nat.add_comm 2, List.append_assoc]

end

/-- **The OUCH codec in both directions.** -/
theorem ouch_codec_round_trip :
    RoundTrip decodeInbound encodeInbound encodeInboundFramed Inbound.wireLength Inbound.wirePrice
      (fun m => m.Typed ∧ m.Encodable) canonicalInbound
      (fun b => byteAt b 0 ∈ [ascii 'O', ascii 'U', ascii 'X'] ∧ b.length = inboundLength (byteAt b 0) ∧
        (byteAt b 0 = ascii 'O' →
          byteAt b 15 ∈ [ascii 'B', ascii 'S', ascii 'T', ascii 'E'] ∧
          1 ≤ loadAt b 16 4 ∧ loadAt b 16 4 ≤ 999999) ∧
        (byteAt b 0 = ascii 'U' → 1 ≤ loadAt b 29 4 ∧ loadAt b 29 4 ≤ 999999)) ∧
    RoundTrip decodeOutbound encodeOutbound encodeOutboundFramed Outbound.wireLength Outbound.wirePrice
      (fun m => m.Typed ∧ m.Encodable) canonicalOutbound
      (fun b => byteAt b 0 ∈ [ascii 'A', ascii 'U', ascii 'C', ascii 'E', ascii 'J'] ∧
        b.length = outboundLength (byteAt b 0) ∧
        (byteAt b 0 = ascii 'A' ∨ byteAt b 0 = ascii 'U' →
          byteAt b 23 ∈ [ascii 'B', ascii 'S', ascii 'T', ascii 'E'] ∧
          (byteAt b 64 = ascii 'L' ∨ byteAt b 64 = ascii 'D'))) := by
  constructor
  · exact .intro Inbound.tiles_fields Inbound.span_fields Inbound.wireLength_pos
      (fun m hg hpx => decodeInbound_fields hg.1 hg.2 hpx) (fun b m => reads_decodeInbound) length_canonicalInbound
      (fun b => decodeInbound_isOk)
  · exact .intro Outbound.tiles_fields Outbound.span_fields Outbound.wireLength_pos
      (fun m hg hpx => decodeOutbound_fields hg.1 hg.2 hpx) (fun b m => reads_decodeOutbound) length_canonicalOutbound
      (fun b => decodeOutbound_isOk)

/-- An order entered as an exempt short sale. -/
def exemptOrder : List Byte :=
  ascii 'O' :: List.replicate 14 (ascii '7') ++ [ascii 'E', 0, 0, 0, 1] ++ List.replicate 29 0

/-- It comes back as a short sale and nothing else changed. -/
theorem ouch_codec_round_trip_exempt :
    ∃ m, decodeInbound exemptOrder = .ok m ∧
      (encodeInbound m (List.replicate 49 7)).1.take 49 =
        ascii 'O' :: List.replicate 14 (ascii '7') ++ [ascii 'T', 0, 0, 0, 1] ++ List.replicate 29 0 := by
  obtain ⟨m, hm⟩ := (ouch_codec_round_trip.1.accepts exemptOrder).mpr (by decide)
  exact ⟨m, hm, (ouch_codec_round_trip.1.encode_decode exemptOrder m hm (List.replicate 49 7) (by decide)).2⟩

end OptiTrade.Ouch
