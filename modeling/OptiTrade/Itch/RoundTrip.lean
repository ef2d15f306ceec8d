import OptiTrade.Itch.Encoder

/-! # Encoding and decoding are inverse

`Typed` says that the numbers of a message fit the C++ types of their fields; `Encodable` adds what the
wire form cannot carry or the decoder refuses. -/

namespace OptiTrade.Itch
set_option autoImplicit false

open Be (Fields Tiles span store bytes loadAt byteAt slice)

/-- The fields of a header fit their C++ types. -/
def Header.Typed (h : Header) : Prop := h.locate < 2 ^ 16 ∧ h.tracking < 2 ^ 16 ∧ h.timestamp < 2 ^ 64

namespace Message

/-- The values fit the types of their fields. -/
def Typed (m : Message) : Prop :=
  m.header.Typed ∧
    match m with
    | .systemEvent _ => True
    | .stockDirectory m => m.roundLotSize < 2 ^ 32 ∧ m.issueSubtype.length = 2 ∧ m.etpLeverage < 2 ^ 32
    | .addOrder m => m.ref < 2 ^ 64 ∧ m.shares < 2 ^ 32 ∧ m.mpid.length = 4
    | .orderExecuted m => m.ref < 2 ^ 64 ∧ m.shares < 2 ^ 32 ∧ m.matchNo < 2 ^ 64
    | .orderExecutedPrice m => m.ref < 2 ^ 64 ∧ m.shares < 2 ^ 32 ∧ m.matchNo < 2 ^ 64
    | .orderCancel m => m.ref < 2 ^ 64 ∧ m.shares < 2 ^ 32
    | .orderDelete m => m.ref < 2 ^ 64
    | .orderReplace m => m.oldRef < 2 ^ 64 ∧ m.newRef < 2 ^ 64 ∧ m.shares < 2 ^ 32
    | .trade m => m.ref < 2 ^ 64 ∧ m.shares < 2 ^ 32 ∧ m.matchNo < 2 ^ 64

/-- The price fits the wire, the timestamp its six bytes, an add has shares, and an unattributed one no
participant. -/
def Encodable (m : Message) : Prop :=
  m.header.timestamp < 2 ^ 48 ∧ (∀ px, m.wirePrice = some px → 0 ≤ px ∧ px ≤ 2 ^ 32 - 1) ∧
    ∀ a, m = .addOrder a → 1 ≤ a.shares ∧ (a.hasAttribution = false → a.mpid = List.replicate 4 0)

theorem tiles_fields {m : Message} (h : m.Typed) : Tiles 0 m.fields := by
  cases m with
  | systemEvent m => simp [fields, putHeader, body, Tiles]
  | stockDirectory m => simp [fields, putHeader, body, Tiles, m.symbol.size_eq]
  | addOrder m =>
    have hm := h.2.2.2
    cases ha : m.hasAttribution with
    | true => simp [fields, putHeader, body, putPrice, Tiles, m.symbol.size_eq, ha]
    | false => simp [fields, putHeader, body, putPrice, Tiles, m.symbol.size_eq, ha]
  | orderExecuted m => simp [fields, putHeader, body, Tiles]
  | orderExecutedPrice m => simp [fields, putHeader, body, putPrice, Tiles]
  | orderCancel m => simp [fields, putHeader, body, Tiles]
  | orderDelete m => simp [fields, putHeader, body, Tiles]
  | orderReplace m => simp [fields, putHeader, body, putPrice, Tiles]
  | trade m => simp [fields, putHeader, body, putPrice, Tiles, m.symbol.size_eq]

theorem span_fields {m : Message} (h : m.Typed) : span m.fields = m.wireLength := by
  cases m with
  | systemEvent m => simp [fields, putHeader, body, span, wireLength, kSystemEventLength]
  | stockDirectory m => simp [fields, putHeader, body, span, wireLength, kStockDirectoryLength, m.symbol.size_eq]
  | addOrder m =>
    have hm : m.mpid.length = 4 := h.2.2.2
    cases ha : m.hasAttribution with
    | true =>
      simp [fields, putHeader, body, putPrice, span, wireLength, kAddOrderMpidLength, m.symbol.size_eq, ha, hm]
    | false => simp [fields, putHeader, body, putPrice, span, wireLength, kAddOrderLength, m.symbol.size_eq, ha]
  | orderExecuted m => simp [fields, putHeader, body, span, wireLength, kOrderExecutedLength]
  | orderExecutedPrice m => simp [fields, putHeader, body, putPrice, span, wireLength, kOrderExecutedPriceLength]
  | orderCancel m => simp [fields, putHeader, body, span, wireLength, kOrderCancelLength]
  | orderDelete m => simp [fields, putHeader, body, span, wireLength, kOrderDeleteLength]
  | orderReplace m => simp [fields, putHeader, body, putPrice, span, wireLength, kOrderReplaceLength]
  | trade m => simp [fields, putHeader, body, putPrice, span, wireLength, kTradeLength, m.symbol.size_eq]

theorem wireLength_pos (m : Message) : 0 < m.wireLength := by
  cases m with
  | addOrder m =>
    show 0 < if m.hasAttribution then kAddOrderMpidLength else kAddOrderLength
    split_ifs <;> decide
  | _ => exact Nat.zero_lt_succ _

theorem messageLength_type (m : Message) : messageLength m.type = m.wireLength := by
  cases m with
  | addOrder m =>
    cases ha : m.hasAttribution with
    | true => simp only [type, wireLength, ha]; rfl
    | false => simp only [type, wireLength, ha]; rfl
  | _ => rfl

end Message

/-! ## From a message to its bytes and back -/

theorem mem_header {m : Message} {f : Nat × List Byte} (hf : f ∈ putHeader m.type m.header) : f ∈ m.fields :=
  List.mem_append_left _ hf

theorem mem_body {m : Message} {f : Nat × List Byte} (hf : f ∈ m.body) : f ∈ m.fields := List.mem_append_right _ hf

theorem readHeader_fields {m : Message} (ht : m.Typed) (hts : m.header.timestamp < 2 ^ 48) :
    readHeader (bytes m.fields) = m.header := by
  have htile := Message.tiles_fields ht
  unfold readHeader
  rw [Be.loadAt_field htile (mem_header (by simp [putHeader])) ht.1.1,
    Be.loadAt_field htile (mem_header (by simp [putHeader])) ht.1.2.1,
    Be.loadAt_field htile (mem_header (by simp [putHeader])) hts]

theorem readPrice_field {fs : Fields} {off : Nat} {px : Int} (h : Tiles 0 fs) (hm : (off, putPrice px) ∈ fs)
    (hpx : 0 ≤ px ∧ px ≤ 2 ^ 32 - 1) : readPrice (bytes fs) off = px := Be.loadAt_low h hm hpx

theorem readSide_field {fs : Fields} {off : Nat} {s : Side} (h : Tiles 0 fs) (hm : (off, [sideChar s]) ∈ fs) :
    readSide (bytes fs) off = some s := by
  unfold readSide
  rw [Be.byteAt_field h hm]
  cases s with
  | buy => rfl
  | sell => rfl

theorem fromWire_field {fs : Fields} {off : Nat} {s : Symbol} (h : Tiles 0 fs) (hm : (off, s.chars) ∈ fs) :
    Symbol.fromWire (bytes fs) off = s := by
  have hs := Be.slice_field h hm s.size_eq
  unfold Symbol.fromWire
  rw [dif_pos (by rw [hs]; exact s.size_eq)]
  cases s
  simp only [hs]

theorem decode_typed {p : List Byte} (hlen : p.length = messageLength (byteAt p 0)) (hpos : 0 < p.length) :
    decode p = decodeBody (byteAt p 0) p := by
  cases p with
  | nil => cases hpos
  | cons b p =>
    have hb : byteAt (b :: p) 0 = b := rfl
    rw [hb] at hlen ⊢
    show (if messageLength b = 0 then _ else _) = _
    rw [if_neg (by omega), if_neg (by omega), if_neg (by omega)]

theorem decode_fields_eq {m : Message} (ht : m.Typed) : decode (bytes m.fields) = decodeBody m.type (bytes m.fields) := by
  have htile := Message.tiles_fields ht
  have htype : byteAt (bytes m.fields) 0 = m.type := Be.byteAt_field htile (mem_header (by simp [putHeader]))
  have hlen : (bytes m.fields).length = m.wireLength := by rw [Be.length_bytes, Message.span_fields ht]
  rw [← htype]
  refine decode_typed ?_ ?_
  · rw [htype, Message.messageLength_type, hlen]
  · rw [hlen]
    exact m.wireLength_pos

/-- The cases of the switch. -/
theorem decodeBody_cases (p : List Byte) :
    decodeBody (ascii 'S') p = decodeSystemEvent p ∧
    decodeBody (ascii 'R') p = decodeStockDirectory p ∧
    decodeBody (ascii 'A') p = decodeAddOrder p false ∧
    decodeBody (ascii 'F') p = decodeAddOrder p true ∧
    decodeBody (ascii 'E') p = decodeOrderExecuted p ∧
    decodeBody (ascii 'C') p = decodeOrderExecutedPrice p ∧
    decodeBody (ascii 'X') p = decodeOrderCancel p ∧
    decodeBody (ascii 'D') p = decodeOrderDelete p ∧
    decodeBody (ascii 'U') p = decodeOrderReplace p ∧
    decodeBody (ascii 'P') p = decodeTrade p := by
  unfold decodeBody
  refine ⟨if_pos rfl, ?_, ?_, ?_, ?_, ?_, ?_, ?_, ?_, ?_⟩
  · iterate 1 rw [if_neg (by decide)]
    rw [if_pos rfl]
  · iterate 2 rw [if_neg (by decide)]
    rw [if_pos rfl]
  · iterate 3 rw [if_neg (by decide)]
    rw [if_pos rfl]
  · iterate 4 rw [if_neg (by decide)]
    rw [if_pos rfl]
  · iterate 5 rw [if_neg (by decide)]
    rw [if_pos rfl]
  · iterate 6 rw [if_neg (by decide)]
    rw [if_pos rfl]
  · iterate 7 rw [if_neg (by decide)]
    rw [if_pos rfl]
  · iterate 8 rw [if_neg (by decide)]
    rw [if_pos rfl]
  · iterate 9 rw [if_neg (by decide)]
    rw [if_pos rfl]

/-- **The decoder inverts the encoder.** -/
theorem decode_fields {m : Message} (ht : m.Typed) (he : m.Encodable) : decode (bytes m.fields) = .ok m := by
  have htile := Message.tiles_fields ht
  obtain ⟨hts, hpx, hadd⟩ := he
  have hh := readHeader_fields ht hts
  rw [decode_fields_eq ht]
  obtain ⟨hS, hR, hA, hF, hE, hC, hX, hD, hU, hP⟩ := decodeBody_cases (bytes m.fields)
  cases m with
  | systemEvent m =>
    refine hS.trans ?_
    unfold decodeSystemEvent
    rw [hh, Be.byteAt_field (b := m.eventCode) htile (mem_body (by simp [Message.body]))]
    rfl
  | stockDirectory m =>
    obtain ⟨_, h₁, h₂, h₃⟩ := ht
    have hsub : [byteAt m.issueSubtype 0, byteAt m.issueSubtype 1] = m.issueSubtype := by
      match hm : m.issueSubtype, h₂ with
      | [a, b], _ => rfl
    refine hR.trans ?_
    unfold decodeStockDirectory
    rw [hh, fromWire_field (s := m.symbol) htile (mem_body (by simp [Message.body])),
      Be.loadAt_field htile (mem_body (by simp [Message.body])) h₁,
      Be.loadAt_field htile (mem_body (by simp [Message.body])) h₃,
      Be.byteAt_field (b := m.marketCategory) htile (mem_body (by simp [Message.body])),
      Be.byteAt_field (b := m.financialStatus) htile (mem_body (by simp [Message.body])),
      Be.byteAt_field (b := m.roundLotsOnly) htile (mem_body (by simp [Message.body])),
      Be.byteAt_field (b := m.issueClassification) htile (mem_body (by simp [Message.body])),
      Be.byteAt_field (b := byteAt m.issueSubtype 0) htile (mem_body (by simp [Message.body])),
      Be.byteAt_field (b := byteAt m.issueSubtype 1) htile (mem_body (by simp [Message.body])),
      Be.byteAt_field (b := m.authenticity) htile (mem_body (by simp [Message.body])),
      Be.byteAt_field (b := m.shortSaleThreshold) htile (mem_body (by simp [Message.body])),
      Be.byteAt_field (b := m.ipoFlag) htile (mem_body (by simp [Message.body])),
      Be.byteAt_field (b := m.luldTier) htile (mem_body (by simp [Message.body])),
      Be.byteAt_field (b := m.etpFlag) htile (mem_body (by simp [Message.body])),
      Be.byteAt_field (b := m.inverse) htile (mem_body (by simp [Message.body])), hsub]
    rfl
  | addOrder m =>
    obtain ⟨_, h₁, h₂, h₃⟩ := ht
    obtain ⟨hshares, hmpid⟩ := hadd m rfl
    have hdecode : decodeAddOrder (bytes (Message.addOrder m).fields) m.hasAttribution = .ok (.addOrder m) := by
      have hmp : (if m.hasAttribution then slice (bytes (Message.addOrder m).fields) 36 4 else List.replicate 4 0) =
          m.mpid := by
        cases ha : m.hasAttribution with
        | true => exact Be.slice_field htile (mem_body (by simp [Message.body, ha])) h₃
        | false => exact (hmpid ha).symm
      unfold decodeAddOrder
      rw [readSide_field (s := m.side) htile (mem_body (by simp [Message.body])),
        Be.loadAt_field (v := m.shares) htile (mem_body (by simp [Message.body])) h₂]
      dsimp only
      rw [if_neg (by omega), hh, Be.loadAt_field htile (mem_body (by simp [Message.body])) h₁,
        fromWire_field (s := m.symbol) htile (mem_body (by simp [Message.body])),
        readPrice_field htile (mem_body (by simp [Message.body])) (hpx m.price rfl), hmp]
      rfl
    cases ha : m.hasAttribution with
    | true =>
      rw [ha] at hdecode
      rw [show (Message.addOrder m).type = ascii 'F' by simp [Message.type, ha]]
      exact hF.trans hdecode
    | false =>
      rw [ha] at hdecode
      rw [show (Message.addOrder m).type = ascii 'A' by simp [Message.type, ha]]
      exact hA.trans hdecode
  | orderExecuted m =>
    obtain ⟨_, h₁, h₂, h₃⟩ := ht
    refine hE.trans ?_
    unfold decodeOrderExecuted
    rw [hh, Be.loadAt_field htile (mem_body (by simp [Message.body])) h₁,
      Be.loadAt_field htile (mem_body (by simp [Message.body])) h₂,
      Be.loadAt_field htile (mem_body (by simp [Message.body])) h₃]
    rfl
  | orderExecutedPrice m =>
    obtain ⟨_, h₁, h₂, h₃⟩ := ht
    refine hC.trans ?_
    unfold decodeOrderExecutedPrice
    rw [hh, Be.loadAt_field htile (mem_body (by simp [Message.body])) h₁,
      Be.loadAt_field htile (mem_body (by simp [Message.body])) h₂,
      Be.loadAt_field htile (mem_body (by simp [Message.body])) h₃,
      Be.byteAt_field (b := if m.printable then ascii 'Y' else ascii 'N') htile (mem_body (by simp [Message.body])),
      readPrice_field htile (mem_body (by simp [Message.body])) (hpx m.price rfl)]
    cases m with
    | mk h ref shares matchNo printable price =>
      cases printable with
      | true => rfl
      | false => rfl
  | orderCancel m =>
    obtain ⟨_, h₁, h₂⟩ := ht
    refine hX.trans ?_
    unfold decodeOrderCancel
    rw [hh, Be.loadAt_field htile (mem_body (by simp [Message.body])) h₁,
      Be.loadAt_field htile (mem_body (by simp [Message.body])) h₂]
    rfl
  | orderDelete m =>
    obtain ⟨_, h₁⟩ := ht
    refine hD.trans ?_
    unfold decodeOrderDelete
    rw [hh, Be.loadAt_field htile (mem_body (by simp [Message.body])) h₁]
    rfl
  | orderReplace m =>
    obtain ⟨_, h₁, h₂, h₃⟩ := ht
    refine hU.trans ?_
    unfold decodeOrderReplace
    rw [hh, Be.loadAt_field htile (mem_body (by simp [Message.body])) h₁,
      Be.loadAt_field htile (mem_body (by simp [Message.body])) h₂,
      Be.loadAt_field htile (mem_body (by simp [Message.body])) h₃,
      readPrice_field htile (mem_body (by simp [Message.body])) (hpx m.price rfl)]
    rfl
  | trade m =>
    obtain ⟨_, h₁, h₂, h₃⟩ := ht
    refine hP.trans ?_
    unfold decodeTrade
    rw [readSide_field (s := m.side) htile (mem_body (by simp [Message.body]))]
    dsimp only
    rw [hh, Be.loadAt_field htile (mem_body (by simp [Message.body])) h₁,
      Be.loadAt_field htile (mem_body (by simp [Message.body])) h₂,
      fromWire_field (s := m.symbol) htile (mem_body (by simp [Message.body])),
      readPrice_field htile (mem_body (by simp [Message.body])) (hpx m.price rfl),
      Be.loadAt_field htile (mem_body (by simp [Message.body])) h₃]
    rfl

/-! ## From bytes to a message and back -/

/-- The one normalisation of a round trip: the printable flag of a `C` message that is not `Y` is written
as `N`. -/
def canonical (b : List Byte) : List Byte :=
  if byteAt b 0 = ascii 'C' ∧ byteAt b 31 ≠ ascii 'Y' then b.set 31 (ascii 'N') else b

theorem canonical_of_ne {b : List Byte} (h : byteAt b 0 ≠ ascii 'C') : canonical b = b := if_neg fun h' => h h'.1

/-- The messages that read a record back to itself, field by field. -/
structure Reads (p : List Byte) (m : Message) : Prop where
  typed : m.Typed
  fits : m.fits = true
  length : m.wireLength = p.length
  slices : ∀ f ∈ m.fields, slice p f.1 f.2.length = f.2

theorem Reads.bytes_eq {p : List Byte} {m : Message} (h : Reads p m) : bytes m.fields = p := by
  have := Be.bytes_eq (Message.tiles_fields h.typed) (by rw [Message.span_fields h.typed, h.length, Nat.zero_add])
    h.slices
  simpa using this

section
variable {p b : List Byte}

theorem readHeader_typed (b : List Byte) : (readHeader b).Typed :=
  ⟨Be.loadAt_lt b 1 2, Be.loadAt_lt b 3 2, (Be.loadAt_lt b 5 6).trans (by decide)⟩

theorem slices_header (hlen : 11 ≤ b.length) {type : Byte} (h : byteAt b 0 = type) :
    ∀ f ∈ putHeader type (readHeader b), slice b f.1 f.2.length = f.2 := by
  subst h
  unfold putHeader readHeader
  simp only [List.forall_mem_cons, List.not_mem_nil, false_imp_iff, implies_true, and_true]
  exact ⟨Be.slice_byte (by omega), Be.slice_store (by omega), Be.slice_store (by omega), Be.slice_store (by omega)⟩

theorem slice_price {off : Nat} (h : off + 4 ≤ b.length) :
    slice b off (putPrice (readPrice b off)).length = putPrice (readPrice b off) := Be.slice_low h

theorem slice_symbol {off : Nat} (h : off + 8 ≤ b.length) :
    slice b off (Symbol.fromWire b off).chars.length = (Symbol.fromWire b off).chars := by
  rw [Symbol.size_eq]
  unfold Symbol.fromWire
  rw [dif_pos (Be.length_slice h)]

theorem slice_side {off : Nat} {side : Side} (h : off + 1 ≤ b.length) (hs : readSide b off = some side) :
    slice b off [sideChar side].length = [sideChar side] := by
  have hb : byteAt b off = sideChar side := by
    unfold readSide at hs
    split_ifs at hs with h₁ h₂
    · cases hs
      exact h₁
    · cases hs
      exact h₂
  rw [← hb]
  exact Be.slice_byte h

theorem fits_readPrice (b : List Byte) (off : Nat) : fitsWirePrice (readPrice b off) = true := by
  have h := readPrice_bounds b off
  unfold u32Max at h
  simp only [fitsWirePrice, Bool.and_eq_true, decide_eq_true_eq]
  omega

end

def supportedTypes : List Byte :=
  [ascii 'S', ascii 'R', ascii 'A', ascii 'F', ascii 'E', ascii 'C', ascii 'X', ascii 'D', ascii 'U', ascii 'P']

theorem messageLength_eq_zero {type : Byte} (h : type ∉ supportedTypes) : messageLength type = 0 := by
  simp only [supportedTypes, List.mem_cons, List.not_mem_nil, or_false, not_or] at h
  obtain ⟨h₁, h₂, h₃, h₄, h₅, h₆, h₇, h₈, h₉, h₁₀⟩ := h
  unfold messageLength
  rw [if_neg h₁, if_neg h₂, if_neg h₃, if_neg h₄, if_neg h₅, if_neg h₆, if_neg h₇, if_neg h₈, if_neg h₉, if_neg h₁₀]

theorem supported_of_length {type : Byte} (h : 0 < messageLength type) : type ∈ supportedTypes := by
  by_contra hn
  rw [messageLength_eq_zero hn] at h
  cases h

theorem decode_ok {b : List Byte} {m : Message} (h : decode b = .ok m) :
    b.length = messageLength (byteAt b 0) ∧ 0 < b.length ∧ decodeBody (byteAt b 0) b = .ok m := by
  unfold decode at h
  split at h
  · cases h
  · rename_i type rest
    split_ifs at h with h₁ h₂ h₃
    exact ⟨le_antisymm (not_lt.mp h₃) (not_lt.mp h₂), Nat.succ_pos _, h⟩

theorem reads_addOrder {b : List Byte} {m : Message} (attributed : Bool)
    (hlen : b.length = if attributed then kAddOrderMpidLength else kAddOrderLength)
    (ht : byteAt b 0 = if attributed then ascii 'F' else ascii 'A') (h : decodeAddOrder b attributed = .ok m) :
    Reads b m := by
  have hle : 36 ≤ b.length := by
    rw [hlen]
    split_ifs <;> decide
  unfold decodeAddOrder at h
  split at h
  · cases h
  · rename_i side hside
    by_cases h₀ : loadAt b 20 4 = 0
    · rw [if_pos h₀] at h
      cases h
    rw [if_neg h₀] at h
    obtain rfl := Except.ok.inj h
    have hfix : ∀ f ∈ [(11, store 8 (loadAt b 11 8)), (19, [sideChar side]), (20, store 4 (loadAt b 20 4)),
        (24, (Symbol.fromWire b 24).chars), (32, putPrice (readPrice b 32))], slice b f.1 f.2.length = f.2 := by
      simp only [List.forall_mem_cons, List.not_mem_nil, false_imp_iff, implies_true, and_true]
      exact ⟨Be.slice_store (by omega), slice_side (by omega) hside, Be.slice_store (by omega),
        slice_symbol (by omega), slice_price (by omega)⟩
    refine ⟨⟨readHeader_typed b, Be.loadAt_lt b 11 8, Be.loadAt_lt b 20 4, ?_⟩, fits_readPrice b 32, hlen.symm, ?_⟩
    · cases attributed with
      | true => exact Be.length_slice hlen.ge
      | false => rfl
    · intro f hf
      rcases List.mem_append.mp hf with hf | hf
      · exact slices_header (by omega) ht f hf
      · rcases List.mem_append.mp hf with hf | hf
        · exact hfix f hf
        · cases attributed with
          | true =>
            obtain rfl := List.mem_singleton.mp hf
            show slice b 36 (slice b 36 4).length = slice b 36 4
            rw [Be.length_slice hlen.ge]
          | false => cases hf

theorem Reads.intro {b : List Byte} {m : Message} (hh : m.header = readHeader b) (ht : byteAt b 0 = m.type)
    (hlen : 11 ≤ b.length) (hty : m.Typed) (hfits : m.fits = true) (hl : m.wireLength = b.length)
    (hbody : ∀ f ∈ m.body, slice b f.1 f.2.length = f.2) : Reads b m := by
  refine ⟨hty, hfits, hl, fun f hf => ?_⟩
  rcases List.mem_append.mp hf with hf | hf
  · rw [hh] at hf
    exact slices_header hlen ht f hf
  · exact hbody f hf

theorem reads_orderExecutedPrice {b : List Byte} {m : Message} (hlen : b.length = 36) (ht : byteAt b 0 = ascii 'C')
    (hflag : byteAt b 31 = ascii 'Y' ∨ byteAt b 31 = ascii 'N') (h : decodeOrderExecutedPrice b = .ok m) : Reads b m := by
  obtain rfl := Except.ok.inj h
  refine .intro rfl ht (by omega) ⟨readHeader_typed b, Be.loadAt_lt b 11 8, Be.loadAt_lt b 19 4, Be.loadAt_lt b 23 8⟩
    (fits_readPrice b 32) hlen.symm ?_
  have hchar : [if decide (byteAt b 31 = ascii 'Y') then ascii 'Y' else ascii 'N'] = [byteAt b 31] := by
    rcases hflag with hf | hf
    · rw [hf]
      rfl
    · rw [hf]
      rfl
  simp only [Message.body, List.forall_mem_cons, List.not_mem_nil, false_imp_iff, implies_true, and_true]
  refine ⟨Be.slice_store (by omega), Be.slice_store (by omega), Be.slice_store (by omega), ?_, slice_price (by omega)⟩
  rw [hchar]
  exact Be.slice_byte (by omega)

theorem decodeOrderExecutedPrice_set {b : List Byte} (hlen : b.length = 36) (hflag : byteAt b 31 ≠ ascii 'Y') :
    decodeOrderExecutedPrice (b.set 31 (ascii 'N')) = decodeOrderExecutedPrice b := by
  unfold decodeOrderExecutedPrice readHeader readPrice
  rw [Be.loadAt_set _ (by omega), Be.loadAt_set _ (by omega), Be.loadAt_set _ (by omega), Be.loadAt_set _ (by omega),
    Be.loadAt_set _ (by omega), Be.loadAt_set _ (by omega), Be.loadAt_set _ (by omega), Be.byteAt_set _ (by omega)]
  have h₁ : decide (ascii 'N' = ascii 'Y') = false := by decide
  have h₂ : decide (byteAt b 31 = ascii 'Y') = false := decide_eq_false hflag
  rw [h₁, h₂]

theorem reads_systemEvent {b : List Byte} (ht : byteAt b 0 = ascii 'S') (hlen : b.length = 12) {m : Message}
    (h : decodeSystemEvent b = .ok m) : Reads b m := by
  obtain rfl := Except.ok.inj h
  refine .intro rfl ht (by omega) ⟨readHeader_typed b, trivial⟩ rfl hlen.symm ?_
  simp only [Message.body, List.forall_mem_singleton]
  exact Be.slice_byte (by omega)

theorem reads_stockDirectory {b : List Byte} (ht : byteAt b 0 = ascii 'R') (hlen : b.length = 39) {m : Message}
    (h : decodeStockDirectory b = .ok m) : Reads b m := by
  obtain rfl := Except.ok.inj h
  refine .intro rfl ht (by omega) ⟨readHeader_typed b, Be.loadAt_lt b 21 4, rfl, Be.loadAt_lt b 34 4⟩ rfl hlen.symm ?_
  have hbyte : ∀ off < 39, slice b off [byteAt b off].length = [byteAt b off] := fun off ho => Be.slice_byte (by omega)
  simp only [Message.body, List.forall_mem_cons, List.not_mem_nil, false_imp_iff, implies_true, and_true]
  exact ⟨slice_symbol (by omega), hbyte 19 (by omega), hbyte 20 (by omega), Be.slice_store (by omega),
    hbyte 25 (by omega), hbyte 26 (by omega), hbyte 27 (by omega), hbyte 28 (by omega), hbyte 29 (by omega),
    hbyte 30 (by omega), hbyte 31 (by omega), hbyte 32 (by omega), hbyte 33 (by omega), Be.slice_store (by omega),
    hbyte 38 (by omega)⟩

theorem reads_orderExecuted {b : List Byte} (ht : byteAt b 0 = ascii 'E') (hlen : b.length = 31) {m : Message}
    (h : decodeOrderExecuted b = .ok m) : Reads b m := by
  obtain rfl := Except.ok.inj h
  refine .intro rfl ht (by omega)
    ⟨readHeader_typed b, Be.loadAt_lt b 11 8, Be.loadAt_lt b 19 4, Be.loadAt_lt b 23 8⟩ rfl hlen.symm ?_
  simp only [Message.body, List.forall_mem_cons, List.not_mem_nil, false_imp_iff, implies_true, and_true]
  exact ⟨Be.slice_store (by omega), Be.slice_store (by omega), Be.slice_store (by omega)⟩

theorem reads_orderCancel {b : List Byte} (ht : byteAt b 0 = ascii 'X') (hlen : b.length = 23) {m : Message}
    (h : decodeOrderCancel b = .ok m) : Reads b m := by
  obtain rfl := Except.ok.inj h
  refine .intro rfl ht (by omega) ⟨readHeader_typed b, Be.loadAt_lt b 11 8, Be.loadAt_lt b 19 4⟩ rfl hlen.symm ?_
  simp only [Message.body, List.forall_mem_cons, List.not_mem_nil, false_imp_iff, implies_true, and_true]
  exact ⟨Be.slice_store (by omega), Be.slice_store (by omega)⟩

theorem reads_orderDelete {b : List Byte} (ht : byteAt b 0 = ascii 'D') (hlen : b.length = 19) {m : Message}
    (h : decodeOrderDelete b = .ok m) : Reads b m := by
  obtain rfl := Except.ok.inj h
  refine .intro rfl ht (by omega) ⟨readHeader_typed b, Be.loadAt_lt b 11 8⟩ rfl hlen.symm ?_
  simp only [Message.body, List.forall_mem_singleton]
  exact Be.slice_store (by omega)

theorem reads_orderReplace {b : List Byte} (ht : byteAt b 0 = ascii 'U') (hlen : b.length = 35) {m : Message}
    (h : decodeOrderReplace b = .ok m) : Reads b m := by
  obtain rfl := Except.ok.inj h
  refine .intro rfl ht (by omega)
    ⟨readHeader_typed b, Be.loadAt_lt b 11 8, Be.loadAt_lt b 19 8, Be.loadAt_lt b 27 4⟩ (fits_readPrice b 31)
    hlen.symm ?_
  simp only [Message.body, List.forall_mem_cons, List.not_mem_nil, false_imp_iff, implies_true, and_true]
  exact ⟨Be.slice_store (by omega), Be.slice_store (by omega), Be.slice_store (by omega), slice_price (by omega)⟩

theorem reads_trade {b : List Byte} (ht : byteAt b 0 = ascii 'P') (hlen : b.length = 44) {m : Message}
    (h : decodeTrade b = .ok m) : Reads b m := by
  unfold decodeTrade at h
  split at h
  · cases h
  · rename_i side hside
    obtain rfl := Except.ok.inj h
    refine .intro rfl ht (by omega)
      ⟨readHeader_typed b, Be.loadAt_lt b 11 8, Be.loadAt_lt b 20 4, Be.loadAt_lt b 36 8⟩ (fits_readPrice b 32)
      hlen.symm ?_
    simp only [Message.body, List.forall_mem_cons, List.not_mem_nil, false_imp_iff, implies_true, and_true]
    exact ⟨Be.slice_store (by omega), slice_side (by omega) hside, Be.slice_store (by omega),
      slice_symbol (by omega), slice_price (by omega), Be.slice_store (by omega)⟩

/-- **The encoder inverts the decoder**, up to the flag of a `C` message. -/
theorem reads_decode {b : List Byte} {m : Message} (h : decode b = .ok m) : Reads (canonical b) m := by
  obtain ⟨hlen, hpos, hbody⟩ := decode_ok h
  obtain ⟨hS, hR, hA, hF, hE, hC, hX, hD, hU, hP⟩ := decodeBody_cases b
  have htype := supported_of_length (hlen ▸ hpos)
  simp only [supportedTypes, List.mem_cons, List.not_mem_nil, or_false] at htype
  by_cases ht : byteAt b 0 = ascii 'C'
  · rw [ht] at hlen hbody
    rw [hC] at hbody
    have hlen : b.length = 36 := hlen
    unfold canonical
    by_cases hY : byteAt b 31 = ascii 'Y'
    · rw [if_neg fun h' => h'.2 hY]
      exact reads_orderExecutedPrice hlen ht (.inl hY) hbody
    · rw [if_pos ⟨ht, hY⟩]
      refine reads_orderExecutedPrice (by rw [List.length_set]; exact hlen) ?_ (.inr (Be.byteAt_set _ (by omega)))
        ((decodeOrderExecutedPrice_set hlen hY).trans hbody)
      rw [Be.byteAt_set_ne _ (by decide)]
      exact ht
  · rw [canonical_of_ne ht]
    rcases htype with h | h | h | h | h | h | h | h | h | h
    · rw [h] at hlen hbody
      exact reads_systemEvent h hlen (hS.symm.trans hbody)
    · rw [h] at hlen hbody
      exact reads_stockDirectory h hlen (hR.symm.trans hbody)
    · rw [h] at hlen hbody
      exact reads_addOrder false hlen h (hA.symm.trans hbody)
    · rw [h] at hlen hbody
      exact reads_addOrder true hlen h (hF.symm.trans hbody)
    · rw [h] at hlen hbody
      exact reads_orderExecuted h hlen (hE.symm.trans hbody)
    · exact absurd h ht
    · rw [h] at hlen hbody
      exact reads_orderCancel h hlen (hX.symm.trans hbody)
    · rw [h] at hlen hbody
      exact reads_orderDelete h hlen (hD.symm.trans hbody)
    · rw [h] at hlen hbody
      exact reads_orderReplace h hlen (hU.symm.trans hbody)
    · rw [h] at hlen hbody
      exact reads_trade h hlen (hP.symm.trans hbody)

/-! ## The exact accept set -/

/-- The fields that `decode` checks hold allowed values. -/
def FieldsOk (b : List Byte) : Prop :=
  (byteAt b 0 ∈ [ascii 'A', ascii 'F', ascii 'P'] → byteAt b 19 = ascii 'B' ∨ byteAt b 19 = ascii 'S') ∧
    (byteAt b 0 ∈ [ascii 'A', ascii 'F'] → loadAt b 20 4 ≠ 0)

theorem readSide_isSome {b : List Byte} {off : Nat} :
    (∃ side, readSide b off = some side) ↔ byteAt b off = ascii 'B' ∨ byteAt b off = ascii 'S' := by
  unfold readSide
  split_ifs with h₁ h₂
  · exact iff_of_true ⟨_, rfl⟩ (.inl h₁)
  · exact iff_of_true ⟨_, rfl⟩ (.inr h₂)
  · exact iff_of_false (fun ⟨_, h⟩ => by cases h) (fun h => h.elim h₁ h₂)

theorem decodeAddOrder_isOk {b : List Byte} (attributed : Bool) :
    (∃ m, decodeAddOrder b attributed = .ok m) ↔
      (byteAt b 19 = ascii 'B' ∨ byteAt b 19 = ascii 'S') ∧ loadAt b 20 4 ≠ 0 := by
  rw [← readSide_isSome]
  unfold decodeAddOrder
  cases hs : readSide b 19 with
  | none => simp
  | some side =>
    by_cases h₀ : loadAt b 20 4 = 0
    · simp [h₀]
    · simp [h₀]

theorem decodeTrade_isOk {b : List Byte} :
    (∃ m, decodeTrade b = .ok m) ↔ byteAt b 19 = ascii 'B' ∨ byteAt b 19 = ascii 'S' := by
  rw [← readSide_isSome]
  unfold decodeTrade
  cases hs : readSide b 19 with
  | none => simp
  | some side => simp

/-- Behind the length check only the side and the shares can be refused. -/
theorem decodeBody_isOk {b : List Byte} (ht : byteAt b 0 ∈ supportedTypes) :
    (∃ m, decodeBody (byteAt b 0) b = .ok m) ↔ FieldsOk b := by
  obtain ⟨hS, hR, hA, hF, hE, hC, hX, hD, hU, hP⟩ := decodeBody_cases b
  have hfree : ∀ {type : Byte} {r : Except DecodeError Message}, byteAt b 0 = type → decodeBody type b = r →
      (∃ m, r = .ok m) → type ∉ [ascii 'A', ascii 'F', ascii 'P'] →
      ((∃ m, decodeBody (byteAt b 0) b = .ok m) ↔ FieldsOk b) := by
    rintro type r rfl hr hok hn
    refine iff_of_true (hr ▸ hok) ⟨fun h => absurd h hn, fun h => absurd ?_ hn⟩
    rcases List.mem_cons.mp h with h | h
    · rw [h]
      decide
    · rw [List.mem_singleton.mp h]
      decide
  simp only [supportedTypes, List.mem_cons, List.not_mem_nil, or_false] at ht
  rcases ht with h | h | h | h | h | h | h | h | h | h
  · exact hfree h hS ⟨_, rfl⟩ (by decide)
  · exact hfree h hR ⟨_, rfl⟩ (by decide)
  · unfold FieldsOk
    rw [h, hA, decodeAddOrder_isOk]
    exact ⟨fun h' => ⟨fun _ => h'.1, fun _ => h'.2⟩, fun h' => ⟨h'.1 (by decide), h'.2 (by decide)⟩⟩
  · unfold FieldsOk
    rw [h, hF, decodeAddOrder_isOk]
    exact ⟨fun h' => ⟨fun _ => h'.1, fun _ => h'.2⟩, fun h' => ⟨h'.1 (by decide), h'.2 (by decide)⟩⟩
  · exact hfree h hE ⟨_, rfl⟩ (by decide)
  · exact hfree h hC ⟨_, rfl⟩ (by decide)
  · exact hfree h hX ⟨_, rfl⟩ (by decide)
  · exact hfree h hD ⟨_, rfl⟩ (by decide)
  · exact hfree h hU ⟨_, rfl⟩ (by decide)
  · unfold FieldsOk
    rw [h, hP, decodeTrade_isOk]
    exact ⟨fun h' => ⟨fun _ => h', fun h'' => absurd h'' (by decide)⟩, fun h' => h'.1 (by decide)⟩

theorem decode_isOk {b : List Byte} :
    (∃ m, decode b = .ok m) ↔ byteAt b 0 ∈ supportedTypes ∧ b.length = messageLength (byteAt b 0) ∧ FieldsOk b := by
  constructor
  · rintro ⟨m, h⟩
    obtain ⟨hlen, hpos, hbody⟩ := decode_ok h
    have ht := supported_of_length (hlen ▸ hpos)
    exact ⟨ht, hlen, (decodeBody_isOk ht).mp ⟨m, hbody⟩⟩
  · rintro ⟨ht, hlen, hf⟩
    have hpos : 0 < b.length := by
      rw [hlen]
      exact (by decide +kernel : ∀ type ∈ supportedTypes, 0 < messageLength type) _ ht
    rw [decode_typed hlen hpos]
    exact (decodeBody_isOk ht).mpr hf

/-! ## The round trip -/

theorem fits_of_encodable {m : Message} (h : m.Encodable) : m.fits = true := by
  unfold Message.fits
  cases hp : m.wirePrice with
  | none => rfl
  | some px =>
    have := h.2.1 px hp
    simp only [Option.all_some, fitsWirePrice, Bool.and_eq_true, decide_eq_true_eq]
    omega

theorem not_fits_iff (m : Message) : ¬m.fits = true ↔ ∃ px, m.wirePrice = some px ∧ ¬(0 ≤ px ∧ px ≤ 2 ^ 32 - 1) := by
  unfold Message.fits
  cases hp : m.wirePrice with
  | none => simp
  | some px =>
    simp only [Option.all_some, fitsWirePrice, Bool.and_eq_true, decide_eq_true_eq, Option.some.injEq, exists_eq_left']
    omega

theorem encode_written {m : Message} (ht : m.Typed) (hf : m.fits = true) {out : List Byte}
    (hout : m.wireLength ≤ out.length) :
    (encode m out).2 = m.wireLength ∧ (encode m out).1.take m.wireLength = bytes m.fields ∧
      (encode m out).1.drop m.wireLength = out.drop m.wireLength := by
  have hlen : (bytes m.fields).length = m.wireLength := by rw [Be.length_bytes, Message.span_fields ht]
  rw [encode_eq_emit, Be.emit_written hout hf (Message.tiles_fields ht) (Message.span_fields ht)]
  refine ⟨rfl, ?_, ?_⟩
  · rw [List.take_append_of_le_length hlen.ge, List.take_of_length_le hlen.le]
  · rw [List.drop_append, List.drop_eq_nil_of_le hlen.le, List.nil_append, hlen, Nat.sub_self, List.drop_zero]

/-- **The ITCH codec over the whole format.** Decoding what was encoded delivers the message; encoding
what was decoded gives the bytes back, with `N` for a printable flag that was neither `Y` nor `N`;
`decode` accepts exactly the messages of a supported type, of its length, with a known side in `A`, `F`
and `P` and shares in `A` and `F`; and `encode` returns 0, with the buffer untouched, exactly when the
buffer is too small or the price does not fit. -/
theorem itch_codec_round_trip :
    (∀ m : Message, m.Typed → m.Encodable → ∀ out, m.wireLength ≤ out.length →
      (encode m out).2 = m.wireLength ∧ decode ((encode m out).1.take m.wireLength) = .ok m ∧
      (encode m out).1.drop m.wireLength = out.drop m.wireLength) ∧
    (∀ b m, decode b = .ok m → ∀ out, b.length ≤ out.length →
      (encode m out).2 = b.length ∧ (encode m out).1.take b.length = canonical b) ∧
    (∀ b, (∃ m, decode b = .ok m) ↔
      byteAt b 0 ∈ supportedTypes ∧ b.length = messageLength (byteAt b 0) ∧
      (byteAt b 0 ∈ [ascii 'A', ascii 'F', ascii 'P'] → byteAt b 19 = ascii 'B' ∨ byteAt b 19 = ascii 'S') ∧
      (byteAt b 0 ∈ [ascii 'A', ascii 'F'] → loadAt b 20 4 ≠ 0)) ∧
    ∀ m out, ((encode m out).2 = 0 ↔
        out.length < m.wireLength ∨ ∃ px, m.wirePrice = some px ∧ ¬(0 ≤ px ∧ px ≤ 2 ^ 32 - 1)) ∧
      ((encode m out).2 = 0 → (encode m out).1 = out) := by
  refine ⟨fun m ht he out hout => ?_, fun b m h out hout => ?_, fun b => decode_isOk, fun m out => ?_⟩
  · obtain ⟨h₁, h₂, h₃⟩ := encode_written ht (fits_of_encodable he) hout
    exact ⟨h₁, by rw [h₂]; exact decode_fields ht he, h₃⟩
  · have hr := reads_decode h
    have hlen : m.wireLength = b.length := by
      rw [hr.length]
      unfold canonical
      split_ifs
      · exact List.length_set
      · rfl
    obtain ⟨h₁, h₂, _⟩ := encode_written hr.typed hr.fits (hlen ▸ hout)
    rw [hlen] at h₁ h₂
    exact ⟨h₁, h₂.trans hr.bytes_eq⟩
  · have hiff : (encode m out).2 = 0 ↔ out.length < m.wireLength ∨ ¬m.fits = true := by
      rw [encode_eq_emit]
      exact Be.emit_eq_zero m.wireLength_pos
    refine ⟨by rw [hiff, not_fits_iff], fun h => ?_⟩
    rw [encode_eq_emit, Be.emit_refused _ (hiff.mp h)]

/-- A `C` message whose printable flag is a blank. -/
def blankFlag : List Byte := ascii 'C' :: List.replicate 30 0 ++ [ascii ' ', 0, 0, 0, 1]

/-- It comes back with `N` for its flag and nothing else changed. -/
theorem itch_codec_round_trip_flag :
    ∃ m, decode blankFlag = .ok m ∧
      (encode m (List.replicate 36 7)).1.take 36 = ascii 'C' :: List.replicate 30 0 ++ [ascii 'N', 0, 0, 0, 1] := by
  obtain ⟨m, hm⟩ := (itch_codec_round_trip.2.2.1 blankFlag).mpr (by decide)
  exact ⟨m, hm, (itch_codec_round_trip.2.1 blankFlag m hm (List.replicate 36 7) (by decide)).2⟩

end OptiTrade.Itch
