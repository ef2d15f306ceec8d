import OptiTrade.Foundations.Bytes

/-! # Records of fields at fixed offsets

A writer puts each field at its own offset into a buffer. When the fields tile the record, what it
leaves is the concatenation of the fields, a reader finds each field where it was put, and a record
whose fields were read back one by one is the record itself. -/

namespace OptiTrade.Be
set_option autoImplicit false

/-- The fields of a record with their offsets, in the order in which they are written. -/
abbrev Fields := List (Nat × List Byte)

/-- The buffer after writing `bs` at `off`. -/
def put (out : List Byte) (off : Nat) (bs : List Byte) : List Byte := out.take off ++ bs ++ out.drop (off + bs.length)

/-- The fields are written one after the other. -/
def putAll (out : List Byte) (fs : Fields) : List Byte := fs.foldl (fun o f => put o f.1 f.2) out

/-- The bytes of the fields, one after the other. -/
def bytes (fs : Fields) : List Byte := fs.flatMap Prod.snd

/-- Each field starts where the one before it ended, the first at `n`. -/
def Tiles : Nat → Fields → Prop
  | _, [] => True
  | n, (off, bs) :: fs => off = n ∧ Tiles (n + bs.length) fs

theorem length_put {out : List Byte} {off : Nat} {bs : List Byte} (h : off + bs.length ≤ out.length) :
    (put out off bs).length = out.length := by
  simp only [put, List.length_append, List.length_take, List.length_drop]
  omega

theorem take_put {out : List Byte} {off : Nat} {bs : List Byte} (h : off + bs.length ≤ out.length) :
    (put out off bs).take (off + bs.length) = out.take off ++ bs := by
  refine List.take_left' ?_
  rw [List.length_append, List.length_take]
  omega

@[simp] theorem bytes_nil : bytes [] = [] := rfl

@[simp] theorem bytes_cons (off : Nat) (bs : List Byte) (fs : Fields) : bytes ((off, bs) :: fs) = bs ++ bytes fs := rfl

/-- The length of the record. -/
def span (fs : Fields) : Nat := (fs.map fun f => f.2.length).sum

@[simp] theorem length_bytes (fs : Fields) : (bytes fs).length = span fs := by
  induction fs with
  | nil => rfl
  | cons f fs ih => simp [span, ← ih, bytes]

theorem putAll_tiles {fs : Fields} {n : Nat} {out : List Byte} (h : Tiles n fs) (hlen : n + span fs ≤ out.length) :
    putAll out fs = out.take n ++ bytes fs ++ out.drop (n + span fs) := by
  induction fs generalizing n out with
  | nil => simp [putAll, span]
  | cons f fs ih =>
    obtain ⟨off, bs⟩ := f
    obtain ⟨rfl, h⟩ := h
    have hspan : span ((off, bs) :: fs) = bs.length + span fs := by simp [span]
    rw [hspan] at hlen ⊢
    have hpre : (out.take off ++ bs).length = off + bs.length := by
      rw [List.length_append, List.length_take]
      omega
    have hput : (put out off bs).length = out.length := length_put (by omega)
    show putAll (put out off bs) fs = _
    rw [ih h (by rw [hput]; omega)]
    unfold put
    rw [List.take_append_of_le_length (by omega), List.take_of_length_le (by omega), bytes_cons,
      List.drop_append, List.drop_eq_nil_of_le (by omega), List.nil_append, List.drop_drop, hpre]
    simp only [List.append_assoc]
    congr 4
    omega

theorem slice_tiles {fs : Fields} {n off : Nat} {bs : List Byte} (h : Tiles n fs) (hm : (off, bs) ∈ fs) :
    n ≤ off ∧ slice (bytes fs) (off - n) bs.length = bs := by
  induction fs generalizing n with
  | nil => cases hm
  | cons f fs ih =>
    obtain ⟨off', bs'⟩ := f
    obtain ⟨rfl, h⟩ := h
    rcases List.mem_cons.mp hm with heq | hm
    · cases heq
      refine ⟨le_refl _, ?_⟩
      rw [Nat.sub_self, bytes_cons]
      exact slice_append_left rfl
    · obtain ⟨hle, hs⟩ := ih h hm
      refine ⟨by omega, ?_⟩
      rw [bytes_cons, slice_append_right (by omega), Nat.sub_sub]
      exact hs

section
variable {fs : Fields} {off : Nat}

theorem slice_field {bs : List Byte} {w : Nat} (h : Tiles 0 fs) (hm : (off, bs) ∈ fs) (hw : bs.length = w) :
    slice (bytes fs) off w = bs := by
  subst hw
  exact (slice_tiles h hm).2

theorem loadAt_field {w v : Nat} (h : Tiles 0 fs) (hm : (off, store w v) ∈ fs) (hv : v < 256 ^ w) :
    loadAt (bytes fs) off w = v := by
  unfold loadAt
  rw [slice_field h hm (length_store w v), load_store_of_lt hv]

theorem byteAt_eq_slice {p : List Byte} {b : Byte} (h : slice p off 1 = [b]) : byteAt p off = b := by
  have hget : p[off]? = some b := by
    have := congrArg List.head? h
    simpa [slice, List.head?_take, List.head?_drop] using this
  unfold byteAt
  rw [List.getD_eq_getElem?_getD, hget]
  rfl

theorem byteAt_field {b : Byte} (h : Tiles 0 fs) (hm : (off, [b]) ∈ fs) : byteAt (bytes fs) off = b :=
  byteAt_eq_slice (slice_field h hm rfl)

end

theorem loadAt_low {fs : Fields} {off : Nat} {v : Int} (h : Tiles 0 fs)
    (hm : (off, store 4 (v % 4294967296).toNat) ∈ fs) (hv : 0 ≤ v ∧ v ≤ 2 ^ 32 - 1) :
    (loadAt (bytes fs) off 4 : Int) = v := by
  have hval : (v % 4294967296).toNat < 256 ^ 4 := by omega
  rw [loadAt_field h hm hval]
  omega

/-! ## From a record back to its fields -/

theorem store_load (bs : List Byte) : store bs.length (load bs) = bs := by
  induction bs using List.reverseRecOn with
  | nil => rfl
  | append_singleton bs b ih =>
    have hb : b.toNat < 256 := b.toNat_lt
    rw [load_append_singleton, List.length_append, List.length_singleton, store]
    have hdiv : (load bs * 256 + b.toNat) / 256 = load bs := by omega
    have hmod : UInt8.ofNat (load bs * 256 + b.toNat) = b := by
      apply UInt8.toNat_inj.mp
      rw [UInt8.toNat_ofNat']
      omega
    rw [hdiv, ih, hmod]

theorem length_slice {p : List Byte} {off w : Nat} (h : off + w ≤ p.length) : (slice p off w).length = w := by
  simp only [slice, List.length_take, List.length_drop]
  omega

theorem store_loadAt {p : List Byte} {off w : Nat} (h : off + w ≤ p.length) :
    store w (loadAt p off w) = slice p off w := by
  have hlen := length_slice h
  calc store w (loadAt p off w) = store (slice p off w).length (load (slice p off w)) := by rw [hlen]; rfl
    _ = slice p off w := store_load _

theorem slice_one {p : List Byte} {off : Nat} (h : off + 1 ≤ p.length) : slice p off 1 = [byteAt p off] := by
  unfold slice byteAt
  have hlt : off < p.length := by omega
  rw [List.getD_eq_getElem _ _ hlt, List.drop_eq_getElem_cons hlt]
  rfl

theorem slice_store {p : List Byte} {off w : Nat} (h : off + w ≤ p.length) :
    slice p off (store w (loadAt p off w)).length = store w (loadAt p off w) := by
  rw [length_store, store_loadAt h]

theorem slice_low {p : List Byte} {off : Nat} (h : off + 4 ≤ p.length) :
    slice p off (store 4 ((loadAt p off 4 : Int) % 4294967296).toNat).length =
      store 4 ((loadAt p off 4 : Int) % 4294967296).toNat := by
  have hlt := loadAt_lt p off 4
  have hval : ((loadAt p off 4 : Int) % 4294967296).toNat = loadAt p off 4 := by omega
  rw [hval]
  exact slice_store h

theorem slice_byte {p : List Byte} {off : Nat} (h : off + 1 ≤ p.length) :
    slice p off [byteAt p off].length = [byteAt p off] := slice_one h

theorem bytes_eq {fs : Fields} {n : Nat} {p : List Byte} (h : Tiles n fs) (hlen : n + span fs = p.length)
    (hf : ∀ f ∈ fs, slice p f.1 f.2.length = f.2) : bytes fs = p.drop n := by
  induction fs generalizing n with
  | nil =>
    have : n = p.length := by simpa [span] using hlen
    rw [this, List.drop_length]
    rfl
  | cons f fs ih =>
    obtain ⟨off, bs⟩ := f
    obtain ⟨rfl, h⟩ := h
    have hspan : span ((off, bs) :: fs) = bs.length + span fs := by simp [span]
    have hrest := ih h (by omega) fun f hm => hf f (List.mem_cons_of_mem _ hm)
    have hhead : slice p off bs.length = bs := hf (off, bs) List.mem_cons_self
    rw [bytes_cons, hrest, ← List.drop_drop]
    unfold slice at hhead
    nth_rewrite 1 [← hhead]
    exact List.take_append_drop _ _

theorem slice_set {p : List Byte} {off w i : Nat} (b : Byte) (h : i < off ∨ off + w ≤ i) :
    slice (p.set i b) off w = slice p off w := by
  unfold slice
  rcases h with h | h
  · rw [List.drop_set_of_lt h]
  · rw [List.drop_set, if_neg (by omega), List.take_set_of_le (by omega)]

theorem loadAt_set {p : List Byte} {off w i : Nat} (b : Byte) (h : i < off ∨ off + w ≤ i) :
    loadAt (p.set i b) off w = loadAt p off w := by
  unfold loadAt
  rw [slice_set b h]

theorem byteAt_set {p : List Byte} {i : Nat} (b : Byte) (h : i < p.length) : byteAt (p.set i b) i = b := by
  unfold byteAt
  rw [List.getD_eq_getElem _ _ (by rw [List.length_set]; exact h), List.getElem_set_self]

theorem byteAt_set_ne {p : List Byte} {i off : Nat} (b : Byte) (h : i ≠ off) :
    byteAt (p.set i b) off = byteAt p off := by
  unfold byteAt
  rw [List.getD_eq_getElem?_getD, List.getD_eq_getElem?_getD, List.getElem?_set_ne h]

/-! ## Writing a record -/

/-- The buffer and the number of bytes written: the record, or nothing and 0 when there is no room for
it or its values do not fit. -/
def emit (out : List Byte) (len : Nat) (fits : Bool) (fs : Fields) : List Byte × Nat :=
  if out.length < len ∨ ¬fits then (out, 0) else (putAll out fs, len)

theorem emit_refused {out : List Byte} {len : Nat} {fits : Bool} (fs : Fields) (h : out.length < len ∨ ¬fits) :
    emit out len fits fs = (out, 0) := if_pos h

theorem emit_written {out : List Byte} {len : Nat} {fits : Bool} {fs : Fields} (hlen : len ≤ out.length)
    (hfits : fits = true) (ht : Tiles 0 fs) (hs : span fs = len) :
    emit out len fits fs = (bytes fs ++ out.drop len, len) := by
  unfold emit
  rw [if_neg (by rw [hfits]; simpa using hlen), putAll_tiles ht (by omega), hs]
  simp

theorem emit_eq_zero {out : List Byte} {len : Nat} {fits : Bool} {fs : Fields} (hpos : 0 < len) :
    (emit out len fits fs).2 = 0 ↔ out.length < len ∨ ¬fits := by
  unfold emit
  split_ifs with h
  · exact iff_of_true rfl h
  · exact iff_of_false (by simpa using hpos.ne') h

end OptiTrade.Be
