import Mathlib.Data.List.Induction
import OptiTrade.Foundations.Masks
import OptiTrade.Foundations.Runs

/-! # The single-producer single-consumer ring

`try_push` and `try_pop` are cut at every access to shared memory: a load of an index, a slot access
and a store of an index are one step each, and the two threads and any number of occupancy snapshots
interleave freely. The cached indices belong to one thread, so the test against a cached index is
part of the step before it. -/

namespace OptiTrade.Core
set_option autoImplicit false

open Runs

/-- Throws from the largest power of two that the type holds on. -/
def roundedCapacity (capacity : UInt64) : Option UInt64 :=
  if 2 ^ 63 < capacity.toNat then none
  else some (UInt64.ofNat (bitCeil (if capacity.toNat < 2 then 2 else capacity.toNat)))

/-- The shared part of the ring. -/
structure SpscRing (α : Type) where
  cap : UInt64
  buf : Nat → α
  head : UInt64
  cachedTail : UInt64
  tail : UInt64
  cachedHead : UInt64

namespace SpscRing
variable {α : Type}

def mask (r : SpscRing α) : UInt64 := r.cap - 1

/-- The slot of a counter value. -/
def index (r : SpscRing α) (n : UInt64) : Nat := (n &&& r.mask).toNat

end SpscRing

/-- Where the producer is inside `try_push`. -/
inductive Producer (α : Type)
  | idle
  /-- The ring looked full; `head_` is loaded next. -/
  | reload (v : α) (t : UInt64)
  | write (v : α) (t : UInt64)
  | publish (v : α) (t : UInt64)

/-- Where the consumer is inside `try_pop`. -/
inductive Consumer (α : Type)
  | idle
  /-- The ring looked empty; `tail_` is loaded next. -/
  | reload (h : UInt64)
  | read (h : UInt64)
  | release (out : α) (h : UInt64)

/-- The ring, its two threads, a thread inside `size_approx`, and what has come of the calls. -/
structure Channel (α : Type) where
  ring : SpscRing α
  producer : Producer α := .idle
  consumer : Consumer α := .idle
  observer : Option UInt64 := none
  pushed : List α := []
  popped : List α := []
  sizes : List UInt64 := []

/-- What a thread may do next: begin a call, or make the next access of the one it is in. -/
inductive Access (α : Type)
  /-- `try_push` begins: the load of `tail_`. -/
  | push (v : α)
  | produce
  /-- `try_pop` begins: the load of `head_`. -/
  | pop
  | consume
  /-- `size_approx` begins: the load of `head_`. -/
  | measure
  | size

namespace Channel
variable {α : Type}

/-- A ring whose counters have come to `start`. -/
def new (cap start : UInt64) (buf : Nat → α) : Channel α :=
  { ring := { cap := cap, buf := buf, head := start, cachedTail := start, tail := start, cachedHead := start } }

/-- One access; `none` when the thread is not at it. -/
def step (c : Channel α) : Access α → Option (Channel α)
  | .push v =>
    match c.producer with
    | .idle =>
      let t := c.ring.tail
      some { c with producer := if c.ring.cap ≤ t - c.ring.cachedHead then .reload v t else .write v t }
    | _ => none
  | .produce =>
    match c.producer with
    | .idle => none
    | .reload v t =>
      let ring := { c.ring with cachedHead := c.ring.head }
      some { c with ring := ring, producer := if ring.cap ≤ t - ring.cachedHead then .idle else .write v t }
    | .write v t =>
      some { c with
        ring := { c.ring with buf := Function.update c.ring.buf (c.ring.index t) v }
        producer := .publish v t }
    | .publish v t =>
      some { c with ring := { c.ring with tail := t + 1 }, producer := .idle, pushed := c.pushed ++ [v] }
  | .pop =>
    match c.consumer with
    | .idle =>
      let h := c.ring.head
      some { c with consumer := if h = c.ring.cachedTail then .reload h else .read h }
    | _ => none
  | .consume =>
    match c.consumer with
    | .idle => none
    | .reload h =>
      let ring := { c.ring with cachedTail := c.ring.tail }
      some { c with ring := ring, consumer := if h = ring.cachedTail then .idle else .read h }
    | .read h => some { c with consumer := .release (c.ring.buf (c.ring.index h)) h }
    | .release out h =>
      some { c with ring := { c.ring with head := h + 1 }, consumer := .idle, popped := c.popped ++ [out] }
  | .measure =>
    match c.observer with
    | none => some { c with observer := some c.ring.head }
    | some _ => none
  | .size =>
    match c.observer with
    | none => none
    | some h => some { c with observer := none, sizes := c.sizes ++ [min (c.ring.tail - h) c.ring.cap] }

/-! ## Free-running counters -/

/-- The counter `start` after `n` increments. -/
def counter (start : UInt64) (n : Nat) : UInt64 := start + UInt64.ofNat n

theorem counter_toNat (start : UInt64) (n : Nat) : (counter start n).toNat = (start.toNat + n) % 2 ^ 64 := by
  unfold counter
  rw [UInt64.toNat_add, UInt64.toNat_ofNat']
  omega

theorem counter_succ (start : UInt64) (n : Nat) : counter start n + 1 = counter start (n + 1) := by
  apply UInt64.toNat_inj.mp
  rw [UInt64.toNat_add, counter_toNat, counter_toNat, UInt64.toNat_one]
  omega

theorem counter_sub (start : UInt64) {a b : Nat} (hba : b ≤ a) (hlt : a < b + 2 ^ 64) :
    (counter start a - counter start b).toNat = a - b := by
  rw [UInt64.toNat_sub, counter_toNat, counter_toNat]
  have := UInt64.toNat_lt start
  omega

theorem counter_mask (start : UInt64) (n : Nat) {k : Nat} (hk : k ≤ 63) :
    (counter start n &&& (UInt64.ofNat (2 ^ k) - 1)).toNat = (start.toNat + n) % 2 ^ k := by
  have hpos : 0 < 2 ^ k := Nat.two_pow_pos k
  have hle : 2 ^ k ≤ 2 ^ 63 := Nat.pow_le_pow_right (by decide) hk
  have hmask : (UInt64.ofNat (2 ^ k) - 1).toNat = 2 ^ k - 1 := by
    rw [UInt64.toNat_sub, UInt64.toNat_ofNat', UInt64.toNat_one]
    omega
  rw [UInt64.toNat_and, hmask, and_mask, counter_toNat, Nat.mod_mod_of_dvd _ (Nat.pow_dvd_pow 2 (by omega))]

/-! ## The invariant -/

/-- By its own cached head the producer has room for one more value. -/
def HasRoom (start : UInt64) (k : Nat) (c : Channel α) : Prop :=
  ∃ n ≤ c.popped.length, c.ring.cachedHead = counter start n ∧ c.pushed.length < n + 2 ^ k

/-- What the producer holds on to: the tail it has loaded, and room for one more value. -/
def ProducerOk (start : UInt64) (k : Nat) (c : Channel α) : Prop :=
  match c.producer with
  | .idle => True
  | .reload _ t => t = counter start c.pushed.length
  | .write _ t => t = counter start c.pushed.length ∧ HasRoom start k c
  | .publish v t => t = counter start c.pushed.length ∧ HasRoom start k c ∧
      c.ring.buf ((start.toNat + c.pushed.length) % 2 ^ k) = v

/-- By its own cached tail the consumer has a value to take. -/
def HasValue (start : UInt64) (c : Channel α) : Prop :=
  ∃ n ≤ c.pushed.length, c.ring.cachedTail = counter start n ∧ c.popped.length < n

/-- What the consumer holds on to: the head it has loaded, and a value to take. -/
def ConsumerOk (start : UInt64) (c : Channel α) : Prop :=
  match c.consumer with
  | .idle => True
  | .reload h => h = counter start c.popped.length
  | .read h => h = counter start c.popped.length ∧ HasValue start c
  | .release out h => h = counter start c.popped.length ∧ HasValue start c ∧
      c.pushed[c.popped.length]? = some out

/-- The counters count the pushes and pops, the slots between them hold the values in order, and
each cached index is a value the other counter had. -/
structure Inv (start : UInt64) (k : Nat) (c : Channel α) : Prop where
  cap : c.ring.cap = UInt64.ofNat (2 ^ k)
  taken : c.popped = c.pushed.take c.popped.length
  room : c.pushed.length ≤ c.popped.length + 2 ^ k
  head : c.ring.head = counter start c.popped.length
  tail : c.ring.tail = counter start c.pushed.length
  contents : ∀ i v, c.popped.length ≤ i → c.pushed[i]? = some v → c.ring.buf ((start.toNat + i) % 2 ^ k) = v
  cachedHead : ∃ n ≤ c.popped.length, c.ring.cachedHead = counter start n ∧ c.pushed.length ≤ n + 2 ^ k
  cachedTail : ∃ n ≤ c.pushed.length, c.ring.cachedTail = counter start n ∧ c.popped.length ≤ n
  producer : ProducerOk start k c
  consumer : ConsumerOk start c
  sizes : ∀ n ∈ c.sizes, n ≤ c.ring.cap

variable {start : UInt64} {k : Nat} {c c' : Channel α}

theorem Inv.le (h : Inv start k c) : c.popped.length ≤ c.pushed.length := by
  have := congrArg List.length h.taken
  rw [List.length_take] at this
  omega

theorem HasRoom.lt (h : HasRoom start k c) : c.pushed.length < c.popped.length + 2 ^ k := by
  obtain ⟨n, hn, _, hlt⟩ := h
  omega

theorem HasValue.lt (h : HasValue start c) : c.popped.length < c.pushed.length := by
  obtain ⟨n, hn, _, hlt⟩ := h
  omega

theorem cap_toNat (hk : k ≤ 63) : (UInt64.ofNat (2 ^ k)).toNat = 2 ^ k := by
  have hle : 2 ^ k ≤ 2 ^ 63 := Nat.pow_le_pow_right (by decide) hk
  rw [UInt64.toNat_ofNat']
  exact Nat.mod_eq_of_lt (hle.trans_lt (by decide))

theorem looks_full (hk : k ≤ 63) {m n : Nat} (hn : n ≤ m) (hm : m ≤ n + 2 ^ k) :
    UInt64.ofNat (2 ^ k) ≤ counter start m - counter start n ↔ m = n + 2 ^ k := by
  have hle : 2 ^ k ≤ 2 ^ 63 := Nat.pow_le_pow_right (by decide) hk
  rw [UInt64.le_iff_toNat_le, cap_toNat hk, counter_sub start hn (by omega)]
  omega

theorem Inv.index (h : Inv start k c) (hk : k ≤ 63) (n : Nat) :
    c.ring.index (counter start n) = (start.toNat + n) % 2 ^ k := by
  unfold SpscRing.index SpscRing.mask
  rw [h.cap]
  exact counter_mask start n hk

theorem slot_free {m n i : Nat} (hm : m < n + 2 ^ k) (hni : n ≤ i) (hi : i < m) :
    (start.toNat + i) % 2 ^ k ≠ (start.toNat + m) % 2 ^ k := by
  intro h
  have := eq_of_mod_eq (by omega) (by omega) h
  omega

theorem Inv.new {cap : UInt64} (hcap : cap = UInt64.ofNat (2 ^ k)) (buf : Nat → α) :
    Inv start k (new cap start buf) := by
  have hz : start = counter start 0 := by
    apply UInt64.toNat_inj.mp
    rw [counter_toNat, Nat.add_zero, Nat.mod_eq_of_lt (UInt64.toNat_lt start)]
  refine ⟨hcap, rfl, Nat.zero_le _, hz, hz, ?_, ⟨0, le_refl _, hz, Nat.zero_le _⟩, ⟨0, le_refl _, hz, le_refl _⟩,
    trivial, trivial, ?_⟩
  · intro i v _ hv
    cases hv
  · intro n hn
    cases hn

/-- A step of the producer. -/
theorem Inv.produce (h : Inv start k c) (hk : k ≤ 63) (hs : c.step .produce = some c') : Inv start k c' := by
  have hle := h.le
  have hprod := h.producer
  unfold ProducerOk at hprod
  simp only [step] at hs
  cases hp : c.producer with
  | idle =>
    rw [hp] at hs
    cases hs
  | reload v t =>
    rw [hp] at hs hprod
    obtain rfl := Option.some.inj hs
    refine ⟨h.cap, h.taken, h.room, h.head, h.tail, h.contents, ⟨_, le_refl _, h.head, h.room⟩, h.cachedTail, ?_,
      h.consumer, h.sizes⟩
    -- the load of `head_` is exact, so below capacity there is room
    unfold ProducerOk
    dsimp only
    rw [hprod, h.cap, h.head]
    split_ifs with hfull
    · trivial
    · rw [looks_full hk hle h.room] at hfull
      have hroom := h.room
      exact ⟨rfl, c.popped.length, le_refl _, rfl, by show c.pushed.length < _; omega⟩
  | write v t =>
    rw [hp] at hs hprod
    obtain ⟨rfl, hroom⟩ := hprod
    obtain rfl := Option.some.inj hs
    have hbuf : Function.update c.ring.buf (c.ring.index (counter start c.pushed.length)) v
        ((start.toNat + c.pushed.length) % 2 ^ k) = v := by
      rw [h.index hk]
      exact Function.update_self _ _ _
    refine ⟨h.cap, h.taken, h.room, h.head, h.tail, ?_, h.cachedHead, h.cachedTail, ⟨rfl, hroom, hbuf⟩,
      h.consumer, h.sizes⟩
    intro i w hi hw
    show Function.update c.ring.buf (c.ring.index _) v _ = w
    have hlt : i < c.pushed.length := (List.getElem?_eq_some_iff.mp hw).1
    rw [h.index hk, Function.update_of_ne (slot_free hroom.lt hi hlt)]
    exact h.contents i w hi hw
  | publish v t =>
    rw [hp] at hs hprod
    obtain ⟨rfl, hroom, hbuf⟩ := hprod
    obtain rfl := Option.some.inj hs
    have hlt := hroom.lt
    obtain ⟨n, hn, hch, hnr⟩ := hroom
    obtain ⟨p, hp₁, hct, hp₂⟩ := h.cachedTail
    have hlen : (c.pushed ++ [v]).length = c.pushed.length + 1 := by simp
    refine ⟨h.cap, ?_, ?_, h.head, ?_, ?_, ⟨n, hn, hch, ?_⟩, ⟨p, ?_, hct, hp₂⟩, trivial, ?_, h.sizes⟩
    · show c.popped = (c.pushed ++ [v]).take c.popped.length
      rw [List.take_append_of_le_length hle]
      exact h.taken
    · show (c.pushed ++ [v]).length ≤ c.popped.length + 2 ^ k
      omega
    · show counter start c.pushed.length + 1 = counter start (c.pushed ++ [v]).length
      rw [hlen, counter_succ]
    · intro i w hi hw
      rcases Nat.lt_or_ge i c.pushed.length with hlt | hge
      · rw [List.getElem?_append_left hlt] at hw
        exact h.contents i w hi hw
      · have hilt : i < (c.pushed ++ [v]).length := (List.getElem?_eq_some_iff.mp hw).1
        obtain rfl : i = c.pushed.length := by omega
        rw [List.getElem?_concat_length] at hw
        rw [← Option.some.inj hw]
        exact hbuf
    · show (c.pushed ++ [v]).length ≤ n + 2 ^ k
      omega
    · show p ≤ (c.pushed ++ [v]).length
      omega
    · -- a value the consumer holds is still where it was in the sequence
      have hcons := h.consumer
      have hmore : HasValue start c → ∃ n ≤ (c.pushed ++ [v]).length,
          c.ring.cachedTail = counter start n ∧ c.popped.length < n := by
        rintro ⟨q, hq, hq'⟩
        exact ⟨q, by omega, hq'⟩
      unfold ConsumerOk at hcons ⊢
      cases hc : c.consumer with
      | idle => trivial
      | reload g =>
        rw [hc] at hcons
        exact hcons
      | read g =>
        rw [hc] at hcons
        exact ⟨hcons.1, hmore hcons.2⟩
      | release out g =>
        rw [hc] at hcons
        refine ⟨hcons.1, hmore hcons.2.1, ?_⟩
        show (c.pushed ++ [v])[c.popped.length]? = some out
        rw [List.getElem?_append_left hcons.2.1.lt]
        exact hcons.2.2

/-- A step of the consumer. -/
theorem Inv.consume (h : Inv start k c) (hk : k ≤ 63) (hs : c.step .consume = some c') : Inv start k c' := by
  have hle := h.le
  have hcap : 2 ^ k ≤ 2 ^ 63 := Nat.pow_le_pow_right (by decide) hk
  have hcons := h.consumer
  unfold ConsumerOk at hcons
  simp only [step] at hs
  cases hc : c.consumer with
  | idle =>
    rw [hc] at hs
    cases hs
  | reload g =>
    rw [hc] at hs hcons
    obtain rfl := Option.some.inj hs
    refine ⟨h.cap, h.taken, h.room, h.head, h.tail, h.contents, h.cachedHead, ⟨_, le_refl _, h.tail, hle⟩,
      h.producer, ?_, h.sizes⟩
    unfold ConsumerOk
    dsimp only
    rw [hcons, h.tail]
    split_ifs with hempty
    · trivial
    · refine ⟨rfl, c.pushed.length, le_refl _, rfl, lt_of_le_of_ne hle fun heq => hempty ?_⟩
      rw [show c.popped.length = c.pushed.length from heq]
  | read g =>
    rw [hc] at hs hcons
    obtain ⟨rfl, hval⟩ := hcons
    obtain rfl := Option.some.inj hs
    have hget : c.pushed[c.popped.length]? = some (c.pushed.get ⟨c.popped.length, hval.lt⟩) :=
      List.getElem?_eq_getElem hval.lt
    refine ⟨h.cap, h.taken, h.room, h.head, h.tail, h.contents, h.cachedHead, h.cachedTail, h.producer,
      ⟨rfl, hval, ?_⟩, h.sizes⟩
    show c.pushed[c.popped.length]? = some (c.ring.buf (c.ring.index _))
    rw [h.index hk, h.contents _ _ (le_refl _) hget]
    exact hget
  | release out g =>
    rw [hc] at hs hcons
    obtain ⟨rfl, hval, hout⟩ := hcons
    obtain rfl := Option.some.inj hs
    have hlt := hval.lt
    obtain ⟨n, hn, hch, hnr⟩ := h.cachedHead
    obtain ⟨p, hp₁, hct, hp₂⟩ := hval
    have hlen : (c.popped ++ [out]).length = c.popped.length + 1 := by simp
    have hroom := h.room
    refine ⟨h.cap, ?_, ?_, ?_, h.tail, ?_, ⟨n, ?_, hch, hnr⟩, ⟨p, hp₁, hct, ?_⟩, ?_, trivial, h.sizes⟩
    · show c.popped ++ [out] = c.pushed.take (c.popped ++ [out]).length
      rw [hlen, List.take_add_one, hout, ← h.taken]
      rfl
    · show c.pushed.length ≤ (c.popped ++ [out]).length + 2 ^ k
      omega
    · show counter start c.popped.length + 1 = counter start (c.popped ++ [out]).length
      rw [hlen, counter_succ]
    · intro i w hi hw
      have hi' : (c.popped ++ [out]).length ≤ i := hi
      exact h.contents i w (by omega) hw
    · show n ≤ (c.popped ++ [out]).length
      omega
    · show (c.popped ++ [out]).length ≤ p
      omega
    · -- room only grows
      have hprod := h.producer
      have hmore : HasRoom start k c → ∃ n ≤ (c.popped ++ [out]).length,
          c.ring.cachedHead = counter start n ∧ c.pushed.length < n + 2 ^ k := by
        rintro ⟨q, hq, hq'⟩
        exact ⟨q, by omega, hq'⟩
      unfold ProducerOk at hprod ⊢
      cases hp : c.producer with
      | idle => trivial
      | reload v t =>
        rw [hp] at hprod
        exact hprod
      | write v t =>
        rw [hp] at hprod
        exact ⟨hprod.1, hmore hprod.2⟩
      | publish v t =>
        rw [hp] at hprod
        exact ⟨hprod.1, hmore hprod.2.1, hprod.2.2⟩

/-- **Every access keeps the invariant.** -/
theorem Inv.step (h : Inv start k c) (hk : k ≤ 63) {a : Access α} (hs : c.step a = some c') : Inv start k c' := by
  cases a with
  | push v =>
    simp only [Channel.step] at hs
    cases hp : c.producer with
    | idle =>
      rw [hp] at hs
      obtain rfl := Option.some.inj hs
      refine ⟨h.cap, h.taken, h.room, h.head, h.tail, h.contents, h.cachedHead, h.cachedTail, ?_, h.consumer, h.sizes⟩
      -- a stale head only makes the ring look fuller than it is
      obtain ⟨n, hn, hch, hnr⟩ := h.cachedHead
      have hle := h.le
      unfold ProducerOk
      dsimp only
      rw [h.cap, h.tail, hch]
      split_ifs with hfull
      · rfl
      · rw [looks_full hk (by omega) hnr] at hfull
        exact ⟨rfl, n, hn, hch, by show c.pushed.length < _; omega⟩
    | reload v t => rw [hp] at hs; cases hs
    | write v t => rw [hp] at hs; cases hs
    | publish v t => rw [hp] at hs; cases hs
  | produce => exact h.produce hk hs
  | pop =>
    simp only [Channel.step] at hs
    cases hc : c.consumer with
    | idle =>
      rw [hc] at hs
      obtain rfl := Option.some.inj hs
      refine ⟨h.cap, h.taken, h.room, h.head, h.tail, h.contents, h.cachedHead, h.cachedTail, h.producer, ?_, h.sizes⟩
      obtain ⟨n, hn, hct, hnr⟩ := h.cachedTail
      unfold ConsumerOk
      dsimp only
      rw [h.head, hct]
      split_ifs with hempty
      · rfl
      · refine ⟨rfl, n, hn, hct, lt_of_le_of_ne hnr fun heq => hempty ?_⟩
        rw [show c.popped.length = n from heq]
    | reload g => rw [hc] at hs; cases hs
    | read g => rw [hc] at hs; cases hs
    | release out g => rw [hc] at hs; cases hs
  | consume => exact h.consume hk hs
  | measure =>
    simp only [Channel.step] at hs
    cases ho : c.observer with
    | none =>
      rw [ho] at hs
      obtain rfl := Option.some.inj hs
      exact ⟨h.cap, h.taken, h.room, h.head, h.tail, h.contents, h.cachedHead, h.cachedTail, h.producer, h.consumer,
        h.sizes⟩
    | some g => rw [ho] at hs; cases hs
  | size =>
    simp only [Channel.step] at hs
    cases ho : c.observer with
    | none => rw [ho] at hs; cases hs
    | some g =>
      rw [ho] at hs
      obtain rfl := Option.some.inj hs
      refine ⟨h.cap, h.taken, h.room, h.head, h.tail, h.contents, h.cachedHead, h.cachedTail, h.producer, h.consumer,
        fun n hn => ?_⟩
      rcases List.mem_append.mp hn with hn | hn
      · exact h.sizes n hn
      · rw [List.mem_singleton.mp hn]
        exact Std.min_le_right

theorem Inv.run {as : List (Access α)} (h : Inv start k c) (hk : k ≤ 63) (hr : run Channel.step c as = some c') :
    Inv start k c' :=
  run_invariant (P := Inv start k) (fun _ _ _ h₁ hs => h₁.step hk hs) hr h

/-! ## What the calls see -/

theorem Inv.occupancy (h : Inv start k c) (hk : k ≤ 63) :
    (c.ring.tail - c.ring.head).toNat = c.pushed.length - c.popped.length := by
  have hcap : 2 ^ k ≤ 2 ^ 63 := Nat.pow_le_pow_right (by decide) hk
  have hroom := h.room
  rw [h.tail, h.head, counter_sub start h.le (by omega)]

theorem Inv.slot (h : Inv start k c) (hk : k ≤ 63) (i : Nat) :
    c.ring.index (c.ring.head + UInt64.ofNat i) = (start.toNat + (c.popped.length + i)) % 2 ^ k := by
  have hadd : c.ring.head + UInt64.ofNat i = counter start (c.popped.length + i) := by
    apply UInt64.toNat_inj.mp
    rw [h.head, UInt64.toNat_add, counter_toNat, counter_toNat, UInt64.toNat_ofNat']
    omega
  rw [hadd, h.index hk]

/-- No access touches the slot of a value that is still to be popped. -/
theorem Inv.untouched (h : Inv start k c) (hk : k ≤ 63) {a : Access α} (hs : c.step a = some c') {i : Nat}
    (hi : c.popped.length + i < c.pushed.length) :
    c'.ring.buf (c.ring.index (c.ring.head + UInt64.ofNat i)) =
      c.ring.buf (c.ring.index (c.ring.head + UInt64.ofNat i)) := by
  cases a with
  | push v =>
    simp only [Channel.step] at hs
    split at hs
    · rw [← Option.some.inj hs]
    · cases hs
  | produce =>
    simp only [Channel.step] at hs
    cases hp : c.producer with
    | idle => rw [hp] at hs; cases hs
    | reload v t => rw [hp] at hs; rw [← Option.some.inj hs]
    | write v t =>
      have hprod := h.producer
      unfold ProducerOk at hprod
      rw [hp] at hs hprod
      obtain ⟨rfl, hroom⟩ := hprod
      rw [← Option.some.inj hs, h.slot hk, h.index hk]
      exact Function.update_of_ne (slot_free hroom.lt (by omega) hi) _ _
    | publish v t => rw [hp] at hs; rw [← Option.some.inj hs]
  | pop =>
    simp only [Channel.step] at hs
    split at hs
    · rw [← Option.some.inj hs]
    · cases hs
  | consume =>
    simp only [Channel.step] at hs
    split at hs
    · cases hs
    · rw [← Option.some.inj hs]
    · rw [← Option.some.inj hs]
    · rw [← Option.some.inj hs]
  | measure =>
    simp only [Channel.step] at hs
    split at hs
    · rw [← Option.some.inj hs]
    · cases hs
  | size =>
    simp only [Channel.step] at hs
    split at hs
    · cases hs
    · rw [← Option.some.inj hs]

/-- A cached index is left alone or loaded afresh. -/
theorem step_cached {a : Access α} (hs : c.step a = some c') :
    (c'.ring.cachedHead = c.ring.cachedHead ∨ c'.ring.cachedHead = c.ring.head) ∧
    (c'.ring.cachedTail = c.ring.cachedTail ∨ c'.ring.cachedTail = c.ring.tail) := by
  cases a with
  | push v =>
    simp only [Channel.step] at hs
    split at hs
    · rw [← Option.some.inj hs]
      exact ⟨.inl rfl, .inl rfl⟩
    · cases hs
  | produce =>
    simp only [Channel.step] at hs
    split at hs
    · cases hs
    · rw [← Option.some.inj hs]
      exact ⟨.inr rfl, .inl rfl⟩
    · rw [← Option.some.inj hs]
      exact ⟨.inl rfl, .inl rfl⟩
    · rw [← Option.some.inj hs]
      exact ⟨.inl rfl, .inl rfl⟩
  | pop =>
    simp only [Channel.step] at hs
    split at hs
    · rw [← Option.some.inj hs]
      exact ⟨.inl rfl, .inl rfl⟩
    · cases hs
  | consume =>
    simp only [Channel.step] at hs
    split at hs
    · cases hs
    · rw [← Option.some.inj hs]
      exact ⟨.inl rfl, .inr rfl⟩
    · rw [← Option.some.inj hs]
      exact ⟨.inl rfl, .inl rfl⟩
    · rw [← Option.some.inj hs]
      exact ⟨.inl rfl, .inl rfl⟩
  | measure =>
    simp only [Channel.step] at hs
    split at hs
    · rw [← Option.some.inj hs]
      exact ⟨.inl rfl, .inl rfl⟩
    · cases hs
  | size =>
    simp only [Channel.step] at hs
    split at hs
    · cases hs
    · rw [← Option.some.inj hs]
      exact ⟨.inl rfl, .inl rfl⟩

/-- The cached indices are values the counters had at some point of the run. -/
theorem cached_past {c₀ : Channel α} (hh : c₀.ring.head = c₀.ring.cachedHead)
    (ht : c₀.ring.tail = c₀.ring.cachedTail) {as : List (Access α)} {c : Channel α}
    (hr : run Channel.step c₀ as = some c) :
    (∃ as₁ c₁, as₁ <+: as ∧ run Channel.step c₀ as₁ = some c₁ ∧ c₁.ring.head = c.ring.cachedHead) ∧
    ∃ as₁ c₁, as₁ <+: as ∧ run Channel.step c₀ as₁ = some c₁ ∧ c₁.ring.tail = c.ring.cachedTail := by
  induction as using List.reverseRecOn generalizing c with
  | nil =>
    obtain rfl := Option.some.inj hr
    exact ⟨⟨[], c₀, List.nil_prefix, rfl, hh⟩, ⟨[], c₀, List.nil_prefix, rfl, ht⟩⟩
  | append_singleton as a ih =>
    obtain ⟨c₁, h₁, h₂⟩ := run_append_some hr
    obtain ⟨c₂, hstep, h₃⟩ := run_cons_some h₂
    obtain rfl := Option.some.inj h₃
    obtain ⟨⟨p, cp, hp, hpr, hpv⟩, q, cq, hq, hqr, hqv⟩ := ih h₁
    have hpre := List.prefix_append as [a]
    obtain ⟨hch, hct⟩ := step_cached hstep
    refine ⟨?_, ?_⟩
    · rcases hch with hch | hch
      · exact ⟨p, cp, hp.trans hpre, hpr, hpv.trans hch.symm⟩
      · exact ⟨as, c₁, hpre, h₁, hch.symm⟩
    · rcases hct with hct | hct
      · exact ⟨q, cq, hq.trans hpre, hqr, hqv.trans hct.symm⟩
      · exact ⟨as, c₁, hpre, h₁, hct.symm⟩

theorem Inv.push_fails (h : Inv start k c) (hk : k ≤ 63) {v : α} {t : UInt64} (hp : c.producer = .reload v t)
    (hs : c.step .produce = some c') (hf : c'.producer = .idle) : c.ring.tail - c.ring.head = c.ring.cap := by
  have hprod := h.producer
  unfold ProducerOk at hprod
  simp only [Channel.step] at hs
  rw [hp] at hs hprod
  obtain rfl := Option.some.inj hs
  dsimp only at hf
  split_ifs at hf with hfull
  have hle := h.le
  rw [hprod, h.cap, h.head, looks_full hk hle h.room] at hfull
  apply UInt64.toNat_inj.mp
  rw [h.occupancy hk, h.cap, cap_toNat hk]
  omega

theorem Inv.pop_fails (h : Inv start k c) {g : UInt64} (hc : c.consumer = .reload g)
    (hs : c.step .consume = some c') (hf : c'.consumer = .idle) : c.ring.head = c.ring.tail := by
  have hcons := h.consumer
  unfold ConsumerOk at hcons
  simp only [Channel.step] at hs
  rw [hc] at hs hcons
  obtain rfl := Option.some.inj hs
  dsimp only at hf
  split_ifs at hf with hempty
  rw [h.head, ← hcons]
  exact hempty

end Channel

theorem roundedCapacity_some {capacity cap : UInt64} (h : roundedCapacity capacity = some cap) :
    ∃ k ≤ 63, cap = UInt64.ofNat (2 ^ k) ∧ capacity.toNat ≤ 2 ^ k := by
  unfold roundedCapacity at h
  split_ifs at h with hbig
  · refine ⟨1, by decide, (Option.some.inj h).symm, by omega⟩
  · refine ⟨Nat.clog 2 capacity.toNat, Nat.clog_le_of_le_pow (by omega), (Option.some.inj h).symm, ?_⟩
    exact le_bitCeil _

/-- **The ring is a FIFO channel.** For every capacity, every value the counters start from, also
just below their wrap, and every interleaving of the two threads: the values popped are a prefix of
those pushed; the occupancy is exact and at most the capacity; the slots between head and tail hold
the pushed values in order and no access changes them; the cached indices are past values of the
counters; a push fails only when the ring is full and a pop only when it is empty at its fresh load;
and every occupancy snapshot is between 0 and the capacity. -/
theorem spsc_ring_is_fifo {α : Type} (capacity start cap : UInt64) (hcap : roundedCapacity capacity = some cap)
    (buf : Nat → α) (as : List (Access α)) (c : Channel α)
    (hr : run Channel.step (Channel.new cap start buf) as = some c) :
    c.popped <+: c.pushed ∧
    (c.ring.tail - c.ring.head).toNat = c.pushed.length - c.popped.length ∧
    c.ring.tail - c.ring.head ≤ cap ∧
    (∀ i v, c.pushed[c.popped.length + i]? = some v →
      c.ring.buf (c.ring.index (c.ring.head + UInt64.ofNat i)) = v ∧
      ∀ a c', c.step a = some c' → c'.ring.buf (c.ring.index (c.ring.head + UInt64.ofNat i)) = v) ∧
    (∃ as₁ c₁, as₁ <+: as ∧ run Channel.step (Channel.new cap start buf) as₁ = some c₁ ∧
      c₁.ring.head = c.ring.cachedHead) ∧
    (∃ as₁ c₁, as₁ <+: as ∧ run Channel.step (Channel.new cap start buf) as₁ = some c₁ ∧
      c₁.ring.tail = c.ring.cachedTail) ∧
    (∀ v t c', c.producer = .reload v t → c.step .produce = some c' → c'.producer = .idle →
      c.ring.tail - c.ring.head = cap) ∧
    (∀ h c', c.consumer = .reload h → c.step .consume = some c' → c'.consumer = .idle →
      c.ring.head = c.ring.tail) ∧
    ∀ n ∈ c.sizes, n ≤ cap := by
  obtain ⟨k, hk, hpow, _⟩ := roundedCapacity_some hcap
  have h := (Channel.Inv.new hpow buf : Channel.Inv start k _).run hk hr
  obtain ⟨hpast, hpast'⟩ := Channel.cached_past rfl rfl hr
  have hc : c.ring.cap = cap := h.cap.trans hpow.symm
  refine ⟨?_, h.occupancy hk, ?_, fun i v hv => ?_, hpast, hpast', fun v t c' hp hs hf => ?_,
    fun g c' hc' hs hf => h.pop_fails hc' hs hf, fun n hn => hc ▸ h.sizes n hn⟩
  · rw [h.taken]
    exact List.take_prefix _ _
  · have hroom := h.room
    rw [UInt64.le_iff_toNat_le, h.occupancy hk, hpow, Channel.cap_toNat hk]
    omega
  · have hval : c.ring.buf (c.ring.index (c.ring.head + UInt64.ofNat i)) = v := by
      rw [h.slot hk]
      exact h.contents _ v (Nat.le_add_right _ _) hv
    refine ⟨hval, fun a c' hs => ?_⟩
    rw [h.untouched hk hs (List.getElem?_eq_some_iff.mp hv).1]
    exact hval
  · rw [← hc]
    exact h.push_fails hk hp hs hf

/-- Three pushes and a pop on a ring of two slots whose counters wrap on the way. -/
def acrossWrap : List (Access Nat) :=
  [.push 7, .produce, .produce, .push 8, .produce, .produce, .pop, .consume, .consume, .consume, .push 9, .produce,
    .produce, .produce]

/-- The third value waits for the first to be popped, and the counters have wrapped. -/
theorem spsc_ring_is_fifo_across_wrap :
    ∃ c, run Channel.step (Channel.new 2 (UInt64.ofNat (2 ^ 64 - 1)) (fun _ => 0)) acrossWrap = some c ∧
      (c.popped, c.pushed, c.ring.tail) = ([7], [7, 8, 9], 2) ∧ c.popped <+: c.pushed := by
  have hrun : (run Channel.step (Channel.new 2 (UInt64.ofNat (2 ^ 64 - 1)) (fun _ => 0)) acrossWrap).map
      (fun c => (c.popped, c.pushed, c.ring.tail)) = some ([7], [7, 8, 9], 2) := by
    decide
  obtain ⟨c, hc, hview⟩ := Option.map_eq_some_iff.mp hrun
  exact ⟨c, hc, hview,
    (spsc_ring_is_fifo 2 (UInt64.ofNat (2 ^ 64 - 1)) 2 (by decide) (fun _ => 0) acrossWrap c hc).1⟩

end OptiTrade.Core
