import Mathlib.Data.Set.Card
import OptiTrade.Foundations.MultiplyShift

/-! # The random generator

xoshiro256** seeded through splitmix64, and the integers drawn from it. A draw is scaled by the upper half
of a 128-bit product; the loop draws again while the lower half is below a threshold. It can run for as long
as the generator gives draws that are turned down, so `bounded` has the number of further draws it may make
as an argument. -/

namespace OptiTrade
set_option autoImplicit false

/-- The state of xoshiro256**. -/
structure Rng where
  s0 : UInt64
  s1 : UInt64
  s2 : UInt64
  s3 : UInt64
  deriving DecidableEq

namespace Rng

/-- The increment of the seed for each word. -/
def kGamma : UInt64 := 0x9E3779B97F4A7C15

/-- The finaliser of splitmix64. -/
def mix (z : UInt64) : UInt64 :=
  let z := (z ^^^ (z >>> 30)) * 0xBF58476D1CE4E5B9
  let z := (z ^^^ (z >>> 27)) * 0x94D049BB133111EB
  z ^^^ (z >>> 31)

def new (seed : UInt64) : Rng :=
  ⟨mix (seed + kGamma), mix (seed + kGamma + kGamma), mix (seed + kGamma + kGamma + kGamma),
    mix (seed + kGamma + kGamma + kGamma + kGamma)⟩

def rotl (x k : UInt64) : UInt64 := (x <<< k) ||| (x >>> (64 - k))

/-- The draw and the state after it. -/
def next (r : Rng) : UInt64 × Rng :=
  let result := rotl (r.s1 * 5) 7 * 9
  let t := r.s1 <<< 17
  let s2 := r.s2 ^^^ r.s0
  let s3 := r.s3 ^^^ r.s1
  let s1 := r.s1 ^^^ s2
  let s0 := r.s0 ^^^ s3
  (result, ⟨s0, s1, s2 ^^^ t, rotl s3 45⟩)

/-! ## Bounded integers -/

/-- The product of a draw and `n`, of 128 bits. -/
def product (x n : UInt64) : Nat := x.toNat * n.toNat

/-- The lower and the upper half of a product. -/
def low (m : Nat) : UInt64 := UInt64.ofNat m

/-- The upper half of a product of 128 bits. -/
def high (m : Nat) : UInt64 := UInt64.ofNat (m >>> 64)

/-- The products below it are drawn again. -/
def threshold (n : UInt64) : UInt64 := (0 - n) % n

/-- The loop, for at most `fuel` more draws, from the product `m` of the last one. -/
def redraw (n : UInt64) : Nat → Rng → Nat → Option (Nat × Rng)
  | 0, r, m => if low m < threshold n then none else some (m, r)
  | fuel + 1, r, m => if low m < threshold n then redraw n fuel r.next.2 (product r.next.1 n) else some (m, r)

/-- An integer below `n`. -/
def bounded (fuel : Nat) (r : Rng) (n : UInt64) : Option (UInt64 × Rng) :=
  let m := product r.next.1 n
  if low m < n then (redraw n fuel r.next.2 m).map fun p => (high p.1, p.2) else some (high m, r.next.2)

/-- The width of an interval, mod `2 ^ 64`. -/
def span (lo hi : Int64) : UInt64 := hi.toUInt64 - lo.toUInt64

/-- `lo` moved up by an offset of 64 bits. -/
def shifted (lo : Int64) (offset : UInt64) : Int64 := (lo.toUInt64 + offset).toInt64

/-- An integer from `lo` to `hi`. -/
def range (fuel : Nat) (r : Rng) (lo hi : Int64) : Option (Int64 × Rng) :=
  if span lo hi = 0xFFFFFFFFFFFFFFFF then some (shifted lo r.next.1, r.next.2)
  else (bounded fuel r (span lo hi + 1)).map fun p => (shifted lo p.1, p.2)

/-! ## The draws that are kept -/

/-- The draws of a generator. -/
def after : Nat → Rng → Rng
  | 0, r => r
  | k + 1, r => after k r.next.2

def draw (r : Rng) (k : Nat) : UInt64 := (after k r).next.1

/-- A draw ends the loop. -/
def Accepts (n x : UInt64) : Prop := ¬low (product x n) < threshold n

/-- What a draw that ends the loop gives. -/
def scaled (n x : UInt64) : UInt64 := high (product x n)

variable {n x : UInt64}

theorem toNat_low (m : Nat) : (low m).toNat = m % 2 ^ 64 := UInt64.toNat_ofNat'

theorem toNat_scaled (n x : UInt64) : (scaled n x).toNat = x.toNat * n.toNat / 2 ^ 64 := by
  have hlt : x.toNat * n.toNat / 2 ^ 64 < 2 ^ 64 := by
    rw [Nat.div_lt_iff_lt_mul (by decide)]
    exact Nat.mul_lt_mul'' x.toNat_lt n.toNat_lt
  unfold scaled high product
  rw [UInt64.toNat_ofNat', Nat.shiftRight_eq_div_pow, Nat.mod_eq_of_lt hlt]

theorem toNat_threshold (hn : 0 < n.toNat) : (threshold n).toNat = 2 ^ 64 % n.toNat := by
  have hlt := n.toNat_lt
  unfold threshold
  rw [UInt64.toNat_mod, UInt64.toNat_sub]
  have hzero : (0 : UInt64).toNat = 0 := rfl
  rw [hzero, Nat.add_zero, Nat.mod_eq_of_lt (Nat.sub_lt (by decide) hn)]
  exact (Nat.mod_eq_sub_mod hlt.le).symm

theorem accepts_iff (hn : 0 < n.toNat) : Accepts n x ↔ 2 ^ 64 % n.toNat ≤ x.toNat * n.toNat % 2 ^ 64 := by
  unfold Accepts
  rw [UInt64.lt_iff_toNat_lt, toNat_low, toNat_threshold hn, Nat.not_lt]
  rfl

theorem accepts_of_le (hn : 0 < n.toNat) (h : ¬low (product x n) < n) : Accepts n x := by
  have hlt : (threshold n).toNat < n.toNat := by
    rw [toNat_threshold hn]
    exact Nat.mod_lt _ hn
  unfold Accepts
  rw [UInt64.lt_iff_toNat_lt] at h ⊢
  omega

/-! ## The loop -/

theorem redraw_first {fuel k : Nat} {r : Rng} (hk : k ≤ fuel) (hno : ∀ i < k, ¬Accepts n (r.draw i))
    (hyes : Accepts n (r.draw k)) :
    redraw n fuel r.next.2 (product r.next.1 n) = some (product (r.draw k) n, after (k + 1) r) := by
  induction fuel generalizing r k with
  | zero =>
    obtain rfl : k = 0 := Nat.le_zero.mp hk
    exact if_neg hyes
  | succ fuel ih =>
    cases k with
    | zero => exact if_neg hyes
    | succ k =>
      have hgo : low (product r.next.1 n) < threshold n := by
        by_contra h
        exact hno 0 (Nat.succ_pos k) h
      rw [redraw, if_pos hgo]
      exact ih (Nat.le_of_succ_le_succ hk) (fun i hi => hno (i + 1) (Nat.succ_lt_succ hi)) hyes

theorem redraw_some {fuel : Nat} {r r' : Rng} {m : Nat}
    (h : redraw n fuel r.next.2 (product r.next.1 n) = some (m, r')) :
    ∃ k ≤ fuel, (∀ i < k, ¬Accepts n (r.draw i)) ∧ Accepts n (r.draw k) ∧ m = product (r.draw k) n ∧
      r' = after (k + 1) r := by
  induction fuel generalizing r with
  | zero =>
    unfold redraw at h
    split_ifs at h with hgo
    obtain ⟨rfl, rfl⟩ := Prod.mk.inj (Option.some.inj h)
    exact ⟨0, le_refl 0, fun i hi => absurd hi (Nat.not_lt_zero i), hgo, rfl, rfl⟩
  | succ fuel ih =>
    unfold redraw at h
    split_ifs at h with hgo
    · obtain ⟨k, hk, hno, hyes, hm, hr⟩ := ih h
      refine ⟨k + 1, Nat.succ_le_succ hk, fun i hi => ?_, hyes, hm, hr⟩
      cases i with
      | zero => exact fun hyes₀ => hyes₀ hgo
      | succ i => exact hno i (Nat.lt_of_succ_lt_succ hi)
    · obtain ⟨rfl, rfl⟩ := Prod.mk.inj (Option.some.inj h)
      exact ⟨0, Nat.zero_le _, fun i hi => absurd hi (Nat.not_lt_zero i), hgo, rfl, rfl⟩

theorem bounded_first {fuel k : Nat} {r : Rng} (hn : 0 < n.toNat) (hk : k ≤ fuel) (hno : ∀ i < k, ¬Accepts n (r.draw i))
    (hyes : Accepts n (r.draw k)) : bounded fuel r n = some (scaled n (r.draw k), after (k + 1) r) := by
  unfold bounded
  dsimp only
  by_cases hlow : low (product r.next.1 n) < n
  · rw [if_pos hlow, redraw_first hk hno hyes]
    rfl
  · rw [if_neg hlow]
    have hk₀ : k = 0 := by
      by_contra hne
      exact hno 0 (Nat.pos_of_ne_zero hne) (accepts_of_le hn hlow)
    subst hk₀
    rfl

theorem bounded_some {fuel : Nat} {r r' : Rng} {v : UInt64} (hn : 0 < n.toNat) (h : bounded fuel r n = some (v, r')) :
    ∃ k ≤ fuel, (∀ i < k, ¬Accepts n (r.draw i)) ∧ Accepts n (r.draw k) ∧ v = scaled n (r.draw k) ∧
      r' = after (k + 1) r := by
  unfold bounded at h
  dsimp only at h
  by_cases hlow : low (product r.next.1 n) < n
  · rw [if_pos hlow] at h
    obtain ⟨⟨m, s⟩, hm, hv⟩ := Option.map_eq_some_iff.mp h
    obtain ⟨rfl, rfl⟩ := Prod.mk.inj hv
    obtain ⟨k, hk, hno, hyes, rfl, hr⟩ := redraw_some hm
    exact ⟨k, hk, hno, hyes, rfl, hr⟩
  · rw [if_neg hlow] at h
    obtain ⟨rfl, rfl⟩ := Prod.mk.inj (Option.some.inj h)
    exact ⟨0, Nat.zero_le _, fun i hi => absurd hi (Nat.not_lt_zero i), accepts_of_le hn hlow, rfl, rfl⟩

/-! ## Counting draws -/

theorem ncard_draws {P : UInt64 → Prop} {A : Finset Nat} (hA : ∀ a ∈ A, a < 2 ^ 64) (hP : ∀ x, P x ↔ x.toNat ∈ A) :
    {x | P x}.ncard = A.card := by
  have himage : UInt64.toNat '' {x | P x} = ↑A := by
    ext a
    constructor
    · rintro ⟨x, hx, rfl⟩
      exact (hP x).mp hx
    · intro ha
      have hto : (UInt64.ofNat a).toNat = a := by rw [UInt64.toNat_ofNat', Nat.mod_eq_of_lt (hA a ha)]
      refine ⟨UInt64.ofNat a, (hP _).mpr ?_, hto⟩
      rw [hto]
      exact ha
  have hinj : Function.Injective UInt64.toNat := fun x y h => UInt64.toNat_inj.mp h
  rw [← Set.ncard_image_of_injective _ hinj, himage, Set.ncard_coe_finset]

theorem ncard_scaled (hn : 0 < n.toNat) {v : UInt64} (hv : v < n) :
    {x | Accepts n x ∧ scaled n x = v}.ncard = 2 ^ 64 / n.toNat := by
  have hv' : v.toNat < n.toNat := UInt64.lt_iff_toNat_lt.mp hv
  rw [ncard_draws (A := (MultiplyShift.kept (2 ^ 64) n.toNat).filter fun a => a * n.toNat / 2 ^ 64 = v.toNat)]
  · rw [MultiplyShift.filter_kept hn (by decide) hv', Nat.card_Ico, Nat.add_sub_cancel_left]
  · intro a ha
    exact Finset.mem_range.mp (Finset.mem_filter.mp (Finset.mem_filter.mp ha).1).1
  · intro x
    rw [Finset.mem_filter, MultiplyShift.kept, Finset.mem_filter, Finset.mem_range, accepts_iff hn, ← UInt64.toNat_inj,
      toNat_scaled]
    exact ⟨fun h => ⟨⟨x.toNat_lt, h.1⟩, h.2⟩, fun h => ⟨h.1.2, h.2⟩⟩

theorem ncard_accepts (hn : 0 < n.toNat) : 2 ^ 64 ≤ 2 * {x | Accepts n x}.ncard := by
  rw [ncard_draws (A := MultiplyShift.kept (2 ^ 64) n.toNat)]
  · exact MultiplyShift.size_le_two_mul_card_kept hn n.toNat_lt.le
  · intro a ha
    exact Finset.mem_range.mp (Finset.mem_filter.mp ha).1
  · intro x
    rw [MultiplyShift.kept, Finset.mem_filter, Finset.mem_range, accepts_iff hn]
    exact ⟨fun h => ⟨x.toNat_lt, h⟩, fun h => h.2⟩

/-! ## Ranges -/

variable {lo hi : Int64}

theorem toInt_cases (i : Int64) :
    i.toUInt64.toNat < 9223372036854775808 ∧ i.toInt = i.toUInt64.toNat ∨
      9223372036854775808 ≤ i.toUInt64.toNat ∧ i.toInt = i.toUInt64.toNat - 18446744073709551616 := by
  have hcond : i.toInt = if 2 * i.toUInt64.toNat < 2 ^ 64 then (i.toUInt64.toNat : Int) else
      (i.toUInt64.toNat : Int) - (2 ^ 64 : Nat) := BitVec.toInt_eq_toNat_cond i.toBitVec
  rw [hcond]
  split_ifs with h
  · exact .inl ⟨by omega, rfl⟩
  · exact .inr ⟨by omega, rfl⟩

theorem toNat_span (h : lo ≤ hi) : ((span lo hi).toNat : Int) = hi.toInt - lo.toInt := by
  have hlo := lo.toUInt64.toNat_lt
  have hhi := hi.toUInt64.toNat_lt
  rw [Int64.le_iff_toInt_le] at h
  unfold span
  rw [UInt64.toNat_sub]
  rcases toInt_cases lo with ⟨hl, hl'⟩ | ⟨hl, hl'⟩ <;> rcases toInt_cases hi with ⟨hh, hh'⟩ | ⟨hh, hh'⟩ <;> omega

/-- **Moving `lo` up** by no more than the span is adding, with no overflow. -/
theorem toInt_shifted (h : lo ≤ hi) {offset : UInt64} (ho : offset ≤ span lo hi) :
    (shifted lo offset).toInt = lo.toInt + offset.toNat := by
  have hlo := lo.toUInt64.toNat_lt
  have hhi := hi.toUInt64.toNat_lt
  have hspan := toNat_span h
  have hle := UInt64.le_iff_toNat_le.mp ho
  have hto : (shifted lo offset).toUInt64.toNat = (lo.toUInt64.toNat + offset.toNat) % 2 ^ 64 :=
    UInt64.toNat_add _ _
  rcases toInt_cases lo with ⟨hl, hl'⟩ | ⟨hl, hl'⟩ <;> rcases toInt_cases hi with ⟨hh, hh'⟩ | ⟨hh, hh'⟩ <;>
    rcases toInt_cases (shifted lo offset) with ⟨hs, hs'⟩ | ⟨hs, hs'⟩ <;> omega

/-- A draw decides the integer in a range, and the offset that it gives. -/
def Decides (lo hi : Int64) (x : UInt64) : Prop := span lo hi = 0xFFFFFFFFFFFFFFFF ∨ Accepts (span lo hi + 1) x

def offset (lo hi : Int64) (x : UInt64) : UInt64 := if span lo hi = 0xFFFFFFFFFFFFFFFF then x else scaled (span lo hi + 1) x

theorem toNat_span_succ (h : span lo hi ≠ 0xFFFFFFFFFFFFFFFF) : (span lo hi + 1).toNat = (span lo hi).toNat + 1 := by
  have hlt := (span lo hi).toNat_lt
  have hne : (span lo hi).toNat ≠ 18446744073709551615 := fun hs => h (UInt64.toNat_inj.mp hs)
  rw [UInt64.toNat_add]
  show ((span lo hi).toNat + 1) % 2 ^ 64 = _
  omega

theorem scaled_lt (hn : 0 < n.toNat) (x : UInt64) : scaled n x < n := by
  rw [UInt64.lt_iff_toNat_lt, toNat_scaled]
  exact MultiplyShift.scaled_lt (by decide) x.toNat_lt hn

theorem offset_le (lo hi : Int64) (x : UInt64) : offset lo hi x ≤ span lo hi := by
  unfold offset
  split_ifs with h
  · rw [h, UInt64.le_iff_toNat_le]
    have := x.toNat_lt
    show x.toNat ≤ 18446744073709551615
    omega
  · have hlt := scaled_lt (n := span lo hi + 1) (by rw [toNat_span_succ h]; omega) x
    rw [UInt64.lt_iff_toNat_lt, toNat_span_succ h] at hlt
    rw [UInt64.le_iff_toNat_le]
    omega

theorem ncard_offset {o : UInt64} (ho : o ≤ span lo hi) :
    {x | Decides lo hi x ∧ offset lo hi x = o}.ncard = 2 ^ 64 / ((span lo hi).toNat + 1) := by
  unfold Decides offset
  by_cases h : span lo hi = 0xFFFFFFFFFFFFFFFF
  · simp [h]
  · have hpos : 0 < (span lo hi + 1).toNat := by
      rw [toNat_span_succ h]
      omega
    have hlt : o < span lo hi + 1 := by
      rw [UInt64.lt_iff_toNat_lt, toNat_span_succ h]
      exact Nat.lt_succ_of_le (UInt64.le_iff_toNat_le.mp ho)
    have hcount := ncard_scaled hpos hlt
    rw [toNat_span_succ h] at hcount
    simpa [h] using hcount

theorem shifted_eq_iff (h : lo ≤ hi) {v : Int64} (hlo : lo ≤ v) (x : UInt64) :
    shifted lo (offset lo hi x) = v ↔ offset lo hi x = span lo v := by
  have hs := toInt_shifted h (offset_le lo hi x)
  have hv := toNat_span hlo
  rw [← Int64.toInt_inj, ← UInt64.toNat_inj, hs]
  omega

theorem span_le_span (h : lo ≤ hi) {v : Int64} (hlo : lo ≤ v) (hhi : v ≤ hi) : span lo v ≤ span lo hi := by
  have h₁ := toNat_span h
  have h₂ := toNat_span hlo
  rw [Int64.le_iff_toInt_le] at hhi
  rw [UInt64.le_iff_toNat_le]
  omega

theorem range_first {fuel k : Nat} {r : Rng} (hk : k ≤ fuel) (hno : ∀ i < k, ¬Decides lo hi (r.draw i))
    (hyes : Decides lo hi (r.draw k)) :
    range fuel r lo hi = some (shifted lo (offset lo hi (r.draw k)), after (k + 1) r) := by
  unfold range offset
  by_cases h : span lo hi = 0xFFFFFFFFFFFFFFFF
  · have hk₀ : k = 0 := by
      by_contra hne
      exact hno 0 (Nat.pos_of_ne_zero hne) (.inl h)
    subst hk₀
    rw [if_pos h, if_pos h]
    rfl
  · have hpos : 0 < (span lo hi + 1).toNat := by
      rw [toNat_span_succ h]
      omega
    rw [if_neg h, if_neg h, bounded_first hpos hk (fun i hi hacc => hno i hi (.inr hacc)) (hyes.resolve_left h)]
    rfl

/-- **Bounded integers are uniform.** For every `n ≥ 1` the `2 ^ 64` draws that end the loop are split evenly
over the results below `n`, no draw gives another result, the early test changes nothing about which draws
are accepted, and at least half of them are; `bounded` returns what the first accepted draw gives. So is
every range: each of its integers comes from the same number of draws, and is `lo` plus the offset. -/
theorem bounded_exactly_uniform :
    (∀ n : UInt64, 0 < n →
      (∀ v < n, {x | Accepts n x ∧ scaled n x = v}.ncard = 2 ^ 64 / n.toNat) ∧
      (∀ x, scaled n x < n) ∧
      (∀ x, ¬low (product x n) < n → Accepts n x) ∧
      2 ^ 64 ≤ 2 * {x | Accepts n x}.ncard ∧
      (∀ (r : Rng) (k fuel : Nat), (∀ i < k, ¬Accepts n (r.draw i)) → Accepts n (r.draw k) → k ≤ fuel →
        bounded fuel r n = some (scaled n (r.draw k), after (k + 1) r)) ∧
      ∀ (r r' : Rng) (fuel : Nat) (v : UInt64), bounded fuel r n = some (v, r') →
        ∃ k ≤ fuel, (∀ i < k, ¬Accepts n (r.draw i)) ∧ Accepts n (r.draw k) ∧ v = scaled n (r.draw k) ∧
          r' = after (k + 1) r) ∧
    ∀ lo hi : Int64, lo ≤ hi →
      (∀ v : Int64, lo ≤ v → v ≤ hi →
        {x | Decides lo hi x ∧ shifted lo (offset lo hi x) = v}.ncard = 2 ^ 64 / ((hi.toInt - lo.toInt).toNat + 1)) ∧
      (∀ x, (shifted lo (offset lo hi x)).toInt = lo.toInt + (offset lo hi x).toNat ∧
        lo ≤ shifted lo (offset lo hi x) ∧ shifted lo (offset lo hi x) ≤ hi) ∧
      ∀ (r : Rng) (k fuel : Nat), (∀ i < k, ¬Decides lo hi (r.draw i)) → Decides lo hi (r.draw k) → k ≤ fuel →
        range fuel r lo hi = some (shifted lo (offset lo hi (r.draw k)), after (k + 1) r) := by
  constructor
  · intro n hn
    have hpos : 0 < n.toNat := UInt64.lt_iff_toNat_lt.mp hn
    exact ⟨fun v hv => ncard_scaled hpos hv, scaled_lt hpos, fun x => accepts_of_le hpos, ncard_accepts hpos,
      fun r k fuel hno hyes hk => bounded_first hpos hk hno hyes, fun r r' fuel v h => bounded_some hpos h⟩
  · intro lo hi h
    refine ⟨fun v hlo hhi => ?_, fun x => ?_, fun r k fuel hno hyes hk => range_first hk hno hyes⟩
    · have hset : {x | Decides lo hi x ∧ shifted lo (offset lo hi x) = v} =
          {x | Decides lo hi x ∧ offset lo hi x = span lo v} := by
        ext x
        exact and_congr_right fun _ => shifted_eq_iff h hlo x
      rw [hset, ncard_offset (span_le_span h hlo hhi), ← toNat_span h, Int.toNat_natCast]
    · have hle := offset_le lo hi x
      have hto := toInt_shifted h hle
      have hspan := toNat_span h
      rw [UInt64.le_iff_toNat_le] at hle
      refine ⟨hto, ?_, ?_⟩
      · rw [Int64.le_iff_toInt_le]
        omega
      · rw [Int64.le_iff_toInt_le]
        omega

theorem bounded_exactly_uniform_three :
    {x | Accepts 3 x ∧ scaled 3 x = 1}.ncard = 6148914691236517205 ∧
      {x | Decides (-1) 1 x ∧ shifted (-1) (offset (-1) 1 x) = 0}.ncard = 6148914691236517205 :=
  ⟨(bounded_exactly_uniform.1 3 (by decide)).1 1 (by decide),
    (bounded_exactly_uniform.2 (-1) 1 (by decide)).1 0 (by decide) (by decide)⟩

end Rng
end OptiTrade
