import OptiTrade.Foundations.MovingAverage
import OptiTrade.Strategy.Pacing

/-! # The averages of the crossover

The fixed-point averages of a locate against the exact averages of the samples that its book has given, and the
64-bit operations of one update. -/

namespace OptiTrade.Strategy.EmaCross
set_option autoImplicit false

open MovingAverage (exact rounded roundedStep)

/-- The averages of all locates after some book updates. -/
def updates (c : EmaCrossConfig) (us : List (Nat × Context)) : Nat → Slot :=
  us.foldl (fun slots u => (onBookUpdate c slots u.1 u.2).1) fun _ => {}

/-- The sample that an update gives to locate `l`. -/
def sampleOf (c : EmaCrossConfig) (l : Nat) (u : Nat × Context) : Option Int :=
  if u.1 = l ∧ l < c.maxLocates then (touchOf (u.2.books.book l)).map fun t => t.bid + t.ask else none

/-- The samples of a locate: the sums of bid and ask, whenever its book was tradable. -/
def samples (c : EmaCrossConfig) (l : Nat) (us : List (Nat × Context)) : List Int := us.filterMap (sampleOf c l)

/-- The results of the operations that a sample takes. -/
def Slot.operations (s : Slot) (c : EmaCrossConfig) (touch : Touch) : List Int :=
  let sample := (touch.bid + touch.ask) * 256
  [touch.bid + touch.ask, sample] ++
    if s.samples = 0 then []
    else
      [sample - s.fast, (sample - s.fast) / 2 ^ c.fastShift, s.fast + (sample - s.fast) / 2 ^ c.fastShift,
        sample - s.slow, (sample - s.slow) / 2 ^ c.slowShift, s.slow + (sample - s.slow) / 2 ^ c.slowShift]

/-- The results of the signed operations of an update. -/
def operations (c : EmaCrossConfig) (slots : Nat → Slot) (l : Nat) (ctx : Context) : List Int :=
  match touchOf (ctx.books.book l) with
  | none => []
  | some touch =>
    let s := (slots l).sample c touch
    let pos := positionOf ctx.orders l
    (slots l).operations c touch ++ [s.sign * size c, s.target c pos - pos, pos - s.target c pos]

/-- A stored average of the samples `xs`, in units of `2 ^ -8`. -/
structure Averages (k : Nat) (xs : List Int) (e : Int) : Prop where
  le : (e : ℚ) ≤ 2 ^ 8 * exact k (xs.map Int.cast)
  error : 2 ^ 8 * exact k (xs.map Int.cast) - e < 2 ^ k
  between : ∀ lo hi, (∀ x ∈ xs, lo ≤ x ∧ x ≤ hi) → 2 ^ 8 * lo ≤ e ∧ e ≤ 2 ^ 8 * hi

theorem averages_rounded (k : Nat) {xs : List Int} (h : xs ≠ []) : Averages k xs (rounded k (xs.map (· * 256))) := by
  have hne : xs.map (· * 256) ≠ [] := by simpa using h
  have ht := MovingAverage.rounded_tracks (k := k) hne
  have hcast : (xs.map (· * 256)).map (Int.cast : Int → ℚ) = (xs.map Int.cast).map ((2 ^ 8 : ℚ) * ·) := by
    rw [List.map_map, List.map_map]
    refine List.map_congr_left fun x _ => ?_
    simp only [Function.comp]
    push_cast
    ring
  rw [hcast, MovingAverage.exact_map_mul] at ht
  refine ⟨ht.le, ?_, fun lo hi hx => ?_⟩
  · have := ht.error
    linarith
  · refine MovingAverage.rounded_between hne fun s hs => ?_
    obtain ⟨x, hmem, rfl⟩ := List.mem_map.mp hs
    have := hx x hmem
    omega

/-! ## The stored averages -/

/-- The slot of a locate that has had the samples `xs`. -/
structure Keeps (c : EmaCrossConfig) (xs : List Int) (s : Slot) : Prop where
  samples : s.samples = 0 ↔ xs = []
  fast : xs ≠ [] → s.fast = rounded c.fastShift (xs.map (· * 256))
  slow : xs ≠ [] → s.slow = rounded c.slowShift (xs.map (· * 256))

variable {c : EmaCrossConfig} {xs : List Int} {s : Slot}

theorem Keeps.new (c : EmaCrossConfig) : Keeps c [] {} := ⟨by simp, fun h => absurd rfl h, fun h => absurd rfl h⟩

theorem sample_fields (s : Slot) (c : EmaCrossConfig) (touch : Touch) :
    (s.sample c touch).fast =
      (if s.samples = 0 then (touch.bid + touch.ask) * 256 else roundedStep c.fastShift s.fast ((touch.bid + touch.ask) * 256)) ∧
    (s.sample c touch).slow =
      (if s.samples = 0 then (touch.bid + touch.ask) * 256 else roundedStep c.slowShift s.slow ((touch.bid + touch.ask) * 256)) ∧
    (s.sample c touch).samples ≠ 0 := by
  have hcount : (if s.samples ≠ u32Max then s.samples + 1 else s.samples) ≠ 0 := by
    unfold u32Max
    split_ifs <;> omega
  unfold Slot.sample roundedStep
  dsimp only
  generalize (if (_ : Int) < _ then (1 : Int) else if (_ : Int) < _ then -1 else 0) = sign
  by_cases h₀ : sign = 0
  · rw [if_pos h₀]
    exact ⟨rfl, rfl, hcount⟩
  · rw [if_neg h₀]
    by_cases h₁ : sign = s.sign
    · rw [if_pos h₁]
      exact ⟨rfl, rfl, hcount⟩
    · rw [if_neg h₁]
      exact ⟨rfl, rfl, hcount⟩

/-- **One sample.** -/
theorem Keeps.sample (h : Keeps c xs s) (touch : Touch) : Keeps c (xs ++ [touch.bid + touch.ask]) (s.sample c touch) := by
  obtain ⟨hfast, hslow, hcount⟩ := sample_fields s c touch
  have hne : xs ++ [touch.bid + touch.ask] ≠ [] := by simp
  refine ⟨⟨fun h₀ => absurd h₀ hcount, fun h₀ => absurd h₀ hne⟩, fun _ => ?_, fun _ => ?_⟩
  · rw [hfast, List.map_append, List.map_singleton]
    by_cases hxs : xs = []
    · rw [if_pos (h.samples.mpr hxs), hxs]
      rfl
    · rw [if_neg fun h₀ => hxs (h.samples.mp h₀), MovingAverage.rounded_concat (by simpa using hxs), h.fast hxs]
  · rw [hslow, List.map_append, List.map_singleton]
    by_cases hxs : xs = []
    · rw [if_pos (h.samples.mpr hxs), hxs]
      rfl
    · rw [if_neg fun h₀ => hxs (h.samples.mp h₀), MovingAverage.rounded_concat (by simpa using hxs), h.slow hxs]

theorem onBookUpdate_slots (c : EmaCrossConfig) (slots : Nat → Slot) (l : Nat) (ctx : Context) :
    (onBookUpdate c slots l ctx).1 = if l < c.maxLocates then
      (touchOf (ctx.books.book l)).elim slots fun touch => Function.update slots l ((slots l).sample c touch)
    else slots := by
  unfold onBookUpdate
  by_cases hl : l < c.maxLocates
  · rw [if_pos hl, if_neg (by omega)]
    cases touchOf (ctx.books.book l) with
    | none => rfl
    | some touch =>
      dsimp only [Option.elim]
      split_ifs <;> rfl
  · rw [if_neg hl, if_pos (by omega)]

theorem Keeps.onBookUpdate {slots : Nat → Slot} {l : Nat} (h : Keeps c xs (slots l)) (u : Nat × Context) :
    Keeps c (xs ++ (sampleOf c l u).toList) ((onBookUpdate c slots u.1 u.2).1 l) := by
  rw [onBookUpdate_slots]
  unfold sampleOf
  by_cases hu : u.1 = l
  · rw [hu]
    by_cases hl : l < c.maxLocates
    · rw [if_pos hl, if_pos ⟨rfl, hl⟩]
      cases touchOf (u.2.books.book l) with
      | none => simpa using h
      | some touch =>
        show Keeps c (xs ++ [touch.bid + touch.ask]) (Function.update slots l ((slots l).sample c touch) l)
        rw [Function.update_self]
        exact h.sample touch
    · rw [if_neg hl, if_neg fun h' => hl h'.2]
      simpa using h
  · rw [if_neg fun h' => hu h'.1, Option.toList_none, List.append_nil]
    split_ifs
    · cases touchOf (u.2.books.book u.1) with
      | none => exact h
      | some touch =>
        show Keeps c xs (Function.update slots u.1 ((slots u.1).sample c touch) l)
        rw [Function.update_of_ne (Ne.symm hu)]
        exact h
    · exact h

theorem updates_concat (c : EmaCrossConfig) (us : List (Nat × Context)) (u : Nat × Context) :
    updates c (us ++ [u]) = (onBookUpdate c (updates c us) u.1 u.2).1 := by
  unfold updates
  rw [List.foldl_append]
  rfl

theorem samples_concat (c : EmaCrossConfig) (l : Nat) (us : List (Nat × Context)) (u : Nat × Context) :
    samples c l (us ++ [u]) = samples c l us ++ (sampleOf c l u).toList := by
  unfold samples
  rw [List.filterMap_append]
  cases h : sampleOf c l u <;> simp [h]

/-- **The averages after any updates.** -/
theorem updates_keeps (c : EmaCrossConfig) (us : List (Nat × Context)) (l : Nat) : Keeps c (samples c l us) (updates c us l) := by
  induction us using List.reverseRecOn with
  | nil => exact .new c
  | append_singleton us u ih =>
    rw [updates_concat, samples_concat]
    exact ih.onBookUpdate u

theorem updates_signed (c : EmaCrossConfig) (us : List (Nat × Context)) : Signed (updates c us) := by
  induction us using List.reverseRecOn with
  | nil => exact fun _ => .inr (.inl rfl)
  | append_singleton us u ih =>
    rw [updates_concat]
    exact ih.onBookUpdate c u.1 u.2

/-! ## The widths -/

/-- A book that the feed can build: a price is an unsigned 32-bit number. -/
def FeedPriced (u : Nat × Context) : Prop :=
  ∀ t, touchOf (u.2.books.book u.1) = some t → t.bid ≤ 2 ^ 32 - 1 ∧ t.ask ≤ 2 ^ 32 - 1

theorem sample_bounds {us : List (Nat × Context)} (hfeed : ∀ u ∈ us, FeedPriced u) {l : Nat} {x : Int}
    (hx : x ∈ samples c l us) : 0 ≤ x ∧ x ≤ 2 ^ 33 := by
  obtain ⟨u, hu, hs⟩ := List.mem_filterMap.mp hx
  unfold sampleOf at hs
  split_ifs at hs with hl
  obtain ⟨t, ht, rfl⟩ := Option.map_eq_some_iff.mp hs
  rw [← hl.1] at ht
  have hp := hfeed u hu t ht
  obtain ⟨_, _, _, _, _, _, _, h₁, h₂, _⟩ := touchOf_some ht
  omega

theorem updates_bounds {us : List (Nat × Context)} (hfeed : ∀ u ∈ us, FeedPriced u) {l : Nat}
    (h : (updates c us l).samples ≠ 0) :
    (0 ≤ (updates c us l).fast ∧ (updates c us l).fast ≤ 2 ^ 41) ∧
    0 ≤ (updates c us l).slow ∧ (updates c us l).slow ≤ 2 ^ 41 := by
  have hk := updates_keeps c us l
  have hne : samples c l us ≠ [] := fun h₀ => h (hk.samples.mpr h₀)
  have hbound : ∀ x ∈ samples c l us, (0 : Int) ≤ x ∧ x ≤ 2 ^ 33 := fun x hx => sample_bounds hfeed hx
  have h₁ := (averages_rounded c.fastShift hne).between 0 (2 ^ 33) hbound
  have h₂ := (averages_rounded c.slowShift hne).between 0 (2 ^ 33) hbound
  rw [hk.fast hne, hk.slow hne]
  omega

theorem shift_bounds {e s : Int} (k : Nat) (he : 0 ≤ e ∧ e ≤ 2 ^ 41) (hs : 0 ≤ s ∧ s ≤ 2 ^ 41) :
    -2 ^ 41 ≤ (s - e) / 2 ^ k ∧ (s - e) / 2 ^ k ≤ 2 ^ 41 ∧ 0 ≤ e + (s - e) / 2 ^ k ∧ e + (s - e) / 2 ^ k ≤ 2 ^ 41 := by
  have h := MovingAverage.roundedStep_between (k := k) he.1 he.2 hs.1 hs.2
  unfold roundedStep at h
  omega

theorem operations_fit {slots : Nat → Slot} {l : Nat} {ctx : Context} {cfg : EmaCrossConfig} (hsigned : Signed slots)
    (hfeed : FeedPriced (l, ctx))
    (hslot : (slots l).samples ≠ 0 →
      (0 ≤ (slots l).fast ∧ (slots l).fast ≤ 2 ^ 41) ∧ 0 ≤ (slots l).slow ∧ (slots l).slow ≤ 2 ^ 41) :
    ∀ x ∈ operations (sanitize cfg) slots l ctx, -2 ^ 63 ≤ x ∧ x < 2 ^ 63 := by
  unfold operations
  cases ht : touchOf (ctx.books.book l) with
  | none => exact fun x hx => absurd hx List.not_mem_nil
  | some t =>
    have hp := hfeed t ht
    obtain ⟨_, _, _, _, _, _, _, h₁, h₂, _⟩ := touchOf_some ht
    intro x hx
    rcases List.mem_append.mp hx with hx | hx
    · unfold Slot.operations at hx
      rcases List.mem_append.mp hx with hx | hx
      · simp only [List.mem_cons, List.not_mem_nil, or_false] at hx
        omega
      · split_ifs at hx with hs
        · exact absurd hx List.not_mem_nil
        · obtain ⟨hf, hw⟩ := hslot hs
          have hfast := shift_bounds (sanitize cfg).fastShift hf
            (show 0 ≤ (t.bid + t.ask) * 256 ∧ (t.bid + t.ask) * 256 ≤ 2 ^ 41 by omega)
          have hslow := shift_bounds (sanitize cfg).slowShift hw
            (show 0 ≤ (t.bid + t.ask) * 256 ∧ (t.bid + t.ask) * 256 ≤ 2 ^ 41 by omega)
          simp only [List.mem_cons, List.not_mem_nil, or_false] at hx
          rcases hx with rfl | rfl | rfl | rfl | rfl | rfl <;> omega
    · obtain ⟨hsize₀, hsize₁⟩ := sanitize_size cfg
      have hpos₁ : -kPositionBound ≤ positionOf ctx.orders l := le_clamp (by decide) _
      have hpos₂ : positionOf ctx.orders l ≤ kPositionBound := clamp_le (by decide) _
      have hsign := hsigned.sample l (sanitize cfg) t
      have hwide : ∀ s : Slot, s.sign = 1 ∨ s.sign = 0 ∨ s.sign = -1 →
          -kPositionBound ≤ s.sign * size (sanitize cfg) ∧ s.sign * size (sanitize cfg) ≤ kPositionBound := by
        intro s hs
        rcases hs with hs | hs | hs <;> rw [hs] <;> omega
      have htarget : -kPositionBound ≤ ((slots l).sample (sanitize cfg) t).target (sanitize cfg) (positionOf ctx.orders l) ∧
          ((slots l).sample (sanitize cfg) t).target (sanitize cfg) (positionOf ctx.orders l) ≤ kPositionBound := by
        have h₀ := hwide _ hsign
        unfold Slot.target
        split_ifs
        · exact h₀
        · unfold kPositionBound
          omega
        · exact ⟨hpos₁, hpos₂⟩
      have h₀ := hwide _ hsign
      unfold kPositionBound at *
      simp only [List.mem_cons, List.not_mem_nil, or_false] at hx
      rcases hx with rfl | rfl | rfl <;> omega

/-- **The error of the averages.** After any sequence of book updates with prices that the feed can carry, both
averages of a locate are below the exact ones by less than `2 ^ shift` units and never above them. -/
theorem ema_error_is_bounded (cfg : EmaCrossConfig) (us : List (Nat × Context)) (hfeed : ∀ u ∈ us, FeedPriced u) :
    (∀ l, samples (sanitize cfg) l us ≠ [] →
      Averages (sanitize cfg).fastShift (samples (sanitize cfg) l us) (updates (sanitize cfg) us l).fast ∧
      Averages (sanitize cfg).slowShift (samples (sanitize cfg) l us) (updates (sanitize cfg) us l).slow) ∧
    ∀ pre u post, us = pre ++ u :: post →
      ∀ x ∈ operations (sanitize cfg) (updates (sanitize cfg) pre) u.1 u.2, -2 ^ 63 ≤ x ∧ x < 2 ^ 63 := by
  refine ⟨fun l hne => ?_, ?_⟩
  · have hk := updates_keeps (sanitize cfg) us l
    rw [hk.fast hne, hk.slow hne]
    exact ⟨averages_rounded _ hne, averages_rounded _ hne⟩
  · rintro pre u post rfl
    refine operations_fit (updates_signed _ pre) (hfeed u (by simp)) fun hs => ?_
    exact updates_bounds (fun u' hu' => hfeed u' (List.mem_append_left _ hu')) hs

/-- A book with a bid at 100 and an offer at `ask`. -/
def quoted (ask : Int) : Nat × Context :=
  (1, ⟨0, ((((Book.MarketBooks.new {}).on
      (.stockDirectory ⟨⟨1, 0, 0⟩, .ofText [65, 66, 67, 68], 0, 0, 100, 0, 0, [], 0, 0, 0, 0, 0, 0, 0⟩)).1.on
      (.addOrder ⟨⟨1, 0, 0⟩, 1, .buy, 10, .ofText [65, 66, 67, 68], 100, false, []⟩)).1.on
      (.addOrder ⟨⟨1, 0, 0⟩, 2, .sell, 10, .ofText [65, 66, 67, 68], ask, false, []⟩)).1, (Engine.new {}).session.manager⟩)

/-- A falling offer: the averages are rounded down. -/
theorem ema_error_is_bounded_falling :
    samples (sanitize {}) 1 [quoted 104, quoted 101] = [204, 201] ∧
    Averages 3 (samples (sanitize {}) 1 [quoted 104, quoted 101]) (updates (sanitize {}) [quoted 104, quoted 101] 1).fast := by
  have hsamples : samples (sanitize {}) 1 [quoted 104, quoted 101] = [204, 201] := rfl
  refine ⟨hsamples, ((ema_error_is_bounded {} [quoted 104, quoted 101] ?_).1 1 ?_).1⟩
  · intro u hu t ht
    simp only [List.mem_cons, List.not_mem_nil, or_false] at hu
    rcases hu with rfl | rfl
    · have h : touchOf ((quoted 104).2.books.book (quoted 104).1) = some ⟨100, 104, 10, 10⟩ := rfl
      cases h.symm.trans ht
      decide
    · have h : touchOf ((quoted 101).2.books.book (quoted 101).1) = some ⟨100, 101, 10, 10⟩ := rfl
      cases h.symm.trans ht
      decide
  · rw [hsamples]
    exact List.cons_ne_nil _ _

end OptiTrade.Strategy.EmaCross
