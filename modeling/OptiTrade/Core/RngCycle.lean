import Mathlib.Data.Finite.Prod
import Mathlib.Data.List.Nodup
import OptiTrade.Core.Rng
import OptiTrade.Foundations.WordMaps

/-! # The cycles of the generator

The state of four zero words is the one state that `next` cannot leave. No seed is expanded to it and no
other state comes to it, since the finaliser and `next` lose nothing of what they are given. -/

namespace OptiTrade
set_option autoImplicit false

namespace Rng

/-- The fixed point. -/
def zero : Rng := ⟨0, 0, 0, 0⟩

/-- The words of the state in the order in which the seed is expanded. -/
def words (r : Rng) : List UInt64 := [r.s0, r.s1, r.s2, r.s3]

/-! ## The expansion of a seed -/

theorem xor_shiftRight_inj {x y : UInt64} (k : UInt64) (hk : 0 < (k.toBitVec % 64#64).toNat)
    (h : x ^^^ (x >>> k) = y ^^^ (y >>> k)) : x = y := by
  have hb := congrArg UInt64.toBitVec h
  exact UInt64.toBitVec_inj.mp (WordMaps.xor_ushiftRight_injective hk hb)

theorem mul_inj {x y a : UInt64} (b : UInt64) (hunit : a * b = 1) (h : x * a = y * a) : x = y := by
  have hb := congrArg UInt64.toBitVec h
  exact UInt64.toBitVec_inj.mp (WordMaps.mul_injective (congrArg UInt64.toBitVec hunit) hb)

/-- **The finaliser loses nothing.** Each of its three shifts and two products can be undone; the second
factors are the inverses of the two constants. -/
theorem mix_injective : Function.Injective mix := by
  intro x y h
  have h₂ := xor_shiftRight_inj 31 (by decide) h
  have h₂' := mul_inj 0x319642B2D24D8EC3 (by decide) h₂
  have h₁ := xor_shiftRight_inj 27 (by decide) h₂'
  have h₁' := mul_inj 0x96DE1B173F119089 (by decide) h₁
  exact xor_shiftRight_inj 30 (by decide) h₁'

theorem add_gamma_ne (seed : UInt64) :
    [seed + kGamma, seed + kGamma + kGamma, seed + kGamma + kGamma + kGamma,
      seed + kGamma + kGamma + kGamma + kGamma].Nodup := by
  have hmap : [seed + kGamma, seed + kGamma + kGamma, seed + kGamma + kGamma + kGamma,
      seed + kGamma + kGamma + kGamma + kGamma] =
        [kGamma, kGamma + kGamma, kGamma + kGamma + kGamma, kGamma + kGamma + kGamma + kGamma].map (seed + ·) := by
    simp only [List.map_cons, List.map_nil, UInt64.add_assoc]
  rw [hmap]
  apply List.Nodup.map
  · intro x y h
    exact (UInt64.add_right_inj seed).mp h
  · decide

theorem nodup_words (seed : UInt64) : (new seed).words.Nodup := (add_gamma_ne seed).map mix_injective

theorem new_ne_zero (seed : UInt64) : new seed ≠ zero := by
  intro h
  have hnodup := nodup_words seed
  rw [h] at hnodup
  exact absurd hnodup (by decide)

/-! ## The step of the state -/

theorem rotl_inj {x y : UInt64} (h : rotl x 45 = rotl y 45) : x = y := by
  have hb := congrArg UInt64.toBitVec h
  exact UInt64.toBitVec_inj.mp (WordMaps.rotate_injective (w := 64) (k := 45) (by decide) hb)

theorem xor_shiftLeft_inj {x y : UInt64} (h : x ^^^ (x <<< 17) = y ^^^ (y <<< 17)) : x = y := by
  have hb := congrArg UInt64.toBitVec h
  exact UInt64.toBitVec_inj.mp (WordMaps.xor_shiftLeft_injective (w := 64) (k := 17) (by decide) hb)

theorem next_second_third (r : Rng) : r.next.2.s1 ^^^ r.next.2.s2 = r.s1 ^^^ (r.s1 <<< 17) := by
  show (r.s1 ^^^ (r.s2 ^^^ r.s0)) ^^^ ((r.s2 ^^^ r.s0) ^^^ (r.s1 <<< 17)) = _
  rw [UInt64.xor_assoc, ← UInt64.xor_assoc (r.s2 ^^^ r.s0), UInt64.xor_self, UInt64.zero_xor]

/-- **The step loses nothing.** The rotation gives back the fourth word combined with the second, which gives
the first; the second word comes from its own shift, and the others from it. -/
theorem next_injective : Function.Injective fun r : Rng => r.next.2 := by
  intro r r' h
  have hfourth : r.s3 ^^^ r.s1 = r'.s3 ^^^ r'.s1 := rotl_inj (congrArg s3 h)
  have hfirst : r.s0 = r'.s0 := by
    have h₀ : r.s0 ^^^ (r.s3 ^^^ r.s1) = r'.s0 ^^^ (r'.s3 ^^^ r'.s1) := congrArg s0 h
    rw [hfourth] at h₀
    exact (UInt64.xor_left_inj _).mp h₀
  have hsecond : r.s1 = r'.s1 := by
    apply xor_shiftLeft_inj
    rw [← next_second_third r, ← next_second_third r']
    exact congrArg (fun q : Rng => q.s1 ^^^ q.s2) h
  have hthird : r.s2 = r'.s2 := by
    have h₁ : r.s1 ^^^ (r.s2 ^^^ r.s0) = r'.s1 ^^^ (r'.s2 ^^^ r'.s0) := congrArg s1 h
    rw [hsecond, hfirst] at h₁
    exact (UInt64.xor_left_inj _).mp ((UInt64.xor_right_inj _).mp h₁)
  rw [hsecond] at hfourth
  have hlast : r.s3 = r'.s3 := (UInt64.xor_left_inj _).mp hfourth
  cases r
  cases r'
  obtain rfl := hfirst
  obtain rfl := hsecond
  obtain rfl := hthird
  obtain rfl := hlast
  rfl

theorem next_zero : zero.next.2 = zero := by decide

instance : Finite Rng := by
  have hword : Finite UInt64 := Finite.of_injective UInt64.toFin fun x y h => UInt64.toFin_inj.mp h
  refine Finite.of_injective (fun r : Rng => (r.s0, r.s1, r.s2, r.s3)) ?_
  intro r r' h
  cases r
  cases r'
  cases h
  rfl

/-! ## Runs -/

theorem after_eq_iterate (k : Nat) (r : Rng) : after k r = (fun r : Rng => r.next.2)^[k] r := by
  induction k generalizing r with
  | zero => rfl
  | succ k ih => exact ih r.next.2

theorem after_ne_zero {r : Rng} (hr : r ≠ zero) (k : Nat) : after k r ≠ zero := by
  rw [after_eq_iterate]
  exact WordMaps.iterate_ne_fixed next_injective next_zero hr k

theorem exists_period (r : Rng) : ∃ p > 0, ∀ k, after (k + p) r = after k r := by
  obtain ⟨p, hp, hperiod⟩ := WordMaps.exists_period next_injective r
  refine ⟨p, hp, fun k => ?_⟩
  rw [after_eq_iterate, after_eq_iterate]
  exact hperiod k

/-- **The generator never degenerates.** At most one word of an expanded seed is zero, and no number of draws
from a seed ends at the zero state. The step of the state is a bijection that leaves the zero state where it
is, so the draws from every seed go round a cycle, back to the expanded seed, that the zero state is not on. -/
theorem never_degenerates :
    (∀ seed, (new seed).words.count 0 ≤ 1) ∧
    (∀ seed k, after k (new seed) ≠ zero) ∧
    Function.Bijective (fun r : Rng => r.next.2) ∧
    zero.next.2 = zero ∧
    ∀ seed, ∃ p > 0, after p (new seed) = new seed ∧
      ∀ k, after (k + p) (new seed) = after k (new seed) ∧ after k (new seed) ≠ zero := by
  refine ⟨fun seed => ?_, fun seed k => after_ne_zero (new_ne_zero seed) k, ?_, next_zero, fun seed => ?_⟩
  · exact List.nodup_iff_count_le_one.mp (nodup_words seed) 0
  · exact Finite.injective_iff_bijective.mp next_injective
  · obtain ⟨p, hp, hperiod⟩ := exists_period (new seed)
    have hback := hperiod 0
    rw [Nat.zero_add] at hback
    exact ⟨p, hp, hback, fun k => ⟨hperiod k, after_ne_zero (new_ne_zero seed) k⟩⟩

end Rng
end OptiTrade
