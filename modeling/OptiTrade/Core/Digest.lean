import OptiTrade.Foundations.Bytes
import OptiTrade.Foundations.WordMaps

/-! # The digest

A fingerprint of a stream of events: FNV-1a, 64 bit. A byte is combined with the state and the state is multiplied by an odd
number, so nothing that follows can bring two states together again. -/

namespace OptiTrade
set_option autoImplicit false

/-- The state of a FNV-1a hash. -/
structure Digest where
  h : UInt64 := 0xCBF29CE484222325
  deriving DecidableEq

namespace Digest

def kPrime : UInt64 := 0x100000001B3

/-- The state takes in a byte, widened to a word. -/
def mix (h b : UInt64) : UInt64 := (h ^^^ b) * kPrime

/-- `update` on a range of bytes. -/
def update (d : Digest) (data : List Byte) : Digest := ⟨data.foldl (fun h b => mix h b.toUInt64) d.h⟩

/-- `update` on an integer, least significant byte first. -/
def updateWord (d : Digest) (v : UInt64) : Digest :=
  ⟨(List.range 8).foldl (fun h i => mix h ((v >>> (8 * UInt64.ofNat i)) &&& 0xFF)) d.h⟩

def value (d : Digest) : UInt64 := d.h

theorem update_append (d : Digest) (xs ys : List Byte) : d.update (xs ++ ys) = (d.update xs).update ys := by
  unfold update
  rw [List.foldl_append]

/-! ## A word is its eight bytes -/

theorem byte_of_word (v : UInt64) {i : Nat} (hi : i < 8) :
    (v >>> (8 * UInt64.ofNat i)) &&& 0xFF = (UInt8.ofNat (v.toNat / 256 ^ i)).toUInt64 := by
  have hshift : (8 * UInt64.ofNat i).toNat % 64 = 8 * i := by
    rw [UInt64.toNat_mul, UInt64.toNat_ofNat']
    show 8 * (i % 2 ^ 64) % 2 ^ 64 % 64 = 8 * i
    omega
  refine UInt64.toNat.inj ?_
  rw [UInt64.toNat_and, UInt64.toNat_shiftRight, hshift, Nat.shiftRight_eq_div_pow, UInt8.toNat_toUInt64, UInt8.toNat_ofNat',
    Nat.pow_mul]
  exact Nat.and_two_pow_sub_one_eq_mod _ 8

theorem store_range (w v : Nat) : Le.store w v = (List.range w).map fun i => UInt8.ofNat (v / 256 ^ i) := by
  induction w generalizing v with
  | zero => rfl
  | succ w ih =>
    rw [Le.store, ih, List.range_succ_eq_map, List.map_cons, List.map_map, Nat.pow_zero, Nat.div_one]
    congr 1
    refine List.map_congr_left fun i _ => ?_
    rw [Function.comp_apply, Nat.div_div_eq_div_mul, Nat.pow_succ']

theorem updateWord_eq (d : Digest) (v : UInt64) : d.updateWord v = d.update (Le.store 8 v.toNat) := by
  have hfold : (List.range 8).foldl (fun h i => mix h ((v >>> (8 * UInt64.ofNat i)) &&& 0xFF)) d.h =
      (List.range 8).foldl (fun h i => mix h (UInt8.ofNat (v.toNat / 256 ^ i)).toUInt64) d.h :=
    List.foldl_ext _ _ _ fun h i hi => by rw [byte_of_word v (List.mem_range.mp hi)]
  unfold updateWord update
  rw [hfold, store_range, List.foldl_map]

/-! ## Nothing is lost -/

theorem prime_unit : kPrime.toBitVec * 0xCE965057AFF6957B#64 = 1#64 := by
  decide

theorem mul_prime_injective {x y : UInt64} (h : x * kPrime = y * kPrime) : x.toBitVec = y.toBitVec :=
  WordMaps.mul_injective prime_unit (congrArg UInt64.toBitVec h)

theorem mix_left_injective (b : UInt64) : Function.Injective fun h => mix h b :=
  fun _ _ heq => UInt64.toBitVec_inj.mp ((BitVec.xor_left_inj b.toBitVec).mp (mul_prime_injective heq))

theorem mix_right_injective (h : UInt64) : Function.Injective (mix h) :=
  fun _ _ heq => UInt64.toBitVec_inj.mp ((BitVec.xor_right_inj h.toBitVec).mp (mul_prime_injective heq))

theorem update_injective (xs : List Byte) : Function.Injective fun d : Digest => d.update xs := by
  induction xs with
  | nil => exact fun _ _ h => h
  | cons b xs ih =>
    intro d d' h
    have hmix : (⟨mix d.h b.toUInt64⟩ : Digest) = ⟨mix d'.h b.toUInt64⟩ := ih h
    have hstate : d.h = d'.h := mix_left_injective b.toUInt64 (congrArg Digest.h hmix)
    cases d
    exact congrArg Digest.mk hstate

/-- **One byte shows**: whatever is around it, and however much comes after. -/
theorem value_one_byte (d : Digest) (xs ys : List Byte) (b b' : Byte) :
    (d.update (xs ++ b :: ys)).value = (d.update (xs ++ b' :: ys)).value ↔ b = b' := by
  refine ⟨fun h => ?_, fun h => by rw [h]⟩
  have hstate : (d.update xs).update (b :: ys) = (d.update xs).update (b' :: ys) := by
    rw [← update_append, ← update_append]
    generalize d.update (xs ++ b :: ys) = u at h
    generalize d.update (xs ++ b' :: ys) = v at h
    cases u
    exact congrArg Digest.mk h
  have hmix := update_injective ys hstate
  have hbyte := mix_right_injective (d.update xs).h (congrArg Digest.h hmix)
  exact UInt8.toUInt64_inj.mp hbyte

end Digest
end OptiTrade
