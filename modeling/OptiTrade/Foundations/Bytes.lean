import Mathlib.Data.List.GetD
import Mathlib.Data.List.Induction
import Mathlib.Tactic.Ring
import OptiTrade.Core.Types

/-! # Fields of a byte string

`load` reads a field of any width, `store w` writes the low `8 * w` bits of a number, most significant
byte first in `Be` and last in `Le`. `slice` is the field of a message at an offset; the two `append`
lemmas walk it to the part it lies in. -/

namespace OptiTrade.Be
set_option autoImplicit false

def load (bs : List Byte) : Nat := bs.foldl (fun v b => v * 256 + b.toNat) 0

def store : Nat → Nat → List Byte
  | 0, _ => []
  | w + 1, v => store w (v / 256) ++ [UInt8.ofNat v]

@[simp] theorem length_store (w v : Nat) : (store w v).length = w := by
  induction w generalizing v with
  | zero => rfl
  | succ w ih => simp [store, ih]

theorem load_append_singleton (bs : List Byte) (b : Byte) : load (bs ++ [b]) = load bs * 256 + b.toNat := by
  simp [load]

theorem load_store (w v : Nat) : load (store w v) = v % 256 ^ w := by
  induction w generalizing v with
  | zero => simp [store, load, Nat.mod_one]
  | succ w ih =>
    have hb : (UInt8.ofNat v).toNat = v % 256 := by simp
    rw [store, load_append_singleton, ih, hb, Nat.pow_succ, Nat.mul_comm (256 ^ w) 256, Nat.mod_mul]
    ring

theorem load_store_of_lt {w v : Nat} (h : v < 256 ^ w) : load (store w v) = v := by
  rw [load_store, Nat.mod_eq_of_lt h]

theorem load_lt (bs : List Byte) : load bs < 256 ^ bs.length := by
  induction bs using List.reverseRecOn with
  | nil => simp [load]
  | append_singleton bs b ih =>
    have hb : b.toNat < 256 := b.toNat_lt
    rw [load_append_singleton, List.length_append, List.length_singleton, Nat.pow_succ]
    omega

/-! ## Fields at an offset -/

/-- The bytes from `off` on, at most `len`. -/
def slice (p : List Byte) (off len : Nat) : List Byte := (p.drop off).take len

theorem length_slice_le (p : List Byte) (off len : Nat) : (slice p off len).length ≤ len := by
  simp only [slice, List.length_take]
  omega

theorem slice_append_right {p q : List Byte} {off len : Nat} (h : p.length ≤ off) :
    slice (p ++ q) off len = slice q (off - p.length) len := by
  unfold slice
  rw [List.drop_append, List.drop_eq_nil_of_le h, List.nil_append]

theorem slice_append_left {p q : List Byte} {len : Nat} (h : p.length = len) : slice (p ++ q) 0 len = p := by
  subst h
  simp [slice]

theorem slice_self {p : List Byte} {len : Nat} (h : p.length = len) : slice p 0 len = p := by
  subst h
  simp [slice]

/-- The field of `w` bytes at `off` as a number. -/
def loadAt (p : List Byte) (off w : Nat) : Nat := load (slice p off w)

theorem loadAt_lt (p : List Byte) (off w : Nat) : loadAt p off w < 256 ^ w :=
  (load_lt _).trans_le (Nat.pow_le_pow_right (by omega) (length_slice_le p off w))

/-- The byte at `off`. -/
def byteAt (p : List Byte) (off : Nat) : Byte := p.getD off 0

end OptiTrade.Be

/-! ## Little-endian fields -/

namespace OptiTrade.Le
set_option autoImplicit false

def load (bs : List Byte) : Nat := bs.foldr (fun b v => b.toNat + 256 * v) 0

def store : Nat → Nat → List Byte
  | 0, _ => []
  | w + 1, v => UInt8.ofNat v :: store w (v / 256)

@[simp] theorem length_store (w v : Nat) : (store w v).length = w := by
  induction w generalizing v with
  | zero => rfl
  | succ w ih => simp [store, ih]

theorem load_store (w v : Nat) : load (store w v) = v % 256 ^ w := by
  induction w generalizing v with
  | zero => simp [store, load, Nat.mod_one]
  | succ w ih =>
    have hb : (UInt8.ofNat v).toNat = v % 256 := by simp
    have hcons : load (store (w + 1) v) = (UInt8.ofNat v).toNat + 256 * load (store w (v / 256)) := rfl
    rw [hcons, ih, hb, Nat.pow_succ, Nat.mul_comm (256 ^ w) 256, Nat.mod_mul]

theorem load_store_of_lt {w v : Nat} (h : v < 256 ^ w) : load (store w v) = v := by
  rw [load_store, Nat.mod_eq_of_lt h]

end OptiTrade.Le
