import Mathlib.Data.List.Basic
import Mathlib.Logic.Function.Basic
import Mathlib.Data.Nat.ModEq

/-! # Ring buffers

A vector of `size` cells read from `head` on, `count` of them in use, indices modulo `size`.
`toList` is the queue it stands for; `push` appends to it and `pop` drops its first element. -/

namespace OptiTrade
set_option autoImplicit false

/-- A ring of cells of which `count` from `head` on are in use. -/
structure RingBuffer (α : Type) where
  cells : Nat → α
  size : Nat
  head : Nat
  count : Nat

namespace RingBuffer
variable {α : Type}

def new (size : Nat) (a : α) : RingBuffer α := ⟨fun _ => a, size, 0, 0⟩

def front (r : RingBuffer α) : α := r.cells r.head

def push (r : RingBuffer α) (a : α) : RingBuffer α :=
  { r with cells := Function.update r.cells ((r.head + r.count) % r.size) a, count := r.count + 1 }

def pop (r : RingBuffer α) : RingBuffer α :=
  { r with head := (r.head + 1) % r.size, count := r.count - 1 }

def toList (r : RingBuffer α) : List α :=
  (List.range r.count).map fun k => r.cells ((r.head + k) % r.size)

@[simp] theorem toList_new (n : Nat) (a : α) : (new n a).toList = [] := rfl

@[simp] theorem length_toList (r : RingBuffer α) : r.toList.length = r.count := by
  simp [toList]

theorem toList_eq_nil {r : RingBuffer α} : r.toList = [] ↔ r.count = 0 := by
  rw [← List.length_eq_zero_iff, length_toList]

theorem offset_ne {h n j k : Nat} (hj : j < n) (hk : k < n) (hne : j ≠ k) : (h + j) % n ≠ (h + k) % n := by
  intro he
  have hmod : j ≡ k [MOD n] := Nat.ModEq.add_left_cancel' h he
  rw [Nat.ModEq, Nat.mod_eq_of_lt hj, Nat.mod_eq_of_lt hk] at hmod
  exact hne hmod

theorem toList_push (r : RingBuffer α) (a : α) (h : r.count < r.size) :
    (r.push a).toList = r.toList ++ [a] := by
  simp only [toList, push, List.range_succ, List.map_append, List.map_cons, List.map_nil,
    Function.update_self]
  congr 1
  apply List.map_congr_left
  intro k hk
  have hk' := List.mem_range.mp hk
  exact Function.update_of_ne (offset_ne (by omega) h (by omega)) _ _

theorem toList_pop {r : RingBuffer α} (hc : r.count ≠ 0) (hh : r.head < r.size) :
    r.toList = r.front :: r.pop.toList := by
  obtain ⟨n, hn⟩ := Nat.exists_eq_succ_of_ne_zero hc
  simp only [toList, front, pop, hn, Nat.succ_eq_add_one, Nat.add_sub_cancel, List.range_succ_eq_map,
    List.map_cons, Nat.add_zero, Nat.mod_eq_of_lt hh, List.map_map]
  congr 1
  apply List.map_congr_left
  intro k _
  simp only [Function.comp_apply, Nat.succ_eq_add_one, Nat.mod_add_mod]
  congr 2
  omega

@[simp] theorem size_push (r : RingBuffer α) (a : α) : (r.push a).size = r.size := rfl
@[simp] theorem head_push (r : RingBuffer α) (a : α) : (r.push a).head = r.head := rfl
@[simp] theorem count_push (r : RingBuffer α) (a : α) : (r.push a).count = r.count + 1 := rfl
@[simp] theorem size_pop (r : RingBuffer α) : r.pop.size = r.size := rfl
@[simp] theorem count_pop (r : RingBuffer α) : r.pop.count = r.count - 1 := rfl

theorem head_pop_lt (r : RingBuffer α) (h : 0 < r.size) : r.pop.head < r.size := Nat.mod_lt _ h

end RingBuffer
end OptiTrade
