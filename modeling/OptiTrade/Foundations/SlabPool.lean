import Mathlib.Data.List.Nodup
import Mathlib.Data.List.Perm.Subperm
import Mathlib.Data.List.Range
import Mathlib.Logic.Function.Basic

/-! # Slab pools

A fixed number of nodes; the free ones form an intrusive last-in first-out list, an allocated one
carries a mark instead of a link. `Inv p fl` says that `fl` is the free list, first to last. -/

namespace OptiTrade
set_option autoImplicit false

namespace SlabPool

/-- The `next` field of a node. -/
inductive Cell
  | free (next : Option Nat)
  | allocated
  deriving DecidableEq

end SlabPool

/-- A pool of numbered nodes, the free ones linked. -/
structure SlabPool (α : Type) where
  capacity : Nat
  values : Nat → α
  cells : Nat → SlabPool.Cell
  free : Option Nat
  size : Nat

namespace SlabPool
variable {α : Type} [Inhabited α]

def new (capacity : Nat) : SlabPool α where
  capacity := capacity
  values := fun _ => default
  cells := fun i => .free (if i + 1 < capacity then some (i + 1) else none)
  free := if capacity ≠ 0 then some 0 else none
  size := 0

def live (p : SlabPool α) (h : Nat) : Bool := h < p.capacity && p.cells h == .allocated

/-- The pool after the allocation and the handle, none when the pool is exhausted. -/
def allocate (p : SlabPool α) : SlabPool α × Option Nat :=
  match p.free with
  | none => (p, none)
  | some h =>
    match p.cells h with
    | .allocated => (p, none)
    | .free n =>
      ({ p with
          free := n
          cells := Function.update p.cells h .allocated
          values := Function.update p.values h default
          size := p.size + 1 }, some h)

/-- Ignores a handle that is not live. -/
def release (p : SlabPool α) (h : Nat) : SlabPool α :=
  if p.live h then
    { p with cells := Function.update p.cells h (.free p.free), free := some h, size := p.size - 1 }
  else p

def set (p : SlabPool α) (h : Nat) (a : α) : SlabPool α := { p with values := Function.update p.values h a }

omit [Inhabited α] in
@[simp] theorem set_values (p : SlabPool α) (h : Nat) (a : α) : (p.set h a).values = Function.update p.values h a := rfl

omit [Inhabited α] in
@[simp] theorem set_live (p : SlabPool α) (h : Nat) (a : α) : (p.set h a).live = p.live := rfl

/-! ## The free list -/

/-- Following the links from `e` visits `fl` and ends. -/
def Chain (cells : Nat → Cell) : Option Nat → List Nat → Prop
  | none, [] => True
  | some h, x :: fl => h = x ∧ ∃ n, cells h = .free n ∧ Chain cells n fl
  | _, _ => False

theorem Chain.congr {cells cells' : Nat → Cell} : ∀ {e : Option Nat} {fl : List Nat}, Chain cells e fl →
    (∀ x ∈ fl, cells' x = cells x) → Chain cells' e fl
  | none, [], _, _ => trivial
  | some h, x :: fl, hc, he => by
      obtain ⟨rfl, n, hn, hc⟩ := hc
      refine ⟨rfl, n, (he h (by simp)).trans hn, hc.congr fun y hy => he y (by simp [hy])⟩

theorem Chain.free {cells : Nat → Cell} : ∀ {e : Option Nat} {fl : List Nat}, Chain cells e fl →
    ∀ x ∈ fl, cells x ≠ .allocated
  | none, [], _, _, hx => by cases hx
  | none, _ :: _, hc, _, _ => hc.elim
  | some h, y :: fl, hc, x, hx => by
      obtain ⟨rfl, n, hn, hc⟩ := hc
      rcases List.mem_cons.mp hx with rfl | hx
      · rw [hn]
        simp
      · exact hc.free x hx

/-- `fl` is the free list of the pool: every node is on it or allocated. -/
structure Inv (p : SlabPool α) (fl : List Nat) : Prop where
  chain : Chain p.cells p.free fl
  nodup : fl.Nodup
  lt : ∀ h ∈ fl, h < p.capacity
  cover : ∀ h < p.capacity, h ∈ fl ∨ p.cells h = .allocated
  size_eq : p.size + fl.length = p.capacity

variable {p : SlabPool α} {fl : List Nat}

omit [Inhabited α] in
theorem live_iff {h : Nat} : p.live h = true ↔ h < p.capacity ∧ p.cells h = .allocated := by
  simp [live]

omit [Inhabited α] in
theorem Inv.live_iff_not_mem (hp : p.Inv fl) {h : Nat} : p.live h = true ↔ h < p.capacity ∧ h ∉ fl := by
  rw [live_iff]
  refine and_congr_right fun hlt => ⟨fun ha hm => hp.chain.free h hm ha, fun hm => ?_⟩
  exact (hp.cover h hlt).resolve_left hm

omit [Inhabited α] in
theorem Inv.set (hp : p.Inv fl) (h : Nat) (a : α) : (p.set h a).Inv fl :=
  ⟨hp.chain, hp.nodup, hp.lt, hp.cover, hp.size_eq⟩

theorem chain_new (capacity k : Nat) (hk : k ≤ capacity) :
    Chain (new capacity : SlabPool α).cells (if k < capacity then some k else none)
      (List.range' k (capacity - k)) := by
  obtain ⟨n, hn⟩ : ∃ n, capacity - k = n := ⟨_, rfl⟩
  induction n generalizing k with
  | zero =>
    rw [if_neg (by omega), hn]
    trivial
  | succ n ih =>
    rw [if_pos (by omega), hn, List.range'_succ]
    refine ⟨rfl, _, rfl, ?_⟩
    have := ih (k + 1) (by omega) (by omega)
    rwa [show capacity - (k + 1) = n by omega] at this

theorem Inv.new (capacity : Nat) : (new capacity : SlabPool α).Inv (List.range' 0 capacity) := by
  refine ⟨?_, List.nodup_range', fun h hh => ?_, fun h hh => .inl ?_, ?_⟩
  · have := chain_new (α := α) capacity 0 (Nat.zero_le _)
    simpa [SlabPool.new, Nat.pos_iff_ne_zero] using this
  · have := List.mem_range'_1.mp hh
    show h < capacity
    omega
  · exact List.mem_range'_1.mpr ⟨Nat.zero_le _, by rw [Nat.zero_add]; exact hh⟩
  · simp [SlabPool.new]

/-! ## Allocation and release -/

theorem Inv.allocate_none_iff (hp : p.Inv fl) : (p.allocate).2 = none ↔ fl = [] := by
  have hchain := hp.chain
  unfold SlabPool.allocate
  cases hf : p.free with
  | none =>
    rw [hf] at hchain
    cases fl with
    | nil => simp
    | cons y fl => exact hchain.elim
  | some x =>
    rw [hf] at hchain
    cases fl with
    | nil => exact hchain.elim
    | cons y fl =>
      obtain ⟨rfl, n, hn, -⟩ := hchain
      simp [hn]

/-- The handle handed out was free, and is the only new live one. -/
theorem Inv.allocate {p' : SlabPool α} {h : Nat} (hp : p.Inv fl) (ha : p.allocate = (p', some h)) :
    (∃ fl', fl = h :: fl' ∧ p'.Inv fl') ∧ p.live h = false ∧ p'.capacity = p.capacity ∧
      p'.values = Function.update p.values h default ∧ ∀ x, p'.live x = true ↔ x = h ∨ p.live x = true := by
  unfold SlabPool.allocate at ha
  split at ha
  · simp at ha
  · rename_i x hx
    split at ha
    · simp at ha
    · rename_i n hn
      simp only [Prod.mk.injEq, Option.some.injEq] at ha
      obtain ⟨rfl, rfl⟩ := ha
      have hchain := hp.chain
      rw [hx] at hchain
      obtain ⟨fl', rfl, hc⟩ : ∃ fl', fl = x :: fl' ∧ Chain p.cells n fl' := by
        cases fl with
        | nil => exact hchain.elim
        | cons y fl' =>
          obtain ⟨rfl, m, hm, hc⟩ := hchain
          rw [hn] at hm
          cases hm
          exact ⟨fl', rfl, hc⟩
      have hnd := List.nodup_cons.mp hp.nodup
      have hlt := hp.lt x (by simp)
      refine ⟨⟨fl', rfl, ⟨?_, hnd.2, fun y hy => hp.lt y (by simp [hy]), fun y hy => ?_, ?_⟩⟩, ?_, rfl, rfl,
        fun y => ?_⟩
      · refine hc.congr fun y hy => Function.update_of_ne ?_ _ _
        rintro rfl
        exact hnd.1 hy
      · by_cases hyx : y = x
        · exact .inr (by simp [hyx])
        · rcases hp.cover y hy with hm | hm
          · exact .inl ((List.mem_cons.mp hm).resolve_left hyx)
          · exact .inr (by simpa [hyx] using hm)
      · have := hp.size_eq
        simp only [List.length_cons] at this
        show p.size + 1 + fl'.length = p.capacity
        omega
      · simp [live, hn]
      · rw [live_iff, live_iff]
        by_cases hyx : y = x
        · simp [hyx, hlt]
        · simp [hyx]

omit [Inhabited α] in
theorem Inv.release {h : Nat} (hp : p.Inv fl) (hl : p.live h = true) :
    (p.release h).Inv (h :: fl) ∧ (p.release h).capacity = p.capacity ∧ (p.release h).values = p.values ∧
      ∀ x, (p.release h).live x = true ↔ x ≠ h ∧ p.live x = true := by
  obtain ⟨hlt, hmem⟩ := hp.live_iff_not_mem.mp hl
  have hcell := (live_iff.mp hl).2
  unfold SlabPool.release
  rw [if_pos hl]
  have hsize : p.size ≠ 0 := by
    intro h0
    -- a full free list would hold `h`
    have hlen : fl.length = p.capacity := by have := hp.size_eq; omega
    have hsub : (h :: fl) ⊆ List.range p.capacity := by
      intro x hx
      rcases List.mem_cons.mp hx with rfl | hx
      · exact List.mem_range.mpr hlt
      · exact List.mem_range.mpr (hp.lt x hx)
    have := ((List.nodup_cons.mpr ⟨hmem, hp.nodup⟩).subperm hsub).length_le
    simp only [List.length_cons, List.length_range] at this
    omega
  refine ⟨⟨⟨rfl, p.free, by simp, ?_⟩, List.nodup_cons.mpr ⟨hmem, hp.nodup⟩, ?_, ?_, ?_⟩, rfl, rfl, fun x => ?_⟩
  · refine hp.chain.congr fun y hy => Function.update_of_ne ?_ _ _
    rintro rfl
    exact hmem hy
  · intro x hx
    rcases List.mem_cons.mp hx with rfl | hx
    · exact hlt
    · exact hp.lt x hx
  · intro x hx
    by_cases hxh : x = h
    · exact .inl (by simp [hxh])
    · rcases hp.cover x hx with hm | hm
      · exact .inl (by simp [hm])
      · exact .inr (by simpa [hxh] using hm)
  · have := hp.size_eq
    simp only [List.length_cons]
    omega
  · rw [live_iff, live_iff]
    by_cases hxh : x = h
    · simp [hxh]
    · simp [hxh]

end SlabPool
end OptiTrade
