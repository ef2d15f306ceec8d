import Mathlib.Algebra.Group.Nat.Defs
import OptiTrade.Foundations.Runs
import OptiTrade.Foundations.SlabPool

/-! # The slab pool

The pool as it is stored: handles are 32-bit numbers, and the link of a node is another handle, the null
handle at the end of the free list, or the sentinel of an allocated node. `OptiTrade.SlabPool` is the same
pool with the three told apart; `abstract` reads one as the other. -/

namespace OptiTrade.Core
set_option autoImplicit false

namespace SlabPool

def kNull : UInt32 := 0xFFFFFFFF
def kAllocated : UInt32 := kNull - 1
def kMaxCapacity : Nat := 0xFFFFFFFE

/-- A node: its value, and the next free node or the mark of one that is handed out. -/
structure Node (α : Type) where
  value : α
  next : UInt32 := kNull

end SlabPool

/-- A pool of nodes, the free ones linked. -/
structure SlabPool (α : Type) where
  capacity : Nat
  nodes : Nat → SlabPool.Node α
  free : UInt32 := SlabPool.kNull
  size : Nat := 0

namespace SlabPool
variable {α : Type} [Inhabited α]

/-- A pool whose nodes are all free, linked in order. -/
def fresh (capacity : Nat) : SlabPool α where
  capacity := capacity
  nodes := fun i => ⟨default, if i + 1 < capacity then UInt32.ofNat (i + 1) else kNull⟩
  free := if capacity ≠ 0 then 0 else kNull

/-- Throws above the largest capacity. -/
def new (capacity : Nat) : Option (SlabPool α) := if kMaxCapacity < capacity then none else some (fresh capacity)

def live (p : SlabPool α) (h : UInt32) : Bool := h.toNat < p.capacity && (p.nodes h.toNat).next == kAllocated

/-- The pool after the allocation and the handle, `kNull` when the pool is exhausted. -/
def allocate (p : SlabPool α) : SlabPool α × UInt32 :=
  if p.free = kNull then (p, kNull)
  else
    let h := p.free
    ({ p with
        free := (p.nodes h.toNat).next
        nodes := Function.update p.nodes h.toNat ⟨default, kAllocated⟩
        size := p.size + 1 }, h)

/-- Ignores a handle that is not live. -/
def release (p : SlabPool α) (h : UInt32) : SlabPool α :=
  if !p.live h then p
  else
    { p with
      nodes := Function.update p.nodes h.toNat { p.nodes h.toNat with next := p.free }
      free := h
      size := p.size - 1 }

/-- The operations of the pool. -/
inductive Op
  | allocate
  | release (h : UInt32)

def step (p : SlabPool α) : Op → SlabPool α
  | .allocate => p.allocate.1
  | .release h => p.release h

/-- The pool after some calls. -/
def run (p : SlabPool α) (ops : List Op) : SlabPool α := ops.foldl step p

/-! ## The free list -/

/-- Following the links from `h` visits `fl` and ends at the null handle. -/
def Reaches (p : SlabPool α) : UInt32 → List Nat → Prop
  | h, [] => h = kNull
  | h, x :: fl => h ≠ kNull ∧ h.toNat = x ∧ p.Reaches (p.nodes x).next fl

/-- What a call does to the list of free handles, the one to be handed out next first. -/
def freeStep (capacity : Nat) (fl : List Nat) : Op → List Nat
  | .allocate => fl.tail
  | .release h => if h.toNat < capacity ∧ h.toNat ∉ fl then h.toNat :: fl else fl

/-- The free handles after some calls: at the start all of them, in order. -/
def freeAfter (capacity : Nat) (ops : List Op) : List Nat := ops.foldl (freeStep capacity) (List.range capacity)

/-! ## The pool it stands for -/

/-- What a link says. -/
def cellOf (n : UInt32) : OptiTrade.SlabPool.Cell :=
  if n = kAllocated then .allocated else .free (if n = kNull then none else some n.toNat)

/-- The pool of the library: handles are numbers, and a cell is free or it is not. -/
def abstract (p : SlabPool α) : OptiTrade.SlabPool α where
  capacity := p.capacity
  values := fun i => (p.nodes i).value
  cells := fun i => cellOf (p.nodes i).next
  free := if p.free = kNull then none else some p.free.toNat
  size := p.size

theorem kNull_ne_kAllocated : kNull ≠ kAllocated := by decide

theorem cellOf_eq_allocated {n : UInt32} : cellOf n = .allocated ↔ n = kAllocated := by
  unfold cellOf
  split_ifs with h
  · simp [h]
  · simp [h]

theorem cellOf_of_ne {n : UInt32} (h : n ≠ kAllocated) : cellOf n = .free (if n = kNull then none else some n.toNat) :=
  if_neg h

theorem ofNat_ne {n : Nat} (h : n < kMaxCapacity) :
    (UInt32.ofNat n).toNat = n ∧ UInt32.ofNat n ≠ kNull ∧ UInt32.ofNat n ≠ kAllocated := by
  have hto : (UInt32.ofNat n).toNat = n := by
    rw [UInt32.toNat_ofNat', Nat.mod_eq_of_lt (by unfold kMaxCapacity at h; omega)]
  have h₁ : kNull.toNat = 0xFFFFFFFF := rfl
  have h₂ : kAllocated.toNat = 0xFFFFFFFE := rfl
  unfold kMaxCapacity at h
  refine ⟨hto, fun he => ?_, fun he => ?_⟩
  · have := congrArg UInt32.toNat he
    omega
  · have := congrArg UInt32.toNat he
    omega

theorem ne_kAllocated_of_lt {h : UInt32} {capacity : Nat} (hc : capacity ≤ kMaxCapacity) (hlt : h.toNat < capacity) :
    h ≠ kAllocated := by
  rintro rfl
  have h₂ : kAllocated.toNat = 0xFFFFFFFE := rfl
  unfold kMaxCapacity at hc
  omega

omit [Inhabited α] in
theorem abstract_live (p : SlabPool α) (h : UInt32) : p.abstract.live h.toNat = p.live h := by
  rw [Bool.eq_iff_iff, OptiTrade.SlabPool.live_iff]
  show h.toNat < p.capacity ∧ cellOf (p.nodes h.toNat).next = .allocated ↔ _
  rw [cellOf_eq_allocated]
  simp [live]

theorem abstract_fresh {capacity : Nat} (hc : capacity ≤ kMaxCapacity) :
    (fresh capacity : SlabPool α).abstract = .new capacity := by
  have hcell : ∀ i, cellOf (if i + 1 < capacity then UInt32.ofNat (i + 1) else kNull) =
      .free (if i + 1 < capacity then some (i + 1) else none) := by
    intro i
    split_ifs with hi
    · obtain ⟨hto, hn, ha⟩ := ofNat_ne (n := i + 1) (by omega)
      rw [cellOf_of_ne ha, if_neg hn, hto]
    · exact cellOf_of_ne kNull_ne_kAllocated
  have hfree : (fresh capacity : SlabPool α).abstract.free = if capacity ≠ 0 then some 0 else none := by
    unfold abstract fresh
    dsimp only
    by_cases h₀ : capacity = 0
    · simp [h₀]
    · rw [if_pos h₀, if_pos h₀]
      rfl
  unfold OptiTrade.SlabPool.new
  rw [← hfree]
  unfold abstract fresh
  simp only [hcell]

/-! ## The two pools do the same -/

/-- `fl` is the free list. -/
structure Inv (p : SlabPool α) (fl : List Nat) : Prop where
  abs : p.abstract.Inv fl
  small : p.capacity ≤ kMaxCapacity

variable {p : SlabPool α} {fl : List Nat}

omit [Inhabited α] in
theorem Inv.free_ne (hp : p.Inv fl) : p.free ≠ kAllocated := by
  intro h
  have hchain := hp.abs.chain
  have hfree : p.abstract.free = some p.free.toNat := if_neg (by rw [h]; exact kNull_ne_kAllocated.symm)
  rw [hfree] at hchain
  cases fl with
  | nil => exact hchain.elim
  | cons x fl =>
    have hlt : p.free.toNat < p.capacity := by
      rw [hchain.1]
      exact hp.abs.lt x List.mem_cons_self
    exact ne_kAllocated_of_lt hp.small hlt h

theorem Inv.allocate_abstract (hp : p.Inv fl) :
    p.abstract.allocate = (p.allocate.1.abstract, if p.allocate.2 = kNull then none else some p.allocate.2.toNat) := by
  have hchain := hp.abs.chain
  unfold OptiTrade.SlabPool.allocate allocate
  by_cases hf : p.free = kNull
  · have hfree : p.abstract.free = none := if_pos hf
    rw [hfree, if_pos hf]
    simp
  · have hfree : p.abstract.free = some p.free.toNat := if_neg hf
    rw [hfree] at hchain ⊢
    rw [if_neg hf]
    cases fl with
    | nil => exact hchain.elim
    | cons x fl =>
      obtain ⟨-, n, hn, -⟩ := hchain
      have hn' : cellOf (p.nodes p.free.toNat).next = .free n := hn
      have hlink : n = if (p.nodes p.free.toNat).next = kNull then none else some (p.nodes p.free.toNat).next.toNat := by
        have hne : (p.nodes p.free.toNat).next ≠ kAllocated := by
          intro ha
          rw [cellOf_eq_allocated.mpr ha] at hn'
          cases hn'
        rw [cellOf_of_ne hne] at hn'
        cases hn'
        rfl
      have hcells : (fun i => cellOf (Function.update p.nodes p.free.toNat ⟨default, kAllocated⟩ i).next) =
          Function.update p.abstract.cells p.free.toNat .allocated := by
        funext i
        by_cases hi : i = p.free.toNat
        · subst hi
          simp [cellOf_eq_allocated]
        · simp [hi, abstract]
      have hvalues : (fun i => (Function.update p.nodes p.free.toNat ⟨default, kAllocated⟩ i).value) =
          Function.update p.abstract.values p.free.toNat default := by
        funext i
        by_cases hi : i = p.free.toNat
        · subst hi
          simp
        · simp [hi, abstract]
      dsimp only
      rw [hn]
      dsimp only
      rw [if_neg hf]
      unfold abstract
      dsimp only
      rw [hcells, hvalues, ← hlink]
      rfl

omit [Inhabited α] in
theorem release_live {h : UInt32} (hl : p.live h = true) : p.release h =
    { p with
      nodes := Function.update p.nodes h.toNat { p.nodes h.toNat with next := p.free }
      free := h
      size := p.size - 1 } := by
  unfold release
  rw [hl]
  rfl

omit [Inhabited α] in
theorem release_dead {h : UInt32} (hl : p.live h = false) : p.release h = p := by
  unfold release
  rw [hl]
  rfl

omit [Inhabited α] in
theorem Inv.release_abstract (hp : p.Inv fl) (h : UInt32) : (p.release h).abstract = p.abstract.release h.toNat := by
  unfold OptiTrade.SlabPool.release
  rw [abstract_live]
  cases hl : p.live h with
  | false =>
    rw [release_dead hl]
    rfl
  | true =>
    have hnull : h ≠ kNull := by
      rintro rfl
      have hlt : kNull.toNat < p.capacity := by simpa using (Bool.and_eq_true_iff.mp hl).1
      have hsmall := hp.small
      have h₁ : kNull.toNat = 0xFFFFFFFF := rfl
      unfold kMaxCapacity at hsmall
      omega
    have hcells : (fun i => cellOf (Function.update p.nodes h.toNat { p.nodes h.toNat with next := p.free } i).next) =
        Function.update p.abstract.cells h.toNat (.free p.abstract.free) := by
      funext i
      by_cases hi : i = h.toNat
      · subst hi
        rw [Function.update_self, Function.update_self]
        exact cellOf_of_ne hp.free_ne
      · simp [hi, abstract]
    have hvalues : (fun i => (Function.update p.nodes h.toNat { p.nodes h.toNat with next := p.free } i).value) =
        p.abstract.values := by
      funext i
      by_cases hi : i = h.toNat
      · subst hi
        simp [abstract]
      · simp [hi, abstract]
    rw [release_live hl, if_pos rfl, ← hcells]
    unfold abstract at hvalues ⊢
    dsimp only
    rw [hvalues, if_neg hnull]

/-! ## Runs -/

omit [Inhabited α] in
theorem Inv.live_eq_false (hp : p.Inv fl) {h : UInt32} (hlt : h.toNat < p.capacity) : p.live h = false ↔ h.toNat ∈ fl := by
  have hiff := hp.abs.live_iff_not_mem (h := h.toNat)
  rw [abstract_live] at hiff
  rw [← Bool.not_eq_true, hiff]
  show ¬(h.toNat < p.capacity ∧ h.toNat ∉ fl) ↔ _
  simp [hlt]

theorem allocate_capacity (p : SlabPool α) : p.allocate.1.capacity = p.capacity := by
  unfold allocate
  split_ifs <;> rfl

omit [Inhabited α] in
theorem release_capacity (p : SlabPool α) (h : UInt32) : (p.release h).capacity = p.capacity := by
  unfold release
  split_ifs <;> rfl

/-- An allocation takes the first free handle, if there is one. -/
theorem Inv.allocate (hp : p.Inv fl) :
    fl = [] ∧ p.allocate = (p, kNull) ∨
      ∃ h : UInt32, ∃ fl', fl = h.toNat :: fl' ∧ p.allocate.2 = h ∧ h ≠ kNull ∧ p.allocate.1.Inv fl' ∧ p.live h = false ∧
        p.allocate.1.live h = true ∧ (p.allocate.1.nodes h.toNat).value = default := by
  have habs := hp.allocate_abstract
  by_cases hf : p.free = kNull
  · have hall : p.allocate = (p, kNull) := if_pos hf
    refine .inl ⟨hp.abs.allocate_none_iff.mp ?_, hall⟩
    rw [habs, hall]
    show (if kNull = kNull then none else some kNull.toNat) = none
    exact if_pos rfl
  · have hh : p.allocate.2 = p.free := by
      unfold SlabPool.allocate
      rw [if_neg hf]
    rw [hh, if_neg hf] at habs
    obtain ⟨⟨fl', hfl, hinv⟩, hl, hcap, hval, hlive⟩ := hp.abs.allocate habs
    refine .inr ⟨p.free, fl', hfl, hh, hf, ⟨hinv, ?_⟩, ?_, ?_, ?_⟩
    · rw [allocate_capacity]
      exact hp.small
    · rw [← abstract_live]
      exact hl
    · rw [← abstract_live]
      exact (hlive _).mpr (.inl rfl)
    · show p.allocate.1.abstract.values p.free.toNat = default
      rw [hval, Function.update_self]

theorem Inv.step (hp : p.Inv fl) (op : Op) : (p.step op).Inv (freeStep p.capacity fl op) ∧
    (p.step op).capacity = p.capacity := by
  cases op with
  | allocate =>
    refine ⟨?_, allocate_capacity p⟩
    show p.allocate.1.Inv fl.tail
    rcases hp.allocate with ⟨rfl, hall⟩ | ⟨h, fl', rfl, -, -, hinv, -⟩
    · rw [hall]
      exact hp
    · exact hinv
  | release h =>
    refine ⟨?_, release_capacity p h⟩
    have hsmall : (p.release h).capacity ≤ kMaxCapacity := by
      rw [release_capacity]
      exact hp.small
    have hiff : p.abstract.live h.toNat = true ↔ h.toNat < p.capacity ∧ h.toNat ∉ fl := hp.abs.live_iff_not_mem
    show (p.release h).Inv (if h.toNat < p.capacity ∧ h.toNat ∉ fl then h.toNat :: fl else fl)
    by_cases hl : p.abstract.live h.toNat = true
    · refine ⟨?_, hsmall⟩
      rw [if_pos (hiff.mp hl), hp.release_abstract]
      exact (hp.abs.release hl).1
    · rw [if_neg fun hc => hl (hiff.mpr hc), release_dead (by rw [← abstract_live]; simpa using hl)]
      exact hp

theorem Inv.run (hp : p.Inv fl) (ops : List Op) :
    (p.run ops).Inv (ops.foldl (freeStep p.capacity) fl) ∧ (p.run ops).capacity = p.capacity := by
  induction ops generalizing p fl with
  | nil => exact ⟨hp, rfl⟩
  | cons op ops ih =>
    obtain ⟨hstep, hcap⟩ := hp.step op
    obtain ⟨hrun, hcap'⟩ := ih hstep
    rw [hcap] at hrun
    exact ⟨hrun, hcap'.trans hcap⟩

theorem Inv.new {capacity : Nat} (h : new capacity = some p) (ops : List Op) :
    (p.run ops).Inv (freeAfter capacity ops) ∧ (p.run ops).capacity = capacity := by
  unfold SlabPool.new at h
  split_ifs at h with hc
  obtain rfl := Option.some.inj h
  have hp : (fresh capacity : SlabPool α).Inv (List.range capacity) := by
    refine ⟨?_, Nat.le_of_not_lt hc⟩
    rw [abstract_fresh (Nat.le_of_not_lt hc), List.range_eq_range']
    exact OptiTrade.SlabPool.Inv.new capacity
  exact hp.run ops

omit [Inhabited α] in
/-- The links themselves visit the free list. -/
theorem reaches_of_chain {n : UInt32} (hc : OptiTrade.SlabPool.Chain p.abstract.cells (if n = kNull then none else some n.toNat) fl) :
    p.Reaches n fl := by
  induction fl generalizing n with
  | nil =>
    show n = kNull
    by_contra hn
    rw [if_neg hn] at hc
    exact hc.elim
  | cons x fl ih =>
    by_cases hn : n = kNull
    · rw [if_pos hn] at hc
      exact hc.elim
    · rw [if_neg hn] at hc
      obtain ⟨rfl, m, hm, hrest⟩ := hc
      refine ⟨hn, rfl, ih ?_⟩
      have hm' : cellOf (p.nodes n.toNat).next = .free m := hm
      have hne : (p.nodes n.toNat).next ≠ kAllocated := by
        intro ha
        rw [cellOf_eq_allocated.mpr ha] at hm'
        cases hm'
      rw [cellOf_of_ne hne] at hm'
      cases hm'
      exact hrest

omit [Inhabited α] in
theorem Inv.size_eq (hp : p.Inv fl) : p.size = (List.range p.capacity).countP fun i => p.abstract.live i := by
  have hsum : p.size + fl.length = p.capacity := hp.abs.size_eq
  have hperm : ((List.range p.capacity).filter fun i => !p.abstract.live i).Perm fl := by
    refine (List.perm_ext_iff_of_nodup (List.nodup_range.filter _) hp.abs.nodup).mpr fun i => ?_
    have hiff := hp.abs.live_iff_not_mem (h := i)
    have hcap : p.abstract.capacity = p.capacity := rfl
    rw [List.mem_filter, List.mem_range, Bool.not_eq_true', ← Bool.not_eq_true, hiff, hcap]
    have hlt : i ∈ fl → i < p.capacity := hp.abs.lt i
    tauto
  have hlen := List.length_eq_countP_add_countP (fun i => p.abstract.live i) (l := List.range p.capacity)
  have hfree : (List.range p.capacity).countP (fun i => ¬p.abstract.live i = true) = fl.length := by
    rw [← hperm.length_eq, ← List.countP_eq_length_filter]
    refine List.countP_congr fun i _ => ?_
    simp
  rw [List.length_range, hfree] at hlen
  omega

/-- **The pool never hands out a live handle.** After any calls on a pool of any capacity: the links from the
first free node visit, once each, exactly the handles that are not live, and end; an allocation fails exactly
when all handles are live, and otherwise gives the first handle of that list, which was not live and is now,
with a fresh value; that is the one released last, and 0, 1, 2 and so on while the pool is fresh; the size is
the number of live handles; and a release of a handle that is not live changes nothing. -/
theorem slab_pool_never_hands_out_live (capacity : Nat) (p₀ : SlabPool α) (h₀ : new capacity = some p₀) (ops : List Op) :
    (p₀.run ops).Reaches (p₀.run ops).free (freeAfter capacity ops) ∧
    (freeAfter capacity ops).Nodup ∧
    (∀ h : UInt32, h.toNat < capacity → (h.toNat ∈ freeAfter capacity ops ↔ (p₀.run ops).live h = false)) ∧
    (∀ x ∈ freeAfter capacity ops, x < capacity) ∧
    ((p₀.run ops).allocate.2 = kNull ↔ ∀ h : UInt32, h.toNat < capacity → (p₀.run ops).live h = true) ∧
    ((p₀.run ops).allocate.2 ≠ kNull →
      (freeAfter capacity ops).head? = some (p₀.run ops).allocate.2.toNat ∧
      (p₀.run ops).live (p₀.run ops).allocate.2 = false ∧
      (p₀.run ops).allocate.1.live (p₀.run ops).allocate.2 = true ∧
      ((p₀.run ops).allocate.1.nodes (p₀.run ops).allocate.2.toNat).value = default) ∧
    (∀ h, (p₀.run ops).live h = true → ((p₀.run ops).release h).allocate.2 = h) ∧
    (∀ k < capacity, (p₀.run (List.replicate k .allocate)).allocate.2.toNat = k) ∧
    (p₀.run ops).size = (List.range capacity).countP (fun i => (p₀.run ops).live (UInt32.ofNat i)) ∧
    ∀ h, (p₀.run ops).live h = false → (p₀.run ops).release h = p₀.run ops := by
  obtain ⟨hp, hcap⟩ := Inv.new h₀ ops
  have hsmall := hp.small
  have hlt : ∀ x ∈ freeAfter capacity ops, x < capacity := by
    intro x hx
    rw [← hcap]
    exact hp.abs.lt x hx
  have hfree : ∀ h : UInt32, h.toNat < capacity → (h.toNat ∈ freeAfter capacity ops ↔ (p₀.run ops).live h = false) :=
    fun h hh => (hp.live_eq_false (by rw [hcap]; exact hh)).symm
  refine ⟨reaches_of_chain hp.abs.chain, hp.abs.nodup, hfree, hlt, ?_, fun hne => ?_, fun h hl => ?_, fun k hk => ?_, ?_,
    fun h hl => release_dead hl⟩
  · rcases hp.allocate with ⟨hfl, hall⟩ | ⟨h, fl', hfl, hh, hn, -, hl, -⟩
    · rw [hall]
      refine ⟨fun _ h hh => ?_, fun _ => rfl⟩
      by_contra hl
      have hmem := (hfree h hh).mpr (by simpa using hl)
      rw [hfl] at hmem
      cases hmem
    · rw [hh]
      refine ⟨fun he => absurd he hn, fun hall => ?_⟩
      have hmem : h.toNat ∈ freeAfter capacity ops := by
        rw [hfl]
        exact List.mem_cons_self
      rw [hall h (hlt _ hmem)] at hl
      cases hl
  · rcases hp.allocate with ⟨-, hall⟩ | ⟨h, fl', hfl, hh, -, -, hl, hl', hval⟩
    · rw [hall] at hne
      exact absurd rfl hne
    · rw [hh, hfl]
      exact ⟨rfl, hl, hl', hval⟩
  · have hnext := (hp.step (.release h)).1
    have hlive : h.toNat < (p₀.run ops).capacity ∧ h.toNat ∉ freeAfter capacity ops := by
      rw [← abstract_live] at hl
      exact hp.abs.live_iff_not_mem.mp hl
    rw [freeStep, if_pos hlive] at hnext
    rcases hnext.allocate with ⟨hnil, -⟩ | ⟨h', fl', hfl, hh, -⟩
    · cases hnil
    · have hto := (List.cons.inj hfl).1
      have heq : h' = h := (UInt32.toNat_inj.mp hto).symm
      exact hh.trans heq
  · obtain ⟨hk', -⟩ := Inv.new h₀ (List.replicate k .allocate)
    have hdrop : ∀ (n : Nat) (fl : List Nat), (List.replicate n Op.allocate).foldl (freeStep capacity) fl = fl.drop n := by
      intro n
      induction n with
      | zero => exact fun fl => rfl
      | succ n ih =>
        intro fl
        rw [List.replicate_succ, List.foldl_cons, ih, freeStep, List.drop_tail]
    have hlist : freeAfter capacity (List.replicate k .allocate) = k :: (List.range capacity).drop (k + 1) := by
      unfold freeAfter
      rw [hdrop, List.drop_eq_getElem_cons (by rw [List.length_range]; exact hk), List.getElem_range]
    rw [hlist] at hk'
    rcases hk'.allocate with ⟨hnil, -⟩ | ⟨h', fl', hfl, hh, -⟩
    · cases hnil
    · rw [hh]
      exact (List.cons.inj hfl).1.symm
  · rw [hp.size_eq, hcap]
    refine List.countP_congr fun i hi => ?_
    have hi' : i < kMaxCapacity := by
      have := List.mem_range.mp hi
      omega
    rw [← abstract_live, (ofNat_ne hi').1]

/-- Two of three handles are handed out and the first comes back. -/
theorem slab_pool_never_hands_out_live_three :
    ∃ p₀ : SlabPool Nat, new 3 = some p₀ ∧
      (p₀.run [.allocate, .allocate, .release 0, .release 0, .release 7]).size = 1 ∧
      (p₀.run [.allocate, .allocate, .release 0, .release 0, .release 7]).allocate.2 = 0 ∧
      (p₀.run [.allocate, .allocate, .release 0, .release 0, .release 7]).live 0 = false := by
  obtain ⟨-, -, hfree, -, -, hnext, -⟩ := slab_pool_never_hands_out_live (α := Nat) 3 (fresh 3) rfl
    [.allocate, .allocate, .release 0, .release 0, .release 7]
  have hne : ((fresh 3 : SlabPool Nat).run [.allocate, .allocate, .release 0, .release 0, .release 7]).allocate.2 ≠ kNull := by
    decide
  obtain ⟨-, hl, -⟩ := hnext hne
  exact ⟨fresh 3, rfl, rfl, by decide, hl⟩

end SlabPool
end OptiTrade.Core
