import Mathlib.Data.Finset.Card
import Mathlib.Data.Finset.Range
import OptiTrade.Foundations.BoundedMap
import OptiTrade.Foundations.Masks
import OptiTrade.Foundations.Runs

/-! # The open-addressing hash map

Linear probing with backward-shift deletion. The two loops carry fuel of one turn of the table and
answer `none` when it runs out, so that an operation that answers has terminated. `BoundedMap` is what
the map is for: `represents` relates the two. -/

namespace OptiTrade.Core
set_option autoImplicit false

open Runs

/-- A slot of the table. -/
structure Slot (K V : Type) where
  key : K
  value : V
  used : Bool := false

/-- A table of a power of two of slots, probed linearly. -/
structure FlatHashMap (K V : Type) where
  max : Nat
  mask : Nat
  size : Nat := 0
  slots : Nat → Slot K V

namespace FlatHashMap
variable {K V : Type} [DecidableEq K] [Inhabited K] [Inhabited V]

/-- Throws when twice the limit would not fit. -/
def tableSize (maxElements : Nat) : Option Nat :=
  if 2 ^ 62 < maxElements then none else some (bitCeil (Nat.max (maxElements * 2) 8))

/-- A default constructed slot. -/
def vacant : Slot K V := { key := default, value := default }

/-- `none` for more elements than a table can have. -/
def new (maxElements : Nat) : Option (FlatHashMap K V) :=
  (tableSize maxElements).map fun n => { max := maxElements, mask := n - 1, slots := fun _ => vacant }

section
variable (hash : K → UInt64)

def home (m : FlatHashMap K V) (key : K) : Nat := (hash key).toNat &&& m.mask

/-- The first slot from `i` on that is empty or has the key; `none` if the fuel runs out. -/
def probeFrom (m : FlatHashMap K V) (key : K) : Nat → Nat → Option Nat
  | 0, _ => none
  | fuel + 1, i =>
    if (m.slots i).used ∧ (m.slots i).key ≠ key then probeFrom m key fuel ((i + 1) &&& m.mask) else some i

/-- The slot holding `key`, or the empty slot that ends its probe run. -/
def probe (m : FlatHashMap K V) (key : K) : Option Nat := m.probeFrom key (m.mask + 1) (m.home hash key)

def find (m : FlatHashMap K V) (key : K) : Option (Option V) := do
  let i ← m.probe hash key
  return if (m.slots i).used then some (m.slots i).value else none

/-- The map, what the returned pointer points to, and whether the key went in. -/
def insert (m : FlatHashMap K V) (key : K) (value : V) : Option (FlatHashMap K V × Option V × Bool) := do
  let i ← m.probe hash key
  return if (m.slots i).used then (m, some (m.slots i).value, false)
    else if m.max ≤ m.size then (m, none, false)
    else
      ({ m with slots := Function.update m.slots i ⟨key, value, true⟩, size := m.size + 1 }, some value, true)

/-- An entry at `j` with home `k` would be unreachable in front of its home. -/
def stays (hole j k : Nat) : Bool := if hole ≤ j then hole < k && k ≤ j else hole < k || k ≤ j

/-- The backward shift: the table and the slot left to be emptied. -/
def shift (m : FlatHashMap K V) : Nat → Nat → Nat → Option (FlatHashMap K V × Nat)
  | 0, _, _ => none
  | fuel + 1, hole, j =>
    let j := (j + 1) &&& m.mask
    if !(m.slots j).used then some (m, hole)
    else if stays hole j (m.home hash (m.slots j).key) then shift m fuel hole j
    else shift { m with slots := Function.update m.slots hole (m.slots j) } fuel j j

/-- The slots behind the hole are shifted back into it. -/
def erase (m : FlatHashMap K V) (key : K) : Option (FlatHashMap K V × Bool) := do
  let hole ← m.probe hash key
  if !(m.slots hole).used then return (m, false)
  else
    let (m, hole) ← m.shift hash (m.mask + 1) hole hole
    return ({ m with slots := Function.update m.slots hole vacant, size := m.size - 1 }, true)

end

def clear (m : FlatHashMap K V) : FlatHashMap K V := { m with slots := fun _ => vacant, size := 0 }

/-- The entries in the order in which `for_each` calls back. -/
def entries (m : FlatHashMap K V) : List (K × V) :=
  ((List.range (m.mask + 1)).filter fun i => (m.slots i).used).map fun i => ((m.slots i).key, (m.slots i).value)

/-! ## Well-formed tables -/

/-- The number of used slots. -/
def load (m : FlatHashMap K V) : Nat := ((Finset.range (m.mask + 1)).filter fun i => (m.slots i).used).card

/-- Except for the entry at `hole`, keys are distinct and every entry is reached from its home over
used slots. -/
structure Shaped (hash : K → UInt64) (m : FlatHashMap K V) (hole : Option Nat) : Prop where
  pow : ∃ k, m.mask + 1 = 2 ^ k
  distinct : ∀ i j, i < m.mask + 1 → j < m.mask + 1 → hole ≠ some i → hole ≠ some j → (m.slots i).used = true →
    (m.slots j).used = true → (m.slots i).key = (m.slots j).key → i = j
  reached : ∀ i < m.mask + 1, hole ≠ some i → (m.slots i).used = true → ∀ p < m.mask + 1,
    gap (m.mask + 1) (m.home hash (m.slots i).key) p < gap (m.mask + 1) (m.home hash (m.slots i).key) i →
    (m.slots p).used = true

/-- **The invariant** between calls. -/
structure Inv (hash : K → UInt64) (m : FlatHashMap K V) : Prop where
  shaped : Shaped hash m none
  load : m.load = m.size
  size_le : m.size ≤ m.max
  half : 2 * m.max ≤ m.mask + 1
  eight : 8 ≤ m.mask + 1

variable {hash : K → UInt64} {m m' : FlatHashMap K V} {hole : Option Nat}

omit [DecidableEq K] [Inhabited K] [Inhabited V] in
theorem Shaped.home_lt (h : Shaped hash m hole) (key : K) : m.home hash key < m.mask + 1 := by
  obtain ⟨k, hk⟩ := h.pow
  have hmask : m.mask = 2 ^ k - 1 := by omega
  unfold home
  rw [hk, hmask, and_mask]
  exact Nat.mod_lt _ (Nat.two_pow_pos k)

omit [DecidableEq K] [Inhabited K] [Inhabited V] in
theorem Shaped.next (h : Shaped hash m hole) {i : Nat} (hi : i < m.mask + 1) :
    (i + 1) &&& m.mask = if i + 1 = m.mask + 1 then 0 else i + 1 := by
  obtain ⟨k, hk⟩ := h.pow
  have hmask : m.mask = 2 ^ k - 1 := by omega
  rw [hk] at hi ⊢
  rw [hmask]
  exact and_mask_succ hi

omit [DecidableEq K] [Inhabited K] [Inhabited V] in
theorem exists_empty (h : m.load < m.mask + 1) : ∃ u < m.mask + 1, (m.slots u).used = false := by
  by_contra hn
  have hall : (Finset.range (m.mask + 1)).filter (fun i => (m.slots i).used = true) = Finset.range (m.mask + 1) := by
    refine Finset.filter_true_of_mem fun i hi => ?_
    by_contra hu
    exact hn ⟨i, Finset.mem_range.mp hi, by simpa using hu⟩
  unfold load at h
  rw [hall, Finset.card_range] at h
  exact absurd h (Nat.lt_irrefl _)

/-! ## Probing -/

omit [Inhabited K] [Inhabited V] in
/-- The probe loop ends before it has passed an empty slot. -/
theorem Shaped.probeFrom_spec (h : Shaped hash m hole) (key : K) {u : Nat} (hu : u < m.mask + 1)
    (hempty : (m.slots u).used = false) :
    ∀ fuel i, i < m.mask + 1 → gap (m.mask + 1) i u < fuel → ∃ r < m.mask + 1, m.probeFrom key fuel i = some r ∧
      ((m.slots r).used = true → (m.slots r).key = key) ∧
      ∀ p < m.mask + 1, gap (m.mask + 1) i p < gap (m.mask + 1) i r →
        (m.slots p).used = true ∧ (m.slots p).key ≠ key := by
  intro fuel
  induction fuel with
  | zero => intro i _ hf; omega
  | succ fuel ih =>
    intro i hi hf
    by_cases hgo : (m.slots i).used = true ∧ (m.slots i).key ≠ key
    · have hne : i ≠ u := by
        rintro rfl
        rw [hempty] at hgo
        cases hgo.1
      have hnext := h.next hi
      have hi' : (i + 1) &&& m.mask < m.mask + 1 := by
        rw [hnext]
        split_ifs <;> omega
      -- one slot further, everything but `i` itself is one step closer
      have hgap : ∀ p < m.mask + 1, p ≠ i → gap (m.mask + 1) i p = gap (m.mask + 1) ((i + 1) &&& m.mask) p + 1 := by
        intro p hp hpi
        rw [hnext]
        unfold gap
        split_ifs <;> omega
      obtain ⟨r, hr, hprobe, hkey, hpath⟩ := ih _ hi' (by have := hgap u hu (Ne.symm hne); omega)
      refine ⟨r, hr, ?_, hkey, fun p hp hlt => ?_⟩
      · rw [probeFrom, if_pos hgo]
        exact hprobe
      · by_cases hpi : p = i
        · subst hpi
          exact hgo
        · by_cases hri : r = i
          · subst hri
            simp [gap] at hlt
          · have h₁ := hgap p hp hpi
            have h₂ := hgap r hr hri
            exact hpath p hp (by omega)
    · refine ⟨i, hi, ?_, fun hused => ?_, fun p hp hlt => ?_⟩
      · rw [probeFrom, if_neg hgo]
      · by_contra hne
        exact hgo ⟨hused, hne⟩
      · simp [gap] at hlt

omit [DecidableEq K] [Inhabited K] [Inhabited V] in
theorem Inv.empty_slot (h : Inv hash m) : ∃ u < m.mask + 1, (m.slots u).used = false := by
  have h₁ := h.load
  have h₂ := h.size_le
  have h₃ := h.half
  have h₄ := h.eight
  exact exists_empty (by omega)

omit [Inhabited K] [Inhabited V] in
/-- **What a probe finds**: the slot of the key if it is in the table, else the empty slot at the end
of its run, with only used slots on the way from its home. -/
theorem Inv.probe_spec (h : Inv hash m) (key : K) :
    ∃ r < m.mask + 1, m.probe hash key = some r ∧ ((m.slots r).used = true → (m.slots r).key = key) ∧
      (∀ p < m.mask + 1, gap (m.mask + 1) (m.home hash key) p < gap (m.mask + 1) (m.home hash key) r →
        (m.slots p).used = true) ∧
      ∀ i < m.mask + 1, (m.slots i).used = true → (m.slots i).key = key → i = r := by
  obtain ⟨u, hu, hempty⟩ := h.empty_slot
  have hhome := h.shaped.home_lt key
  obtain ⟨r, hr, hprobe, hkey, hpath⟩ := h.shaped.probeFrom_spec key hu hempty (m.mask + 1) _ hhome
    (gap_lt hhome hu)
  refine ⟨r, hr, hprobe, hkey, fun p hp hlt => (hpath p hp hlt).1, fun i hi hused hik => ?_⟩
  by_contra hne
  -- an entry before `r` would have stopped the probe, one behind it would be unreachable
  rcases Nat.lt_trichotomy (gap (m.mask + 1) (m.home hash key) i) (gap (m.mask + 1) (m.home hash key) r) with
    hlt | heq | hgt
  · exact (hpath i hi hlt).2 hik
  · exact hne (eq_of_gap_eq (h.shaped.home_lt key) hi hr heq)
  · have hru := h.shaped.reached i hi (by simp) hused r hr (by rw [hik]; exact hgt)
    exact hne (h.shaped.distinct i r hi hr (by simp) (by simp) hused hru (hik.trans (hkey hru).symm))

/-! ## What a table represents -/

/-- Slot `i` holds the entry. -/
def Holds (m : FlatHashMap K V) (i : Nat) (key : K) (value : V) : Prop :=
  i < m.mask + 1 ∧ (m.slots i).used = true ∧ (m.slots i).key = key ∧ (m.slots i).value = value

/-- The table holds the entries of the bounded map and no others. -/
structure Represents (m : FlatHashMap K V) (b : BoundedMap K V) : Prop where
  limit : b.limit = m.max
  size : b.size = m.size
  find : ∀ key value, b.find key = some value ↔ ∃ i, m.Holds i key value

variable {b : BoundedMap K V}

omit [Inhabited K] [Inhabited V] in
theorem Represents.find_none (hr : Represents m b) {key : K} {r : Nat}
    (huniq : ∀ i < m.mask + 1, (m.slots i).used = true → (m.slots i).key = key → i = r)
    (hused : ¬(m.slots r).used = true) : b.find key = none := by
  cases hb : b.find key with
  | none => rfl
  | some v =>
    obtain ⟨i, hi, hiu, hik, _⟩ := (hr.find key v).mp hb
    exact absurd (huniq i hi hiu hik ▸ hiu) hused

omit [Inhabited K] [Inhabited V] in
theorem Represents.find_eq (hr : Represents m b) (h : Inv hash m) (key : K) : m.find hash key = some (b.find key) := by
  obtain ⟨r, hlt, hprobe, hkey, _, huniq⟩ := h.probe_spec key
  unfold FlatHashMap.find
  rw [hprobe]
  show some _ = some _
  congr 1
  by_cases hused : (m.slots r).used = true
  · rw [if_pos hused]
    exact ((hr.find key _).mpr ⟨r, hlt, hused, hkey hused, rfl⟩).symm
  · rw [if_neg hused, hr.find_none huniq hused]

/-! ## Insertion -/

/-- The table with slot `r` overwritten. -/
structure Put (m m' : FlatHashMap K V) (r : Nat) (s : Slot K V) : Prop where
  max : m'.max = m.max
  mask : m'.mask = m.mask
  self : m'.slots r = s
  other : ∀ i, i ≠ r → m'.slots i = m.slots i

omit [DecidableEq K] [Inhabited K] [Inhabited V] in
theorem Put.home {r : Nat} {s : Slot K V} (hp : Put m m' r s) (key : K) : m'.home hash key = m.home hash key := by
  unfold FlatHashMap.home
  rw [hp.mask]

omit [DecidableEq K] [Inhabited K] [Inhabited V] in
theorem Put.load_used {r : Nat} {s : Slot K V} (hp : Put m m' r s) (hr : r < m.mask + 1)
    (hempty : (m.slots r).used = false) (hs : s.used = true) : m'.load = m.load + 1 := by
  have hset : (Finset.range (m'.mask + 1)).filter (fun i => (m'.slots i).used = true) =
      Insert.insert r ((Finset.range (m.mask + 1)).filter fun i => (m.slots i).used = true) := by
    ext i
    simp only [Finset.mem_filter, Finset.mem_range, Finset.mem_insert, hp.mask]
    by_cases hi : i = r
    · subst hi
      simp [hp.self, hs, hr]
    · simp [hi, hp.other i hi]
  have hnot : r ∉ (Finset.range (m.mask + 1)).filter fun i => (m.slots i).used = true := by
    simp [hempty]
  unfold load
  rw [hset, Finset.card_insert_of_notMem hnot]

omit [DecidableEq K] [Inhabited K] [Inhabited V] in
/-- A new key goes to the empty slot at the end of its run. -/
theorem Inv.place (h : Inv hash m) {r : Nat} (hr : r < m.mask + 1) (hempty : (m.slots r).used = false) {key : K}
    (hpath : ∀ p < m.mask + 1, gap (m.mask + 1) (m.home hash key) p < gap (m.mask + 1) (m.home hash key) r →
      (m.slots p).used = true)
    (hnew : ∀ i < m.mask + 1, (m.slots i).used = true → (m.slots i).key ≠ key) {value : V} (hroom : m.size < m.max)
    (hp : Put m m' r ⟨key, value, true⟩) (hsize : m'.size = m.size + 1) : Inv hash m' := by
  refine ⟨⟨hp.mask ▸ h.shaped.pow, ?_, ?_⟩, ?_, by rw [hsize, hp.max]; omega, by rw [hp.max, hp.mask]; exact h.half,
    by rw [hp.mask]; exact h.eight⟩
  · rw [hp.mask]
    intro i j hi hj _ _ hiu hju hij
    by_cases hir : i = r
    · by_cases hjr : j = r
      · rw [hir, hjr]
      · rw [hp.other j hjr] at hju hij
        rw [hir, hp.self] at hij
        exact absurd hij.symm (hnew j hj hju)
    · rw [hp.other i hir] at hiu hij
      by_cases hjr : j = r
      · rw [hjr, hp.self] at hij
        exact absurd hij (hnew i hi hiu)
      · rw [hp.other j hjr] at hju hij
        exact h.shaped.distinct i j hi hj (by simp) (by simp) hiu hju hij
  · rw [hp.mask]
    intro i hi _ hiu p hp' hlt
    rw [hp.home] at hlt
    by_cases hpr : p = r
    · rw [hpr, hp.self]
    · rw [hp.other p hpr]
      by_cases hir : i = r
      · rw [hir, hp.self] at hlt
        exact hpath p hp' hlt
      · rw [hp.other i hir] at hiu hlt
        exact h.shaped.reached i hi (by simp) hiu p hp' hlt
  · rw [hp.load_used hr hempty rfl, h.load, hsize]

omit [Inhabited K] [Inhabited V] in
/-- **`insert` is the insertion of the bounded map**, and no entry moves. -/
theorem Represents.insert_spec (hr : Represents m b) (h : Inv hash m) (key : K) (value : V) :
    ∃ m' w, m.insert hash key value = some (m', w, (b.insert key value).2) ∧
      w = (if (b.find key).isSome then b.find key else if b.limit ≤ b.size then none else some value) ∧
      Inv hash m' ∧ Represents m' (b.insert key value).1 ∧
      ∀ i < m.mask + 1, (m.slots i).used = true → m'.slots i = m.slots i := by
  obtain ⟨r, hlt, hprobe, hkey, hpath, huniq⟩ := h.probe_spec key
  unfold FlatHashMap.insert
  rw [hprobe]
  show ∃ m' w, some _ = some (m', w, _) ∧ _
  by_cases hused : (m.slots r).used = true
  · have hb : b.find key = some (m.slots r).value := (hr.find key _).mpr ⟨r, hlt, hused, hkey hused, rfl⟩
    have hins : b.insert key value = (b, false) := by simp [BoundedMap.insert, hb]
    rw [if_pos hused, hins, hb]
    exact ⟨m, _, rfl, rfl, h, hr, fun _ _ _ => rfl⟩
  · have hnone := hr.find_none huniq hused
    rw [if_neg hused, hnone, hr.limit, hr.size]
    by_cases hfull : m.max ≤ m.size
    · have hins : b.insert key value = (b, false) := by
        simp [BoundedMap.insert, hnone, hr.limit, hr.size, hfull]
      rw [if_pos hfull, hins, if_pos hfull]
      exact ⟨m, none, rfl, rfl, h, hr, fun _ _ _ => rfl⟩
    · have hroom : b.size < b.limit := by rw [hr.limit, hr.size]; omega
      have hins := BoundedMap.insert_fresh value hnone hroom
      have hempty : (m.slots r).used = false := by simpa using hused
      rw [if_neg hfull, if_neg hfull]
      have hp : Put m { m with slots := Function.update m.slots r ⟨key, value, true⟩, size := m.size + 1 } r
          ⟨key, value, true⟩ :=
        ⟨rfl, rfl, Function.update_self _ _ _, fun i hi => Function.update_of_ne hi _ _⟩
      generalize hm' : { m with slots := Function.update m.slots r ⟨key, value, true⟩, size := m.size + 1 } = m' at hp
      have hsize : m'.size = m.size + 1 := by rw [← hm']
      refine ⟨m', some value, by rw [hins], rfl, ?_, ⟨?_, ?_, ?_⟩, fun i _ hi => hp.other i fun e => hused (e ▸ hi)⟩
      · exact h.place hlt hempty hpath (fun i hi hiu hik => hused (huniq i hi hiu hik ▸ hiu)) (by omega) hp hsize
      · rw [hins, hp.max]
        exact hr.limit
      · rw [hins, hsize, ← hr.size]
        exact BoundedMap.size_insert_true hins
      · intro k v
        rw [hins, BoundedMap.find_insert_true hins]
        by_cases hk : k = key
        · rw [if_pos hk]
          constructor
          · intro hv
            exact ⟨r, hp.mask ▸ hlt, by rw [hp.self], by rw [hp.self, hk], by rw [hp.self]; exact Option.some.inj hv⟩
          · rintro ⟨i, hi, hiu, hik, hiv⟩
            by_cases hir : i = r
            · rw [hir, hp.self] at hiv
              rw [← hiv]
            · rw [hp.other i hir] at hiu hik
              exact absurd (huniq i (hp.mask ▸ hi) hiu (hik.trans hk)) hir
        · rw [if_neg hk, hr.find]
          constructor
          · rintro ⟨i, hi, hiu, hik, hiv⟩
            have hir : i ≠ r := fun e => hused (e ▸ hiu)
            refine ⟨i, hp.mask ▸ hi, ?_, ?_, ?_⟩ <;> rw [hp.other i hir] <;> assumption
          · rintro ⟨i, hi, hiu, hik, hiv⟩
            by_cases hir : i = r
            · rw [hir, hp.self] at hik
              exact absurd hik.symm hk
            · rw [hp.other i hir] at hiu hik hiv
              exact ⟨i, hp.mask ▸ hi, hiu, hik, hiv⟩

/-! ## Deletion -/

/-- The way of the entry at `i` from its home leads over slot `p`. -/
def Through (hash : K → UInt64) (m : FlatHashMap K V) (p i : Nat) : Prop :=
  gap (m.mask + 1) (m.home hash (m.slots i).key) p < gap (m.mask + 1) (m.home hash (m.slots i).key) i

theorem stays_iff {n hole j k : Nat} (hh : hole < n) (hj : j < n) (hk : k < n) (hne : hole ≠ j) :
    stays hole j k = true ↔ ¬gap n k hole < gap n k j := by
  unfold stays gap
  split_ifs <;> simp only [Bool.and_eq_true, Bool.or_eq_true, decide_eq_true_eq] <;> omega

/-- The state of the shift loop: the slots from the hole to `j` are used, and every entry whose way
leads over the hole lies beyond `j`. -/
structure Shifting (hash : K → UInt64) (m : FlatHashMap K V) (hole j : Nat) : Prop where
  shaped : Shaped hash m (some hole)
  hole_lt : hole < m.mask + 1
  j_lt : j < m.mask + 1
  run : ∀ p < m.mask + 1, gap (m.mask + 1) hole p ≤ gap (m.mask + 1) hole j → (m.slots p).used = true
  beyond : ∀ i < m.mask + 1, i ≠ hole → (m.slots i).used = true → m.Through hash hole i →
    gap (m.mask + 1) hole j < gap (m.mask + 1) hole i

/-- What the loop leaves: no way leads over the hole, and the entries outside it are the same. -/
structure Shifted (hash : K → UInt64) (m : FlatHashMap K V) (hole : Nat) (m' : FlatHashMap K V) (hole' : Nat) :
    Prop where
  max : m'.max = m.max
  mask : m'.mask = m.mask
  size : m'.size = m.size
  used : ∀ i, (m'.slots i).used = (m.slots i).used
  shaped : Shaped hash m' (some hole')
  hole_lt : hole' < m.mask + 1
  hole_used : (m'.slots hole').used = true
  free : ∀ i < m.mask + 1, i ≠ hole' → (m'.slots i).used = true → ¬m'.Through hash hole' i
  same : ∀ key value, (∃ i, i ≠ hole' ∧ m'.Holds i key value) ↔ ∃ i, i ≠ hole ∧ m.Holds i key value

section
variable {hole j : Nat}

omit [DecidableEq K] [Inhabited K] [Inhabited V] in
theorem Shifting.hole_used (h : Shifting hash m hole j) : (m.slots hole).used = true :=
  h.run hole h.hole_lt (by rw [gap_self]; exact Nat.zero_le _)

omit [DecidableEq K] [Inhabited K] [Inhabited V] in
/-- The next slot is one step further from the hole, and not the hole while some slot is empty. -/
theorem Shifting.next_slot (h : Shifting hash m hole j) {u : Nat} (hu : u < m.mask + 1)
    (hempty : (m.slots u).used = false) :
    (j + 1) &&& m.mask < m.mask + 1 ∧ (j + 1) &&& m.mask ≠ hole ∧
      gap (m.mask + 1) hole ((j + 1) &&& m.mask) = gap (m.mask + 1) hole j + 1 ∧
      gap (m.mask + 1) j u = gap (m.mask + 1) ((j + 1) &&& m.mask) u + 1 := by
  have hnext := h.shaped.next h.j_lt
  have hj := h.j_lt
  have hh := h.hole_lt
  have hju : j ≠ u := by
    rintro rfl
    rw [h.run j hj (le_refl _)] at hempty
    cases hempty
  have hbeyond : gap (m.mask + 1) hole j < gap (m.mask + 1) hole u := by
    by_contra hle
    rw [h.run u hu (by omega)] at hempty
    cases hempty
  rw [hnext]
  unfold gap at hbeyond ⊢
  refine ⟨?_, ?_, ?_, ?_⟩
  · split_ifs <;> omega
  · split_ifs at hbeyond ⊢ <;> omega
  · split_ifs at hbeyond ⊢ <;> omega
  · split_ifs at hbeyond ⊢ <;> omega

omit [DecidableEq K] [Inhabited K] [Inhabited V] in
/-- The loop stops at an empty slot: everything that had to move has moved. -/
theorem Shifting.stop (h : Shifting hash m hole j) (hempty : (m.slots ((j + 1) &&& m.mask)).used = false)
    (hlt : (j + 1) &&& m.mask < m.mask + 1) : Shifted hash m hole m hole := by
  obtain ⟨_, _, hgap, _⟩ := h.next_slot hlt hempty
  refine ⟨rfl, rfl, rfl, fun _ => rfl, h.shaped, h.hole_lt, h.hole_used, fun i hi hne hused hthr => ?_, fun _ _ => .rfl⟩
  -- the way of such an entry would lead over the empty slot
  have hhome := h.shaped.home_lt (m.slots i).key
  have hbeyond := h.beyond i hi hne hused hthr
  have hsplit := gap_add hhome h.hole_lt hi hthr.le
  have hij : (j + 1) &&& m.mask ≠ i := by
    rintro rfl
    rw [hused] at hempty
    cases hempty
  have hstrict : gap (m.mask + 1) hole ((j + 1) &&& m.mask) < gap (m.mask + 1) hole i := by
    refine lt_of_le_of_ne (by omega) fun heq => hij (eq_of_gap_eq h.hole_lt hlt hi heq)
  have hway : gap (m.mask + 1) (m.home hash (m.slots i).key) ((j + 1) &&& m.mask) <
      gap (m.mask + 1) (m.home hash (m.slots i).key) i := by
    have hturn := gap_lt hhome hi
    rw [gap_append hhome h.hole_lt hlt (by omega)]
    omega
  rw [h.shaped.reached i hi (by simpa using Ne.symm hne) hused _ hlt hway] at hempty
  cases hempty

omit [DecidableEq K] [Inhabited K] [Inhabited V] in
/-- An entry whose home lies behind the hole stays where it is. -/
theorem Shifting.keep (h : Shifting hash m hole j) {u : Nat} (hu : u < m.mask + 1)
    (hempty : (m.slots u).used = false) (hused : (m.slots ((j + 1) &&& m.mask)).used = true)
    (hst : stays hole ((j + 1) &&& m.mask) (m.home hash (m.slots ((j + 1) &&& m.mask)).key) = true) :
    Shifting hash m hole ((j + 1) &&& m.mask) := by
  obtain ⟨hlt, hne, hgap, _⟩ := h.next_slot hu hempty
  refine ⟨h.shaped, h.hole_lt, hlt, fun p hp hle => ?_, fun i hi hih hiu hthr => ?_⟩
  · by_cases hpj : p = (j + 1) &&& m.mask
    · rw [hpj]
      exact hused
    · refine h.run p hp ?_
      have hne' : gap (m.mask + 1) hole p ≠ gap (m.mask + 1) hole ((j + 1) &&& m.mask) :=
        fun heq => hpj (eq_of_gap_eq h.hole_lt hp hlt heq)
      omega
  · have hbeyond := h.beyond i hi hih hiu hthr
    have hij : i ≠ (j + 1) &&& m.mask := by
      rintro rfl
      exact (stays_iff h.hole_lt hlt (h.shaped.home_lt _) (Ne.symm hne)).mp hst hthr
    have hne' : gap (m.mask + 1) hole i ≠ gap (m.mask + 1) hole ((j + 1) &&& m.mask) :=
      fun heq => hij (eq_of_gap_eq h.hole_lt hi hlt heq)
    omega

omit [DecidableEq K] [Inhabited K] [Inhabited V] in
/-- An entry whose way leads over the hole moves into it and leaves the next hole. -/
theorem Shifting.move (h : Shifting hash m hole j) {u : Nat} (hu : u < m.mask + 1)
    (hempty : (m.slots u).used = false) (hused : (m.slots ((j + 1) &&& m.mask)).used = true)
    (hst : ¬stays hole ((j + 1) &&& m.mask) (m.home hash (m.slots ((j + 1) &&& m.mask)).key) = true)
    (hp : Put m m' hole (m.slots ((j + 1) &&& m.mask))) :
    Shifting hash m' ((j + 1) &&& m.mask) ((j + 1) &&& m.mask) ∧ (∀ i, (m'.slots i).used = (m.slots i).used) ∧
      ∀ key value, (∃ i, i ≠ (j + 1) &&& m.mask ∧ m'.Holds i key value) ↔ ∃ i, i ≠ hole ∧ m.Holds i key value := by
  obtain ⟨hlt, hne, _, _⟩ := h.next_slot hu hempty
  rw [stays_iff h.hole_lt hlt (h.shaped.home_lt _) (Ne.symm hne), not_not] at hst
  generalize (j + 1) &&& m.mask = k at *
  have husedAll : ∀ i, (m'.slots i).used = (m.slots i).used := by
    intro i
    by_cases hi : i = hole
    · rw [hi, hp.self, hused, h.hole_used]
    · rw [hp.other i hi]
  refine ⟨⟨⟨hp.mask ▸ h.shaped.pow, ?_, ?_⟩, hp.mask ▸ hlt, hp.mask ▸ hlt, ?_, ?_⟩, husedAll, fun key value => ?_⟩
  · rw [hp.mask]
    intro a b ha hb hak hbk hau hbu hab
    have hak : a ≠ k := fun e => hak (by rw [e])
    have hbk : b ≠ k := fun e => hbk (by rw [e])
    rw [husedAll] at hau hbu
    have hhole : ∀ c, c ≠ hole → some hole ≠ some c := fun c hc e => hc (Option.some.inj e).symm
    by_cases ha' : a = hole
    · by_cases hb' : b = hole
      · rw [ha', hb']
      · rw [ha', hp.self, hp.other b hb'] at hab
        exact absurd (h.shaped.distinct k b hlt hb (hhole k hne) (hhole b hb') hused hbu hab).symm hbk
    · rw [hp.other a ha'] at hab
      by_cases hb' : b = hole
      · rw [hb', hp.self] at hab
        exact absurd (h.shaped.distinct a k ha hlt (hhole a ha') (hhole k hne) hau hused hab) hak
      · rw [hp.other b hb'] at hab
        exact h.shaped.distinct a b ha hb (hhole a ha') (hhole b hb') hau hbu hab
  · rw [hp.mask]
    intro i hi hik hiu p hpl hway
    rw [husedAll] at hiu ⊢
    rw [hp.home] at hway
    by_cases hih : i = hole
    · rw [hih, hp.self] at hway
      exact h.shaped.reached k hlt (by simpa using Ne.symm hne) hused p hpl (hway.trans hst)
    · rw [hp.other i hih] at hway
      exact h.shaped.reached i hi (by simpa using Ne.symm hih) hiu p hpl hway
  · rw [hp.mask]
    intro p hpl hle
    rw [gap_self] at hle
    have hpk : k = p := eq_of_gap_eq hlt hlt hpl (by rw [gap_self]; omega)
    rw [husedAll, ← hpk]
    exact hused
  · rw [hp.mask]
    intro i hi hik _ _
    rw [gap_self]
    by_contra hz
    exact hik (eq_of_gap_eq hlt hi hlt (by rw [gap_self]; omega))
  · constructor
    · rintro ⟨i, hik, hi, hiu, hkey, hval⟩
      rw [hp.mask] at hi
      rw [husedAll] at hiu
      by_cases hih : i = hole
      · rw [hih, hp.self] at hkey hval
        exact ⟨k, hne, hlt, hused, hkey, hval⟩
      · rw [hp.other i hih] at hkey hval
        exact ⟨i, hih, hi, hiu, hkey, hval⟩
    · rintro ⟨i, hih, hi, hiu, hkey, hval⟩
      by_cases hik : i = k
      · subst hik
        exact ⟨hole, Ne.symm hne, hp.mask ▸ h.hole_lt, by rw [hp.self]; exact hused, by rw [hp.self]; exact hkey,
          by rw [hp.self]; exact hval⟩
      · exact ⟨i, hik, hp.mask ▸ hi, by rw [husedAll]; exact hiu, by rw [hp.other i hih]; exact hkey,
          by rw [hp.other i hih]; exact hval⟩

end

omit [DecidableEq K] [Inhabited K] [Inhabited V] in
/-- **The shift loop ends** before it has passed an empty slot, with a hole that can be emptied. -/
theorem Shifting.shift_spec {u : Nat} : ∀ (fuel : Nat) {m : FlatHashMap K V} {hole j : Nat}, Shifting hash m hole j →
    u < m.mask + 1 → (m.slots u).used = false → gap (m.mask + 1) j u ≤ fuel →
    ∃ m' hole', m.shift hash fuel hole j = some (m', hole') ∧ Shifted hash m hole m' hole' := by
  intro fuel
  induction fuel with
  | zero =>
    intro m hole j h hu hempty hf
    obtain ⟨_, _, _, hgap⟩ := h.next_slot hu hempty
    omega
  | succ fuel ih =>
    intro m hole j h hu hempty hf
    obtain ⟨hlt, hne, hgap, hgap'⟩ := h.next_slot hu hempty
    rw [shift]
    by_cases hused : (m.slots ((j + 1) &&& m.mask)).used = true
    · rw [if_neg (by simp [hused])]
      by_cases hst : stays hole ((j + 1) &&& m.mask) (m.home hash (m.slots ((j + 1) &&& m.mask)).key) = true
      · rw [if_pos hst]
        exact ih (h.keep hu hempty hused hst) hu hempty (by omega)
      · rw [if_neg hst]
        have hp : Put m { m with slots := Function.update m.slots hole (m.slots ((j + 1) &&& m.mask)) } hole
            (m.slots ((j + 1) &&& m.mask)) :=
          ⟨rfl, rfl, Function.update_self _ _ _, fun i hi => Function.update_of_ne hi _ _⟩
        obtain ⟨hsh, husedAll, hsame⟩ := h.move hu hempty hused hst hp
        obtain ⟨m', hole', hres, hs⟩ := ih hsh hu (by rw [husedAll]; exact hempty) (by
          show gap (m.mask + 1) _ u ≤ fuel
          omega)
        refine ⟨m', hole', hres, hs.max, hs.mask, hs.size, fun i => (hs.used i).trans (husedAll i), hs.shaped,
          hs.hole_lt, hs.hole_used, hs.free, fun key value => (hs.same key value).trans (hsame key value)⟩
    · rw [if_pos (by simpa using hused)]
      exact ⟨m, hole, rfl, h.stop (by simpa using hused) hlt⟩

omit [DecidableEq K] [Inhabited K] [Inhabited V] in
theorem Put.load_empty {r : Nat} {s : Slot K V} (hp : Put m m' r s) (hr : r < m.mask + 1)
    (hused : (m.slots r).used = true) (hs : s.used = false) : m'.load + 1 = m.load := by
  have hback : Put m' m r (m.slots r) := ⟨hp.max.symm, hp.mask.symm, rfl, fun i hi => (hp.other i hi).symm⟩
  exact (hback.load_used (hp.mask ▸ hr) (by rw [hp.self]; exact hs) hused).symm

omit [DecidableEq K] [Inhabited K] [Inhabited V] in
theorem Shifted.load {hole hole' : Nat} (hs : Shifted hash m hole m' hole') : m'.load = m.load := by
  unfold FlatHashMap.load
  rw [hs.mask]
  simp only [hs.used]

omit [DecidableEq K] in
/-- Emptying the hole the loop leaves. -/
theorem Shifted.inv (h : Inv hash m) {hole hole' : Nat} (hs : Shifted hash m hole m' hole') {m'' : FlatHashMap K V}
    (hp : Put m' m'' hole' vacant) (hsize : m''.size = m.size - 1) : Inv hash m'' := by
  have hload := hp.load_empty (hs.mask ▸ hs.hole_lt) hs.hole_used rfl
  rw [hs.load, h.load] at hload
  have hmask : m''.mask = m.mask := hp.mask.trans hs.mask
  have hne : ∀ i, (m''.slots i).used = true → i ≠ hole' := by
    rintro i hu rfl
    rw [hp.self] at hu
    cases hu
  have hhole : ∀ c, c ≠ hole' → some hole' ≠ some c := fun c hc e => hc (Option.some.inj e).symm
  refine ⟨⟨hmask ▸ h.shaped.pow, ?_, ?_⟩, by omega, ?_, ?_, by rw [hmask]; exact h.eight⟩
  · rw [hp.mask]
    intro i j hi hj _ _ hiu hju hij
    have hi' := hne i hiu
    have hj' := hne j hju
    rw [hp.other i hi'] at hiu hij
    rw [hp.other j hj'] at hju hij
    exact hs.shaped.distinct i j hi hj (hhole i hi') (hhole j hj') hiu hju hij
  · rw [hp.mask]
    intro i hi _ hiu p hpl hway
    have hi' := hne i hiu
    rw [hp.home] at hway
    rw [hp.other i hi'] at hiu hway
    -- the way avoids the hole
    have hpne : p ≠ hole' := by
      rintro rfl
      exact hs.free i (hs.mask ▸ hi) hi' hiu hway
    rw [hp.other p hpne]
    exact hs.shaped.reached i hi (hhole i hi') hiu p hpl hway
  · have := h.size_le
    rw [hsize, hp.max, hs.max]
    omega
  · rw [hp.max, hs.max, hmask]
    exact h.half

/-- **`erase` is the deletion of the bounded map.** -/
theorem Represents.erase_spec (hr : Represents m b) (h : Inv hash m) (key : K) :
    ∃ m', m.erase hash key = some (m', (b.find key).isSome) ∧ Inv hash m' ∧ Represents m' (b.erase key) := by
  obtain ⟨r, hlt, hprobe, hkey, _, huniq⟩ := h.probe_spec key
  unfold FlatHashMap.erase
  rw [hprobe]
  by_cases hused : (m.slots r).used = true
  · have hb : b.find key = some (m.slots r).value := (hr.find key _).mpr ⟨r, hlt, hused, hkey hused, rfl⟩
    have hshift : Shifting hash m r r := by
      refine ⟨⟨h.shaped.pow, fun i j hi hj _ _ => h.shaped.distinct i j hi hj (by simp) (by simp),
        fun i hi _ => h.shaped.reached i hi (by simp)⟩, hlt, hlt, fun p hp hle => ?_, fun i hi hne _ _ => ?_⟩
      · rw [gap_self] at hle
        rw [← eq_of_gap_eq hlt hlt hp (by rw [gap_self]; omega)]
        exact hused
      · rw [gap_self]
        by_contra hz
        exact hne (eq_of_gap_eq hlt hi hlt (by rw [gap_self]; omega))
    obtain ⟨u, hu, hempty⟩ := h.empty_slot
    obtain ⟨m₁, hole', hres, hs⟩ := hshift.shift_spec (m.mask + 1) hu hempty (gap_lt hlt hu).le
    have hp : Put m₁ { m₁ with slots := Function.update m₁.slots hole' vacant, size := m₁.size - 1 } hole' vacant :=
      ⟨rfl, rfl, Function.update_self _ _ _, fun i hi => Function.update_of_ne hi _ _⟩
    have hsize : m₁.size - 1 = m.size - 1 := by rw [hs.size]
    refine ⟨_, ?_, hs.inv h hp hsize, ⟨?_, ?_, fun k v => ?_⟩⟩
    · show (if !(m.slots r).used then _ else _) = _
      rw [if_neg (by simp [hused]), hres, hb]
      rfl
    · exact hr.limit.trans hs.max.symm
    · have := BoundedMap.size_erase hb
      have := hr.size
      show _ = m₁.size - 1
      omega
    · generalize { m₁ with slots := Function.update m₁.slots hole' vacant, size := m₁.size - 1 } = m₂ at hp
      -- the entries of the new table are those outside the old slot
      have hent : (∃ i, m₂.Holds i k v) ↔ ∃ i, i ≠ r ∧ m.Holds i k v := by
        rw [← hs.same k v]
        constructor
        · rintro ⟨i, hi, hiu, hik, hiv⟩
          have hne : i ≠ hole' := by
            rintro rfl
            rw [hp.self] at hiu
            cases hiu
          rw [hp.other i hne] at hiu hik hiv
          exact ⟨i, hne, hp.mask ▸ hi, hiu, hik, hiv⟩
        · rintro ⟨i, hne, hi, hiu, hik, hiv⟩
          exact ⟨i, hp.mask ▸ hi, by rw [hp.other i hne]; exact hiu, by rw [hp.other i hne]; exact hik,
            by rw [hp.other i hne]; exact hiv⟩
      rw [hent, BoundedMap.find_erase]
      by_cases hk : k = key
      · rw [if_pos hk]
        constructor
        · intro hn
          cases hn
        · rintro ⟨i, hne, hi, hiu, hik, _⟩
          exact absurd (huniq i hi hiu (hik.trans hk)) hne
      · rw [if_neg hk, hr.find]
        constructor
        · rintro ⟨i, hi, hiu, hik, hiv⟩
          refine ⟨i, ?_, hi, hiu, hik, hiv⟩
          rintro rfl
          exact hk (hik.symm.trans (hkey hiu))
        · rintro ⟨i, _, hold⟩
          exact ⟨i, hold⟩
  · have hnone := hr.find_none huniq hused
    refine ⟨m, ?_, h, by rw [BoundedMap.erase_of_none hnone]; exact hr⟩
    show (if !(m.slots r).used then _ else _) = _
    rw [if_pos (by simpa using hused), hnone]
    rfl

/-! ## Whole tables -/

omit [DecidableEq K] in
theorem Inv.vacated {max mask : Nat} (hpow : ∃ k, mask + 1 = 2 ^ k) (hhalf : 2 * max ≤ mask + 1)
    (height : 8 ≤ mask + 1) : Inv hash (⟨max, mask, 0, fun _ => vacant⟩ : FlatHashMap K V) := by
  refine ⟨⟨hpow, ?_, ?_⟩, ?_, Nat.zero_le _, hhalf, height⟩
  · intro i j _ _ _ _ hu
    cases hu
  · intro i _ _ hu
    cases hu
  · simp [FlatHashMap.load, vacant]

theorem Represents.vacated {max mask : Nat} :
    Represents (⟨max, mask, 0, fun _ => vacant⟩ : FlatHashMap K V) (.empty max) := by
  refine ⟨rfl, rfl, fun key value => ?_⟩
  rw [BoundedMap.find_empty]
  constructor
  · intro hn
    cases hn
  · rintro ⟨i, _, hu, _⟩
    cases hu

omit [DecidableEq K] in
theorem new_some {maxElements : Nat} (h : (new maxElements : Option (FlatHashMap K V)) = some m) :
    (∃ k, m.mask + 1 = 2 ^ k) ∧ 2 * maxElements ≤ m.mask + 1 ∧ 8 ≤ m.mask + 1 ∧
      m = ⟨maxElements, m.mask, 0, fun _ => vacant⟩ := by
  unfold new tableSize at h
  split_ifs at h with hbig
  · cases h
  · obtain rfl := Option.some.inj h
    have hle := le_bitCeil (Nat.max (maxElements * 2) 8)
    have h₁ : maxElements * 2 ≤ Nat.max (maxElements * 2) 8 := Nat.le_max_left _ _
    have h₂ : 8 ≤ Nat.max (maxElements * 2) 8 := Nat.le_max_right _ _
    have hmask : bitCeil (Nat.max (maxElements * 2) 8) - 1 + 1 = bitCeil (Nat.max (maxElements * 2) 8) := by omega
    refine ⟨⟨_, hmask⟩, ?_, ?_, rfl⟩
    · show 2 * maxElements ≤ bitCeil (Nat.max (maxElements * 2) 8) - 1 + 1
      omega
    · show 8 ≤ bitCeil (Nat.max (maxElements * 2) 8) - 1 + 1
      omega

omit [Inhabited K] [Inhabited V] in
/-- `for_each` visits every live entry once. -/
theorem Represents.entries_spec (hr : Represents m b) (h : Inv hash m) :
    (m.entries.map Prod.fst).Nodup ∧ m.entries.length = m.size ∧
      ∀ key value, (key, value) ∈ m.entries ↔ b.find key = some value := by
  refine ⟨?_, ?_, fun key value => ?_⟩
  · unfold entries
    rw [List.map_map]
    refine List.Nodup.map_on ?_ (List.nodup_range.filter _)
    intro i hi j hj hij
    simp only [List.mem_filter, List.mem_range] at hi hj
    exact h.shaped.distinct i j hi.1 hj.1 (by simp) (by simp) hi.2 hj.2 hij
  · rw [← h.load]
    unfold entries FlatHashMap.load
    have hset : (Finset.range (m.mask + 1)).filter (fun i => (m.slots i).used = true) =
        ((List.range (m.mask + 1)).filter fun i => (m.slots i).used).toFinset := by
      ext i
      simp
    rw [List.length_map, hset, List.toFinset_card_of_nodup (List.nodup_range.filter _)]
  · rw [hr.find]
    unfold entries Holds
    simp only [List.mem_map, List.mem_filter, List.mem_range, Prod.mk.injEq]
    constructor
    · rintro ⟨i, ⟨hi, hu⟩, hk, hv⟩
      exact ⟨i, hi, hu, hk, hv⟩
    · rintro ⟨i, hi, hu, hk, hv⟩
      exact ⟨i, ⟨hi, hu⟩, hk, hv⟩

/-! ## Sequences of calls -/

/-- The operations of the map. -/
inductive Call (K V : Type)
  | insert (key : K) (value : V)
  | find (key : K)
  | erase (key : K)
  | clear

/-- What they return. -/
inductive Answer (V : Type)
  /-- What the returned pointer points to, and whether the key went in. -/
  | inserted (value : Option V) (ok : Bool)
  | found (value : Option V)
  | erased (was : Bool)
  | cleared

/-- The table and the answers given so far. -/
def next (hash : K → UInt64) (s : FlatHashMap K V × List (Answer V)) : Call K V → Option (FlatHashMap K V × List (Answer V))
  | .insert key value => do
    let (m, v, ok) ← s.1.insert hash key value
    return (m, s.2 ++ [.inserted v ok])
  | .find key => do
    let v ← s.1.find hash key
    return (s.1, s.2 ++ [.found v])
  | .erase key => do
    let (m, was) ← s.1.erase hash key
    return (m, s.2 ++ [.erased was])
  | .clear => some (s.1.clear, s.2 ++ [.cleared])

/-- What a bounded map makes of a call. -/
def specified (b : BoundedMap K V) : Call K V → BoundedMap K V × Answer V
  | .insert key value =>
    ((b.insert key value).1,
      .inserted (if (b.find key).isSome then b.find key else if b.limit ≤ b.size then none else some value)
        (b.insert key value).2)
  | .find key => (b, .found (b.find key))
  | .erase key => (b.erase key, .erased (b.find key).isSome)
  | .clear => (.empty b.limit, .cleared)

/-- The bounded map and its answers after a sequence of calls. -/
def specifiedAll (s : BoundedMap K V × List (Answer V)) (cs : List (Call K V)) : BoundedMap K V × List (Answer V) :=
  cs.foldl (fun s c => ((specified s.1 c).1, s.2 ++ [(specified s.1 c).2])) s

/-- **Every call terminates and answers as the bounded map does.** -/
theorem Represents.step (hr : Represents m b) (h : Inv hash m) (answers : List (Answer V)) (c : Call K V) :
    ∃ m', next hash (m, answers) c = some (m', answers ++ [(specified b c).2]) ∧ Inv hash m' ∧
      Represents m' (specified b c).1 := by
  cases c with
  | insert key value =>
    obtain ⟨m', w, hres, rfl, hinv, hrep, _⟩ := hr.insert_spec h key value
    refine ⟨m', ?_, hinv, hrep⟩
    simp only [next, hres]
    rfl
  | find key =>
    refine ⟨m, ?_, h, hr⟩
    simp only [next, hr.find_eq h key]
    rfl
  | erase key =>
    obtain ⟨m', hres, hinv, hrep⟩ := hr.erase_spec h key
    refine ⟨m', ?_, hinv, hrep⟩
    simp only [next, hres]
    rfl
  | clear =>
    refine ⟨m.clear, rfl, .vacated h.shaped.pow h.half h.eight, ?_⟩
    show Represents _ (.empty b.limit)
    rw [hr.limit]
    exact .vacated

theorem Represents.run (hr : Represents m b) (h : Inv hash m) (answers : List (Answer V)) (cs : List (Call K V)) :
    ∃ m', run (next hash) (m, answers) cs = some (m', (specifiedAll (b, answers) cs).2) ∧ Inv hash m' ∧
      Represents m' (specifiedAll (b, answers) cs).1 := by
  induction cs generalizing m b answers with
  | nil => exact ⟨m, rfl, h, hr⟩
  | cons c cs ih =>
    obtain ⟨m₁, hstep, hinv, hrep⟩ := hr.step h answers c
    obtain ⟨m', hrun, hinv', hrep'⟩ := ih hrep hinv (answers ++ [(specified b c).2])
    exact ⟨m', by rw [run_cons, hstep]; exact hrun, hinv', hrep'⟩

end FlatHashMap

open FlatHashMap in
/-- **The hash map refines a bounded finite map.** For every hash function, every limit the constructor
takes and every sequence of calls: every loop terminates, and the answers are those of a map that takes
at most `maxElements` keys and never overwrites; the size is exact; `for_each` visits every live entry
once; and one more `insert` moves no entry. -/
theorem flat_hash_map_refines_bounded_map {K V : Type} [DecidableEq K] [Inhabited K] [Inhabited V]
    (hash : K → UInt64) (maxElements : Nat) (m₀ : FlatHashMap K V) (hnew : FlatHashMap.new maxElements = some m₀)
    (cs : List (Call K V)) :
    ∃ m, run (next hash) (m₀, []) cs = some (m, (specifiedAll (.empty maxElements, []) cs).2) ∧
      m.size = (specifiedAll (.empty maxElements, []) cs).1.size ∧
      (m.entries.map Prod.fst).Nodup ∧ m.entries.length = m.size ∧
      (∀ key value, (key, value) ∈ m.entries ↔
        (specifiedAll (.empty maxElements, []) cs).1.find key = some value) ∧
      ∀ key value, ∃ m' w ok, m.insert hash key value = some (m', w, ok) ∧
        ∀ i < m.mask + 1, (m.slots i).used = true → m'.slots i = m.slots i := by
  obtain ⟨hpow, hhalf, height, hm₀⟩ := new_some hnew
  rw [hm₀]
  have hempty : Inv hash (⟨maxElements, m₀.mask, 0, fun _ => vacant⟩ : FlatHashMap K V) := .vacated hpow hhalf height
  obtain ⟨m, hrun, hinv, hrep⟩ := Represents.vacated.run hempty [] cs
  obtain ⟨hnodup, hlen, hmem⟩ := hrep.entries_spec hinv
  refine ⟨m, hrun, hrep.size.symm, hnodup, hlen, hmem, fun key value => ?_⟩
  obtain ⟨m', w, hres, _, _, _, hkeep⟩ := hrep.insert_spec hinv key value
  exact ⟨m', w, _, hres, hkeep⟩

/-- All keys share the last slot as home; deleting the first pulls the others back round the end. -/
theorem flat_hash_map_refines_collisions :
    ∃ m₀ m : FlatHashMap Nat Nat, FlatHashMap.new 4 = some m₀ ∧
      run (FlatHashMap.next fun _ => 7) (m₀, []) [.insert 1 10, .insert 2 20, .insert 3 30, .erase 1, .find 3] =
        some (m, [.inserted (some 10) true, .inserted (some 20) true, .inserted (some 30) true, .erased true,
          .found (some 30)]) ∧ m.size = 2 := by
  have hceil : bitCeil 8 = 8 := congrArg (2 ^ ·) (Nat.clog_pow 2 3 (by decide))
  have hnew : (FlatHashMap.new 4 : Option (FlatHashMap Nat Nat)) = some ⟨4, 7, 0, fun _ => FlatHashMap.vacant⟩ := by
    show some _ = some _
    rw [show Nat.max (4 * 2) 8 = 8 from rfl, hceil]
  obtain ⟨m, hrun, hsize, _⟩ := flat_hash_map_refines_bounded_map (fun _ => 7) 4 _ hnew
    [.insert 1 10, .insert 2 20, .insert 3 30, .erase 1, .find 3]
  exact ⟨_, m, hnew, hrun, hsize⟩

end OptiTrade.Core
