import Mathlib.Algebra.GroupWithZero.Nat
import Mathlib.Algebra.Order.BigOperators.Group.List
import Mathlib.Algebra.Order.Group.Nat
import Mathlib.Data.List.AList

/-! # Finite maps with a capacity

The contract of a hash map whose storage is fixed at construction: `insert` refuses a key that is
already there and a new key once `limit` entries are held, `erase` forgets a key. -/

namespace OptiTrade
set_option autoImplicit false

/-- A map with room for `limit` keys. -/
structure BoundedMap (K V : Type) where
  limit : Nat
  entries : AList (fun _ : K => V)

namespace BoundedMap
variable {K V : Type} [DecidableEq K]

def empty (limit : Nat) : BoundedMap K V := ⟨limit, ∅⟩

def find (m : BoundedMap K V) (k : K) : Option V := m.entries.lookup k

def size (m : BoundedMap K V) : Nat := m.entries.keys.length

/-- The map after the insertion and whether the key went in. -/
def insert (m : BoundedMap K V) (k : K) (v : V) : BoundedMap K V × Bool :=
  if (m.find k).isSome then (m, false)
  else if m.limit ≤ m.size then (m, false)
  else ({ m with entries := m.entries.insert k v }, true)

def erase (m : BoundedMap K V) (k : K) : BoundedMap K V :=
  { m with entries := m.entries.erase k }

/-- Writes through to the value of a key that is there. -/
def set (m : BoundedMap K V) (k : K) (v : V) : BoundedMap K V :=
  { m with entries := m.entries.insert k v }

@[simp] theorem find_empty (n : Nat) (k : K) : (empty n : BoundedMap K V).find k = none := rfl

omit [DecidableEq K] in
@[simp] theorem size_empty (n : Nat) : (empty n : BoundedMap K V).size = 0 := rfl

omit [DecidableEq K] in
@[simp] theorem limit_empty (n : Nat) : (empty n : BoundedMap K V).limit = n := rfl

@[simp] theorem limit_erase (m : BoundedMap K V) (k : K) : (m.erase k).limit = m.limit := rfl

theorem find_erase (m : BoundedMap K V) (k j : K) :
    (m.erase k).find j = if j = k then none else m.find j := by
  by_cases h : j = k
  · subst h
    simp [erase, find]
  · simp [erase, find, h, AList.lookup_erase_ne h]

@[simp] theorem find_erase_self (m : BoundedMap K V) (k : K) : (m.erase k).find k = none := by
  simp [find_erase]

theorem find_erase_ne (m : BoundedMap K V) {k j : K} (h : j ≠ k) : (m.erase k).find j = m.find j := by
  simp [find_erase, h]

theorem insert_fresh {m : BoundedMap K V} {k : K} (v : V) (hk : m.find k = none)
    (hroom : m.size < m.limit) :
    m.insert k v = ({ m with entries := m.entries.insert k v }, true) := by
  unfold insert
  rw [if_neg (by simp [hk]), if_neg (by omega)]

theorem insert_true {m m' : BoundedMap K V} {k : K} {v : V} (h : m.insert k v = (m', true)) :
    m.find k = none ∧ m.size < m.limit ∧ m' = { m with entries := m.entries.insert k v } := by
  unfold insert at h
  split_ifs at h with h₁ h₂
  · simp at h
  · simp at h
  · refine ⟨by simpa using h₁, by omega, ?_⟩
    simpa using h.symm

theorem insert_false {m m' : BoundedMap K V} {k : K} {v : V} (h : m.insert k v = (m', false)) :
    m' = m := by
  unfold insert at h
  split_ifs at h <;> simp_all

theorem find_insert_true {m m' : BoundedMap K V} {k : K} {v : V} (h : m.insert k v = (m', true))
    (j : K) : m'.find j = if j = k then some v else m.find j := by
  obtain ⟨_, _, rfl⟩ := insert_true h
  by_cases hj : j = k
  · subst hj
    simp [find]
  · simp [find, hj, AList.lookup_insert_ne hj]

theorem limit_insert {m m' : BoundedMap K V} {k : K} {v : V} {b : Bool}
    (h : m.insert k v = (m', b)) : m'.limit = m.limit := by
  cases b with
  | false => rw [insert_false h]
  | true => rw [(insert_true h).2.2]

theorem mem_keys_iff (m : BoundedMap K V) (k : K) : k ∈ m.entries.keys ↔ (m.find k).isSome := by
  rw [find, AList.lookup_isSome]
  exact AList.mem_keys.symm

omit [DecidableEq K] in
theorem keys_nodup (m : BoundedMap K V) : m.entries.keys.Nodup := m.entries.keys_nodup

theorem size_insert_true {m m' : BoundedMap K V} {k : K} {v : V} (h : m.insert k v = (m', true)) :
    m'.size = m.size + 1 := by
  obtain ⟨hk, _, rfl⟩ := insert_true h
  have hmem : k ∉ m.entries.keys := by
    rw [mem_keys_iff, hk]
    simp
  simp [size, AList.keys_insert, List.erase_of_not_mem hmem]

theorem size_erase {m : BoundedMap K V} {k : K} {v : V} (h : m.find k = some v) :
    (m.erase k).size + 1 = m.size := by
  have hmem : k ∈ m.entries.keys := by
    rw [mem_keys_iff, h]
    rfl
  have hpos : 0 < m.entries.keys.length := List.length_pos_of_mem hmem
  simp only [size, erase, AList.keys_erase, List.length_erase_of_mem hmem]
  omega

theorem erase_of_none {m : BoundedMap K V} {k : K} (h : m.find k = none) : m.erase k = m := by
  have hmem : k ∉ m.entries.entries.keys := by
    rw [← AList.keys, mem_keys_iff, h]
    simp
  have he : m.entries.erase k = m.entries := by
    ext1
    exact List.kerase_of_notMem_keys hmem
  simp [erase, he]

@[simp] theorem limit_set (m : BoundedMap K V) (k : K) (v : V) : (m.set k v).limit = m.limit := rfl

theorem find_set (m : BoundedMap K V) (k j : K) (v : V) :
    (m.set k v).find j = if j = k then some v else m.find j := by
  by_cases hj : j = k
  · subst hj
    simp [set, find]
  · simp [set, find, hj, AList.lookup_insert_ne hj]

theorem size_set {m : BoundedMap K V} {k : K} {v : V} (h : m.find k = some v) (v' : V) :
    (m.set k v').size = m.size := by
  have hmem : k ∈ m.entries.keys := by
    rw [mem_keys_iff, h]
    rfl
  have hpos : 0 < m.entries.keys.length := List.length_pos_of_mem hmem
  simp only [size, set, AList.keys_insert, List.length_cons, List.length_erase_of_mem hmem]
  omega

theorem erase_insert {m m' : BoundedMap K V} {k : K} {v : V} (h : m.insert k v = (m', true)) :
    m'.erase k = m := by
  obtain ⟨hk, _, rfl⟩ := insert_true h
  have hmem : k ∉ m.entries := by
    rw [AList.mem_keys, mem_keys_iff, hk]
    simp
  have he : (m.entries.insert k v).erase k = m.entries := by
    ext1
    show List.kerase k (m.entries.insert k v).entries = m.entries.entries
    rw [AList.entries_insert_of_notMem hmem]
    exact List.kerase_cons_eq rfl
  simp [erase, he]

/-! ## Sums over the values -/

/-- The sum of `f` over all values. -/
def total (m : BoundedMap K V) (f : V → Nat) : Nat := (m.entries.entries.map fun x => f x.2).sum

omit [DecidableEq K] in
@[simp] theorem total_empty (n : Nat) (f : V → Nat) : (empty n : BoundedMap K V).total f = 0 := rfl

theorem mem_entries_iff (m : BoundedMap K V) (k : K) (v : V) : ⟨k, v⟩ ∈ m.entries.entries ↔ m.find k = some v :=
  (List.mem_dlookup_iff m.entries.nodupKeys).symm

theorem total_erase {m : BoundedMap K V} {k : K} {v : V} (h : m.find k = some v) (f : V → Nat) :
    (m.erase k).total f + f v = m.total f := by
  have hmem : k ∈ m.entries.entries.keys := by
    rw [← AList.keys, mem_keys_iff, h]
    rfl
  obtain ⟨b, l₁, l₂, hk, hl, he⟩ := List.exists_of_kerase hmem
  have hb : m.find k = some b := (mem_entries_iff m k b).mp (by rw [hl]; simp)
  obtain rfl : b = v := Option.some.inj (hb.symm.trans h)
  show (((m.entries.entries.kerase k).map fun x => f x.2).sum) + f b = _
  rw [he]
  unfold total
  rw [hl]
  simp only [List.map_append, List.map_cons, List.sum_append, List.sum_cons]
  omega

theorem total_set {m : BoundedMap K V} {k : K} {v : V} (h : m.find k = some v) (v' : V) (f : V → Nat) :
    (m.set k v').total f + f v = m.total f + f v' := by
  have he := total_erase h f
  have hs : (m.set k v').total f = f v' + (m.erase k).total f := rfl
  omega

theorem total_insert_true {m m' : BoundedMap K V} {k : K} {v : V} (h : m.insert k v = (m', true)) (f : V → Nat) :
    m'.total f = m.total f + f v := by
  obtain ⟨hk, _, rfl⟩ := insert_true h
  have hmem : k ∉ m.entries := by
    rw [AList.mem_keys, mem_keys_iff, hk]
    simp
  show (((m.entries.insert k v).entries).map fun x => f x.2).sum = _
  rw [AList.entries_insert_of_notMem hmem]
  simp only [List.map_cons, List.sum_cons]
  exact Nat.add_comm _ _

theorem le_total {m : BoundedMap K V} {k : K} {v : V} (h : m.find k = some v) (f : V → Nat) : f v ≤ m.total f := by
  have := total_erase h f
  omega

theorem exists_of_total_pos {m : BoundedMap K V} {f : V → Nat} (h : 0 < m.total f) :
    ∃ k v, m.find k = some v ∧ 0 < f v := by
  by_contra hn
  have hz : m.total f = 0 := by
    refine List.sum_eq_zero fun n hn' => ?_
    obtain ⟨⟨k, v⟩, hx, rfl⟩ := List.mem_map.mp hn'
    by_contra hne
    exact hn ⟨k, v, (mem_entries_iff m k v).mp hx, Nat.pos_of_ne_zero hne⟩
  omega

theorem total_mono (m : BoundedMap K V) {f g : V → Nat} (h : ∀ k v, m.find k = some v → f v ≤ g v) :
    m.total f ≤ m.total g := by
  refine List.sum_le_sum fun x hx => ?_
  exact h x.1 x.2 ((mem_entries_iff m x.1 x.2).mp hx)

omit [DecidableEq K] in
theorem total_add (m : BoundedMap K V) (f g : V → Nat) : (m.total fun v => f v + g v) = m.total f + m.total g := by
  unfold total
  induction m.entries.entries with
  | nil => rfl
  | cons x xs ih =>
    simp only [List.map_cons, List.sum_cons, ih]
    omega

/-! ## The entries as a list -/

variable {W : Type}

/-- The keys, each with a part of its value. -/
def items (m : BoundedMap K V) (f : V → W) : List (K × W) := m.entries.entries.map fun x => (x.1, f x.2)

omit [DecidableEq K] in
theorem length_items (m : BoundedMap K V) (f : V → W) : (m.items f).length = m.size := by
  unfold items size AList.keys List.keys
  rw [List.length_map, List.length_map]

omit [DecidableEq K] in
theorem nodup_items (m : BoundedMap K V) (f : V → W) : ((m.items f).map Prod.fst).Nodup := by
  unfold items
  rw [List.map_map]
  exact m.keys_nodup

theorem mem_items {m : BoundedMap K V} {f : V → W} {k : K} {w : W} :
    (k, w) ∈ m.items f ↔ (m.find k).map f = some w := by
  unfold items
  rw [List.mem_map, Option.map_eq_some_iff]
  constructor
  · rintro ⟨⟨k', v⟩, hx, he⟩
    cases he
    exact ⟨v, (mem_entries_iff m _ v).mp hx, rfl⟩
  · rintro ⟨v, hf, rfl⟩
    exact ⟨⟨k, v⟩, (mem_entries_iff m k v).mpr hf, rfl⟩

theorem items_insert_true {m m' : BoundedMap K V} {k : K} {v : V} (h : m.insert k v = (m', true)) (f : V → W) :
    m'.items f = (k, f v) :: m.items f := by
  obtain ⟨hk, _, rfl⟩ := insert_true h
  have hmem : k ∉ m.entries := by
    rw [AList.mem_keys, mem_keys_iff, hk]
    simp
  show ((m.entries.insert k v).entries).map _ = _
  rw [AList.entries_insert_of_notMem hmem]
  rfl

theorem items_erase {m : BoundedMap K V} {k : K} {v : V} (h : m.find k = some v) (f : V → W) :
    (m.items f).Perm ((k, f v) :: (m.erase k).items f) := by
  have hmem : k ∈ m.entries.entries.keys := by
    rw [← AList.keys, mem_keys_iff, h]
    rfl
  obtain ⟨b, l₁, l₂, hk, hl, he⟩ := List.exists_of_kerase hmem
  obtain rfl : b = v := Option.some.inj (((mem_entries_iff m k b).mp (by rw [hl]; simp)).symm.trans h)
  have herase : (m.erase k).entries.entries = l₁ ++ l₂ := he
  unfold items
  rw [herase, hl, List.map_append, List.map_cons, List.map_append]
  exact List.perm_middle

theorem items_set (m : BoundedMap K V) (k : K) (v : V) (f : V → W) :
    (m.set k v).items f = (k, f v) :: (m.erase k).items f := rfl

omit [DecidableEq K] in
theorem total_items (m : BoundedMap K V) (f : V → W) (g : W → Nat) :
    m.total (fun v => g (f v)) = ((m.items f).map fun x => g x.2).sum := by
  unfold total items
  rw [List.map_map]
  rfl

/-! ## One change -/

/-- One key changes, from what it had to what it has. -/
structure Changed (m m' : BoundedMap K V) (k : K) (old new : Option V) : Prop where
  before : m.find k = old
  find : ∀ j, m'.find j = if j = k then new else m.find j
  total : ∀ f : V → Nat, m'.total f + old.elim 0 f = m.total f + new.elim 0 f

theorem Changed.insert {m m' : BoundedMap K V} {k : K} {v : V} (h : m.insert k v = (m', true)) :
    Changed m m' k none (some v) :=
  ⟨(insert_true h).1, find_insert_true h, fun f => total_insert_true h f⟩

theorem Changed.erase {m : BoundedMap K V} {k : K} {v : V} (h : m.find k = some v) :
    Changed m (m.erase k) k (some v) none :=
  ⟨h, find_erase m k, fun f => total_erase h f⟩

theorem Changed.set {m : BoundedMap K V} {k : K} {v : V} (h : m.find k = some v) (v' : V) :
    Changed m (m.set k v') k (some v) (some v') :=
  ⟨h, fun j => find_set m k j v', fun f => total_set h v' f⟩

end BoundedMap
end OptiTrade
