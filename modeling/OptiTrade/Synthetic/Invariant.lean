import Mathlib.Tactic.Linarith
import OptiTrade.Synthetic.Generators

/-! # What holds of the market at every message

`c` is the number of references issued. The counter wraps at `2 ^ 64`, and a reference is known to be new only as
long as fewer have been issued. -/

namespace OptiTrade.Synthetic
set_option autoImplicit false

open Book (better)
open Itch (Message)

/-- No order is placed above this price. -/
def kMaxPrice : Int := 1702000000

/-- An order is of a size and at a price that the generator makes. -/
structure Live.Ok (tick : Int) (o : Live) : Prop where
  qty_pos : 1 ≤ o.qty
  qty_le : o.qty ≤ 1000
  price_ge : tick ≤ o.price
  price_le : o.price ≤ kMaxPrice

/-- The fair value is within its walls, and these are far from the lowest and the highest price. -/
structure Sym.Ok (tick : Int) (y : Sym) : Prop where
  lo_ge : 16 * tick ≤ y.lo
  lo_le : y.lo ≤ y.fair
  hi_ge : y.fair ≤ y.hi
  hi_le : y.hi ≤ 1686000000

/-- The reference that is issued after `k` others. -/
def refAt (k : Nat) : Nat := (1 + k) % 18446744073709551616

/-- The reference is one of the first `c`. -/
def Issued (c ref : Nat) : Prop := ∃ k < c, ref = refAt k

theorem Issued.mono {c c' ref : Nat} (h : Issued c ref) (hc : c ≤ c') : Issued c' ref := by
  obtain ⟨k, hk, rfl⟩ := h
  exact ⟨k, hk.trans_le hc, rfl⟩

/-- **A reference is new** while the counter has not come round. -/
theorem Issued.ne {c ref : Nat} (h : Issued c ref) (hc : c < 2 ^ 64) : ref ≠ refAt c := by
  obtain ⟨k, hk, rfl⟩ := h
  unfold refAt
  omega

theorem refAt_lt (k : Nat) : refAt k < 2 ^ 64 := Nat.mod_lt _ (by decide)

theorem add64_refAt (c : Nat) : add64 (refAt c) 1 = refAt (c + 1) := by
  unfold add64 refAt
  omega

/-- The references that a message issues. -/
def issues : Message → Nat
  | .addOrder _ => 1
  | .orderReplace _ => 1
  | _ => 0

/-- **The invariant** of the generator, after `c` references. -/
structure Sane {σ : Type} (c : Nat) (m : Market σ) : Prop where
  symbols_pos : 1 ≤ m.symbols
  symbols_le : m.symbols ≤ 65535
  tick_pos : 1 ≤ m.tick
  tick_le : m.tick ≤ 1000000
  syms : ∀ s, (m.syms s).Ok m.tick
  names : ∀ s, (m.syms s).name = makeSymbol s
  room : ∀ s side, (m.orders s side).length ≤ kCap
  orders : ∀ s side, ∀ o ∈ m.orders s side, o.Ok m.tick ∧ Issued c o.ref
  clear : ∀ s side, ∀ o ∈ m.orders s side, ∀ x ∈ m.orders s (opposite side), crosses side o.price x.price = false
  nextRef : m.nextRef = refAt c
  ts : m.ts ≤ kMaxTimestamp
  matchNo : m.matchNo < 2 ^ 64

namespace Sane
variable {σ : Type} {c c' s : Nat} {m m' : Market σ} {side : Side} {a : List Live} {i : Nat} {o : Live}

/-- The arrays stay. -/
theorem same (h : Sane c m) (hsyms : m'.syms = m.syms) (hsymbols : m'.symbols = m.symbols) (htick : m'.tick = m.tick)
    (hnext : m'.nextRef = m.nextRef) (hts : m'.ts ≤ kMaxTimestamp) (hmatch : m'.matchNo < 2 ^ 64) : Sane c m' := by
  have horders : ∀ s side, m'.orders s side = m.orders s side := by
    intro s side
    unfold Market.orders
    rw [hsyms]
  refine ⟨hsymbols ▸ h.symbols_pos, hsymbols ▸ h.symbols_le, htick ▸ h.tick_pos, htick ▸ h.tick_le, ?_, ?_, ?_, ?_, ?_,
    hnext.trans h.nextRef, hts, hmatch⟩
  · rw [hsyms, htick]
    exact h.syms
  · rw [hsyms]
    exact h.names
  · intro s side
    rw [horders]
    exact h.room s side
  · intro s side
    rw [horders, htick]
    exact h.orders s side
  · intro s side
    rw [horders, horders]
    exact h.clear s side

/-- One array changes. -/
theorem setOrders (h : Sane c m) (hc : c ≤ c') (hroom : a.length ≤ kCap) (hok : ∀ o ∈ a, o.Ok m.tick ∧ Issued c' o.ref)
    (hclear : ∀ o ∈ a, ∀ x ∈ m.orders s (opposite side), crosses side o.price x.price = false)
    (hsyms : m'.syms = (m.setOrders s side a).syms) (hsymbols : m'.symbols = m.symbols) (htick : m'.tick = m.tick)
    (hnext : m'.nextRef = refAt c') (hts : m'.ts = m.ts) (hmatch : m'.matchNo < 2 ^ 64) : Sane c' m' := by
  have horders : ∀ s' side', m'.orders s' side' = if s' = s ∧ side' = side then a else m.orders s' side' := by
    intro s' side'
    rw [← Market.orders_setOrders]
    unfold Market.orders
    rw [hsyms]
  have hopp : ∀ side : Side, opposite side ≠ side := by
    intro side
    cases side <;> decide
  refine ⟨hsymbols ▸ h.symbols_pos, hsymbols ▸ h.symbols_le, htick ▸ h.tick_pos, htick ▸ h.tick_le, ?_, ?_, ?_, ?_, ?_,
    hnext, hts ▸ h.ts, hmatch⟩
  · intro s'
    obtain ⟨-, hfair, hlo, hhi⟩ := Market.setOrders_sym m s side a s'
    obtain ⟨h₁, h₂, h₃, h₄⟩ := h.syms s'
    rw [hsyms, htick]
    exact ⟨hlo ▸ h₁, by rw [hlo, hfair]; exact h₂, by rw [hhi, hfair]; exact h₃, hhi ▸ h₄⟩
  · intro s'
    rw [hsyms]
    exact (Market.setOrders_sym m s side a s').1.trans (h.names s')
  · intro s' side'
    rw [horders]
    split_ifs
    · exact hroom
    · exact h.room s' side'
  · intro s' side' o ho
    rw [horders] at ho
    rw [htick]
    split_ifs at ho
    · exact hok o ho
    · exact ⟨(h.orders s' side' o ho).1, (h.orders s' side' o ho).2.mono hc⟩
  · intro s' side' o ho x hx
    rw [horders] at ho hx
    by_cases hthis : s' = s ∧ side' = side
    · obtain ⟨rfl, rfl⟩ := hthis
      rw [if_pos ⟨rfl, rfl⟩] at ho
      rw [if_neg fun he => hopp _ he.2] at hx
      exact hclear o ho x hx
    · rw [if_neg hthis] at ho
      by_cases hthat : s' = s ∧ opposite side' = side
      · obtain ⟨rfl, rfl⟩ := hthat
        rw [if_pos ⟨rfl, rfl⟩] at hx
        have hback : opposite (opposite side') = side' := by cases side' <;> rfl
        rw [← crosses_opposite]
        exact hclear x hx o (by rw [hback]; exact ho)
      · rw [if_neg hthat] at hx
        exact h.clear s' side' o ho x hx

theorem push (h : Sane c m) (hroom : (m.orders s side).length < kCap) (hok : o.Ok m.tick) (href : o.ref = m.nextRef)
    (hclear : ∀ x ∈ m.orders s (opposite side), crosses side o.price x.price = false)
    (hsyms : m'.syms = (m.push s side o).syms) (hsymbols : m'.symbols = m.symbols) (htick : m'.tick = m.tick)
    (hnext : m'.nextRef = add64 m.nextRef 1) (hts : m'.ts = m.ts) (hmatch : m'.matchNo = m.matchNo) :
    Sane (c + 1) m' := by
  refine h.setOrders (Nat.le_succ c) ?_ (fun x hx => ?_) (fun x hx => ?_) hsyms hsymbols htick ?_ hts (hmatch ▸ h.matchNo)
  · rw [List.length_append]
    exact hroom
  · rcases List.mem_append.mp hx with hx | hx
    · exact ⟨(h.orders s side x hx).1, (h.orders s side x hx).2.mono (Nat.le_succ c)⟩
    · rw [List.mem_singleton.mp hx]
      exact ⟨hok, c, Nat.lt_succ_self c, href.trans h.nextRef⟩
  · rcases List.mem_append.mp hx with hx | hx
    · exact h.clear s side x hx
    · rw [List.mem_singleton.mp hx]
      exact hclear
  · rw [hnext, h.nextRef, add64_refAt]

/-- An order leaves, or loses some shares. -/
theorem reduce (h : Sane c m) (ho : (m.orders s side)[i]? = some o) (shares : Nat)
    (hsyms : m'.syms = (m.setOrders s side (Market.reduced (m.orders s side) i shares o)).syms) (hsymbols : m'.symbols = m.symbols) (htick : m'.tick = m.tick)
    (hnext : m'.nextRef = m.nextRef) (hts : m'.ts = m.ts) (hmatch : m'.matchNo < 2 ^ 64) : Sane c m' := by
  have hmem := List.mem_of_getElem? ho
  obtain ⟨hok, hissued⟩ := h.orders s side o hmem
  unfold Market.reduced at hsyms
  split_ifs at hsyms with hall
  · have hperm := SwapRemoval.perm_removeAt ho
    have hsub : ∀ x ∈ SwapRemoval.removeAt (m.orders s side) i, x ∈ m.orders s side := fun x hx =>
      hperm.mem_iff.mpr (List.mem_cons_of_mem _ hx)
    refine h.setOrders (le_refl c) ?_ (fun x hx => h.orders s side x (hsub x hx))
      (fun x hx => h.clear s side x (hsub x hx)) hsyms hsymbols htick (hnext.trans h.nextRef) hts hmatch
    have := SwapRemoval.length_removeAt ho
    have := h.room s side
    omega
  · refine h.setOrders (le_refl c) ?_ (fun x hx => ?_) (fun x hx => ?_) hsyms hsymbols htick (hnext.trans h.nextRef) hts hmatch
    · rw [List.length_set]
      exact h.room s side
    · rcases List.mem_or_eq_of_mem_set hx with hx | rfl
      · exact h.orders s side x hx
      · obtain ⟨h₁, h₂, h₃, h₄⟩ := hok
        exact ⟨⟨by show 1 ≤ o.qty - shares; omega, by show o.qty - shares ≤ 1000; omega, h₃, h₄⟩, hissued⟩
    · rcases List.mem_or_eq_of_mem_set hx with hx | rfl
      · exact h.clear s side x hx
      · exact h.clear s side o hmem

/-- **A passive price** is at least a tick and far below the largest price of the wire. -/
theorem passive (h : Sane c m) {px : Int} (hp : m.Passive s side px) : m.tick ≤ px ∧ px ≤ kMaxPrice := by
  obtain ⟨g, hg, rfl⟩ := hp
  obtain ⟨h₁, h₂, h₃, h₄⟩ := h.syms s
  have htick := h.tick_pos
  have htick' := h.tick_le
  have hg' : (g : Int) ≤ 15 := by omega
  have hlow : m.tick ≤ (1 + (g : Int)) * m.tick := by nlinarith
  have hhigh : (1 + (g : Int)) * m.tick ≤ 16 * m.tick := by nlinarith
  unfold kMaxPrice
  cases side
  · dsimp only
    omega
  · dsimp only
    omega

theorem shares_le (h : Sane c m) (s : Nat) (side : Side) : ((m.orders s side).map Live.qty).sum ≤ 128000 := by
  refine (List.sum_le_card_nsmul _ 1000 fun n hn => ?_).trans ?_
  · obtain ⟨o, ho, rfl⟩ := List.mem_map.mp hn
    exact (h.orders s side o ho).1.qty_le
  · have := h.room s side
    unfold kCap at this
    rw [List.length_map, nsmul_eq_mul, Nat.cast_id]
    omega

end Sane

/-! ## One message of a generator -/

namespace Market.Emitted
variable {σ : Type} {c s : Nat} {m : Market σ} {p : Market σ × Message}

theorem add64_lt (a b : Nat) : add64 a b < 2 ^ 64 := Nat.mod_lt _ (by decide)

/-- **A generator keeps the market sane.** -/
theorem sane (he : Emitted m s p) (h : Sane c m) : Sane (c + issues p.2) p.1 := by
  cases he with
  | added attributed r hclear hroom hpx hqty =>
    obtain ⟨h₁, h₂⟩ := h.passive hpx
    exact h.push hroom ⟨hqty.1, hqty.2, h₁, h₂⟩ rfl (reaches_eq_false hclear) rfl rfl rfl rfl rfl rfl
  | @deleted side i o r ho =>
    refine h.reduce ho o.qty ?_ rfl rfl rfl rfl h.matchNo
    unfold reduced
    rw [if_pos (le_refl _)]
    rfl
  | @cancelled side i shares o r ho hcut =>
    show Sane c (reduce _ s side i shares)
    rw [reduce_eq (m := { m with rng := r }) ho]
    exact h.reduce ho shares rfl rfl rfl rfl rfl h.matchNo
  | @executed target i shares o r hbest hcut =>
    have ho := (bestOf_some hbest).1
    show Sane c (reduce _ s target i shares)
    rw [reduce_eq (m := { m with rng := r, matchNo := add64 m.matchNo 1 }) ho]
    exact h.reduce ho shares rfl rfl rfl rfl rfl (add64_lt _ _)
  | @printed target i shares o px r hbest hcut hpx =>
    have ho := (bestOf_some hbest).1
    show Sane c (reduce _ s target i shares)
    rw [reduce_eq (m := { m with rng := r, matchNo := add64 m.matchNo 1 }) ho]
    exact h.reduce ho shares rfl rfl rfl rfl rfl (add64_lt _ _)
  | @replaced side i qty o px r ho hpx hqty =>
    have hmem := List.mem_of_getElem? ho
    have hnew : (m.tick ≤ px ∧ px ≤ kMaxPrice) ∧ ∀ x ∈ m.orders s (opposite side), crosses side px x.price = false := by
      rcases hpx with rfl | ⟨hclear, hpassive⟩
      · have hok := (h.orders s side o hmem).1
        exact ⟨⟨hok.price_ge, hok.price_le⟩, h.clear s side o hmem⟩
      · exact ⟨h.passive hpassive, reaches_eq_false hclear⟩
    refine h.setOrders (Nat.le_succ c) ?_ (fun x hx => ?_) (fun x hx => ?_) rfl rfl rfl ?_ rfl h.matchNo
    · rw [List.length_set]
      exact h.room s side
    · rcases List.mem_or_eq_of_mem_set hx with hx | rfl
      · exact ⟨(h.orders s side x hx).1, (h.orders s side x hx).2.mono (Nat.le_succ c)⟩
      · exact ⟨⟨hqty.1, hqty.2, hnew.1.1, hnew.1.2⟩, c, Nat.lt_succ_self c, h.nextRef⟩
    · rcases List.mem_or_eq_of_mem_set hx with hx | rfl
      · exact h.clear s side x hx
      · exact hnew.2
    · have hnext : add64 m.nextRef 1 = refAt (c + 1) := by rw [h.nextRef, add64_refAt]
      exact hnext
  | traded side r hlots => exact h.same rfl rfl rfl rfl h.ts (add64_lt _ _)
  | event code r => exact h.same rfl rfl rfl rfl h.ts h.matchNo

end Market.Emitted
end OptiTrade.Synthetic
