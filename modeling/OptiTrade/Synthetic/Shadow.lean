import Mathlib.Data.List.ProdSigma
import OptiTrade.Book.Live
import OptiTrade.Synthetic.Market

/-! # The shadow arrays

What is in them, up to the order of the slots, and what each of the four changes does to it: an order is put
behind the others, taken out, cut down or exchanged. -/

namespace OptiTrade.Synthetic
set_option autoImplicit false

open Book (better better_irrefl better_trans better_total Orders)

/-! ## The best order -/

/-- `x` is executed before `b`: its price is better, or it is older at the same price. -/
def Before (side : Side) (x b : Live) : Prop := better side x.price b.price = true ∨ x.price = b.price ∧ x.ref < b.ref

theorem bestOf_eq_none {side : Side} {a : List Live} : bestOf side a = none ↔ a = [] := SwapRemoval.first_eq_none

theorem before_iff {side : Side} {x b : Live} : before side x b = true ↔ Before side x b := by
  unfold before
  rw [Bool.or_eq_true, Bool.and_eq_true, beq_iff_eq, decide_eq_true_eq]
  rfl

theorem Before.irrefl (side : Side) (x : Live) : ¬Before side x x := by
  rintro (hb | ⟨-, hr⟩)
  · rw [better_irrefl] at hb
    cases hb
  · exact Nat.lt_irrefl _ hr

theorem Before.trans {side : Side} {x y z : Live} (hxy : Before side x y) (hyz : Before side y z) : Before side x z := by
  rcases hxy with hxy | ⟨hp, hr⟩
  · rcases hyz with hyz | ⟨hp', -⟩
    · exact .inl (better_trans hxy hyz)
    · exact .inl (hp' ▸ hxy)
  · rcases hyz with hyz | ⟨hp', hr'⟩
    · exact .inl (hp ▸ hyz)
    · exact .inr ⟨hp.trans hp', hr.trans hr'⟩

/-- **The best order.** No order of its array is executed before it. -/
theorem bestOf_some {side : Side} {a : List Live} {i : Nat} {o : Live} (h : bestOf side a = some (i, o)) :
    a[i]? = some o ∧ ∀ x ∈ a, ¬Before side x o := by
  have hirrefl : ∀ x, before side x x = false := fun x => Bool.eq_false_iff.mpr fun hx => Before.irrefl side x (before_iff.mp hx)
  have htrans : ∀ x y z, before side x y = true → before side y z = true → before side x z = true := fun x y z hxy hyz =>
    before_iff.mpr ((before_iff.mp hxy).trans (before_iff.mp hyz))
  have hfirst := SwapRemoval.first_some hirrefl htrans h
  refine ⟨hfirst.1, fun x hx hbefore => ?_⟩
  have hno := hfirst.2 x hx
  rw [before_iff.mpr hbefore] at hno
  cases hno

theorem crosses_opposite (side : Side) (px px' : Int) : crosses (opposite side) px' px = crosses side px px' := by
  cases side <;> rfl

theorem crosses_of_not_better {side : Side} {px best other : Int} (h : crosses side px best = false)
    (hb : better (opposite side) other best = false) : crosses side px other = false := by
  cases side <;> simp only [crosses, better, opposite, decide_eq_false_iff_not] at * <;> omega

theorem slot_eq {a : List Live} {i : Nat} {o : Live} (h : a[i]? = some o) : slot a i = o := by
  unfold slot
  rw [h]
  rfl

namespace Market
variable {σ : Type} {m : Market σ} {s s' : Nat} {side side' : Side} {a : List Live} {i : Nat} {o : Live}

theorem reaches_eq_false {px : Int} (h : m.reaches s side px = false) :
    ∀ x ∈ m.orders s (opposite side), crosses side px x.price = false := by
  intro x hx
  unfold reaches at h
  cases hbest : bestOf (opposite side) (m.orders s (opposite side)) with
  | none =>
    rw [bestOf_eq_none] at hbest
    rw [hbest] at hx
    cases hx
  | some p =>
    rw [hbest] at h
    refine crosses_of_not_better h ?_
    by_contra hb
    exact (bestOf_some hbest).2 x hx (.inl (by simpa using hb))

/-! ## One array changes -/

@[simp] theorem orders_setOrders_self (m : Market σ) (s : Nat) (side : Side) (a : List Live) :
    (m.setOrders s side a).orders s side = a := by
  simp [setOrders, orders]

theorem orders_setOrders (m : Market σ) (s : Nat) (side : Side) (a : List Live) (s' : Nat) (side' : Side) :
    (m.setOrders s side a).orders s' side' = if s' = s ∧ side' = side then a else m.orders s' side' := by
  unfold setOrders orders
  by_cases hs : s' = s
  · subst hs
    by_cases hside : side' = side
    · subst hside
      simp
    · simp [hside]
  · simp [hs]

theorem setOrders_sym (m : Market σ) (s : Nat) (side : Side) (a : List Live) (s' : Nat) :
    ((m.setOrders s side a).syms s').name = (m.syms s').name ∧ ((m.setOrders s side a).syms s').fair = (m.syms s').fair ∧
      ((m.setOrders s side a).syms s').lo = (m.syms s').lo ∧ ((m.setOrders s side a).syms s').hi = (m.syms s').hi := by
  unfold setOrders
  dsimp only
  by_cases hs : s' = s
  · subst hs
    rw [Function.update_self]
    exact ⟨rfl, rfl, rfl, rfl⟩
  · rw [Function.update_of_ne hs]
    exact ⟨rfl, rfl, rfl, rfl⟩

/-- The array that is left when `shares` leave the order `o` in slot `i`. -/
def reduced (a : List Live) (i shares : Nat) (o : Live) : List Live :=
  if o.qty ≤ shares then SwapRemoval.removeAt a i else a.set i { o with qty := o.qty - shares }

theorem reduce_eq (h : (m.orders s side)[i]? = some o) (shares : Nat) :
    m.reduce s side i shares = m.setOrders s side (reduced (m.orders s side) i shares o) := by
  unfold reduce reduced removeAt
  rw [slot_eq h]
  dsimp only
  split_ifs <;> rfl

/-! ## All orders -/

/-- An order as the books have it. -/
def entry (s : Nat) (side : Side) (o : Live) : Nat × Book.OrderInfo := (o.ref, ⟨s + 1, side, o.price, o.qty⟩)

/-- The arrays. -/
def places (m : Market σ) : List (Nat × Side) := List.range m.symbols ×ˢ [.buy, .sell]

/-- The orders in the shadow arrays. -/
def live (m : Market σ) : Orders := m.places.flatMap fun p => (m.orders p.1 p.2).map (entry p.1 p.2)

theorem mem_places {p : Nat × Side} : p ∈ m.places ↔ p.1 < m.symbols := by
  obtain ⟨s, side⟩ := p
  unfold places
  rw [List.mem_product, List.mem_range]
  refine ⟨fun h => h.1, fun h => ⟨h, ?_⟩⟩
  cases side <;> simp

theorem nodup_places (m : Market σ) : m.places.Nodup := List.Nodup.product List.nodup_range (by decide)

theorem mem_live {x : Nat × Book.OrderInfo} :
    x ∈ m.live ↔ ∃ s side, s < m.symbols ∧ ∃ o ∈ m.orders s side, x = entry s side o := by
  unfold live
  rw [List.mem_flatMap]
  constructor
  · rintro ⟨⟨s, side⟩, hp, hx⟩
    obtain ⟨o, ho, rfl⟩ := List.mem_map.mp hx
    exact ⟨s, side, mem_places.mp hp, o, ho, rfl⟩
  · rintro ⟨s, side, hs, o, ho, rfl⟩
    exact ⟨(s, side), mem_places.mpr hs, List.mem_map_of_mem ho⟩

/-- One array among all orders, whatever becomes of it. -/
theorem live_split (hs : s < m.symbols) (side : Side) :
    ∃ rest : Orders, (∀ x ∈ rest, ¬Orders.On (s + 1) side x) ∧ m.live.Perm ((m.orders s side).map (entry s side) ++ rest) ∧
      ∀ a, (m.setOrders s side a).live.Perm (a.map (entry s side) ++ rest) := by
  have hp : (s, side) ∈ m.places := mem_places.mpr hs
  let others := Function.update (fun p : Nat × Side => (m.orders p.1 p.2).map (entry p.1 p.2)) (s, side) []
  refine ⟨m.places.flatMap others, fun x hx hon => ?_, SwapRemoval.perm_flatMap hp m.nodup_places _, fun a => ?_⟩
  · obtain ⟨p, -, hx⟩ := List.mem_flatMap.mp hx
    by_cases he : p = (s, side)
    · subst he
      simp [others] at hx
    · rw [show others p = _ from Function.update_of_ne he _ _] at hx
      obtain ⟨o, -, rfl⟩ := List.mem_map.mp hx
      exact he (Prod.ext (Nat.succ_injective hon.1) hon.2)
  · have hperm := SwapRemoval.perm_flatMap hp m.nodup_places
      fun p => ((m.setOrders s side a).orders p.1 p.2).map (entry p.1 p.2)
    have hothers : Function.update (fun p : Nat × Side => ((m.setOrders s side a).orders p.1 p.2).map (entry p.1 p.2))
        (s, side) [] = others := by
      funext p
      by_cases he : p = (s, side)
      · subst he
        simp [others]
      · rw [Function.update_of_ne he, show others p = _ from Function.update_of_ne he _ _, orders_setOrders,
          if_neg fun h => he (Prod.ext h.1 h.2)]
    rw [hothers, orders_setOrders_self] at hperm
    exact hperm

theorem count_live (hs : s < m.symbols) (side : Side) : m.live.count (s + 1) side = (m.orders s side).length := by
  obtain ⟨rest, hrest, hlive, -⟩ := live_split hs side
  rw [Orders.count_perm hlive]
  unfold Orders.count
  rw [List.countP_append, List.countP_map]
  have hall : (m.orders s side).countP ((fun x => decide (Orders.On (s + 1) side x)) ∘ entry s side) =
      (m.orders s side).length := List.countP_eq_length.mpr fun o _ => decide_eq_true ⟨rfl, rfl⟩
  have hnone : rest.countP (fun x => decide (Orders.On (s + 1) side x)) = 0 :=
    List.countP_eq_zero.mpr fun x hx => by simpa using hrest x hx
  rw [hall, hnone, Nat.add_zero]

theorem shares_live (hs : s < m.symbols) (side : Side) :
    m.live.shares (s + 1) side = ((m.orders s side).map Live.qty).sum := by
  obtain ⟨rest, hrest, hlive, -⟩ := live_split hs side
  unfold Orders.shares
  rw [(hlive.map _).sum_eq, List.map_append, List.sum_append, List.map_map]
  have hnone : (rest.map fun x => if Orders.On (s + 1) side x then x.2.qty else 0).sum = 0 := by
    refine List.sum_eq_zero fun n hn => ?_
    obtain ⟨x, hx, rfl⟩ := List.mem_map.mp hn
    exact if_neg (hrest x hx)
  rw [hnone, Nat.add_zero]
  congr 1
  refine List.map_congr_left fun o _ => ?_
  exact if_pos ⟨rfl, rfl⟩

theorem length_live_le (h : ∀ s side, (m.orders s side).length ≤ kCap) : m.live.length ≤ 256 * m.symbols := by
  have hle : m.live.length ≤ m.places.length * kCap := by
    unfold live
    rw [List.length_flatMap]
    refine (List.sum_le_card_nsmul _ kCap fun n hn => ?_).trans_eq ?_
    · obtain ⟨p, -, rfl⟩ := List.mem_map.mp hn
      rw [List.length_map]
      exact h p.1 p.2
    · rw [List.length_map, nsmul_eq_mul, Nat.cast_id]
  have hplaces : m.places.length = m.symbols * 2 := by
    unfold places
    rw [List.length_product, List.length_range]
    rfl
  rw [hplaces] at hle
  unfold kCap at hle
  omega

/-! ## The four changes -/

theorem live_push (hs : s < m.symbols) (side : Side) (o : Live) : (m.push s side o).live.Perm (entry s side o :: m.live) := by
  obtain ⟨rest, -, hlive, hset⟩ := live_split hs side
  calc (m.push s side o).live
    _ |>.Perm ((m.orders s side ++ [o]).map (entry s side) ++ rest) := hset _
    _ |>.Perm (entry s side o :: ((m.orders s side).map (entry s side) ++ rest)) := by
      rw [List.map_append, List.append_assoc]
      exact List.perm_middle
    _ |>.Perm (entry s side o :: m.live) := hlive.symm.cons _

theorem live_removeAt (hs : s < m.symbols) (h : (m.orders s side)[i]? = some o) :
    m.live.Perm (entry s side o :: (m.removeAt s side i).live) := by
  obtain ⟨rest, -, hlive, hset⟩ := live_split hs side
  calc m.live
    _ |>.Perm ((m.orders s side).map (entry s side) ++ rest) := hlive
    _ |>.Perm ((o :: SwapRemoval.removeAt (m.orders s side) i).map (entry s side) ++ rest) :=
      ((SwapRemoval.perm_removeAt h).map _).append_right _
    _ |>.Perm (entry s side o :: (m.removeAt s side i).live) := (hset _).symm.cons _

theorem live_set (hs : s < m.symbols) (h : (m.orders s side)[i]? = some o) :
    ∃ rest : Orders, m.live.Perm (entry s side o :: rest) ∧
      ∀ o', (m.setOrders s side ((m.orders s side).set i o')).live.Perm (entry s side o' :: rest) := by
  obtain ⟨rest, -, hlive, hset⟩ := live_split hs side
  refine ⟨((m.orders s side).eraseIdx i).map (entry s side) ++ rest, ?_, fun o' => ?_⟩
  · exact hlive.trans (((SwapRemoval.perm_eraseIdx h).map _).append_right _)
  · exact (hset _).trans (((SwapRemoval.perm_set h o').map _).append_right _)

theorem live_reduce (hs : s < m.symbols) (h : (m.orders s side)[i]? = some o) {shares : Nat} (hle : shares ≤ o.qty) :
    ∃ rest : Orders, m.live.Perm (entry s side o :: rest) ∧
      (Book.Holds.left o.ref shares (entry s side o).2 rest).Perm (m.reduce s side i shares).live := by
  rw [reduce_eq h]
  unfold Book.Holds.left reduced
  by_cases he : shares = o.qty
  · refine ⟨_, live_removeAt hs h, ?_⟩
    rw [if_pos (show shares = (entry s side o).2.qty from he), if_pos he.ge]
    exact List.Perm.refl _
  · obtain ⟨rest, hlive, hset⟩ := live_set hs h
    refine ⟨rest, hlive, ?_⟩
    rw [if_neg (show ¬shares = (entry s side o).2.qty from he), if_neg (by omega)]
    exact (hset { o with qty := o.qty - shares }).symm

end Market
end OptiTrade.Synthetic
