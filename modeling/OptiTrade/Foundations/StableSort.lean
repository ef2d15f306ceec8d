import Mathlib.Data.List.Sort
import Mathlib.Order.Basic

/-! # Sorting by a key, largest first

A stable sort leaves elements of the same key in the order they came in. When that order is a relation between any two of
them, what comes out is sorted by the key and, among equal keys, by the relation; the first `k` of it are ahead of all others. -/

namespace OptiTrade.StableSort
set_option autoImplicit false

variable {α β : Type*} [LinearOrder β] (key : α → β) {R : α → α → Prop} {l : List α}

/-- `std::stable_sort` by a key, the largest first. -/
def byKey (l : List α) : List α := l.mergeSort fun a b => decide (key b ≤ key a)

/-- `a` has the larger key, or the same and is related to `b`. -/
def Ahead (R : α → α → Prop) (a b : α) : Prop := key b < key a ∨ key a = key b ∧ R a b

variable {key}

theorem order_trans (a b c : α) (hab : decide (key b ≤ key a) = true) (hbc : decide (key c ≤ key b) = true) :
    decide (key c ≤ key a) = true := decide_eq_true ((of_decide_eq_true hbc).trans (of_decide_eq_true hab))

theorem order_total (a b : α) : (decide (key b ≤ key a) || decide (key a ≤ key b)) = true := by
  rw [Bool.or_eq_true]
  exact (le_total (key b) (key a)).imp decide_eq_true decide_eq_true

theorem perm_byKey (l : List α) : (byKey key l).Perm l := List.mergeSort_perm _ _

theorem mem_byKey {a : α} : a ∈ byKey key l ↔ a ∈ l := (perm_byKey l).mem_iff

theorem filter_byKey (l : List α) (v : β) : (byKey key l).filter (fun a => key a = v) = l.filter fun a => key a = v := by
  let c := l.filter fun a => key a = v
  have hkey : ∀ a ∈ c, key a = v := fun a ha => of_decide_eq_true (List.mem_filter.mp ha).2
  have hall : c.Pairwise fun a b => decide (key b ≤ key a) = true :=
    List.Pairwise.imp_of_mem (fun {a b} ha hb _ => decide_eq_true ((hkey b hb).trans (hkey a ha).symm).le)
      (List.pairwise_of_forall (fun _ _ => trivial) : c.Pairwise fun _ _ => True)
  have hsub : c.Sublist (byKey key l) := List.sublist_mergeSort order_trans order_total hall List.filter_sublist
  have hmine : c.filter (fun a => key a = v) = c := List.filter_eq_self.mpr fun a ha => decide_eq_true (hkey a ha)
  have hle := hsub.filter fun a => decide (key a = v)
  rw [hmine] at hle
  exact (hle.eq_of_length ((perm_byKey l).filter _).length_eq.symm).symm

/-- **A stable sort breaks ties by the order of arrival.** -/
theorem byKey_ahead (hl : l.Pairwise R) : (byKey key l).Pairwise (Ahead key R) := by
  rw [List.pairwise_iff_forall_sublist]
  intro a b hab
  have hsorted : (byKey key l).Pairwise fun a b => decide (key b ≤ key a) = true :=
    List.pairwise_mergeSort order_trans order_total l
  have hle : key b ≤ key a := of_decide_eq_true (List.pairwise_iff_forall_sublist.mp hsorted hab)
  rcases hle.lt_or_eq with hlt | heq
  · exact Or.inl hlt
  · -- the two are in the list of their key, which has the order of arrival
    have hboth := hab.filter fun x => decide (key x = key a)
    rw [filter_byKey, List.filter_cons_of_pos (by simp), List.filter_cons_of_pos (by simp [heq]), List.filter_nil] at hboth
    exact Or.inr ⟨heq.symm, List.pairwise_iff_forall_sublist.mp hl (hboth.trans List.filter_sublist)⟩

theorem take_byKey (hl : l.Pairwise R) (k : Nat) {a : α} (ha : a ∈ l) (hout : a ∉ (byKey key l).take k) :
    ((byKey key l).take k).length = k ∧ ∀ b ∈ (byKey key l).take k, Ahead key R b a := by
  have hsplit := List.take_append_drop k (byKey key l)
  have hmem : a ∈ (byKey key l).drop k := by
    have hin : a ∈ byKey key l := mem_byKey.mpr ha
    rw [← hsplit, List.mem_append] at hin
    exact hin.resolve_left hout
  have hord : (byKey key l).Pairwise (Ahead key R) := byKey_ahead hl
  rw [← hsplit, List.pairwise_append] at hord
  refine ⟨?_, fun b hb => hord.2.2 b hb a hmem⟩
  have hlong := List.length_pos_of_mem hmem
  rw [List.length_drop] at hlong
  rw [List.length_take]
  omega

end OptiTrade.StableSort
