import Mathlib.Data.List.Dedup
import Mathlib.Data.List.Sort

/-! # The best elements of a list

`inOrder before l` lists the distinct elements of `l` from the first to the last in a strict linear order.
Who has kept some of the elements, in order, and has dropped an element only when it came after `k` kept ones,
has kept the first `k`. -/

namespace OptiTrade.TopK
set_option autoImplicit false

variable {α : Type*} {before : α → α → Bool}

/-- `before` is a strict linear order. -/
structure Linear (before : α → α → Bool) : Prop where
  irrefl : ∀ a, before a a = false
  trans : ∀ {a b c}, before a b = true → before b c = true → before a c = true
  total : ∀ {a b}, before a b = false → a ≠ b → before b a = true

/-- Each element is before those that follow it. -/
def Ascending (before : α → α → Bool) (l : List α) : Prop := l.Pairwise fun a b => before a b = true

namespace Linear

theorem asymm (h : Linear before) {a b : α} (hab : before a b = true) : before b a = false := by
  by_contra hba
  have haa := h.trans hab (by simpa using hba)
  rw [h.irrefl] at haa
  cases haa

theorem nodup (h : Linear before) {l : List α} (hl : Ascending before l) : l.Nodup := by
  refine hl.imp fun {a b} hab he => ?_
  rw [he, h.irrefl] at hab
  cases hab

theorem eq_of_mem_iff (h : Linear before) {l m : List α} (hl : Ascending before l) (hm : Ascending before m)
    (hmem : ∀ a, a ∈ l ↔ a ∈ m) : l = m := by
  refine List.Perm.eq_of_pairwise (fun a b _ _ hab hba => ?_) hl hm ((List.perm_ext_iff_of_nodup (h.nodup hl) (h.nodup hm)).mpr hmem)
  rw [h.asymm hab] at hba
  cases hba

end Linear

variable [DecidableEq α]

/-- The distinct elements of a list, first to last. -/
def inOrder (before : α → α → Bool) (l : List α) : List α := l.dedup.mergeSort fun a b => !before b a

namespace Linear

theorem mem_inOrder {l : List α} {a : α} : a ∈ inOrder before l ↔ a ∈ l := by
  unfold inOrder
  rw [List.mem_mergeSort, List.mem_dedup]

theorem ascending_inOrder (h : Linear before) (l : List α) : Ascending before (inOrder before l) := by
  have hle : (inOrder before l).Pairwise fun a b => (!before b a) = true := by
    refine List.pairwise_mergeSort (fun a b c hab hbc => ?_) (fun a b => ?_) _
    · rw [Bool.not_eq_true'] at hab hbc ⊢
      by_contra hca
      have hca : before c a = true := by simpa using hca
      by_cases hne : b = c
      · rw [hne, hca] at hab
        cases hab
      · rw [h.trans (h.total hbc (Ne.symm hne)) hca] at hab
        cases hab
    · rw [Bool.or_eq_true, Bool.not_eq_true', Bool.not_eq_true']
      cases hba : before b a with
      | false => exact .inl rfl
      | true => exact .inr (h.asymm hba)
  have hnd : (inOrder before l).Nodup := (List.mergeSort_perm _ _).nodup_iff.mpr l.nodup_dedup
  refine (hle.and hnd).imp fun {a b} hab => ?_
  exact h.total (by simpa using hab.1) (Ne.symm hab.2)

/-- **The first `k`.** -/
theorem take_inOrder (h : Linear before) {l kept : List α} {k : Nat} (hk : Ascending before kept) (hsub : ∀ a ∈ kept, a ∈ l)
    (hlen : kept.length ≤ k)
    (hdropped : ∀ a ∈ l, a ∉ kept → kept.length = k ∧ ∀ b ∈ kept, before b a = true) :
    (inOrder before l).take k = kept := by
  have hsplit : inOrder before l = kept ++ inOrder before (l.filter (· ∉ kept)) := by
    refine h.eq_of_mem_iff (h.ascending_inOrder l) ?_ fun a => ?_
    · refine List.pairwise_append.mpr ⟨hk, h.ascending_inOrder _, fun b hb a ha => ?_⟩
      have ha := List.mem_filter.mp (mem_inOrder.mp ha)
      exact (hdropped a ha.1 (by simpa using ha.2)).2 b hb
    · rw [List.mem_append, mem_inOrder, mem_inOrder, List.mem_filter, decide_eq_true_eq]
      by_cases ha : a ∈ kept
      · exact ⟨fun _ => .inl ha, fun _ => hsub a ha⟩
      · exact ⟨fun hal => .inr ⟨hal, ha⟩, fun hor => (hor.resolve_left ha).1⟩
  rw [hsplit]
  cases hrest : inOrder before (l.filter (· ∉ kept)) with
  | nil => rw [List.append_nil, List.take_of_length_le hlen]
  | cons a as =>
    have ha : a ∈ l.filter (· ∉ kept) := mem_inOrder.mp (by rw [hrest]; exact List.mem_cons_self)
    have ha := List.mem_filter.mp ha
    rw [← (hdropped a ha.1 (by simpa using ha.2)).1, List.take_left]

end Linear

end OptiTrade.TopK
