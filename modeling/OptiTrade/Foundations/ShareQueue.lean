import Mathlib.Data.List.Basic
import Mathlib.Data.List.Induction
import Mathlib.Algebra.BigOperators.Group.List.Basic
import Mathlib.Algebra.GroupWithZero.Nat

/-! # Queues of shares

A price level as a queue of segments, each a number of shares that belongs to one of our orders or to others. What
matters of it to our orders is where each of them stands: its offset from the front, and its size. -/

namespace OptiTrade.ShareQueue
set_option autoImplicit false

variable {κ : Type}

/-- Shares of our order `owner`, or of others. -/
structure Segment (κ : Type) where
  owner : Option κ
  size : Nat

/-- Where an order of ours stands. -/
structure Mark (κ : Type) where
  key : κ
  offset : Nat
  size : Nat

def Mark.stop (m : Mark κ) : Nat := m.offset + m.size

def Mark.shift (n : Nat) (m : Mark κ) : Mark κ := { m with offset := n + m.offset }

/-- Our orders in the queue, its front being at offset `n`. -/
def marksFrom : Nat → List (Segment κ) → List (Mark κ)
  | _, [] => []
  | n, x :: q => (x.owner.map fun k => ⟨k, n, x.size⟩).toList ++ marksFrom (n + x.size) q

/-- The marks of a queue, from its front. -/
def marks (q : List (Segment κ)) : List (Mark κ) := marksFrom 0 q

theorem marksFrom_eq (n : Nat) (q : List (Segment κ)) : marksFrom n q = (marks q).map (Mark.shift n) := by
  unfold marks
  induction q generalizing n with
  | nil => rfl
  | cons x q ih =>
    rw [marksFrom, marksFrom, ih (n + x.size), ih (0 + x.size), List.map_append, List.map_map]
    congr 1
    · cases x.owner with
      | none => rfl
      | some k => rfl
    · refine List.map_congr_left fun m _ => ?_
      rw [Function.comp_apply]
      unfold Mark.shift
      simp only [Mark.mk.injEq, true_and, and_true]
      omega

theorem marks_cons (x : Segment κ) (q : List (Segment κ)) :
    marks (x :: q) = (x.owner.map fun k => ⟨k, 0, x.size⟩).toList ++ (marks q).map (Mark.shift x.size) := by
  show (x.owner.map fun k => ⟨k, 0, x.size⟩).toList ++ marksFrom (0 + x.size) q = _
  rw [Nat.zero_add, marksFrom_eq]

theorem marks_append (q r : List (Segment κ)) :
    marks (q ++ r) = marks q ++ (marks r).map (Mark.shift (q.map Segment.size).sum) := by
  induction q with
  | nil =>
    have hid : (Mark.shift 0 : Mark κ → Mark κ) = id := by
      funext m
      unfold Mark.shift
      rw [Nat.zero_add]
      rfl
    rw [List.nil_append, List.map_nil, List.sum_nil, hid, List.map_id]
    rfl
  | cons x q ih =>
    rw [List.cons_append, marks_cons, marks_cons, ih, List.map_append, List.map_map, List.append_assoc, List.map_cons, List.sum_cons]
    congr 2
    refine List.map_congr_left fun m _ => ?_
    rw [Function.comp_apply]
    unfold Mark.shift
    simp only [Mark.mk.injEq, true_and, and_true]
    omega

theorem marks_ordered (q : List (Segment κ)) : (marks q).Pairwise fun m m' => m.stop ≤ m'.offset := by
  induction q with
  | nil => exact .nil
  | cons x q ih =>
    rw [marks_cons]
    refine List.pairwise_append.mpr ⟨?_, ?_, fun m hm m' hm' => ?_⟩
    · cases x.owner with
      | none => exact .nil
      | some k => exact List.pairwise_singleton _ _
    · refine List.pairwise_map.mpr (ih.imp fun h => ?_)
      unfold Mark.stop Mark.shift at *
      dsimp only
      omega
    · obtain ⟨k, -, rfl⟩ := Option.map_eq_some_iff.mp (Option.mem_toList.mp hm)
      obtain ⟨y, -, rfl⟩ := List.mem_map.mp hm'
      show 0 + x.size ≤ x.size + y.offset
      omega

/-! ## Others join -/

theorem marks_append_others (q : List (Segment κ)) (n : Nat) : marks (q ++ [⟨none, n⟩]) = marks q := by
  rw [marks_append]
  exact List.append_nil _

/-! ## Executions -/

/-- `n` shares leave at the front; what of them was ours. -/
def consume : Nat → List (Segment κ) → List (Segment κ) × List (κ × Nat)
  | _, [] => ([], [])
  | n, x :: q =>
    if n = 0 then (x :: q, [])
    else if n < x.size then ({ x with size := x.size - n } :: q, (x.owner.map fun k => (k, n)).toList)
    else ((consume (n - x.size) q).1, (x.owner.map fun k => (k, x.size)).toList ++ (consume (n - x.size) q).2)

/-- What is left of an order when `n` shares leave at the front. -/
def Mark.hit (n : Nat) (m : Mark κ) : Option (Mark κ) :=
  if n ≤ m.offset then some { m with offset := m.offset - n }
  else if n - m.offset < m.size then some { m with offset := 0, size := m.size - (n - m.offset) }
  else none

/-- How many of them are the order's. -/
def Mark.filled (n : Nat) (m : Mark κ) : Option (κ × Nat) :=
  if n ≤ m.offset then none else some (m.key, min m.size (n - m.offset))

theorem hit_shift {n k : Nat} (h : k ≤ n) (m : Mark κ) : (m.shift k).hit n = m.hit (n - k) := by
  unfold Mark.hit Mark.shift
  dsimp only
  split_ifs <;> first | omega | (simp only [Option.some.injEq, Mark.mk.injEq, true_and, and_true]; omega) | rfl

theorem filled_shift {n k : Nat} (h : k ≤ n) (m : Mark κ) : (m.shift k).filled n = m.filled (n - k) := by
  unfold Mark.filled Mark.shift
  dsimp only
  have he : n - (k + m.offset) = n - k - m.offset := by omega
  rw [he]
  split_ifs <;> first | omega | rfl

theorem hit_far {n k : Nat} (h : n ≤ k) (m : Mark κ) : (m.shift k).hit n = some (m.shift (k - n)) ∧ (m.shift k).filled n = none := by
  unfold Mark.hit Mark.filled Mark.shift
  dsimp only
  rw [if_pos (by omega), if_pos (by omega)]
  simp only [Option.some.injEq, Mark.mk.injEq, true_and, and_true]
  omega

theorem filterMap_hit_far {n k : Nat} (h : n ≤ k) (ms : List (Mark κ)) :
    (ms.map (Mark.shift k)).filterMap (Mark.hit n) = ms.map (Mark.shift (k - n)) ∧
      (ms.map (Mark.shift k)).filterMap (Mark.filled n) = [] := by
  rw [List.filterMap_map, List.filterMap_map]
  refine ⟨?_, List.filterMap_eq_nil_iff.mpr fun m _ => (hit_far h m).2⟩
  rw [← List.filterMap_eq_map]
  exact List.filterMap_congr fun m _ => (hit_far h m).1

/-- **Front to back is the same as each against all of it.** -/
theorem marks_consume (n : Nat) (q : List (Segment κ)) :
    marks (consume n q).1 = (marks q).filterMap (Mark.hit n) ∧ (consume n q).2 = (marks q).filterMap (Mark.filled n) := by
  induction q generalizing n with
  | nil => exact ⟨rfl, rfl⟩
  | cons x q ih =>
    rw [consume, marks_cons, List.filterMap_append, List.filterMap_append]
    split_ifs with hz hlt
    · subst hz
      obtain ⟨h₁, h₂⟩ := filterMap_hit_far (Nat.zero_le x.size) (marks q)
      rw [h₁, h₂, Nat.sub_zero, marks_cons]
      cases x.owner with
      | none => exact ⟨rfl, rfl⟩
      | some k => exact ⟨rfl, rfl⟩
    · obtain ⟨h₁, h₂⟩ := filterMap_hit_far (Nat.le_of_lt hlt) (marks q)
      rw [h₁, h₂, marks_cons]
      cases x.owner with
      | none => exact ⟨rfl, rfl⟩
      | some k =>
        have hhit : (⟨k, 0, x.size⟩ : Mark κ).hit n = some ⟨k, 0, x.size - n⟩ := by
          unfold Mark.hit
          rw [if_neg (by simpa using hz), if_pos (by simpa using hlt)]
          rfl
        have hfilled : (⟨k, 0, x.size⟩ : Mark κ).filled n = some (k, n) := by
          unfold Mark.filled
          rw [if_neg (by simpa using hz), Nat.sub_zero, Nat.min_eq_right (Nat.le_of_lt hlt)]
        constructor
        · simp [hhit]
        · simp [hfilled]
    · obtain ⟨h₁, h₂⟩ := ih (n - x.size)
      have hle : x.size ≤ n := by omega
      have hhits : ((marks q).map (Mark.shift x.size)).filterMap (Mark.hit n) = (marks q).filterMap (Mark.hit (n - x.size)) := by
        rw [List.filterMap_map]
        exact List.filterMap_congr fun m _ => hit_shift hle m
      have hfills : ((marks q).map (Mark.shift x.size)).filterMap (Mark.filled n) = (marks q).filterMap (Mark.filled (n - x.size)) := by
        rw [List.filterMap_map]
        exact List.filterMap_congr fun m _ => filled_shift hle m
      rw [hhits, hfills, h₁, h₂]
      cases x.owner with
      | none => exact ⟨rfl, rfl⟩
      | some k =>
        have hhit : (⟨k, 0, x.size⟩ : Mark κ).hit n = none := by
          unfold Mark.hit
          rw [if_neg (by simpa using hz), if_neg (by simpa using hle)]
        have hfilled : (⟨k, 0, x.size⟩ : Mark κ).filled n = some (k, x.size) := by
          unfold Mark.filled
          rw [if_neg (by simpa using hz), Nat.sub_zero, Nat.min_eq_left hle]
        constructor
        · simp [hhit]
        · simp [hfilled]

/-- No more is filled than leaves. -/
theorem sum_consume (n : Nat) (q : List (Segment κ)) : ((consume n q).2.map Prod.snd).sum ≤ n := by
  induction q generalizing n with
  | nil => exact Nat.zero_le _
  | cons x q ih =>
    rw [consume]
    split_ifs with hz hlt
    · exact Nat.zero_le _
    · cases x.owner with
      | none => exact Nat.zero_le _
      | some k => simp
    · have := ih (n - x.size)
      cases x.owner with
      | none =>
        simp only [Option.map_none, Option.toList_none, List.nil_append]
        omega
      | some k =>
        simp only [Option.map_some, Option.toList_some, List.singleton_append, List.map_cons, List.sum_cons]
        omega

/-! ## An order of ours joins -/

/-- The segment at offset `n`; a place beyond the end is reached over shares of others. -/
def insertAt : Nat → Segment κ → List (Segment κ) → List (Segment κ)
  | n, x, [] => if n = 0 then [x] else [⟨none, n⟩, x]
  | n, x, y :: q =>
    if y.size ≤ n then y :: insertAt (n - y.size) x q
    else if n = 0 then x :: y :: q
    else { y with size := n } :: x :: { y with size := y.size - n } :: q

/-- Our shares in the queue. -/
def ownOpen (q : List (Segment κ)) : Nat := ((marks q).map Mark.size).sum

/-- The end of our last segment. -/
def ownEnd (q : List (Segment κ)) : Nat := ((marks q).getLast?.map Mark.stop).getD 0

theorem stop_le_ownEnd {q : List (Segment κ)} : ∀ m ∈ marks q, m.stop ≤ ownEnd q := by
  intro m hm
  have hord := marks_ordered q
  unfold ownEnd
  cases hl : (marks q).getLast? with
  | none =>
    rw [List.getLast?_eq_none_iff.mp hl] at hm
    cases hm
  | some l =>
    obtain ⟨ms, hms⟩ := List.getLast?_eq_some_iff.mp hl
    rw [hms] at hm hord
    rcases List.mem_append.mp hm with hm | hm
    · have := (List.pairwise_append.mp hord).2.2 m hm l (List.mem_singleton.mpr rfl)
      exact Nat.le_trans this (Nat.le_add_right _ _)
    · rw [List.mem_singleton.mp hm]
      exact Nat.le_refl _

theorem foldl_max_stop (q : List (Segment κ)) : ((marks q).map Mark.stop).foldl max 0 = ownEnd q := by
  have hlast : ∀ ms : List (Mark κ), ms.Pairwise (fun m m' => m.stop ≤ m'.offset) →
      (ms.map Mark.stop).foldl max 0 = (ms.getLast?.map Mark.stop).getD 0 := by
    intro ms
    induction ms using List.reverseRecOn with
    | nil => exact fun _ => rfl
    | append_singleton ms m ih =>
      intro hord
      obtain ⟨hms, -, hbefore⟩ := List.pairwise_append.mp hord
      rw [List.map_append, List.foldl_append, ih hms, List.getLast?_concat]
      show max _ m.stop = m.stop
      refine Nat.max_eq_right ?_
      cases hl : ms.getLast? with
      | none => exact Nat.zero_le _
      | some l => exact Nat.le_trans (hbefore l (List.mem_of_getLast? hl) m List.mem_cons_self) (Nat.le_add_right _ _)
  exact hlast _ (marks_ordered q)

/-- **Behind all of ours**, and exactly there. -/
theorem marks_insertAt {n : Nat} {k : κ} {size : Nat} {q : List (Segment κ)} (h : ∀ m ∈ marks q, m.stop ≤ n) :
    marks (insertAt n ⟨some k, size⟩ q) = marks q ++ [⟨k, n, size⟩] := by
  induction q generalizing n with
  | nil =>
    rw [insertAt]
    split_ifs with hz
    · subst hz
      rfl
    · rw [marks_cons, marks_cons]
      rfl
  | cons y q ih =>
    have hown : ∀ k', y.owner = some k' → y.size ≤ n := by
      intro k' hk'
      have := h ⟨k', 0, y.size⟩ (by rw [marks_cons, hk']; exact List.mem_cons_self)
      unfold Mark.stop at this
      dsimp only at this
      omega
    have htail : ∀ m ∈ marks q, y.size + m.stop ≤ n := by
      intro m hm
      have := h (m.shift y.size) (by rw [marks_cons]; exact List.mem_append_right _ (List.mem_map_of_mem hm))
      unfold Mark.stop Mark.shift at *
      dsimp only at this
      omega
    rw [insertAt]
    split_ifs with hle hz
    · rw [marks_cons, marks_cons, ih fun m hm => (by have := htail m hm; omega), List.map_append, List.append_assoc]
      congr 2
      unfold Mark.shift
      simp only [List.map_cons, List.map_nil, List.cons.injEq, Mark.mk.injEq, true_and, and_true]
      omega
    · have hnone : y.owner = none := by
        cases hy : y.owner with
        | none => rfl
        | some k' => exact absurd (hown k' hy) hle
      have hempty : marks q = [] := List.eq_nil_iff_forall_not_mem.mpr fun m hm => hle (Nat.le_trans (Nat.le_add_right _ _) (htail m hm))
      subst hz
      rw [marks_cons, marks_cons, hnone, hempty]
      rfl
    · have hnone : y.owner = none := by
        cases hy : y.owner with
        | none => rfl
        | some k' => exact absurd (hown k' hy) hle
      have hempty : marks q = [] := List.eq_nil_iff_forall_not_mem.mpr fun m hm => hle (Nat.le_trans (Nat.le_add_right _ _) (htail m hm))
      rw [marks_cons, marks_cons, marks_cons, marks_cons, hnone, hempty]
      rfl

/-! ## All of ours leave -/

/-- What others have in the queue. -/
def others (q : List (Segment κ)) : List (Segment κ) := q.filter fun x => x.owner.isNone

theorem marks_others (q : List (Segment κ)) : marks (others q) = [] := by
  unfold others
  induction q with
  | nil => rfl
  | cons x q ih =>
    cases hx : x.owner with
    | none =>
      rw [List.filter_cons_of_pos (by rw [hx]; rfl), marks_cons, ih, hx]
      rfl
    | some k =>
      rw [List.filter_cons_of_neg (by rw [hx]; simp)]
      exact ih

/-! ## Shares of an order leave -/

variable [DecidableEq κ]

/-- `n` shares of our order `k` leave. -/
def cut (k : κ) (n : Nat) : List (Segment κ) → List (Segment κ)
  | [] => []
  | x :: q =>
    if x.owner = some k then if x.size ≤ n then q else { x with size := x.size - n } :: q
    else x :: cut k n q

/-- Of an order and of those behind it. -/
def cutMarks (k : κ) (n : Nat) : List (Mark κ) → List (Mark κ)
  | [] => []
  | m :: ms =>
    if m.key = k then (if m.size ≤ n then [] else [{ m with size := m.size - n }]) ++ ms.map fun f => { f with offset := f.offset - n }
    else m :: cutMarks k n ms

theorem cutMarks_shift {k : κ} {n : Nat} (j : Nat) (ms : List (Mark κ)) (h : ∀ m ∈ ms, m.key = k → n ≤ m.size)
    (hord : ms.Pairwise fun m m' => m.stop ≤ m'.offset) :
    cutMarks k n (ms.map (Mark.shift j)) = (cutMarks k n ms).map (Mark.shift j) := by
  induction ms with
  | nil => rfl
  | cons m ms ih =>
    rw [List.map_cons, cutMarks, cutMarks]
    have hkey : (m.shift j).key = m.key := rfl
    have hsize : (m.shift j).size = m.size := rfl
    rw [hkey, hsize]
    split_ifs with hk hle
    · rw [List.nil_append, List.nil_append, List.map_map, List.map_map]
      refine List.map_congr_left fun f hf => ?_
      have h₁ := h m List.mem_cons_self hk
      have h₂ := (List.pairwise_cons.mp hord).1 f hf
      unfold Mark.stop at h₂
      unfold Mark.shift
      simp only [Function.comp_apply, Mark.mk.injEq, true_and, and_true]
      omega
    · rw [List.map_append, List.map_map, List.map_map]
      congr 1
      refine List.map_congr_left fun f hf => ?_
      have h₁ := h m List.mem_cons_self hk
      have h₂ := (List.pairwise_cons.mp hord).1 f hf
      unfold Mark.stop at h₂
      unfold Mark.shift
      simp only [Function.comp_apply, Mark.mk.injEq, true_and, and_true]
      omega
    · rw [List.map_cons, ih (fun x hx => h x (List.mem_cons_of_mem _ hx)) (List.pairwise_cons.mp hord).2]

theorem cutMarks_append {k : κ} {n : Nat} {ms : List (Mark κ)} (h : ∀ m ∈ ms, m.key ≠ k) (ms' : List (Mark κ)) :
    cutMarks k n (ms ++ ms') = ms ++ cutMarks k n ms' := by
  induction ms with
  | nil => rfl
  | cons m ms ih =>
    rw [List.cons_append, cutMarks, if_neg (h m List.mem_cons_self), ih fun x hx => h x (List.mem_cons_of_mem _ hx), List.cons_append]

theorem marks_cut {k : κ} {n : Nat} {q : List (Segment κ)} (h : ∀ m ∈ marks q, m.key = k → n ≤ m.size) :
    marks (cut k n q) = cutMarks k n (marks q) := by
  induction q with
  | nil => rfl
  | cons x q ih =>
    have htail : ∀ m ∈ marks q, m.key = k → n ≤ m.size := by
      intro m hm hk
      exact h (m.shift x.size) (by rw [marks_cons]; exact List.mem_append_right _ (List.mem_map_of_mem hm)) hk
    have hshift := cutMarks_shift x.size (marks q) htail (marks_ordered q)
    rw [cut, marks_cons]
    split_ifs with hx hle
    · have hn : n = x.size := by
        have := h ⟨k, 0, x.size⟩ (by rw [marks_cons, hx]; exact List.mem_cons_self) rfl
        dsimp only at this
        omega
      rw [hx, Option.map_some, Option.toList_some, List.singleton_append, cutMarks, if_pos rfl, if_pos hle, List.nil_append,
        List.map_map]
      refine (List.map_id _).symm.trans (List.map_congr_left fun f _ => ?_)
      unfold Mark.shift
      rw [Function.comp_apply]
      dsimp only [id]
      rw [hn, Nat.add_sub_cancel_left]
    · rw [hx, Option.map_some, Option.toList_some, List.singleton_append, cutMarks, if_pos rfl, if_neg hle, marks_cons, List.map_map]
      show _ :: _ = _ :: _
      congr 1
      refine List.map_congr_left fun f _ => ?_
      unfold Mark.shift
      simp only [Function.comp_apply, Mark.mk.injEq, true_and, and_true]
      omega
    · rw [marks_cons, ih htail, ← hshift]
      cases hy : x.owner with
      | none => rfl
      | some k' =>
        have hne : k' ≠ k := fun e => hx (by rw [hy, e])
        rw [Option.map_some, Option.toList_some, List.singleton_append, List.singleton_append, cutMarks, if_neg hne]

end OptiTrade.ShareQueue
