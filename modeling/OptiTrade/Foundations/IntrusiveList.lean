import Mathlib.Data.List.Basic
import Mathlib.Data.List.Nodup
import Mathlib.Logic.Function.Basic

/-! # Intrusive doubly linked lists

Nodes are numbered; `Links` holds the previous and the next node of each of them and `Ends` the two
ends of one list. `Linked L E xs` says that the nodes `xs`, in this order, are the list with ends
`E`. Several lists may share one `Links`: an operation on one of them leaves every list that has
none of its nodes alone. -/

namespace OptiTrade
set_option autoImplicit false

/-- The links of the nodes. -/
structure Links where
  prev : Nat → Option Nat
  next : Nat → Option Nat

/-- The ends of one list. -/
structure Ends where
  head : Option Nat
  tail : Option Nat

namespace Links

def none : Links := ⟨fun _ => Option.none, fun _ => Option.none⟩

/-- Appends node `x` to the list with ends `E`. -/
def pushBack (L : Links) (E : Ends) (x : Nat) : Links × Ends :=
  ({ prev := Function.update L.prev x E.tail
     next := match E.tail with
       | some t => Function.update (Function.update L.next x Option.none) t (some x)
       | Option.none => Function.update L.next x Option.none },
   { head := match E.tail with
       | some _ => E.head
       | Option.none => some x
     tail := some x })

/-- Takes node `x` out of the list with ends `E`. -/
def unlink (L : Links) (E : Ends) (x : Nat) : Links × Ends :=
  ({ prev := Function.update (match L.next x with
       | some n => Function.update L.prev n (L.prev x)
       | Option.none => L.prev) x Option.none
     next := Function.update (match L.prev x with
       | some p => Function.update L.next p (L.next x)
       | Option.none => L.next) x Option.none },
   { head := match L.prev x with
       | some _ => E.head
       | Option.none => L.next x
     tail := match L.next x with
       | some _ => E.tail
       | Option.none => L.prev x })

end Links

/-- Visits a list node by node, at most `n` of them. `next` is read before `body` runs, so `body` may take
the node it is at out of the list. -/
def walk {σ : Type} (next : σ → Nat → Option Nat) (body : σ → Nat → σ) : Nat → Option Nat → σ → σ
  | 0, _, s => s
  | _ + 1, none, s => s
  | n + 1, some h, s => walk next body n (next s h) (body s h)

/-- A walk over the nodes `xs`. `P` is about the nodes still to be visited: the body may take out the node it
is at, as long as the rest stays a list. -/
theorem walk_list {σ : Type} {next : σ → Nat → Option Nat} {body : σ → Nat → σ} {P : List Nat → σ → Prop}
    (hnext : ∀ x xs s, P (x :: xs) s → next s x = xs.head?) (hbody : ∀ x xs s, P (x :: xs) s → P xs (body s x)) :
    ∀ (n : Nat) (xs : List Nat) (s : σ), xs.length ≤ n → P xs s → P [] (walk next body n xs.head? s)
  | 0, [], _, _, hs => hs
  | _ + 1, [], _, _, hs => hs
  | n + 1, x :: xs, s, hn, hs => by
    rw [List.head?_cons, walk, hnext x xs s hs]
    exact walk_list hnext hbody n xs (body s x) (Nat.le_of_succ_le_succ hn) (hbody x xs s hs)

/-- The nodes `xs`, first to last, form the list with ends `E`. -/
structure Linked (L : Links) (E : Ends) (xs : List Nat) : Prop where
  nodup : xs.Nodup
  head : E.head = xs.head?
  tail : E.tail = xs.getLast?
  next : ∀ as x bs, xs = as ++ x :: bs → L.next x = bs.head?
  prev : ∀ as x bs, xs = as ++ x :: bs → L.prev x = as.getLast?

namespace Linked
variable {L : Links} {E : Ends} {xs : List Nat}

theorem empty (L : Links) : Linked L ⟨none, none⟩ [] where
  nodup := List.nodup_nil
  head := rfl
  tail := rfl
  next := fun as x bs h => by simp at h
  prev := fun as x bs h => by simp at h

theorem congr {L' : Links} (h : Linked L E xs) (hn : ∀ x ∈ xs, L'.next x = L.next x)
    (hp : ∀ x ∈ xs, L'.prev x = L.prev x) : Linked L' E xs where
  nodup := h.nodup
  head := h.head
  tail := h.tail
  next := fun as x bs hx => by
    rw [hn x (by simp [hx])]
    exact h.next as x bs hx
  prev := fun as x bs hx => by
    rw [hp x (by simp [hx])]
    exact h.prev as x bs hx

theorem tail_mem {t : Nat} (h : Linked L E xs) (ht : E.tail = some t) : t ∈ xs := by
  rw [h.tail] at ht
  exact List.mem_of_getLast? ht

theorem head_mem {t : Nat} (h : Linked L E xs) (ht : E.head = some t) : t ∈ xs := by
  rw [h.head] at ht
  exact List.mem_of_head? ht

theorem next_mem {x n : Nat} (h : Linked L E xs) (hx : x ∈ xs) (hn : L.next x = some n) : n ∈ xs := by
  obtain ⟨as, bs, rfl⟩ := List.append_of_mem hx
  rw [h.next as x bs rfl] at hn
  have := List.mem_of_head? hn
  simp [this]

theorem prev_mem {x p : Nat} (h : Linked L E xs) (hx : x ∈ xs) (hp : L.prev x = some p) : p ∈ xs := by
  obtain ⟨as, bs, rfl⟩ := List.append_of_mem hx
  rw [h.prev as x bs rfl] at hp
  have := List.mem_of_getLast? hp
  simp [this]

theorem walk_eq_foldl {σ : Type} {body : σ → Nat → σ} {n : Nat} (h : Linked L E xs) (hn : xs.length ≤ n) (s : σ) :
    walk (fun _ j => L.next j) body n E.head s = xs.foldl body s := by
  let P : List Nat → σ → Prop := fun ys t => (∃ done, done ++ ys = xs) ∧ ys.foldl body t = xs.foldl body s
  have hend : P [] (walk (fun _ j => L.next j) body n xs.head? s) := by
    refine walk_list (P := P) ?_ ?_ n xs s hn ⟨⟨[], rfl⟩, rfl⟩
    · rintro x ys t ⟨⟨done, hsplit⟩, -⟩
      exact h.next done x ys hsplit.symm
    · rintro x ys t ⟨⟨done, hsplit⟩, heq⟩
      exact ⟨⟨done ++ [x], by rw [List.append_assoc]; exact hsplit⟩, heq⟩
  rw [h.head]
  exact hend.2

/-! ## Appending -/

theorem pushBack_next_of_ne {x y : Nat} (h : Linked L E xs) (hy : y ∉ xs) (hne : y ≠ x) :
    (L.pushBack E x).1.next y = L.next y := by
  unfold Links.pushBack
  cases ht : E.tail with
  | none => simp [hne]
  | some t =>
    have hyt : y ≠ t := fun e => hy (e ▸ h.tail_mem ht)
    simp [hne, hyt]

theorem pushBack_prev_of_ne {x y : Nat} (hne : y ≠ x) : (L.pushBack E x).1.prev y = L.prev y := by
  simp [Links.pushBack, hne]

theorem pushBack {x : Nat} (h : Linked L E xs) (hx : x ∉ xs) :
    Linked (L.pushBack E x).1 (L.pushBack E x).2 (xs ++ [x]) := by
  -- the empty list and a list with a last node are built by different branches
  rcases List.eq_nil_or_concat xs with rfl | ⟨ys, t, rfl⟩
  · have ht : E.tail = none := h.tail
    refine ⟨by simp, by simp [Links.pushBack, ht], by simp [Links.pushBack], ?_, ?_⟩
    · intro as y bs hs
      obtain ⟨rfl, rfl, rfl⟩ : as = [] ∧ y = x ∧ bs = [] := by
        cases as with
        | nil => simpa [eq_comm] using hs
        | cons a as => simp at hs
      simp [Links.pushBack, ht]
    · intro as y bs hs
      obtain ⟨rfl, rfl, rfl⟩ : as = [] ∧ y = x ∧ bs = [] := by
        cases as with
        | nil => simpa [eq_comm] using hs
        | cons a as => simp at hs
      simp [Links.pushBack, ht]
  · rw [List.concat_eq_append] at h hx ⊢
    have ht : E.tail = some t := by rw [h.tail]; simp
    have hxt : x ≠ t := fun e => hx (by simp [e])
    have hnd := h.nodup
    refine ⟨?_, ?_, by simp [Links.pushBack], ?_, ?_⟩
    · rw [List.nodup_append]
      refine ⟨h.nodup, by simp, ?_⟩
      intro a ha b hb
      rw [List.mem_singleton] at hb
      exact fun e => hx (hb ▸ e ▸ ha)
    · simp only [Links.pushBack, ht, h.head]
      cases ys <;> simp
    · intro as y bs hs
      rcases List.eq_nil_or_concat bs with rfl | ⟨cs, b, rfl⟩
      · obtain ⟨_, rfl⟩ : ys ++ [t] = as ∧ x = y := by
          have := List.append_inj' hs rfl
          simpa using this
        simp [Links.pushBack, ht, hxt]
      · rw [List.concat_eq_append, ← List.cons_append, ← List.append_assoc] at hs
        obtain ⟨hs', hb⟩ := List.append_inj' hs rfl
        simp only [List.cons.injEq, and_true] at hb
        subst hb
        have hyx : y ≠ x := fun e => hx (by rw [hs', e]; simp)
        have hold := h.next as y cs hs'
        by_cases hyt : y = t
        · subst hyt
          have hcs : cs = [] := by
            by_contra hne
            obtain ⟨ds, d, rfl⟩ := List.eq_nil_or_concat cs |>.resolve_left hne
            rw [List.concat_eq_append, ← List.cons_append, ← List.append_assoc] at hs'
            obtain ⟨hys, hd⟩ := List.append_inj' hs' rfl
            rw [hys, List.nodup_append] at hnd
            exact hnd.2.2 y (by simp) y (by simp) rfl
          subst hcs
          simp [Links.pushBack, ht]
        · have : cs ≠ [] := by
            intro e
            subst e
            have := List.append_inj' hs' rfl
            simp only [List.cons.injEq, and_true] at this
            exact hyt this.2.symm
          rw [List.concat_eq_append, List.head?_append_of_ne_nil _ this, ← hold]
          simp [Links.pushBack, ht, hyx, hyt]
    · intro as y bs hs
      rcases List.eq_nil_or_concat bs with rfl | ⟨cs, b, rfl⟩
      · obtain ⟨rfl, rfl⟩ : ys ++ [t] = as ∧ x = y := by
          have := List.append_inj' hs rfl
          simpa using this
        simp [Links.pushBack, ht]
      · rw [List.concat_eq_append, ← List.cons_append, ← List.append_assoc] at hs
        obtain ⟨hs', _⟩ := List.append_inj' hs rfl
        have hyx : y ≠ x := fun e => hx (by rw [hs', e]; simp)
        rw [pushBack_prev_of_ne hyx]
        exact h.prev as y cs hs'

/-! ## Removing -/

theorem unlink_next_of_ne {x y : Nat} (h : Linked L E xs) (hx : x ∈ xs) (hy : y ∉ xs) :
    (L.unlink E x).1.next y = L.next y := by
  have hyx : y ≠ x := fun e => hy (e ▸ hx)
  unfold Links.unlink
  cases hp : L.prev x with
  | none => simp [hyx]
  | some p =>
    have hyp : y ≠ p := fun e => hy (e ▸ h.prev_mem hx hp)
    simp [hyx, hyp]

theorem unlink_prev_of_ne {x y : Nat} (h : Linked L E xs) (hx : x ∈ xs) (hy : y ∉ xs) :
    (L.unlink E x).1.prev y = L.prev y := by
  have hyx : y ≠ x := fun e => hy (e ▸ hx)
  unfold Links.unlink
  cases hn : L.next x with
  | none => simp [hyx]
  | some n =>
    have hyn : y ≠ n := fun e => hy (e ▸ h.next_mem hx hn)
    simp [hyx, hyn]

theorem unlink_split {as bs : List Nat} {x : Nat} (h : Linked L E (as ++ x :: bs)) :
    Linked (L.unlink E x).1 (L.unlink E x).2 (as ++ bs) := by
  have hnx := h.next as x bs rfl
  have hpx := h.prev as x bs rfl
  have hnd := h.nodup
  rw [List.nodup_append] at hnd
  obtain ⟨hnda, hndb, hdis⟩ := hnd
  have hxa : x ∉ as := fun hm => hdis x hm x (by simp) rfl
  have hxb : x ∉ bs := (List.nodup_cons.mp hndb).1
  have hab : ∀ a ∈ as, ∀ b ∈ bs, a ≠ b := fun a ha b hb => hdis a ha b (by simp [hb])
  refine ⟨?_, ?_, ?_, ?_, ?_⟩
  · rw [List.nodup_append]
    exact ⟨hnda, (List.nodup_cons.mp hndb).2, hab⟩
  · simp only [Links.unlink, hpx, hnx, h.head]
    cases as with
    | nil => simp
    | cons a as => cases hl : (a :: as).getLast? <;> simp_all
  · simp only [Links.unlink, hpx, hnx, h.tail]
    cases bs with
    | nil => simp
    | cons b bs => simp [List.getLast?_append, List.getLast?_cons]
  · intro cs y ds hs
    -- `y` lies before the removed node or behind it
    rcases List.append_eq_append_iff.mp hs with ⟨es, rfl, hb⟩ | ⟨es, ha, hy⟩
    · have hyx : y ≠ x := fun e => hxb (by rw [hb]; simp [e])
      have hold := h.next (as ++ x :: es) y ds (by simp [hb])
      have hyp : ∀ p, as.getLast? = some p → y ≠ p := by
        intro p hp e
        exact hab p (List.mem_of_getLast? hp) y (by rw [hb]; simp) e.symm
      rw [← hold]
      cases hl : as.getLast? with
      | none => simp [Links.unlink, hpx, hl, hyx]
      | some p => simp [Links.unlink, hpx, hl, hyx, hyp p hl]
    · cases es with
      | nil =>
        simp only [List.nil_append, List.append_nil] at ha hy
        subst ha
        have hyx : y ≠ x := fun e => hxb (by rw [← hy]; simp [e])
        have hold := h.next (as ++ [x]) y ds (by simp [← hy])
        have hyp : ∀ p, as.getLast? = some p → y ≠ p := by
          intro p hp e
          exact hab p (List.mem_of_getLast? hp) y (by rw [← hy]; simp) e.symm
        rw [← hold]
        cases hl : as.getLast? with
        | none => simp [Links.unlink, hpx, hl, hyx]
        | some p => simp [Links.unlink, hpx, hl, hyx, hyp p hl]
      | cons e es =>
        simp only [List.cons_append, List.cons.injEq] at hy
        obtain ⟨rfl, rfl⟩ := hy
        have hyx : y ≠ x := fun e => hxa (by rw [ha]; simp [e])
        have hold := h.next cs y (es ++ x :: bs) (by simp [ha])
        rcases List.eq_nil_or_concat es with rfl | ⟨fs, f, rfl⟩
        · have hl : as.getLast? = some y := by rw [ha]; simp
          simp [Links.unlink, hpx, hl, hyx, hnx]
        · have hl : as.getLast? = some f := by
            rw [ha, List.concat_eq_append, ← List.cons_append, ← List.append_assoc]
            exact List.getLast?_concat
          have hyf : y ≠ f := by
            intro e
            rw [ha, List.nodup_append] at hnda
            have := (List.nodup_cons.mp hnda.2.1).1
            exact this (by simp [e])
          have hne : fs.concat f ≠ [] := by simp
          rw [List.head?_append_of_ne_nil _ hne] at hold ⊢
          simp only [Links.unlink, hpx, hl]
          rw [Function.update_of_ne hyx, Function.update_of_ne hyf, hold]
  · intro cs y ds hs
    rcases List.append_eq_append_iff.mp hs with ⟨es, rfl, hb⟩ | ⟨es, ha, hy⟩
    · have hyx : y ≠ x := fun e => hxb (by rw [hb]; simp [e])
      have hold := h.prev (as ++ x :: es) y ds (by simp [hb])
      cases es with
      | nil =>
        have hl : bs.head? = some y := by rw [hb]; simp
        simp [Links.unlink, hnx, hl, hyx, hpx]
      | cons f fs =>
        have hl : bs.head? = some f := by rw [hb]; simp
        have hyf : y ≠ f := by
          intro e
          have hnb := (List.nodup_cons.mp hndb).2
          rw [hb, List.cons_append, List.nodup_cons] at hnb
          exact hnb.1 (by simp [e])
        simp only [Links.unlink, hnx, hl]
        rw [Function.update_of_ne hyx, Function.update_of_ne hyf, hold]
        simp [List.getLast?_append, List.getLast?_cons]
    · cases es with
      | nil =>
        simp only [List.nil_append, List.append_nil] at ha hy
        subst ha
        have hyx : y ≠ x := fun e => hxb (by rw [← hy]; simp [e])
        have hl : bs.head? = some y := by rw [← hy]; simp
        simp [Links.unlink, hnx, hl, hyx, hpx]
      | cons e es =>
        simp only [List.cons_append, List.cons.injEq] at hy
        obtain ⟨rfl, rfl⟩ := hy
        have hyx : y ≠ x := fun e => hxa (by rw [ha]; simp [e])
        have hold := h.prev cs y (es ++ x :: bs) (by simp [ha])
        have hyn : ∀ n, bs.head? = some n → y ≠ n := by
          intro n hn e
          exact hab y (by rw [ha]; simp) n (List.mem_of_head? hn) e
        rw [← hold]
        cases hl : bs.head? with
        | none => simp [Links.unlink, hnx, hl, hyx]
        | some n => simp [Links.unlink, hnx, hl, hyx, hyn n hl]

theorem unlink {x : Nat} (h : Linked L E xs) (hx : x ∈ xs) :
    Linked (L.unlink E x).1 (L.unlink E x).2 (xs.erase x) := by
  obtain ⟨as, bs, rfl⟩ := List.append_of_mem hx
  have hxa : x ∉ as := by
    have hnd := h.nodup
    rw [List.nodup_append] at hnd
    exact fun hm => hnd.2.2 x hm x (by simp) rfl
  rw [List.erase_append_right _ hxa, List.erase_cons_head]
  exact h.unlink_split

end Linked
end OptiTrade
