import OptiTrade.Sim.Floor

/-! # Order storage

`Stored v hs hand` says that the storage is sound: the handles `hs` are the resting orders, in the order in
which they came to rest, each linked in the list of its locate and side; those of `hand` are allocated and
not linked, as an order is while it is worked. Every operation of the storage is shown to keep this and what
it does to the orders. -/

namespace OptiTrade.Sim
set_option autoImplicit false

open Ouch (Token)

namespace Venue
variable {v w : Venue} {hs hand : List Nat}

/-- The venue holds the orders `hs` in its lists, and those in `hand` outside of them. -/
structure Stored (v : Venue) (hs hand : List Nat) : Prop where
  pool : ∃ fl, v.orders.Inv fl
  live : ∀ h, v.orders.live h = true ↔ h ∈ hs ∨ h ∈ hand
  nodup : (hs ++ hand).Nodup
  linked : ∀ s, Linked v.links (v.ends s) (hs.filter fun h => (v.order h).slot = s)
  resting : ∀ h ∈ hs, (v.order h).resting = true
  idle : ∀ h ∈ hand, (v.order h).resting = false
  token : ∀ t h, v.byToken.find t = some h ↔ (h ∈ hs ∨ h ∈ hand) ∧ (v.order h).token = t
  limit : v.byToken.limit = v.orders.capacity
  size : v.byToken.size = v.orders.size

theorem Stored.new (maxOrders : Nat) (books : Book.MarketBooks.Config) : Stored (.new maxOrders books) [] [] where
  pool := ⟨_, SlabPool.Inv.new maxOrders⟩
  live h := by simp [Venue.new, SlabPool.new, SlabPool.live]
  nodup := List.nodup_nil
  linked _ := Linked.empty _
  resting _ h := by cases h
  idle _ h := by cases h
  token t h := by simp [Venue.new]
  limit := rfl
  size := rfl

/-- A change of values only: what the storage is about stays. -/
structure Keeps (v w : Venue) : Prop where
  links : w.links = v.links
  ends : w.ends = v.ends
  byToken : w.byToken = v.byToken
  pool : w.orders = { v.orders with values := w.orders.values }
  token : ∀ h, (w.order h).token = (v.order h).token
  slot : ∀ h, (w.order h).slot = (v.order h).slot
  resting : ∀ h, (w.order h).resting = (v.order h).resting

theorem Keeps.refl (v : Venue) : Keeps v v := ⟨rfl, rfl, rfl, rfl, fun _ => rfl, fun _ => rfl, fun _ => rfl⟩

theorem Keeps.trans {u : Venue} (h : Keeps v w) (h' : Keeps w u) : Keeps v u where
  links := h'.links.trans h.links
  ends := h'.ends.trans h.ends
  byToken := h'.byToken.trans h.byToken
  pool := by rw [h'.pool, h.pool]
  token x := (h'.token x).trans (h.token x)
  slot x := (h'.slot x).trans (h.slot x)
  resting x := (h'.resting x).trans (h.resting x)

theorem Keeps.stored (h : Keeps v w) (hv : Stored v hs hand) : Stored w hs hand := by
  have hlive : w.orders.live = v.orders.live := by rw [h.pool]; rfl
  obtain ⟨fl, hfl⟩ := hv.pool
  refine ⟨⟨fl, ?_⟩, ?_, hv.nodup, fun s => ?_, fun x hx => ?_, fun x hx => ?_, fun t x => ?_, ?_, ?_⟩
  · rw [h.pool]
    exact ⟨hfl.chain, hfl.nodup, hfl.lt, hfl.cover, hfl.size_eq⟩
  · rw [hlive]
    exact hv.live
  · simp only [h.links, h.ends, h.slot]
    exact hv.linked s
  · rw [h.resting]
    exact hv.resting x hx
  · rw [h.resting]
    exact hv.idle x hx
  · rw [h.byToken, h.token]
    exact hv.token t x
  · rw [h.byToken, h.pool]
    exact hv.limit
  · rw [h.byToken, h.pool]
    exact hv.size

@[simp] theorem order_setOrder_self (v : Venue) (h : Nat) (o : Order) : (v.setOrder h o).order h = o :=
  Function.update_self ..

theorem order_setOrder_ne (v : Venue) {h j : Nat} (o : Order) (hne : j ≠ h) : (v.setOrder h o).order j = v.order j :=
  Function.update_of_ne hne ..

theorem order_setOrder (v : Venue) (h j : Nat) (o : Order) :
    (v.setOrder h o).order j = if j = h then o else v.order j := by
  split_ifs with hj
  · rw [hj, order_setOrder_self]
  · exact order_setOrder_ne v o hj

theorem Keeps.setOrder {h : Nat} {o : Order} (htok : o.token = (v.order h).token) (hslot : o.slot = (v.order h).slot)
    (hrest : o.resting = (v.order h).resting) : Keeps v (v.setOrder h o) where
  links := rfl
  ends := rfl
  byToken := rfl
  pool := rfl
  token x := by rw [order_setOrder]; split_ifs with hx; exacts [by rw [htok, hx], rfl]
  slot x := by rw [order_setOrder]; split_ifs with hx; exacts [by rw [hslot, hx], rfl]
  resting x := by rw [order_setOrder]; split_ifs with hx; exacts [by rw [hrest, hx], rfl]

/-- The part of the venue that is not storage. -/
def tape (v : Venue) : Tape := ⟨v.clock, v.matchNo, v.fills, v.said⟩

/-- The venue with its orders in a list. -/
def floor (v : Venue) (hs : List Nat) : Floor := ⟨v.books, hs.map v.order, v.orders.capacity, v.nextRef, v.tape⟩

/-! ## Handles -/

theorem Stored.length_eq (h : Stored v hs hand) : v.orders.size = (hs ++ hand).length := by
  obtain ⟨fl, hfl⟩ := h.pool
  have hperm : (fl ++ (hs ++ hand)).Perm (List.range v.orders.capacity) := by
    refine (List.perm_ext_iff_of_nodup ?_ List.nodup_range).mpr fun x => ?_
    · refine List.nodup_append.mpr ⟨hfl.nodup, h.nodup, fun a ha b hb hab => ?_⟩
      subst hab
      exact (hfl.live_iff_not_mem.mp ((h.live a).mpr (List.mem_append.mp hb))).2 ha
    · rw [List.mem_append, List.mem_append, List.mem_range, ← h.live, hfl.live_iff_not_mem]
      refine ⟨fun hx => hx.elim (hfl.lt x) And.left, fun hx => ?_⟩
      by_cases hm : x ∈ fl
      · exact .inl hm
      · exact .inr ⟨hx, hm⟩
  have hlen := hperm.length_eq
  rw [List.length_append, List.length_range] at hlen
  have := hfl.size_eq
  omega

theorem Stored.length_le (h : Stored v hs hand) : hs.length ≤ v.orders.capacity := by
  obtain ⟨fl, hfl⟩ := h.pool
  have h₁ := h.length_eq
  have h₂ := hfl.size_eq
  rw [List.length_append] at h₁
  omega

theorem Stored.token_inj (h : Stored v hs hand) {x y : Nat} (hx : x ∈ hs ∨ x ∈ hand) (hy : y ∈ hs ∨ y ∈ hand)
    (he : (v.order x).token = (v.order y).token) : x = y := by
  have h₁ := (h.token _ x).mpr ⟨hx, rfl⟩
  have h₂ := (h.token _ y).mpr ⟨hy, rfl⟩
  rw [he, h₂] at h₁
  exact (Option.some.inj h₁).symm

/-! ## Followers -/

/-- What shrinking does: the followers of `h` among `bs` have less in front of them, nothing else changes. -/
structure Shrinks (v w : Venue) (h removed : Nat) (bs : List Nat) : Prop where
  keeps : Keeps v w
  books : w.books = v.books
  nextRef : w.nextRef = v.nextRef
  tape : w.tape = v.tape
  order : ∀ j, w.order j = if j ∈ bs ∧ (v.order h).follows (v.order j) = true then (v.order j).shrink removed else v.order j

theorem Stored.next_of_split {as bs done xs : List Nat} {h x : Nat} (hv : Stored v (as ++ h :: bs) hand)
    (hsplit : done ++ x :: xs = bs.filter fun j => (v.order j).slot = (v.order h).slot) :
    v.links.next x = xs.head? := by
  have hl := hv.linked (v.order h).slot
  rw [List.filter_append, List.filter_cons_of_pos (by simp), ← hsplit] at hl
  refine hl.next (as.filter (fun j => (v.order j).slot = (v.order h).slot) ++ h :: done) x xs ?_
  simp

theorem shrinkFollowers_shrinks {as bs : List Nat} {h removed : Nat} (hv : Stored v (as ++ h :: bs) hand) :
    Shrinks v (v.shrinkFollowers h removed) h removed bs := by
  have hnd : (as ++ h :: bs).Nodup := (List.nodup_append.mp hv.nodup).1
  have hbs : bs.Nodup := (List.nodup_cons.mp (List.nodup_append.mp hnd).2.1).2
  -- the visited part of the list, and its effect
  let P : List Nat → Venue → Prop := fun xs w => ∃ done,
    done ++ xs = (bs.filter fun j => (v.order j).slot = (v.order h).slot) ∧ Keeps v w ∧ w.books = v.books ∧
      w.nextRef = v.nextRef ∧ w.tape = v.tape ∧ ∀ j, w.order j =
        if j ∈ done ∧ (v.order j).price = (v.order h).price then (v.order j).shrink removed else v.order j
  have hwalk : P [] (v.shrinkFollowers h removed) := by
    have hstart : v.links.next h = (bs.filter fun j => (v.order j).slot = (v.order h).slot).head? := by
      have hl := hv.linked (v.order h).slot
      rw [List.filter_append, List.filter_cons_of_pos (by simp)] at hl
      exact hl.next _ h _ rfl
    unfold shrinkFollowers visit
    dsimp only
    rw [hstart]
    refine walk_list (P := P) ?_ ?_ _ _ _ ?_ ⟨[], rfl, Keeps.refl v, rfl, rfl, rfl, by simp⟩
    · rintro x xs w ⟨done, hsplit, hk, -⟩
      rw [hk.links]
      exact hv.next_of_split hsplit
    · rintro x xs w ⟨done, hsplit, hk, hb, hr, ht, ho⟩
      refine ⟨done ++ [x], by rw [List.append_assoc]; exact hsplit, ?_⟩
      have hxd : x ∉ done := by
        have hf := hbs.filter fun j => (v.order j).slot = (v.order h).slot
        rw [← hsplit] at hf
        exact fun hm => (List.nodup_append.mp hf).2.2 x hm x (by simp) rfl
      have hox : w.order x = v.order x := by rw [ho, if_neg (by simp [hxd])]
      split_ifs with hp
      · refine ⟨hk.trans (Keeps.setOrder rfl rfl rfl), hb, hr, ht, fun j => ?_⟩
        rw [order_setOrder]
        split_ifs with hj hd hd
        · rw [hj, hox]
          rfl
        · rw [hox] at hp
          exact absurd ⟨by simp [hj], by rw [hj, hp]⟩ hd
        · rw [ho, if_pos ⟨(List.mem_append.mp hd.1).resolve_right (by simpa using hj), hd.2⟩]
        · rw [ho, if_neg fun hd' => hd ⟨List.mem_append_left _ hd'.1, hd'.2⟩]
      · refine ⟨hk, hb, hr, ht, fun j => ?_⟩
        rw [ho]
        rw [hox] at hp
        by_cases hj : j = x
        · rw [hj, if_neg (fun hd => hp hd.2), if_neg (fun hd => hp hd.2)]
        · simp [hj]
    · refine (List.length_filter_le _ _).trans (le_trans ?_ hv.length_le)
      simp only [List.length_append, List.length_cons]
      omega
  obtain ⟨done, hdone, hk, hb, hr, ht, ho⟩ := hwalk
  refine ⟨hk, hb, hr, ht, fun j => ?_⟩
  rw [ho]
  rw [List.append_nil] at hdone
  refine if_congr ?_ rfl rfl
  rw [hdone, List.mem_filter]
  simp [Order.follows, and_assoc]

/-! ## Linking and unlinking -/

theorem order_unlink (v : Venue) (h j : Nat) :
    (v.unlink h).order j = if j = h then { v.order h with resting := false } else v.order j :=
  order_setOrder v h j _

theorem order_linkTail (v : Venue) (h j : Nat) :
    (v.linkTail h).order j = if j = h then { v.order h with resting := true } else v.order j :=
  order_setOrder v h j _

theorem slot_resting (v : Venue) (h j : Nat) (b : Bool) :
    ((v.setOrder h { v.order h with resting := b }).order j).slot = (v.order j).slot ∧
      ((v.setOrder h { v.order h with resting := b }).order j).token = (v.order j).token := by
  rw [order_setOrder]
  split_ifs with hj
  · rw [hj]
    exact ⟨rfl, rfl⟩
  · exact ⟨rfl, rfl⟩

theorem slot_unlink (v : Venue) (h j : Nat) :
    ((v.unlink h).order j).slot = (v.order j).slot ∧ ((v.unlink h).order j).token = (v.order j).token :=
  slot_resting v h j false

theorem slot_linkTail (v : Venue) (h j : Nat) :
    ((v.linkTail h).order j).slot = (v.order j).slot ∧ ((v.linkTail h).order j).token = (v.order j).token :=
  slot_resting v h j true

theorem Stored.unlink {as bs : List Nat} {h : Nat} (hv : Stored v (as ++ h :: bs) hand) :
    Stored (v.unlink h) (as ++ bs) (h :: hand) := by
  obtain ⟨fl, hfl⟩ := hv.pool
  have hnd : (as ++ h :: bs ++ hand).Nodup := hv.nodup
  have hperm : (as ++ h :: bs ++ hand).Perm (as ++ bs ++ h :: hand) := by
    rw [List.append_assoc, List.append_assoc]
    exact (List.perm_middle.symm.append_left as).trans (by simp)
  have hmem : ∀ x, x ∈ as ++ h :: bs ∨ x ∈ hand ↔ x ∈ as ++ bs ∨ x ∈ h :: hand := by
    intro x
    rw [← List.mem_append, ← List.mem_append]
    exact hperm.mem_iff
  have hout : h ∉ as ++ bs := fun hm =>
    (List.nodup_append.mp (hperm.nodup_iff.mp hnd)).2.2 h hm h List.mem_cons_self rfl
  refine ⟨⟨fl, hfl.set _ _⟩, fun x => ?_, hperm.nodup_iff.mp hnd, fun s => ?_, fun x hx => ?_, fun x hx => ?_,
    fun t x => ?_, hv.limit, hv.size⟩
  · rw [← hmem]
    exact hv.live x
  · simp only [slot_unlink]
    have hl := hv.linked (v.order h).slot
    rw [List.filter_append, List.filter_cons_of_pos (by simp)] at hl
    by_cases hs : s = (v.order h).slot
    · subst hs
      rw [List.filter_append]
      have hends : (v.unlink h).ends (v.order h).slot = (v.links.unlink (v.ends (v.order h).slot) h).2 :=
        Function.update_self ..
      rw [hends]
      exact hl.unlink_split
    · have hends : (v.unlink h).ends s = v.ends s := Function.update_of_ne hs ..
      have hl' := hv.linked s
      rw [List.filter_append, List.filter_cons_of_neg (by simpa using Ne.symm hs), ← List.filter_append] at hl'
      rw [hends]
      have hother : ∀ x ∈ (as ++ bs).filter (fun j => (v.order j).slot = s),
          x ∉ as.filter (fun j => (v.order j).slot = (v.order h).slot) ++
            h :: bs.filter (fun j => (v.order j).slot = (v.order h).slot) := by
        intro x hx hm
        have hxs : (v.order x).slot = s := by simpa using (List.mem_filter.mp hx).2
        have hxh : (v.order x).slot = (v.order h).slot := by
          rcases List.mem_append.mp hm with hm | hm
          · simpa using (List.mem_filter.mp hm).2
          · rcases List.mem_cons.mp hm with rfl | hm
            · rfl
            · simpa using (List.mem_filter.mp hm).2
        exact hs (hxs.symm.trans hxh)
      exact hl'.congr (fun x hx => hl.unlink_next_of_ne (by simp) (hother x hx))
        (fun x hx => hl.unlink_prev_of_ne (by simp) (hother x hx))
  · have hne : x ≠ h := fun e => hout (e ▸ hx)
    rw [order_unlink, if_neg hne]
    exact hv.resting x (by simp only [List.mem_append, List.mem_cons] at hx ⊢; tauto)
  · rw [order_unlink]
    split_ifs with hj
    · rfl
    · exact hv.idle x ((List.mem_cons.mp hx).resolve_left hj)
  · rw [← hmem, (slot_unlink v h x).2]
    exact hv.token t x

theorem Stored.linkTail {h : Nat} (hv : Stored v hs (h :: hand)) : Stored (v.linkTail h) (hs ++ [h]) hand := by
  obtain ⟨fl, hfl⟩ := hv.pool
  have heq : hs ++ h :: hand = hs ++ [h] ++ hand := by simp
  have hmem : ∀ x, x ∈ hs ∨ x ∈ h :: hand ↔ x ∈ hs ++ [h] ∨ x ∈ hand := by
    intro x
    rw [← List.mem_append, ← List.mem_append, heq]
  have hout : h ∉ hs := fun hm => (List.nodup_append.mp hv.nodup).2.2 h hm h List.mem_cons_self rfl
  have hidle : h ∉ hand := (List.nodup_cons.mp (List.nodup_append.mp hv.nodup).2.1).1
  refine ⟨⟨fl, hfl.set _ _⟩, fun x => ?_, heq ▸ hv.nodup, fun s => ?_, fun x hx => ?_, fun x hx => ?_,
    fun t x => ?_, hv.limit, hv.size⟩
  · rw [← hmem]
    exact hv.live x
  · simp only [slot_linkTail]
    have hl := hv.linked (v.order h).slot
    rw [List.filter_append]
    by_cases hs' : s = (v.order h).slot
    · subst hs'
      have hends : (v.linkTail h).ends (v.order h).slot = (v.links.pushBack (v.ends (v.order h).slot) h).2 :=
        Function.update_self ..
      rw [hends, List.filter_cons_of_pos (by simp), List.filter_nil]
      exact hl.pushBack fun hm => hout (List.mem_filter.mp hm).1
    · have hends : (v.linkTail h).ends s = v.ends s := Function.update_of_ne hs' ..
      rw [hends, List.filter_cons_of_neg (by simpa using Ne.symm hs'), List.filter_nil, List.append_nil]
      refine (hv.linked s).congr (fun x hx => ?_) (fun x hx => ?_)
      · have hne : x ≠ h := fun e => hout (e ▸ (List.mem_filter.mp hx).1)
        refine hl.pushBack_next_of_ne (fun hm => hs' ?_) hne
        have h₁ : (v.order x).slot = s := by simpa using (List.mem_filter.mp hx).2
        have h₂ : (v.order x).slot = (v.order h).slot := by simpa using (List.mem_filter.mp hm).2
        exact h₁.symm.trans h₂
      · have hne : x ≠ h := fun e => hout (e ▸ (List.mem_filter.mp hx).1)
        exact Linked.pushBack_prev_of_ne hne
  · rw [order_linkTail]
    split_ifs with hj
    · rfl
    · exact hv.resting x ((List.mem_append.mp hx).resolve_right (by simpa using hj))
  · have hne : x ≠ h := fun e => hidle (e ▸ hx)
    rw [order_linkTail, if_neg hne]
    exact hv.idle x (List.mem_cons_of_mem _ hx)
  · rw [← hmem, (slot_linkTail v h x).2]
    exact hv.token t x

/-! ## Removing -/

/-- The last part of a removal: the token and the slot of an order in hand are given back. -/
def drop (v : Venue) (h : Nat) : Venue :=
  { v with byToken := v.byToken.erase (v.order h).token, orders := v.orders.release h }

theorem Stored.drop {h : Nat} (hv : Stored v hs (h :: hand)) :
    Stored (v.drop h) hs hand ∧ (v.drop h).order = v.order ∧ (v.drop h).orders.capacity = v.orders.capacity := by
  obtain ⟨fl, hfl⟩ := hv.pool
  have hin : h ∈ hs ∨ h ∈ h :: hand := .inr List.mem_cons_self
  obtain ⟨hinv, hcap, hval, hlive⟩ := hfl.release ((hv.live h).mpr hin)
  have hord : (v.drop h).order = v.order := by
    funext j
    show (v.orders.release h).values j = v.orders.values j
    rw [hval]
  have hout : h ∉ hs := fun hm => (List.nodup_append.mp hv.nodup).2.2 h hm h List.mem_cons_self rfl
  have hidle : h ∉ hand := (List.nodup_cons.mp (List.nodup_append.mp hv.nodup).2.1).1
  have hmem : ∀ x, x ∈ hs ∨ x ∈ hand ↔ x ≠ h ∧ (x ∈ hs ∨ x ∈ h :: hand) := by
    intro x
    rw [List.mem_cons]
    constructor
    · intro hx
      refine ⟨?_, hx.imp_right .inr⟩
      rintro rfl
      exact hx.elim hout hidle
    · rintro ⟨hne, hx⟩
      exact hx.imp_right fun hx => hx.resolve_left hne
  have hfind := (hv.token _ h).mpr ⟨hin, rfl⟩
  refine ⟨⟨⟨_, hinv⟩, fun x => ?_, ?_, fun s => ?_, fun x hx => ?_, fun x hx => ?_, fun t x => ?_, ?_, ?_⟩, hord, hcap⟩
  · rw [hmem, ← hv.live x]
    exact hlive x
  · exact List.Nodup.sublist (List.Sublist.append_left (List.sublist_cons_self h hand) hs) hv.nodup
  · rw [hord]
    exact hv.linked s
  · rw [hord]
    exact hv.resting x hx
  · rw [hord]
    exact hv.idle x (List.mem_cons_of_mem _ hx)
  · rw [hord, hmem]
    show (v.byToken.erase (v.order h).token).find t = some x ↔ _
    rw [BoundedMap.find_erase]
    split_ifs with ht
    · refine ⟨fun hx => absurd hx (by simp), fun hx => ?_⟩
      exact absurd (hv.token_inj hx.1.2 hin (by rw [hx.2, ht])) hx.1.1
    · rw [hv.token]
      refine ⟨fun hx => ⟨⟨?_, hx.1⟩, hx.2⟩, fun hx => ⟨hx.1.2, hx.2⟩⟩
      rintro rfl
      exact ht hx.2.symm
  · show (v.byToken.erase _).limit = (v.orders.release h).capacity
    rw [BoundedMap.limit_erase, hcap]
    exact hv.limit
  · show (v.byToken.erase _).size = (v.orders.release h).size
    have h₁ := BoundedMap.size_erase hfind
    have h₂ := hinv.size_eq
    have h₃ := hfl.size_eq
    have h₄ := hv.size
    rw [hcap, List.length_cons] at h₂
    omega

theorem removeOrder_of_hand {h : Nat} (hv : Stored v hs (h :: hand)) : v.removeOrder h = v.drop h := by
  unfold removeOrder
  dsimp only
  rw [hv.idle h List.mem_cons_self]
  rfl

/-- What taking an order out does. -/
structure Removes (v w : Venue) (h : Nat) (bs : List Nat) : Prop where
  books : w.books = v.books
  nextRef : w.nextRef = v.nextRef
  tape : w.tape = v.tape
  capacity : w.orders.capacity = v.orders.capacity
  order : ∀ j, j ≠ h → w.order j =
    if j ∈ bs ∧ (v.order h).follows (v.order j) = true then (v.order j).shrink (v.order h).leaves else v.order j

theorem Stored.withdraw {as bs : List Nat} {h : Nat} (hv : Stored v (as ++ h :: bs) hand) :
    Stored ((v.shrinkFollowers h (v.order h).leaves).unlink h) (as ++ bs) (h :: hand) ∧
      Removes v ((v.shrinkFollowers h (v.order h).leaves).unlink h) h bs ∧
      ((v.shrinkFollowers h (v.order h).leaves).unlink h).order h = { v.order h with resting := false } ∧
      ((v.shrinkFollowers h (v.order h).leaves).unlink h).byToken = v.byToken := by
  have hsh : Shrinks v (v.shrinkFollowers h (v.order h).leaves) h (v.order h).leaves bs := shrinkFollowers_shrinks hv
  have hhb : h ∉ bs := (List.nodup_cons.mp (List.nodup_append.mp (List.nodup_append.mp hv.nodup).1).2.1).1
  refine ⟨(hsh.keeps.stored hv).unlink, ⟨hsh.books, hsh.nextRef, hsh.tape, ?_, fun j hj => ?_⟩, ?_, hsh.keeps.byToken⟩
  · show (v.shrinkFollowers h (v.order h).leaves).orders.capacity = v.orders.capacity
    rw [hsh.keeps.pool]
  · rw [order_unlink, if_neg hj]
    exact hsh.order j
  · rw [order_unlink, if_pos rfl, hsh.order, if_neg fun hc => hhb hc.1]

theorem Stored.removeOrder {as bs : List Nat} {h : Nat} (hv : Stored v (as ++ h :: bs) hand) :
    Stored (v.removeOrder h) (as ++ bs) hand ∧ Removes v (v.removeOrder h) h bs := by
  have hrest : (v.order h).resting = true := hv.resting h (by simp)
  obtain ⟨hun, hrem, hown, -⟩ := hv.withdraw
  have heq : v.removeOrder h = ((v.shrinkFollowers h (v.order h).leaves).unlink h).drop h := by
    unfold Venue.removeOrder Venue.drop
    dsimp only
    rw [hrest, hown, if_pos rfl]
  obtain ⟨hst, hord, hcap⟩ := hun.drop
  rw [heq]
  refine ⟨hst, hrem.books, hrem.nextRef, hrem.tape, hcap.trans hrem.capacity, fun j hj => ?_⟩
  rw [hord]
  exact hrem.order j hj

/-! ## Entering -/

/-- An allocated order with a token of its own is in hand. -/
theorem Stored.enter {h : Nat} {orders : SlabPool Order} {o : Order} (hv : Stored v hs [])
    (ha : v.orders.allocate = (orders, some h)) (hfresh : v.byToken.find o.token = none) (hidle : o.resting = false) :
    (v.byToken.insert o.token h).2 = true ∧
      Stored { v with orders := orders.set h o, byToken := (v.byToken.insert o.token h).1 } hs [h] ∧
      h ∉ hs ∧ orders.capacity = v.orders.capacity ∧
      (∀ j, j ≠ h → (orders.set h o).values j = v.order j) ∧ (orders.set h o).values h = o := by
  obtain ⟨fl, hfl⟩ := hv.pool
  obtain ⟨⟨fl', rfl, hinv⟩, hdead, hcap, hval, hlive⟩ := hfl.allocate ha
  have hout : h ∉ hs := by
    intro hm
    rw [(hv.live h).mpr (.inl hm)] at hdead
    cases hdead
  have hroom : v.byToken.size < v.byToken.limit := by
    rw [hv.size, hv.limit]
    have := hfl.size_eq
    rw [List.length_cons] at this
    omega
  have hins : v.byToken.insert o.token h = ((v.byToken.insert o.token h).1, true) := by
    rw [BoundedMap.insert_fresh h hfresh hroom]
  have hothers : ∀ j, j ≠ h → (orders.set h o).values j = v.order j := by
    intro j hj
    rw [SlabPool.set_values, Function.update_of_ne hj, hval, Function.update_of_ne hj]
    rfl
  have hown : (orders.set h o).values h = o := Function.update_self ..
  have hmem : ∀ j ∈ hs, (orders.set h o).values j = v.order j := fun j hj => hothers j fun e => hout (e ▸ hj)
  refine ⟨by rw [hins], ⟨⟨fl', hinv.set _ _⟩, fun x => ?_, ?_, fun s => ?_, fun x hx => ?_, fun x hx => ?_,
    fun t x => ?_, ?_, ?_⟩, hout, hcap, hothers, hown⟩
  · show (orders.set h o).live x = true ↔ _
    rw [SlabPool.set_live, hlive, hv.live]
    simp [or_comm]
  · rw [List.nodup_append]
    have := hv.nodup
    rw [List.append_nil] at this
    refine ⟨this, by simp, fun a ha b hb e => ?_⟩
    rw [List.mem_singleton.mp hb] at e
    exact hout (e ▸ ha)
  · have hl := hv.linked s
    have hfil : (hs.filter fun j => (Order.slot ((orders.set h o).values j)) = s) = hs.filter fun j => (v.order j).slot = s :=
      List.filter_congr fun j hj => by rw [hmem j hj]
    show Linked v.links (v.ends s) (hs.filter fun j => (Order.slot ((orders.set h o).values j)) = s)
    rw [hfil]
    exact hl
  · show ((orders.set h o).values x).resting = true
    rw [hmem x hx]
    exact hv.resting x hx
  · rw [List.mem_singleton] at hx
    subst hx
    show ((orders.set x o).values x).resting = false
    rw [hown]
    exact hidle
  · show (v.byToken.insert o.token h).1.find t = some x ↔ (x ∈ hs ∨ x ∈ [h]) ∧ ((orders.set h o).values x).token = t
    rw [BoundedMap.find_insert_true hins t, List.mem_singleton]
    split_ifs with ht
    · constructor
      · intro hx
        cases hx
        exact ⟨.inr rfl, by rw [hown, ht]⟩
      · rintro ⟨hx | rfl, htok⟩
        · rw [hmem x hx, ht] at htok
          rw [(hv.token _ x).mpr ⟨.inl hx, htok⟩] at hfresh
          cases hfresh
        · rfl
    · rw [hv.token]
      constructor
      · rintro ⟨hx | hx, htok⟩
        · exact ⟨.inl hx, by rw [hmem x hx, htok]⟩
        · cases hx
      · rintro ⟨hx | rfl, htok⟩
        · exact ⟨.inl hx, by rw [← hmem x hx, htok]⟩
        · rw [hown] at htok
          exact absurd htok.symm ht
  · show (v.byToken.insert o.token h).1.limit = orders.capacity
    rw [BoundedMap.limit_insert hins, hv.limit, hcap]
  · show (v.byToken.insert o.token h).1.size = orders.size
    have h₁ := BoundedMap.size_insert_true hins
    have h₂ := hinv.size_eq
    have h₃ := hfl.size_eq
    have h₄ := hv.size
    rw [hcap] at h₂
    rw [List.length_cons] at h₃
    omega

/-- The order in hand takes another token. -/
theorem Stored.retoken {h : Nat} {o : Order} (hv : Stored v hs [h]) (hfresh : v.byToken.find o.token = none)
    (hidle : o.resting = false) :
    Stored { v.setOrder h o with byToken := ((v.byToken.erase (v.order h).token).insert o.token h).1 } hs [h] := by
  obtain ⟨fl, hfl⟩ := hv.pool
  have hin : h ∈ hs ∨ h ∈ [h] := .inr List.mem_cons_self
  have hout : h ∉ hs := fun hm => (List.nodup_append.mp hv.nodup).2.2 h hm h List.mem_cons_self rfl
  have hfind := (hv.token _ h).mpr ⟨hin, rfl⟩
  have herase := BoundedMap.size_erase hfind
  have hfresh' : (v.byToken.erase (v.order h).token).find o.token = none := by
    rw [BoundedMap.find_erase]
    split_ifs
    · rfl
    · exact hfresh
  have hroom : (v.byToken.erase (v.order h).token).size < (v.byToken.erase (v.order h).token).limit := by
    have h₁ := hfl.size_eq
    have h₂ := hv.size
    have h₃ := hv.limit
    rw [BoundedMap.limit_erase]
    omega
  have hins : (v.byToken.erase (v.order h).token).insert o.token h =
      (((v.byToken.erase (v.order h).token).insert o.token h).1, true) := by
    rw [BoundedMap.insert_fresh h hfresh' hroom]
  have hmem : ∀ j ∈ hs, (v.setOrder h o).order j = v.order j := fun j hj => order_setOrder_ne _ _ fun e => hout (e ▸ hj)
  refine ⟨⟨fl, hfl.set _ _⟩, hv.live, hv.nodup, fun s => ?_, fun x hx => ?_, fun x hx => ?_, fun t x => ?_, ?_, ?_⟩
  · have hfil : (hs.filter fun j => ((v.setOrder h o).order j).slot = s) = hs.filter fun j => (v.order j).slot = s :=
      List.filter_congr fun j hj => by rw [hmem j hj]
    show Linked v.links (v.ends s) (hs.filter fun j => ((v.setOrder h o).order j).slot = s)
    rw [hfil]
    exact hv.linked s
  · show ((v.setOrder h o).order x).resting = true
    rw [hmem x hx]
    exact hv.resting x hx
  · rw [List.mem_singleton.mp hx]
    show ((v.setOrder h o).order h).resting = false
    rw [order_setOrder_self]
    exact hidle
  · show ((v.byToken.erase (v.order h).token).insert o.token h).1.find t = some x ↔
      (x ∈ hs ∨ x ∈ [h]) ∧ ((v.setOrder h o).order x).token = t
    rw [BoundedMap.find_insert_true hins t, List.mem_singleton]
    split_ifs with ht
    · constructor
      · intro hx
        cases hx
        exact ⟨.inr rfl, by rw [order_setOrder_self, ht]⟩
      · rintro ⟨hx | rfl, htok⟩
        · rw [hmem x hx, ht] at htok
          rw [(hv.token _ x).mpr ⟨.inl hx, htok⟩] at hfresh
          cases hfresh
        · rfl
    · rw [BoundedMap.find_erase]
      split_ifs with hold
      · refine ⟨fun hx => absurd hx (by simp), ?_⟩
        rintro ⟨hx | rfl, htok⟩
        · rw [hmem x hx, hold] at htok
          exact absurd (hv.token_inj (.inl hx) hin htok ▸ hx) hout
        · rw [order_setOrder_self] at htok
          exact absurd htok.symm ht
      · rw [hv.token]
        constructor
        · rintro ⟨hx | hx, htok⟩
          · exact ⟨.inl hx, by rw [hmem x hx, htok]⟩
          · rw [List.mem_singleton.mp hx] at htok
            exact absurd htok.symm hold
        · rintro ⟨hx | rfl, htok⟩
          · exact ⟨.inl hx, by rw [← hmem x hx, htok]⟩
          · rw [order_setOrder_self] at htok
            exact absurd htok.symm ht
  · show ((v.byToken.erase (v.order h).token).insert o.token h).1.limit = v.orders.capacity
    rw [BoundedMap.limit_insert hins, BoundedMap.limit_erase, hv.limit]
  · show ((v.byToken.erase (v.order h).token).insert o.token h).1.size = v.orders.size
    have h₁ := BoundedMap.size_insert_true hins
    have h₂ := hv.size
    omega

end Venue
end OptiTrade.Sim
