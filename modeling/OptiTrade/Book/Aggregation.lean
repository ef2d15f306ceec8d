import Mathlib.Order.Bounds.Basic
import OptiTrade.Book.MarketBooks

/-! # The ladder is the aggregation of the live orders

`Covered` says of one level that it is the sum of the live orders recorded on it. The ids of levels are
counted per book, so an order is on a level when it has both the locate of the book and the id. `k` is
the number of ids a book has issued; the counter itself wraps at `2 ^ 64`. -/

namespace OptiTrade.Book
set_option autoImplicit false

open Itch (Message)

/-- The quantity of an order, if it is recorded on level `id` of the book of `l`. -/
def qtyOn (l id : Nat) (o : OrderRecord) : Nat := if o.info.locate = l ∧ o.level = id then o.info.qty else 0

def countOn (l id : Nat) (o : OrderRecord) : Nat := if o.info.locate = l ∧ o.level = id then 1 else 0

/-- A level is exactly its live orders. -/
structure Covered (orders : BoundedMap Nat OrderRecord) (l k : Nat) (s : Side) (x : Entry) : Prop where
  id_pos : x.id ≠ kNoLevel
  id_le : x.id ≤ k
  qty_pos : 1 ≤ x.lv.qty
  qty : x.lv.qty = orders.total (qtyOn l x.id)
  count : x.lv.orders = orders.total (countOn l x.id)
  members : ∀ ref o, orders.find ref = some o → o.info.locate = l → o.level = x.id →
    o.info.side = s ∧ o.info.price = x.lv.price

/-- A book whose levels are the live orders of `l` on them. -/
structure Sound (orders : BoundedMap Nat OrderRecord) (l k : Nat) (b : OrderBook) : Prop where
  sorted : ∀ s, Sorted s (b.sides s).e
  nextId : b.nextId = (1 + k) % 18446744073709551616
  issued : ∀ ref o, orders.find ref = some o → o.info.locate = l → o.level ≤ k
  level : ∀ s, ∀ x ∈ (b.sides s).e, Covered orders l k s x

variable {os os' : BoundedMap Nat OrderRecord} {l k k' ref : Nat} {s : Side} {x : Entry}
  {old now : Option OrderRecord} {b : OrderBook}

/-- Neither the order that was there nor the one that is there now is on level `id` of `l`. -/
def Elsewhere (l id : Nat) (o : Option OrderRecord) : Prop := ∀ v, o = some v → ¬(v.info.locate = l ∧ v.level = id)

theorem Elsewhere.elim_qtyOn {id : Nat} {o : Option OrderRecord} (h : Elsewhere l id o) :
    o.elim 0 (qtyOn l id) = 0 ∧ o.elim 0 (countOn l id) = 0 := by
  cases o with
  | none => exact ⟨rfl, rfl⟩
  | some v => exact ⟨if_neg (h v rfl), if_neg (h v rfl)⟩

/-- A level none of whose orders change. -/
theorem Covered.frame (h : Covered os l k s x) (hc : BoundedMap.Changed os os' ref old now)
    (ho : Elsewhere l x.id old) (hn : Elsewhere l x.id now) (hk : k ≤ k') : Covered os' l k' s x where
  id_pos := h.id_pos
  id_le := h.id_le.trans hk
  qty_pos := h.qty_pos
  qty := by
    have ht := hc.total (qtyOn l x.id)
    rw [ho.elim_qtyOn.1, hn.elim_qtyOn.1] at ht
    rw [h.qty]
    omega
  count := by
    have ht := hc.total (countOn l x.id)
    rw [ho.elim_qtyOn.2, hn.elim_qtyOn.2] at ht
    rw [h.count]
    omega
  members := by
    intro r o hf hl hid
    rw [hc.find] at hf
    by_cases hr : r = ref
    · rw [if_pos hr] at hf
      exact absurd ⟨hl, hid⟩ (hn o hf)
    · rw [if_neg hr] at hf
      exact h.members r o hf hl hid

theorem Sound.frame (h : Sound os l k b) (hc : BoundedMap.Changed os os' ref old now)
    (ho : ∀ v, old = some v → v.info.locate ≠ l) (hn : ∀ v, now = some v → v.info.locate ≠ l) : Sound os' l k b where
  sorted := h.sorted
  nextId := h.nextId
  issued := by
    intro r o hf hl
    rw [hc.find] at hf
    by_cases hr : r = ref
    · rw [if_pos hr] at hf
      exact absurd hl (hn o hf)
    · rw [if_neg hr] at hf
      exact h.issued r o hf hl
  level := fun s x hx => (h.level s x hx).frame hc (fun v hv h' => ho v hv h'.1) (fun v hv h' => hn v hv h'.1) (le_refl k)

theorem Covered.exists_order (h : Covered os l k s x) :
    ∃ r o, os.find r = some o ∧ o.info.locate = l ∧ o.level = x.id := by
  obtain ⟨r, o, hf, hpos⟩ := BoundedMap.exists_of_total_pos (m := os) (f := qtyOn l x.id) (by rw [← h.qty]; exact h.qty_pos)
  unfold qtyOn at hpos
  split_ifs at hpos with hon
  · exact ⟨r, o, hf, hon.1, hon.2⟩
  · exact absurd hpos (Nat.lt_irrefl 0)

theorem Sound.distinct (h : Sound os l k b) {s' : Side} {y : Entry} (hx : x ∈ (b.sides s).e) (hy : y ∈ (b.sides s').e)
    (hid : x.id = y.id) : s = s' ∧ x.lv.price = y.lv.price := by
  obtain ⟨r, o, hf, hl, hlev⟩ := (h.level s x hx).exists_order
  have h₁ := (h.level s x hx).members r o hf hl hlev
  have h₂ := (h.level s' y hy).members r o hf hl (hlev.trans hid)
  exact ⟨h₁.1.symm.trans h₂.1, h₁.2.symm.trans h₂.2⟩

theorem Sound.id_ne (h : Sound os l k b) {ws bs : List Entry} (he : (b.sides s).e = ws ++ x :: bs) {y : Entry}
    (hy : y ∈ ws ++ bs) : y.id ≠ x.id := by
  intro hid
  have hsort := h.sorted s
  rw [he] at hsort
  have hy' : y ∈ (b.sides s).e := by
    rw [he]
    exact List.mem_append.mpr ((List.mem_append.mp hy).imp_right (List.mem_cons_of_mem x))
  exact hsort.between.ne y hy (h.distinct hy' (by rw [he]; simp) hid).2

theorem Sound.id_ne_side (h : Sound os l k b) (hx : x ∈ (b.sides s).e) {s' : Side} (hs : s' ≠ s) {y : Entry}
    (hy : y ∈ (b.sides s').e) : y.id ≠ x.id :=
  fun hid => hs (h.distinct hy hx hid).1

/-- One side changes: the levels left on it are covered, and those of the other side do not notice. -/
theorem Sound.setSide (h : Sound os l k b) {b' : OrderBook} {e : List Entry} (hb : (b'.sides s).e = e)
    (hother : ∀ s', s' ≠ s → b'.sides s' = b.sides s') (hc : BoundedMap.Changed os os' ref old now)
    (hsort : Sorted s e) (hnext : b'.nextId = (1 + k') % 18446744073709551616) (hk : k ≤ k')
    (hnew : ∀ v, now = some v → v.info.locate = l → v.level ≤ k')
    (hside : ∀ y ∈ e, Covered os' l k' s y)
    (hoff : ∀ s', s' ≠ s → ∀ y ∈ (b.sides s').e, Elsewhere l y.id old ∧ Elsewhere l y.id now) : Sound os' l k' b' where
  sorted := by
    intro s'
    by_cases hs : s' = s
    · rw [hs, hb]
      exact hsort
    · rw [hother s' hs]
      exact h.sorted s'
  nextId := hnext
  issued := by
    intro r o hf hl
    rw [hc.find] at hf
    by_cases hr : r = ref
    · rw [if_pos hr] at hf
      exact hnew o hf hl
    · rw [if_neg hr] at hf
      exact (h.issued r o hf hl).trans hk
  level := by
    intro s' y hy
    by_cases hs : s' = s
    · subst hs
      rw [hb] at hy
      exact hside y hy
    · rw [hother s' hs] at hy
      exact (h.level s' y hy).frame hc (hoff s' hs y hy).1 (hoff s' hs y hy).2 hk

/-! ## Adding an order to a book -/

theorem add64_one_ne (n : Nat) : add64 n 1 ≠ n := by
  unfold add64
  omega

theorem total_new {v : OrderRecord} (hc : BoundedMap.Changed os os' ref none (some v)) (hl : v.info.locate = l)
    (id : Nat) :
    os'.total (qtyOn l id) = os.total (qtyOn l id) + (if v.level = id then v.info.qty else 0) ∧
      os'.total (countOn l id) = os.total (countOn l id) + if v.level = id then 1 else 0 := by
  have h₁ := hc.total (qtyOn l id)
  have h₂ := hc.total (countOn l id)
  simp only [Option.elim_none, Option.elim_some, Nat.add_zero] at h₁ h₂
  rw [h₁, h₂]
  simp [qtyOn, countOn, hl]

theorem Sound.untracked (h : Sound os l k b) {b' : OrderBook} {v : OrderRecord}
    (hc : BoundedMap.Changed os os' ref none (some v)) (hv : v.level = kNoLevel) (hb : b'.sides = b.sides)
    (hn : b'.nextId = b.nextId) : Sound os' l k b' := by
  have hfar : ∀ s y, y ∈ (b.sides s).e → Elsewhere l y.id (none : Option OrderRecord) ∧ Elsewhere l y.id (some v) := by
    intro s y hy
    refine ⟨fun w hw => by (cases hw), fun w hw hon => ?_⟩
    cases hw
    exact (h.level s y hy).id_pos (hon.2.symm.trans hv)
  have hside : ∀ y ∈ (b.sides .buy).e, Covered os' l k .buy y := fun y hy =>
    (h.level .buy y hy).frame hc (hfar .buy y hy).1 (hfar .buy y hy).2 (le_refl k)
  refine h.setSide (congrArg (fun f => (f Side.buy).e) hb) (fun s' _ => by rw [hb]) hc (h.sorted .buy) (by rw [hn]; exact h.nextId)
    (le_refl k) (fun w hw _ => ?_) hside fun s' _ y hy => hfar s' y hy
  cases hw
  rw [hv]
  exact Nat.zero_le k

/-- An order on a level of its own, for which the book has used one more id. -/
theorem Sound.place (h : Sound os l k b) {v : OrderRecord} {ws bs : List Entry} {n : Nat} (ds : List Entry)
    (hc : BoundedMap.Changed os os' ref none (some v)) (hl : v.info.locate = l) (hs : v.info.side = s)
    (hlev : v.level = b.nextId) (hq : 1 ≤ v.info.qty) (hk : 1 + k < 18446744073709551616)
    (he : (b.sides s).e = ds ++ ws ++ bs) (hb : Between s v.info.price ws bs) :
    Sound os' l (k + 1) ({ b with overflows := n }.place s ws bs v.info.price v.info.qty).1 := by
  have hid : b.nextId = k + 1 := by
    rw [h.nextId, Nat.mod_eq_of_lt hk]
    omega
  have hsub : ∀ y ∈ ws ++ bs, y ∈ (b.sides s).e := by
    intro y hy
    rw [he, List.append_assoc]
    exact List.mem_append_right ds hy
  -- no order was recorded under the new id yet
  have hnone : os.total (qtyOn l (k + 1)) = 0 ∧ os.total (countOn l (k + 1)) = 0 := by
    have hzero : ∀ f : OrderRecord → Nat, (∀ o, 0 < f o → o.info.locate = l ∧ o.level = k + 1) → os.total f = 0 := by
      intro f hf
      by_contra hne
      obtain ⟨r, o, ho, hpos⟩ := BoundedMap.exists_of_total_pos (Nat.pos_of_ne_zero hne)
      have := h.issued r o ho (hf o hpos).1
      have := (hf o hpos).2
      omega
    refine ⟨hzero _ fun o ho => ?_, hzero _ fun o ho => ?_⟩
    · unfold qtyOn at ho
      split_ifs at ho with hon
      · exact hon
      · exact absurd ho (Nat.lt_irrefl 0)
    · unfold countOn at ho
      split_ifs at ho with hon
      · exact hon
      · exact absurd ho (Nat.lt_irrefl 0)
  have hfar : ∀ s' y, y ∈ (b.sides s').e → Elsewhere l y.id (none : Option OrderRecord) ∧ Elsewhere l y.id (some v) := by
    intro s' y hy
    refine ⟨fun w hw => by (cases hw), fun w hw hon => ?_⟩
    cases hw
    have := (h.level s' y hy).id_le
    omega
  have hsort := h.sorted s
  rw [he, List.append_assoc] at hsort
  have hsort : Sorted s (ws ++ bs) := hsort.sublist (List.sublist_append_right ds (ws ++ bs))
  refine h.setSide (s := s) (e := ws ++ ⟨⟨v.info.price, v.info.qty, 1⟩, b.nextId⟩ :: bs) (by simp [OrderBook.place])
    (fun s' hs' => OrderBook.setSide_ne _ hs' _) hc (hsort.insert hb) ?_ (Nat.le_succ k) (fun w hw _ => ?_) (fun y hy => ?_) fun s' _ y hy => hfar s' y hy
  · show add64 b.nextId 1 = _
    rw [hid]
    unfold add64
    congr 1
    omega
  · cases hw
    omega
  · rw [List.mem_append, List.mem_cons] at hy
    rcases hy with hy | rfl | hy
    · have hy' := hsub y (List.mem_append_left _ hy)
      exact (h.level s y hy').frame hc (hfar s y hy').1 (hfar s y hy').2 (Nat.le_succ k)
    · have ht := total_new hc hl (k + 1)
      rw [if_pos (hlev.trans hid), if_pos (hlev.trans hid), hnone.1, hnone.2] at ht
      refine ⟨?_, ?_, hq, ?_, ?_, ?_⟩
      · show b.nextId ≠ 0
        omega
      · exact hid.le
      · show v.info.qty = os'.total (qtyOn l b.nextId)
        rw [hid, ht.1]
        omega
      · show 1 = os'.total (countOn l b.nextId)
        rw [hid, ht.2]
      · intro r o hf hl' hlev'
        rw [hc.find] at hf
        by_cases hr : r = ref
        · rw [if_pos hr] at hf
          cases hf
          exact ⟨hs, rfl⟩
        · rw [if_neg hr] at hf
          have := h.issued r o hf hl'
          have hlev' : o.level = b.nextId := hlev'
          omega
    · have hy' := hsub y (List.mem_append_right _ hy)
      exact (h.level s y hy').frame hc (hfar s y hy').1 (hfar s y hy').2 (Nat.le_succ k)

/-- An order that joins a level. -/
theorem Sound.joined (h : Sound os l k b) {v : OrderRecord} {ws bs : List Entry} {n : Nat}
    (hc : BoundedMap.Changed os os' ref none (some v)) (hl : v.info.locate = l) (hs : v.info.side = s)
    (hlev : v.level = x.id) (hp : x.lv.price = v.info.price) (he : (b.sides s).e = ws ++ x :: bs) :
    Sound os' l k
      { b.setSide s (ws ++ { x with lv := { x.lv with
          qty := x.lv.qty + v.info.qty, orders := x.lv.orders + 1 } } :: bs) with updates := n } := by
  have hx : x ∈ (b.sides s).e := by rw [he]; simp
  have hcov := h.level s x hx
  have hsort := h.sorted s
  rw [he] at hsort
  have hne : ∀ s' y, y.id ≠ x.id → y ∈ (b.sides s').e →
      Elsewhere l y.id (none : Option OrderRecord) ∧ Elsewhere l y.id (some v) := by
    intro s' y hid hy
    refine ⟨fun w hw => by (cases hw), fun w hw hon => ?_⟩
    cases hw
    exact hid (hon.2.symm.trans hlev)
  refine h.setSide (OrderBook.setSide_self _ _ _) (fun s' hs' => OrderBook.setSide_ne _ hs' _) hc
    (Sorted.replace hsort rfl) h.nextId (le_refl k) (fun w hw _ => ?_) (fun y hy => ?_)
    fun s' hs' y hy => hne s' y (h.id_ne_side hx hs' hy) hy
  · cases hw
    rw [hlev]
    exact hcov.id_le
  · rw [List.mem_append, List.mem_cons] at hy
    have hkeep : ∀ y ∈ ws ++ bs, Covered os' l k s y := by
      intro y hy
      have hy' : y ∈ (b.sides s).e := by
        rw [he]
        exact List.mem_append.mpr ((List.mem_append.mp hy).imp_right (List.mem_cons_of_mem x))
      have hfar := hne s y (h.id_ne he hy) hy'
      exact (h.level s y hy').frame hc hfar.1 hfar.2 (le_refl k)
    rcases hy with hy | rfl | hy
    · exact hkeep y (List.mem_append_left _ hy)
    · have ht := total_new hc hl x.id
      rw [if_pos hlev, if_pos hlev] at ht
      have hpos := hcov.qty_pos
      refine ⟨hcov.id_pos, hcov.id_le, ?_, ?_, ?_, ?_⟩
      · show 1 ≤ x.lv.qty + v.info.qty
        omega
      · show x.lv.qty + v.info.qty = os'.total (qtyOn l x.id)
        rw [ht.1, ← hcov.qty]
      · show x.lv.orders + 1 = os'.total (countOn l x.id)
        rw [ht.2, ← hcov.count]
      · intro r o hf hl' hlev'
        rw [hc.find] at hf
        by_cases hr : r = ref
        · rw [if_pos hr] at hf
          cases hf
          exact ⟨hs, hp.symm⟩
        · rw [if_neg hr] at hf
          exact hcov.members r o hf hl' hlev'
    · exact hkeep y (List.mem_append_right _ hy)

/-- **An add keeps the levels covered.** -/
theorem Sound.add (h : Sound os l k b) {v : OrderRecord} (hl : v.info.locate = l) (hq : 1 ≤ v.info.qty)
    (hlev : v.level = (b.addOrder v.info.side v.info.price v.info.qty).2)
    (hc : BoundedMap.Changed os os' ref none (some v))
    (hk : (b.addOrder v.info.side v.info.price v.info.qty).1.nextId ≠ b.nextId → 1 + k < 18446744073709551616) :
    Sound os' l
      (if (b.addOrder v.info.side v.info.price v.info.qty).1.nextId = b.nextId then k else k + 1)
      (b.addOrder v.info.side v.info.price v.info.qty).1 := by
  have hadd := OrderBook.addOrder_cases (h.sorted v.info.side) v.info.price v.info.qty
  generalize b.addOrder v.info.side v.info.price v.info.qty = out at hadd hlev hk ⊢
  cases hadd with
  | nothing h0 => omega
  | full ws bs x _ he hp _ =>
    rw [if_pos rfl]
    exact h.untracked hc hlev rfl rfl
  | joined ws bs x _ he hp _ =>
    show Sound os' l (if b.nextId = b.nextId then k else k + 1) _
    rw [if_pos rfl]
    exact h.joined hc hl rfl hlev hp he
  | refused _ _ _ =>
    rw [if_pos rfl]
    exact h.untracked hc hlev rfl rfl
  | evicted x ws bs _ he _ hb =>
    have hne : add64 b.nextId 1 ≠ b.nextId := add64_one_ne b.nextId
    show Sound os' l (if add64 b.nextId 1 = b.nextId then k else k + 1) _
    rw [if_neg hne]
    exact h.place [x] hc hl rfl hlev hq (hk hne) he ⟨fun y hy => hb.worse y (List.mem_cons_of_mem x hy), hb.better⟩
  | inserted ws bs _ he _ hb =>
    have hne : add64 b.nextId 1 ≠ b.nextId := add64_one_ne b.nextId
    show Sound os' l (if add64 b.nextId 1 = b.nextId then k else k + 1) _
    rw [if_neg hne]
    exact h.place (n := b.overflows) [] hc hl rfl hlev hq (hk hne) he hb

/-! ## Taking shares of an order off its level -/

theorem total_cut {o : OrderRecord} {now : Option OrderRecord} (hc : BoundedMap.Changed os os' ref (some o) now)
    (hl : o.info.locate = l) :
    os'.total (qtyOn l o.level) + o.info.qty = os.total (qtyOn l o.level) + now.elim 0 (qtyOn l o.level) ∧
      os'.total (countOn l o.level) + 1 = os.total (countOn l o.level) + now.elim 0 (countOn l o.level) := by
  have h₁ := hc.total (qtyOn l o.level)
  have h₂ := hc.total (countOn l o.level)
  simp only [Option.elim_some] at h₁ h₂
  rw [← h₁, ← h₂]
  simp [qtyOn, countOn, hl]

theorem Sound.off (h : Sound os l k b) {o : OrderRecord} (hc : BoundedMap.Changed os os' ref (some o) now)
    (hoff : ∀ s, ∀ y ∈ (b.sides s).e, y.id ≠ o.level) (hnew : ∀ v, now = some v → v.level = o.level)
    (hlev : o.info.locate = l → o.level ≤ k) (hloc : ∀ v, now = some v → v.info.locate = o.info.locate) :
    Sound os' l k b := by
  have hfar : ∀ s y, y ∈ (b.sides s).e → Elsewhere l y.id (some o) ∧ Elsewhere l y.id now := by
    intro s y hy
    refine ⟨fun w hw hon => ?_, fun w hw hon => ?_⟩
    · cases hw
      exact hoff s y hy hon.2.symm
    · exact hoff s y hy (hon.2.symm.trans (hnew w hw))
  refine h.setSide (s := .buy) rfl (fun _ _ => rfl) hc (h.sorted .buy) h.nextId (le_refl k) (fun v hv hl => ?_)
    (fun y hy => (h.level .buy y hy).frame hc (hfar .buy y hy).1 (hfar .buy y hy).2 (le_refl k))
    fun s' _ y hy => hfar s' y hy
  rw [hnew v hv]
  exact hlev ((hloc v hv).symm.trans hl)

theorem Sound.off_of_price (h : Sound os l k b) {o : OrderRecord} (hf : os.find ref = some o) (hl : o.info.locate = l)
    (hp : ∀ y ∈ (b.sides o.info.side).e, y.lv.price = o.info.price → y.id ≠ o.level) :
    ∀ s, ∀ y ∈ (b.sides s).e, y.id ≠ o.level := by
  intro s y hy hid
  have hm := (h.level s y hy).members ref o hf hl hid.symm
  rw [← hm.1] at hy
  exact hp y hy hm.2.symm hid

/-- What an order keeps when it loses shares: what is left of it, if anything is. -/
def remainder (o : OrderRecord) (qty : Nat) : Option OrderRecord :=
  if qty = o.info.qty then none else some { o with info := { o.info with qty := o.info.qty - qty } }

/-- **Shares leave an order and its level together.** -/
theorem Sound.take (h : Sound os l k b) {o : OrderRecord} {qty : Nat} (hf : os.find ref = some o)
    (hl : o.info.locate = l) (hq : 1 ≤ qty) (hle : qty ≤ o.info.qty) (hlev : o.level ≠ kNoLevel)
    (hc : BoundedMap.Changed os os' ref (some o) (remainder o qty)) {whole : Bool} (hw : whole = true ↔ qty = o.info.qty) :
    Sound os' l k (b.take o.info.side o.info.price qty o.level whole).1 := by
  have hrest : ∀ v, remainder o qty = some v → v.level = o.level ∧ v.info.locate = o.info.locate ∧
      v.info.side = o.info.side ∧ v.info.price = o.info.price := by
    intro v hv
    unfold remainder at hv
    split_ifs at hv
    cases hv
    exact ⟨rfl, rfl, rfl, rfl⟩
  have hcut := total_cut hc hl
  have helim : (remainder o qty).elim 0 (qtyOn l o.level) = o.info.qty - qty ∧
      (remainder o qty).elim 0 (countOn l o.level) = if qty = o.info.qty then 0 else 1 := by
    unfold remainder
    by_cases he : qty = o.info.qty
    · rw [if_pos he, if_pos he]
      exact ⟨by simp [he], rfl⟩
    · rw [if_neg he, if_neg he]
      simp [qtyOn, countOn, hl]
  rw [helim.1, helim.2] at hcut
  have hown := BoundedMap.le_total hf (qtyOn l o.level)
  rw [show qtyOn l o.level o = o.info.qty from if_pos ⟨hl, rfl⟩] at hown
  have hoffcase : (∀ s, ∀ y ∈ (b.sides s).e, y.id ≠ o.level) → Sound os' l k b := fun hoff =>
    h.off hc hoff (fun v hv => (hrest v hv).1) (h.issued ref o hf) fun v hv => (hrest v hv).2.1
  have htake := OrderBook.take_cases (h.sorted o.info.side) o.info.price qty o.level whole
  generalize b.take o.info.side o.info.price qty o.level whole = out at htake ⊢
  cases htake with
  | nothing h0 => omega
  | untracked hn => exact hoffcase (h.off_of_price hf hl fun y hy hp => absurd hp (hn y hy))
  | stale ws bs x he hp _ hne =>
    refine hoffcase (h.off_of_price hf hl fun y hy hp' => ?_)
    rw [he, List.mem_append, List.mem_cons] at hy
    have hsort := h.sorted o.info.side
    rw [he] at hsort
    have hother := hsort.between.ne
    rcases hy with hy | rfl | hy
    · exact absurd (hp'.trans hp.symm) (hother y (List.mem_append_left _ hy))
    · exact hne
    · exact absurd (hp'.trans hp.symm) (hother y (List.mem_append_right _ hy))
  | short ws bs x he _ hid hlt =>
    have hcov := h.level o.info.side x (by rw [he]; simp)
    rw [hcov.qty, hid hlev] at hlt
    omega
  | emptied ws bs x _ he _ hid heq =>
    have hx : x ∈ (b.sides o.info.side).e := by rw [he]; simp
    have hcov := h.level o.info.side x hx
    have hid := hid hlev
    have hsort := h.sorted o.info.side
    rw [he] at hsort
    have hfar : ∀ y : Entry, y.id ≠ x.id → Elsewhere l y.id (some o) ∧ Elsewhere l y.id (remainder o qty) := by
      intro y hne
      refine ⟨fun w hw' hon => ?_, fun w hw' hon => ?_⟩
      · cases hw'
        exact hne (hon.2.symm.trans hid.symm)
      · exact hne (hon.2.symm.trans ((hrest w hw').1.trans hid.symm))
    refine h.setSide (OrderBook.setSide_self _ _ _) (fun s' hs' => OrderBook.setSide_ne _ hs' _) hc hsort.remove h.nextId
      (le_refl k) (fun v hv hl' => ?_) (fun y hy => ?_) fun s' hs' y hy => hfar y (h.id_ne_side hx hs' hy)
    · rw [(hrest v hv).1]
      exact h.issued ref o hf hl
    · have hy' : y ∈ (b.sides o.info.side).e := by
        rw [he]
        exact List.mem_append.mpr ((List.mem_append.mp hy).imp_right (List.mem_cons_of_mem x))
      exact (h.level _ y hy').frame hc (hfar y (h.id_ne he hy)).1 (hfar y (h.id_ne he hy)).2 (le_refl k)
  | lessened ws bs x _ he hp hid hlt =>
    have hx : x ∈ (b.sides o.info.side).e := by rw [he]; simp
    have hcov := h.level o.info.side x hx
    have hid := hid hlev
    have hsort := h.sorted o.info.side
    rw [he] at hsort
    have hfar : ∀ y : Entry, y.id ≠ x.id → Elsewhere l y.id (some o) ∧ Elsewhere l y.id (remainder o qty) := by
      intro y hne
      refine ⟨fun w hw' hon => ?_, fun w hw' hon => ?_⟩
      · cases hw'
        exact hne (hon.2.symm.trans hid.symm)
      · exact hne (hon.2.symm.trans ((hrest w hw').1.trans hid.symm))
    have hkeep : ∀ y ∈ ws ++ bs, Covered os' l k o.info.side y := by
      intro y hy
      have hy' : y ∈ (b.sides o.info.side).e := by
        rw [he]
        exact List.mem_append.mpr ((List.mem_append.mp hy).imp_right (List.mem_cons_of_mem x))
      exact (h.level _ y hy').frame hc (hfar y (h.id_ne he hy)).1 (hfar y (h.id_ne he hy)).2 (le_refl k)
    have hqty := hcov.qty
    have hcount := hcov.count
    rw [hid] at hqty hcount
    refine h.setSide (OrderBook.setSide_self _ _ _) (fun s' hs' => OrderBook.setSide_ne _ hs' _) hc
      (Sorted.replace hsort rfl) h.nextId
      (le_refl k) (fun v hv hl' => ?_) (fun y hy => ?_) fun s' hs' y hy => hfar y (h.id_ne_side hx hs' hy)
    · rw [(hrest v hv).1]
      exact h.issued ref o hf hl
    rw [List.mem_append, List.mem_cons] at hy
    rcases hy with hy | rfl | hy
    · exact hkeep y (List.mem_append_left _ hy)
    · refine ⟨hcov.id_pos, hcov.id_le, ?_, ?_, ?_, ?_⟩
      · show 1 ≤ x.lv.qty - qty
        omega
      · show x.lv.qty - qty = os'.total (qtyOn l x.id)
        rw [hid]
        omega
      · show (if whole = true ∧ 1 < x.lv.orders then x.lv.orders - 1 else x.lv.orders) = os'.total (countOn l x.id)
        rw [hid]
        by_cases hall : qty = o.info.qty
        · -- the whole order goes, and another one is left on the level
          have hmore : 1 ≤ os'.total (countOn l o.level) := by
            have hpos : 0 < os'.total (qtyOn l o.level) := by omega
            obtain ⟨r, v, hv, hvpos⟩ := BoundedMap.exists_of_total_pos hpos
            have hon : v.info.locate = l ∧ v.level = o.level := by
              unfold qtyOn at hvpos
              split_ifs at hvpos with hon
              · exact hon
              · exact absurd hvpos (Nat.lt_irrefl 0)
            have := BoundedMap.le_total hv (countOn l o.level)
            rw [show countOn l o.level v = 1 from if_pos hon] at this
            exact this
          rw [if_pos hall] at hcut
          rw [if_pos ⟨hw.mpr hall, by omega⟩]
          omega
        · rw [if_neg hall] at hcut
          rw [if_neg fun h' => hall (hw.mp h'.1)]
          omega
      · intro r v hv hl' hid'
        rw [hc.find] at hv
        by_cases hr : r = ref
        · rw [if_pos hr] at hv
          exact ⟨(hrest v hv).2.2.1, (hrest v hv).2.2.2.trans hp.symm⟩
        · rw [if_neg hr] at hv
          exact hcov.members r v hv hl' hid'
    · exact hkeep y (List.mem_append_right _ hy)

/-! ## Orders that are on the ladder -/

/-- Every live order of `l` is on a level of the ladder. -/
def Posted (orders : BoundedMap Nat OrderRecord) (l : Nat) (b : OrderBook) : Prop :=
  ∀ ref o, orders.find ref = some o → o.info.locate = l → ∃ x ∈ (b.sides o.info.side).e, x.id = o.level

theorem Posted.add (h : Posted os l b) (hs : ∀ s, Sorted s (b.sides s).e) {v : OrderRecord} (hq : 1 ≤ v.info.qty)
    (hlev : v.level = (b.addOrder v.info.side v.info.price v.info.qty).2)
    (hc : BoundedMap.Changed os os' ref none (some v))
    (hover : (b.addOrder v.info.side v.info.price v.info.qty).1.overflows = b.overflows) :
    Posted os' l (b.addOrder v.info.side v.info.price v.info.qty).1 := by
  -- the ids on one side grow, those on the other stay
  have hgrow : ∀ {b' : OrderBook} {e : List Entry}, (b'.sides v.info.side).e = e →
      (∀ s', s' ≠ v.info.side → b'.sides s' = b.sides s') →
      (∀ y ∈ (b.sides v.info.side).e, ∃ z ∈ e, z.id = y.id) → (∃ z ∈ e, z.id = v.level) → Posted os' l b' := by
    intro b' e hb hother hold hnew r o hf hl
    rw [hc.find] at hf
    by_cases hr : r = ref
    · rw [if_pos hr] at hf
      cases hf
      rw [hb]
      exact hnew
    · rw [if_neg hr] at hf
      obtain ⟨y, hy, hid⟩ := h r o hf hl
      by_cases hside : o.info.side = v.info.side
      · rw [hside] at hy ⊢
        obtain ⟨z, hz, hzid⟩ := hold y hy
        exact ⟨z, by rw [hb]; exact hz, hzid.trans hid⟩
      · rw [hother _ hside]
        exact ⟨y, hy, hid⟩
  have hadd := OrderBook.addOrder_cases (hs v.info.side) v.info.price v.info.qty
  generalize b.addOrder v.info.side v.info.price v.info.qty = out at hadd hlev hover ⊢
  cases hadd with
  | nothing h0 => omega
  | full ws bs x _ _ _ _ =>
    have : b.overflows + 1 = b.overflows := hover
    omega
  | joined ws bs x _ he hp _ =>
    refine hgrow (OrderBook.setSide_self _ _ _) (fun s' hs' => OrderBook.setSide_ne _ hs' _) (fun y hy => ?_)
      ⟨_, List.mem_append_right _ List.mem_cons_self, hlev.symm⟩
    rw [he, List.mem_append, List.mem_cons] at hy
    rcases hy with hy | rfl | hy
    · exact ⟨y, List.mem_append_left _ hy, rfl⟩
    · exact ⟨_, List.mem_append_right _ List.mem_cons_self, rfl⟩
    · exact ⟨y, List.mem_append_right _ (List.mem_cons_of_mem _ hy), rfl⟩
  | refused _ _ _ =>
    have : b.overflows + 1 = b.overflows := hover
    omega
  | evicted x ws bs _ _ _ _ =>
    have : b.overflows + 1 = b.overflows := hover
    omega
  | inserted ws bs _ he _ _ =>
    refine hgrow (e := ws ++ ⟨⟨v.info.price, v.info.qty, 1⟩, b.nextId⟩ :: bs) (by simp [OrderBook.place])
      (fun s' hs' => OrderBook.setSide_ne _ hs' _) (fun y hy => ?_)
      ⟨_, List.mem_append_right _ List.mem_cons_self, hlev.symm⟩
    rw [he, List.mem_append] at hy
    rcases hy with hy | hy
    · exact ⟨y, List.mem_append_left _ hy, rfl⟩
    · exact ⟨y, List.mem_append_right _ (List.mem_cons_of_mem _ hy), rfl⟩

/-- The orders that were on the ladder still are, when an order loses shares without its level going. -/
theorem Posted.frame (h : Posted os l b) {b' : OrderBook} {o : OrderRecord}
    (hc : BoundedMap.Changed os os' ref (some o) now)
    (hnew : ∀ v, now = some v → v.level = o.level ∧ v.info.locate = o.info.locate ∧ v.info.side = o.info.side)
    (hids : ∀ s, ∀ y ∈ (b.sides s).e, (∃ r v, os'.find r = some v ∧ v.info.locate = l ∧ v.level = y.id) →
      ∃ z ∈ (b'.sides s).e, z.id = y.id) : Posted os' l b' := by
  intro r v hf hl
  have hv : ∃ y ∈ (b.sides v.info.side).e, y.id = v.level := by
    have hf' := hf
    rw [hc.find] at hf'
    by_cases hr : r = ref
    · rw [if_pos hr] at hf'
      obtain ⟨h₁, h₂, h₃⟩ := hnew v hf'
      obtain ⟨y, hy, hid⟩ := h ref o hc.before (h₂.symm.trans hl)
      exact ⟨y, by rw [h₃]; exact hy, hid.trans h₁.symm⟩
    · rw [if_neg hr] at hf'
      exact h r v hf' hl
  obtain ⟨y, hy, hid⟩ := hv
  obtain ⟨z, hz, hzid⟩ := hids v.info.side y hy ⟨r, v, hf, hl, hid.symm⟩
  exact ⟨z, hz, hzid.trans hid⟩

theorem remainder_some {o v : OrderRecord} {qty : Nat} (h : remainder o qty = some v) :
    v = { o with info := { o.info with qty := o.info.qty - qty } } ∧ qty ≠ o.info.qty := by
  unfold remainder at h
  split_ifs at h with he
  exact ⟨(Option.some.inj h).symm, he⟩

theorem Posted.take (h : Posted os l b) (hsound : Sound os l k b) {o : OrderRecord} {qty : Nat}
    (hf : os.find ref = some o) (hl : o.info.locate = l) (hle : qty ≤ o.info.qty) (hlev : o.level ≠ kNoLevel)
    (hc : BoundedMap.Changed os os' ref (some o) (remainder o qty)) (whole : Bool)
    (hpos : ∀ r v, os'.find r = some v → 1 ≤ v.info.qty) :
    Posted os' l (b.take o.info.side o.info.price qty o.level whole).1 := by
  have hnew : ∀ v, remainder o qty = some v →
      v.level = o.level ∧ v.info.locate = o.info.locate ∧ v.info.side = o.info.side := by
    intro v hv
    rw [(remainder_some hv).1]
    exact ⟨rfl, rfl, rfl⟩
  have hcut := (total_cut hc hl).1
  have hown := BoundedMap.le_total hf (qtyOn l o.level)
  rw [show qtyOn l o.level o = o.info.qty from if_pos ⟨hl, rfl⟩] at hown
  have hsame : ∀ {b' : OrderBook}, b' = b → Posted os' l b' := by
    rintro b' rfl
    exact h.frame hc hnew fun s y hy _ => ⟨y, hy, rfl⟩
  have htake := OrderBook.take_cases (hsound.sorted o.info.side) o.info.price qty o.level whole
  generalize b.take o.info.side o.info.price qty o.level whole = out at htake ⊢
  cases htake with
  | nothing _ => exact hsame rfl
  | untracked _ => exact hsame rfl
  | stale _ _ _ _ _ _ _ => exact hsame rfl
  | short _ _ _ _ _ _ _ => exact hsame rfl
  | emptied ws bs x _ he _ hid heq =>
    have hcov := hsound.level o.info.side x (by rw [he]; simp)
    have hid := hid hlev
    -- the level held this order alone
    have hqty := hcov.qty
    rw [hid] at hqty
    have hall : remainder o qty = none := if_pos (by omega)
    rw [hall, Option.elim_none] at hcut
    refine h.frame hc hnew fun s y hy ⟨r, v, hv, hvl, hvlev⟩ => ?_
    have hne : y.id ≠ x.id := by
      intro hyx
      have := BoundedMap.le_total hv (qtyOn l o.level)
      rw [show qtyOn l o.level v = v.info.qty from if_pos ⟨hvl, by rw [hvlev, hyx, hid]⟩] at this
      have := hpos r v hv
      omega
    by_cases hs : s = o.info.side
    · subst hs
      rw [he, List.mem_append, List.mem_cons] at hy
      refine ⟨y, ?_, rfl⟩
      show y ∈ ((b.setSide o.info.side (ws ++ bs)).sides o.info.side).e
      rw [OrderBook.setSide_self]
      rcases hy with hy | rfl | hy
      · exact List.mem_append_left _ hy
      · exact absurd rfl hne
      · exact List.mem_append_right _ hy
    · refine ⟨y, ?_, rfl⟩
      show y ∈ ((b.setSide o.info.side (ws ++ bs)).sides s).e
      rw [OrderBook.setSide_ne _ hs]
      exact hy
  | lessened ws bs x _ he _ _ _ =>
    refine h.frame hc hnew fun s y hy _ => ?_
    by_cases hs : s = o.info.side
    · subst hs
      rw [he, List.mem_append, List.mem_cons] at hy
      show ∃ z ∈ ((b.setSide o.info.side _).sides o.info.side).e, z.id = y.id
      rw [OrderBook.setSide_self]
      rcases hy with hy | rfl | hy
      · exact ⟨y, List.mem_append_left _ hy, rfl⟩
      · exact ⟨_, List.mem_append_right _ List.mem_cons_self, rfl⟩
      · exact ⟨y, List.mem_append_right _ (List.mem_cons_of_mem _ hy), rfl⟩
    · refine ⟨y, ?_, rfl⟩
      show y ∈ ((b.setSide o.info.side _).sides s).e
      rw [OrderBook.setSide_ne _ hs]
      exact hy

/-! ## The books -/

/-- Every book is sound, with at most `n` levels created by now in any of them. -/
structure Aggregates (mb : MarketBooks) (n : Nat) : Prop where
  positive : ∀ ref o, mb.orders.find ref = some o → 1 ≤ o.info.qty
  homed : ∀ ref o, mb.orders.find ref = some o → ((mb.slots o.info.locate).book).isSome = true
  held : mb.orders.size ≤ mb.orders.limit
  sound : ∀ l b, (mb.slots l).book = some b → ∃ k, k ≤ n ∧ Sound mb.orders l k b
  posted : mb.overflows = 0 → ∀ l b, (mb.slots l).book = some b → Posted mb.orders l b

namespace MarketBooks

/-- The next id of the book of a locate. -/
def idCounter (mb : MarketBooks) (l : Nat) : Nat := (mb.ensureBook (mb.slots l)).nextId

/-- The locate whose ladder a message can add a level to. -/
def target (mb : MarketBooks) : Message → Option Nat
  | .addOrder m => some m.h.locate
  | .orderReplace m => (mb.orders.find m.oldRef).map fun o => o.info.locate
  | _ => none

/-- The number of levels a message creates: its book gives out one id for each. -/
def newLevels (mb : MarketBooks) (m : Message) : Nat :=
  match mb.target m with
  | some l => if (mb.on m).1.idCounter l = mb.idCounter l then 0 else 1
  | none => 0

/-- The number of levels a sequence of messages creates. -/
def levelsCreated (mb : MarketBooks) : List Message → Nat
  | [] => 0
  | m :: ms => mb.newLevels m + (mb.on m).1.levelsCreated ms

end MarketBooks

namespace Aggregates
variable {mb mb' : MarketBooks} {n n' : Nat}

theorem new (config : MarketBooks.Config) : Aggregates (.new config) 0 where
  positive := fun _ _ h => by cases h
  homed := fun _ _ h => by cases h
  held := Nat.zero_le _
  sound := fun _ _ h => by cases h
  posted := fun _ _ _ h => by cases h

theorem mono (h : Aggregates mb n) (hn : n ≤ n') : Aggregates mb n' :=
  { h with
    sound := fun l b hb => by
      obtain ⟨k, hk, hs⟩ := h.sound l b hb
      exact ⟨k, hk.trans hn, hs⟩ }

/-- Nothing that is aggregated changes. -/
theorem same (h : Aggregates mb n) (ho : mb'.orders = mb.orders)
    (hb : ∀ l, (mb'.slots l).book = (mb.slots l).book) (hov : mb'.overflows = mb.overflows) : Aggregates mb' n where
  positive := by rw [ho]; exact h.positive
  homed := by
    intro r o hf
    rw [ho] at hf
    rw [hb]
    exact h.homed r o hf
  held := by rw [ho]; exact h.held
  sound := by
    intro l b hl
    rw [hb] at hl
    rw [ho]
    exact h.sound l b hl
  posted := by
    intro hz l b hl
    rw [hb] at hl
    rw [ho]
    exact h.posted (hov ▸ hz) l b hl

/-- The orders and the book of one locate change. -/
theorem change (h : Aggregates mb n) {l : Nat} {b : OrderBook}
    (hc : BoundedMap.Changed mb.orders mb'.orders ref old now)
    (hother : ∀ l', l' ≠ l → (mb'.slots l').book = (mb.slots l').book) (hbook : (mb'.slots l).book = some b)
    (hold : ∀ v, old = some v → v.info.locate = l) (hnew : ∀ v, now = some v → v.info.locate = l ∧ 1 ≤ v.info.qty)
    (hheld : mb'.orders.size ≤ mb'.orders.limit) (hn : n ≤ n') (hs : ∃ k, k ≤ n' ∧ Sound mb'.orders l k b)
    (hp : mb'.overflows = 0 → mb.overflows = 0 ∧ Posted mb'.orders l b) : Aggregates mb' n' where
  positive := by
    intro r o hf
    rw [hc.find] at hf
    by_cases hr : r = ref
    · rw [if_pos hr] at hf
      exact (hnew o hf).2
    · rw [if_neg hr] at hf
      exact h.positive r o hf
  homed := by
    intro r o hf
    by_cases hl : o.info.locate = l
    · rw [hl, hbook]
      rfl
    · rw [hother _ hl]
      rw [hc.find] at hf
      by_cases hr : r = ref
      · rw [if_pos hr] at hf
        exact absurd (hnew o hf).1 hl
      · rw [if_neg hr] at hf
        exact h.homed r o hf
  held := hheld
  sound := by
    intro l' b' hb'
    by_cases hl : l' = l
    · subst hl
      rw [hbook] at hb'
      cases hb'
      exact hs
    · rw [hother l' hl] at hb'
      obtain ⟨k, hk, hsound⟩ := h.sound l' b' hb'
      exact ⟨k, hk.trans hn, hsound.frame hc (fun v hv he => hl (he.symm.trans (hold v hv)))
        fun v hv he => hl (he.symm.trans (hnew v hv).1)⟩
  posted := by
    intro hz l' b' hb'
    by_cases hl : l' = l
    · subst hl
      rw [hbook] at hb'
      cases hb'
      exact (hp hz).2
    · rw [hother l' hl] at hb'
      intro r o hf hol
      rw [hc.find] at hf
      by_cases hr : r = ref
      · rw [if_pos hr] at hf
        exact absurd (hol.symm.trans (hnew o hf).1) hl
      · rw [if_neg hr] at hf
        exact h.posted (hp hz).1 l' b' hb' r o hf hol

theorem ensureBook (h : Aggregates mb n) (l : Nat) :
    (∃ k, k ≤ n ∧ Sound mb.orders l k (mb.ensureBook (mb.slots l))) ∧
      (mb.overflows = 0 → Posted mb.orders l (mb.ensureBook (mb.slots l))) := by
  unfold MarketBooks.ensureBook
  cases hb : (mb.slots l).book with
  | some b => exact ⟨h.sound l b hb, fun hz => h.posted hz l b hb⟩
  | none =>
    -- no order has a locate without a book
    have hnone : ∀ r o, mb.orders.find r = some o → o.info.locate ≠ l := by
      rintro r o hf rfl
      have := h.homed r o hf
      rw [hb] at this
      cases this
    refine ⟨⟨0, Nat.zero_le n, ⟨fun _ => List.Pairwise.nil, rfl, fun r o hf hl => absurd hl (hnone r o hf),
      fun _ _ hx => absurd hx List.not_mem_nil⟩⟩, fun _ r o hf hl => absurd hl (hnone r o hf)⟩

theorem insertOrder (h : Aggregates mb n) (ref loc : Nat) (side : Side) (price : Int) {qty : Nat}
    (hfree : mb.orders.find ref = none) (hroom : mb.orders.size < mb.orders.limit) (hq : 1 ≤ qty)
    (hn : n + (if (mb.insertOrder ref loc side price qty).1.idCounter loc = mb.idCounter loc then 0 else 1) <
      18446744073709551616) :
    Aggregates (mb.insertOrder ref loc side price qty).1
      (n + if (mb.insertOrder ref loc side price qty).1.idCounter loc = mb.idCounter loc then 0 else 1) := by
  obtain ⟨⟨k, hk, hs⟩, hp⟩ := h.ensureBook loc
  have hslot : ((mb.insertOrder ref loc side price qty).1.slots loc).book =
      some ((mb.ensureBook (mb.slots loc)).addOrder side price qty).1 := by
    simp [MarketBooks.insertOrder, MarketBooks.setSlot]
  have hcounter : (mb.insertOrder ref loc side price qty).1.idCounter loc =
      ((mb.ensureBook (mb.slots loc)).addOrder side price qty).1.nextId := by
    unfold MarketBooks.idCounter
    rw [MarketBooks.ensureBook, hslot]
    rfl
  have hold : mb.idCounter loc = (mb.ensureBook (mb.slots loc)).nextId := rfl
  rw [hcounter, hold] at hn ⊢
  have hins := BoundedMap.insert_fresh (m := mb.orders)
    (⟨⟨loc, side, price, qty⟩, ((mb.ensureBook (mb.slots loc)).addOrder side price qty).2⟩ : OrderRecord) hfree hroom
  have horders : mb.orders.insert ref
      ⟨⟨loc, side, price, qty⟩, ((mb.ensureBook (mb.slots loc)).addOrder side price qty).2⟩ =
      ((mb.insertOrder ref loc side price qty).1.orders, true) := by
    rw [hins]
    simp only [MarketBooks.insertOrder]
    rw [hins]
  have hc := BoundedMap.Changed.insert horders
  refine h.change hc (l := loc) (fun l' hl => ?_) hslot (fun v hv => by cases hv)
    (fun v hv => by cases hv; exact ⟨rfl, hq⟩) ?_ (Nat.le_add_right _ _) ?_ fun hz => ?_
  · simp [MarketBooks.insertOrder, MarketBooks.setSlot, hl]
  · rw [BoundedMap.size_insert_true horders, BoundedMap.limit_insert horders]
    exact hroom
  · refine ⟨_, ?_, hs.add rfl hq rfl hc fun hne => ?_⟩
    · show (if ((mb.ensureBook (mb.slots loc)).addOrder side price qty).1.nextId =
          (mb.ensureBook (mb.slots loc)).nextId then k else k + 1) ≤ _
      split_ifs <;> omega
    · have hne : ¬((mb.ensureBook (mb.slots loc)).addOrder side price qty).1.nextId =
          (mb.ensureBook (mb.slots loc)).nextId := hne
      rw [if_neg hne] at hn
      omega
  · -- no limit was hit before, nor by this order
    have hz : mb.overflows + (((mb.ensureBook (mb.slots loc)).addOrder side price qty).1.overflows -
        (mb.ensureBook (mb.slots loc)).overflows) = 0 := hz
    have hmono : (mb.ensureBook (mb.slots loc)).overflows ≤
        ((mb.ensureBook (mb.slots loc)).addOrder side price qty).1.overflows := by
      have hadd := OrderBook.addOrder_cases (hs.sorted side) price qty
      generalize (mb.ensureBook (mb.slots loc)).addOrder side price qty = out at hadd ⊢
      cases hadd with
      | nothing _ => exact le_refl _
      | full _ _ _ _ _ _ _ => exact Nat.le_succ _
      | joined _ _ _ _ _ _ _ => exact le_refl _
      | refused _ _ _ => exact Nat.le_succ _
      | evicted _ _ _ _ _ _ _ => exact Nat.le_succ _
      | inserted _ _ _ _ _ _ => exact le_refl _
    refine ⟨by omega, (hp (by omega)).add hs.sorted hq rfl hc ?_⟩
    show ((mb.ensureBook (mb.slots loc)).addOrder side price qty).1.overflows = _
    omega

/-- An order loses some or all of its shares. -/
theorem cut (h : Aggregates mb n) {ref qty : Nat} {o : OrderRecord} {whole : Bool}
    (hf : mb.orders.find ref = some o) (hq : 1 ≤ qty) (hle : qty ≤ o.info.qty) (hw : whole = true ↔ qty = o.info.qty)
    (hc : BoundedMap.Changed mb.orders mb'.orders ref (some o) (remainder o qty))
    (hheld : mb'.orders.size ≤ mb'.orders.limit) (hov : mb'.overflows = mb.overflows)
    (hother : ∀ l', l' ≠ o.info.locate → (mb'.slots l').book = (mb.slots l').book)
    (hbook : (mb'.slots o.info.locate).book =
      if o.level ≠ kNoLevel then
        (mb.slots o.info.locate).book.map fun b => (b.take o.info.side o.info.price qty o.level whole).1
      else (mb.slots o.info.locate).book) : Aggregates mb' n := by
  obtain ⟨b, hb⟩ := Option.isSome_iff_exists.mp (h.homed ref o hf)
  obtain ⟨k, hk, hs⟩ := h.sound _ b hb
  have hrest : ∀ v, remainder o qty = some v → v.info.locate = o.info.locate ∧ 1 ≤ v.info.qty := by
    intro v hv
    rw [(remainder_some hv).1]
    refine ⟨rfl, ?_⟩
    show 1 ≤ o.info.qty - qty
    have := (remainder_some hv).2
    omega
  have hpos : ∀ r v, mb'.orders.find r = some v → 1 ≤ v.info.qty := by
    intro r v hv
    rw [hc.find] at hv
    by_cases hr : r = ref
    · rw [if_pos hr] at hv
      exact (hrest v hv).2
    · rw [if_neg hr] at hv
      exact h.positive r v hv
  rw [hb] at hbook
  by_cases hlev : o.level = kNoLevel
  · rw [if_neg (not_not.mpr hlev)] at hbook
    refine h.change hc hother hbook (fun v hv => by cases hv; rfl) hrest hheld (le_refl n) ⟨k, hk, ?_⟩ fun hz => ?_
    · refine hs.off hc (fun s y hy hid => (hs.level s y hy).id_pos (hid.trans hlev)) (fun v hv => ?_)
        (hs.issued ref o hf) fun v hv => (hrest v hv).1
      rw [(remainder_some hv).1]
    · refine ⟨hov ▸ hz, (h.posted (hov ▸ hz) _ b hb).frame hc (fun v hv => ?_) fun s y hy _ => ⟨y, hy, rfl⟩⟩
      rw [(remainder_some hv).1]
      exact ⟨rfl, rfl, rfl⟩
  · rw [if_pos hlev, Option.map_some] at hbook
    refine h.change hc hother hbook (fun v hv => by cases hv; rfl) hrest hheld (le_refl n)
      ⟨k, hk, hs.take hf rfl hq hle hlev hc hw⟩ fun hz => ?_
    exact ⟨hov ▸ hz, (h.posted (hov ▸ hz) _ b hb).take hs hf rfl hle hlev hc whole hpos⟩

theorem withBook_book (mb : MarketBooks) (loc : Nat) (f : OrderBook → OrderBook) :
    ((mb.withBook loc f).slots loc).book = (mb.slots loc).book.map f ∧
      ∀ l, l ≠ loc → (mb.withBook loc f).slots l = mb.slots l := by
  refine ⟨by simp [MarketBooks.withBook, MarketBooks.setSlot], fun l hl => ?_⟩
  simp [MarketBooks.withBook, MarketBooks.setSlot, hl]

theorem drop_slots {o : OrderRecord} (hf : mb.orders.find ref = some o) :
    (mb.drop ref).orders = mb.orders.erase ref ∧ (mb.drop ref).overflows = mb.overflows ∧
      (∀ l, l ≠ o.info.locate → (mb.drop ref).slots l = mb.slots l) ∧
      ((mb.drop ref).slots o.info.locate).book =
        if o.level ≠ kNoLevel then
          (mb.slots o.info.locate).book.map fun b => (b.take o.info.side o.info.price o.info.qty o.level true).1
        else (mb.slots o.info.locate).book := by
  unfold MarketBooks.drop
  rw [hf]
  dsimp only
  by_cases hlev : o.level ≠ kNoLevel
  · rw [if_pos hlev, if_pos hlev]
    refine ⟨rfl, rfl, fun l hl => (withBook_book mb _ _).2 l hl, ?_⟩
    refine ((withBook_book mb _ _).1).trans ?_
    simp only [OrderBook.removeOrder, if_pos hlev]
  · rw [if_neg hlev, if_neg hlev]
    exact ⟨rfl, rfl, fun _ _ => rfl, rfl⟩

theorem drop (h : Aggregates mb n) {o : OrderRecord} (hf : mb.orders.find ref = some o) : Aggregates (mb.drop ref) n := by
  obtain ⟨h₁, h₂, h₃, h₄⟩ := drop_slots hf
  have hc := BoundedMap.Changed.erase hf
  rw [← h₁] at hc
  have hrem : remainder o o.info.qty = none := if_pos rfl
  refine h.cut hf (h.positive ref o hf) (le_refl _) (by simp) (hrem ▸ hc) ?_ h₂ (fun l' hl => by rw [h₃ l' hl]) h₄
  have := BoundedMap.size_erase hf
  have := h.held
  rw [h₁, BoundedMap.limit_erase]
  omega

theorem reduce (h : Aggregates mb n) (ref shares : Nat) (tradePrice : Option Int) (execution : Bool) :
    Aggregates (mb.reduce ref shares tradePrice execution).1 n := by
  unfold MarketBooks.reduce
  cases hf : mb.orders.find ref with
  | none => exact h
  | some o =>
    dsimp only
    by_cases h₁ : shares = 0
    · rw [if_pos h₁]
      exact h
    rw [if_neg h₁]
    by_cases h₂ : o.info.qty < shares
    · rw [if_pos h₂]
      exact h.drop hf
    rw [if_neg h₂]
    have hcut : Aggregates
        (if shares = o.info.qty then mb.drop ref
        else
          let mb :=
            if o.level ≠ kNoLevel then
              mb.withBook o.info.locate fun b => (b.reduceOrder o.info.side o.info.price shares o.level).1
            else mb
          { mb with orders := mb.orders.set ref { o with info := { o.info with qty := o.info.qty - shares } } }) n := by
      by_cases h₃ : shares = o.info.qty
      · rw [if_pos h₃]
        exact h.drop hf
      rw [if_neg h₃]
      have hrem : remainder o shares = some { o with info := { o.info with qty := o.info.qty - shares } } := if_neg h₃
      have hpart : false = true ↔ shares = o.info.qty := by simp [h₃]
      have hsize := BoundedMap.size_set hf { o with info := { o.info with qty := o.info.qty - shares } }
      by_cases hlev : o.level ≠ kNoLevel
      · rw [if_pos hlev]
        refine h.cut hf (by omega) (by omega) hpart (hrem ▸ BoundedMap.Changed.set hf _)
          (hsize.le.trans h.held) rfl (fun l' hl => congrArg Slot.book ((withBook_book mb _ _).2 l' hl)) ?_
        rw [if_pos hlev]
        refine ((withBook_book mb _ _).1).trans ?_
        simp only [OrderBook.reduceOrder, if_pos hlev]
      · rw [if_neg hlev]
        refine h.cut hf (by omega) (by omega) hpart (hrem ▸ BoundedMap.Changed.set hf _)
          (hsize.le.trans h.held) rfl (fun _ _ => rfl) ?_
        rw [if_neg hlev]
    -- the counters and the last trade do not matter to the ladder
    cases execution with
    | false => exact hcut.same rfl (fun _ => rfl) rfl
    | true =>
      refine hcut.same rfl (fun l => ?_) rfl
      by_cases hl : l = o.info.locate
      · subst hl
        simp [MarketBooks.setSlot]
      · simp [MarketBooks.setSlot, hl]

theorem onStockDirectory (h : Aggregates mb n) (m : Itch.StockDirectory) : Aggregates (mb.onStockDirectory m).1 n := by
  unfold MarketBooks.onStockDirectory
  dsimp only
  by_cases h₁ : m.symbol.isEmpty = true
  · rw [if_pos h₁]
    exact h
  rw [if_neg h₁]
  cases mb.bySymbol.find m.symbol with
  | some bound => exact h
  | none =>
    dsimp only
    by_cases h₂ : (mb.slots m.h.locate).symbol.isEmpty = false
    · rw [if_pos h₂]
      exact h
    rw [if_neg h₂]
    by_cases h₃ : mb.bySymbol.limit ≤ mb.bySymbol.size
    · rw [if_pos h₃]
      exact h
    rw [if_neg h₃]
    obtain ⟨hs, hp⟩ := h.ensureBook m.h.locate
    have hself : ∀ l b, l = m.h.locate →
        ((mb.setSlot m.h.locate { mb.slots m.h.locate with
          book := some (mb.ensureBook (mb.slots m.h.locate)), symbol := m.symbol }).slots l).book = some b →
        b = mb.ensureBook (mb.slots m.h.locate) := by
      rintro l b rfl hb
      simpa [MarketBooks.setSlot] using hb.symm
    have hne : ∀ l, l ≠ m.h.locate →
        (mb.setSlot m.h.locate { mb.slots m.h.locate with
          book := some (mb.ensureBook (mb.slots m.h.locate)), symbol := m.symbol }).slots l = mb.slots l := by
      intro l hl
      simp [MarketBooks.setSlot, hl]
    refine ⟨h.positive, fun r o hf => ?_, h.held, fun l b hb => ?_, fun hz l b hb => ?_⟩
    · by_cases hl : o.info.locate = m.h.locate
      · rw [hl]
        simp [MarketBooks.setSlot]
      · show ((mb.setSlot _ _).slots o.info.locate).book.isSome = true
        rw [hne _ hl]
        exact h.homed r o hf
    · by_cases hl : l = m.h.locate
      · rw [hself l b hl hb, hl]
        exact hs
      · exact h.sound l b (by rw [← hne l hl]; exact hb)
    · by_cases hl : l = m.h.locate
      · rw [hself l b hl hb, hl]
        exact hp hz
      · exact h.posted hz l b (by rw [← hne l hl]; exact hb)

theorem take_nextId (b : OrderBook) (s : Side) (price : Int) (qty id : Nat) (whole : Bool) :
    (b.take s price qty id whole).1.nextId = b.nextId := by
  unfold OrderBook.take
  split_ifs
  · rfl
  · dsimp only
    split
    · rfl
    · split_ifs <;> rfl

/-- Dropping an order creates no level. -/
theorem drop_idCounter {o : OrderRecord} (hf : mb.orders.find ref = some o) (l : Nat) :
    (mb.drop ref).idCounter l = mb.idCounter l := by
  obtain ⟨_, _, h₃, h₄⟩ := drop_slots hf
  have hconfig : (mb.drop ref).config = mb.config := by
    unfold MarketBooks.drop
    rw [hf]
    dsimp only
    split_ifs <;> rfl
  unfold MarketBooks.idCounter MarketBooks.ensureBook
  rw [hconfig]
  by_cases hl : l = o.info.locate
  · subst hl
    rw [h₄]
    split_ifs
    · cases (mb.slots o.info.locate).book with
      | none => rfl
      | some b => exact take_nextId b _ _ _ _ _
    · rfl
  · rw [h₃ l hl]

theorem addNew (h : Aggregates mb n) (ref loc : Nat) (side : Side) (price : Int) {qty : Nat}
    (hfree : mb.orders.find ref = none) (hroom : mb.orders.size < mb.orders.limit) (hq : 1 ≤ qty) {out : MarketBooks × Applied}
    (hout : out = match mb.insertOrder ref loc side price qty with
      | (mb, true) => (({ mb with applied := mb.applied + 1 } : MarketBooks), Applied.ok)
      | (mb, false) => (mb, .capacity))
    (hn : n + (if out.1.idCounter loc = mb.idCounter loc then 0 else 1) < 18446744073709551616) :
    Aggregates out.1 (n + if out.1.idCounter loc = mb.idCounter loc then 0 else 1) := by
  have hins := h.insertOrder ref loc side price hfree hroom hq
  subst hout
  rcases hmb : mb.insertOrder ref loc side price qty with ⟨mb', _ | _⟩
  · rw [hmb] at hins hn
    exact hins hn
  · rw [hmb] at hins hn
    exact (hins hn).same rfl (fun _ => rfl) rfl

/-- **One message.** -/
theorem on (h : Aggregates mb n) (m : Message) (hn : n + mb.newLevels m < 18446744073709551616) :
    Aggregates (mb.on m).1 (n + mb.newLevels m) := by
  cases m with
  | systemEvent m => exact h
  | stockDirectory m => exact h.onStockDirectory m
  | orderExecuted m => exact h.reduce m.ref m.shares none true
  | orderExecutedPrice m => exact h.reduce m.ref m.shares (some m.price) true
  | orderCancel m => exact h.reduce m.ref m.shares none false
  | trade m =>
    refine h.same rfl (fun l => ?_) rfl
    by_cases hl : l = m.h.locate
    · subst hl
      simp [MarketBooks.on, MarketBooks.onTrade, MarketBooks.setSlot]
    · simp [MarketBooks.on, MarketBooks.onTrade, MarketBooks.setSlot, hl]
  | orderDelete m =>
    show Aggregates (mb.onOrderDelete m).1 n
    unfold MarketBooks.onOrderDelete
    cases hf : mb.orders.find m.ref with
    | none => exact h
    | some o => exact (h.drop hf).same rfl (fun _ => rfl) rfl
  | addOrder m =>
    have hcount : mb.newLevels (.addOrder m) =
        if (mb.onAddOrder m).1.idCounter m.h.locate = mb.idCounter m.h.locate then 0 else 1 := rfl
    rw [hcount] at hn ⊢
    show Aggregates (mb.onAddOrder m).1 _
    have hstay : (mb.onAddOrder m).1 = mb → Aggregates (mb.onAddOrder m).1
        (n + if (mb.onAddOrder m).1.idCounter m.h.locate = mb.idCounter m.h.locate then 0 else 1) := by
      intro he
      rw [he, if_pos rfl]
      exact h
    by_cases h₁ : m.shares = 0
    · exact hstay (by simp [MarketBooks.onAddOrder, h₁])
    by_cases h₂ : (mb.orders.find m.ref).isSome = true
    · exact hstay (by simp [MarketBooks.onAddOrder, h₁, h₂])
    by_cases h₃ : mb.orders.limit ≤ mb.orders.size
    · exact hstay (by simp [MarketBooks.onAddOrder, h₁, h₂, h₃])
    refine h.addNew m.ref m.h.locate m.side m.price (by simpa using h₂) (by omega) (Nat.pos_of_ne_zero h₁) ?_ hn
    unfold MarketBooks.onAddOrder
    rewrite [if_neg h₁, if_neg h₂, if_neg h₃]
    rfl
  | orderReplace m =>
    show Aggregates (mb.onOrderReplace m).1 _
    cases hf : mb.orders.find m.oldRef with
    | none =>
      have hcount : mb.newLevels (.orderReplace m) = 0 := by simp [MarketBooks.newLevels, MarketBooks.target, hf]
      rw [hcount]
      unfold MarketBooks.onOrderReplace
      rw [hf]
      exact h
    | some o =>
      have hcount : mb.newLevels (.orderReplace m) =
          if (mb.onOrderReplace m).1.idCounter o.info.locate = mb.idCounter o.info.locate then 0 else 1 := by
        have ht : mb.target (.orderReplace m) = some o.info.locate := by
          show (mb.orders.find m.oldRef).map _ = _
          rw [hf]
          rfl
        unfold MarketBooks.newLevels
        rw [ht]
        rfl
      rw [hcount] at hn ⊢
      have hstay : (mb.onOrderReplace m).1 = mb → Aggregates (mb.onOrderReplace m).1
          (n + if (mb.onOrderReplace m).1.idCounter o.info.locate = mb.idCounter o.info.locate then 0 else 1) := by
        intro he
        rw [he, if_pos rfl]
        exact h
      by_cases h₁ : m.shares = 0
      · exact hstay (by simp [MarketBooks.onOrderReplace, hf, h₁])
      by_cases h₂ : (mb.orders.find m.newRef).isSome = true
      · exact hstay (by simp [MarketBooks.onOrderReplace, hf, h₁, h₂])
      obtain ⟨horders, _⟩ := drop_slots hf
      have hne : m.newRef ≠ m.oldRef := by
        intro he
        rw [he, hf] at h₂
        exact h₂ rfl
      have hsize := BoundedMap.size_erase hf
      have hheld := h.held
      rw [← drop_idCounter hf] at hn ⊢
      refine (h.drop hf).addNew m.newRef o.info.locate o.info.side m.price ?_ ?_ (Nat.pos_of_ne_zero h₁) ?_ hn
      · rw [horders, BoundedMap.find_erase_ne _ hne]
        simpa using h₂
      · rw [horders, BoundedMap.limit_erase]
        omega
      · unfold MarketBooks.onOrderReplace
        rw [hf]
        dsimp only
        rewrite [if_neg h₁, if_neg h₂]
        rfl

theorem replay (h : Aggregates mb n) (ms : List Message) (hn : n + mb.levelsCreated ms < 18446744073709551616) :
    Aggregates (Book.replay MarketBooks.on mb ms).1 (n + mb.levelsCreated ms) := by
  induction ms generalizing mb n with
  | nil => exact h
  | cons m ms ih =>
    have hsplit : mb.levelsCreated (m :: ms) = mb.newLevels m + (mb.on m).1.levelsCreated ms := rfl
    rw [hsplit, ← Nat.add_assoc] at hn ⊢
    exact ih (h.on m (by omega)) hn

end Aggregates

/-! ## Totals and prices of a side -/

/-- The quantity of a live order of one side of `l`. -/
def qtyAt (l : Nat) (s : Side) (o : OrderRecord) : Nat :=
  if o.info.locate = l ∧ o.info.side = s then o.info.qty else 0

/-- The prices of the live orders of one side of `l`. -/
def livePrices (mb : MarketBooks) (l : Nat) (s : Side) : Set Int :=
  { p | ∃ ref o, mb.orders.find ref = some o ∧ o.info.locate = l ∧ o.info.side = s ∧ o.info.price = p }

theorem sum_ids_le {e : List Entry} (h : (e.map Entry.id).Nodup) (a q : Nat) :
    (e.map fun x => if a = x.id then q else 0).sum ≤ q := by
  induction e with
  | nil => exact Nat.zero_le q
  | cons x e ih =>
    rw [List.map_cons, List.nodup_cons] at h
    rw [List.map_cons, List.sum_cons]
    by_cases hx : a = x.id
    · have hrest : (e.map fun x => if a = x.id then q else 0).sum = 0 := by
        refine List.sum_eq_zero fun n hn => ?_
        obtain ⟨y, hy, rfl⟩ := List.mem_map.mp hn
        refine if_neg fun hay => h.1 ?_
        rw [← hx, hay]
        exact List.mem_map_of_mem hy
      rw [hrest, if_pos hx]
      exact le_refl q
    · rw [if_neg hx, Nat.zero_add]
      exact ih h.2

theorem Sound.nodup_ids (h : Sound os l k b) (s : Side) : ((b.sides s).e.map Entry.id).Nodup := by
  rw [List.Nodup, List.pairwise_map]
  refine (h.sorted s).imp_of_mem fun hx hy hbetter hid => ?_
  rw [(h.distinct hx hy hid).2, better_irrefl] at hbetter
  cases hbetter

theorem Sound.total_le (h : Sound os l k b) (s : Side) :
    ((b.sides s).e.map fun x => x.lv.qty).sum ≤ os.total (qtyAt l s) := by
  have hswap : ∀ e : List Entry, (∀ x ∈ e, x.lv.qty = os.total (qtyOn l x.id)) →
      (e.map fun x => x.lv.qty).sum = os.total fun o => (e.map fun x => qtyOn l x.id o).sum := by
    intro e he
    induction e with
    | nil =>
      show 0 = (os.entries.entries.map fun _ => 0).sum
      simp
    | cons x e ih =>
      simp only [List.map_cons, List.sum_cons]
      rw [BoundedMap.total_add, ← he x List.mem_cons_self, ih fun y hy => he y (List.mem_cons_of_mem x hy)]
  rw [hswap _ fun x hx => (h.level s x hx).qty]
  refine os.total_mono fun r o hf => ?_
  by_cases hl : o.info.locate = l
  · by_cases hon : ∃ x ∈ (b.sides s).e, x.id = o.level
    · obtain ⟨x, hx, hid⟩ := hon
      have hm := (h.level s x hx).members r o hf hl hid.symm
      rw [show qtyAt l s o = o.info.qty from if_pos ⟨hl, hm.1⟩]
      have := sum_ids_le (h.nodup_ids s) o.level o.info.qty
      simpa [qtyOn, hl] using this
    · have hzero : ((b.sides s).e.map fun x => qtyOn l x.id o).sum = 0 := by
        refine List.sum_eq_zero fun n hn => ?_
        obtain ⟨x, hx, rfl⟩ := List.mem_map.mp hn
        exact if_neg fun h' => hon ⟨x, hx, h'.2.symm⟩
      rw [hzero]
      exact Nat.zero_le _
  · have hzero : ((b.sides s).e.map fun x => qtyOn l x.id o).sum = 0 := by
      refine List.sum_eq_zero fun n hn => ?_
      obtain ⟨x, hx, rfl⟩ := List.mem_map.mp hn
      exact if_neg fun h' => hl h'.1
    rw [hzero]
    exact Nat.zero_le _

theorem Sound.prices {mb : MarketBooks} (h : Sound mb.orders l k b) (hp : Posted mb.orders l b) (s : Side) (p : Int) :
    (∃ x ∈ (b.sides s).e, x.lv.price = p) ↔ p ∈ livePrices mb l s := by
  constructor
  · rintro ⟨x, hx, rfl⟩
    obtain ⟨r, o, hf, hl, hlev⟩ := (h.level s x hx).exists_order
    obtain ⟨h₁, h₂⟩ := (h.level s x hx).members r o hf hl hlev
    exact ⟨r, o, hf, hl, h₁, h₂⟩
  · rintro ⟨r, o, hf, hl, rfl, rfl⟩
    obtain ⟨x, hx, hid⟩ := hp r o hf hl
    exact ⟨x, hx, ((h.level _ x hx).members r o hf hl hid.symm).2.symm⟩

theorem Sorted.best {e : List Entry} (h : Sorted s e) (hx : e.getLast? = some x) :
    ∀ y ∈ e, better s y.lv.price x.lv.price = false := by
  obtain ⟨ws, rfl⟩ := List.getLast?_eq_some_iff.mp hx
  intro y hy
  rw [List.mem_append, List.mem_singleton] at hy
  rcases hy with hy | rfl
  · exact better_asymm ((List.pairwise_append.mp h).2.2 y hy x List.mem_cons_self)
  · exact better_irrefl s _

/-- **The ladder is exactly the aggregation of the live orders.** After every sequence of messages
that creates fewer than `2 ^ 64` levels: every live order has shares left; the quantity and the order
count of every level are those of the live orders of its book's locate whose record carries its id,
and these have its side and its price; a side never totals more than its live orders; and as long as
no limit was hit every live order is on the ladder, each side lists exactly the live prices, and the
best bid and ask are the greatest and the least of them. -/
theorem ladder_aggregates_orders (config : MarketBooks.Config) (ms : List Message) (mb : MarketBooks)
    (hmb : mb = (replay MarketBooks.on (.new config) ms).1)
    (hfew : (MarketBooks.new config).levelsCreated ms < 2 ^ 64) :
    (∀ ref o, mb.orders.find ref = some o → 1 ≤ o.info.qty) ∧
    (∀ l b s x, mb.book l = some b → x ∈ (b.sides s).e →
      x.lv.qty = mb.orders.total (qtyOn l x.id) ∧ x.lv.orders = mb.orders.total (countOn l x.id) ∧
      ∀ ref o, mb.orders.find ref = some o → o.info.locate = l → o.level = x.id →
        o.info.side = s ∧ o.info.price = x.lv.price) ∧
    (∀ l b s, mb.book l = some b → ((b.ladder s).map Level.qty).sum ≤ mb.orders.total (qtyAt l s)) ∧
    (mb.overflows = 0 →
      (∀ ref o, mb.orders.find ref = some o → ∃ b, mb.book o.info.locate = some b ∧
        ∃ x ∈ (b.sides o.info.side).e, x.id = o.level) ∧
      ∀ l b, mb.book l = some b →
        (∀ s, ((b.ladder s).map Level.price).Nodup ∧ ∀ p, p ∈ (b.ladder s).map Level.price ↔ p ∈ livePrices mb l s) ∧
        (∀ lv, b.best .buy = some lv → IsGreatest (livePrices mb l .buy) lv.price) ∧
        ∀ lv, b.best .sell = some lv → IsLeast (livePrices mb l .sell) lv.price) := by
  have h : Aggregates mb (MarketBooks.levelsCreated (.new config) ms) := by
    rw [hmb]
    have := (Aggregates.new config).replay ms (by rw [Nat.zero_add]; exact hfew)
    rwa [Nat.zero_add] at this
  refine ⟨h.positive, fun l b s x hb hx => ?_, fun l b s hb => ?_, fun hz => ⟨fun ref o hf => ?_, fun l b hb => ?_⟩⟩
  · obtain ⟨k, _, hs⟩ := h.sound l b hb
    have hc := hs.level s x hx
    exact ⟨hc.qty, hc.count, hc.members⟩
  · obtain ⟨k, _, hs⟩ := h.sound l b hb
    have hsum : ((b.ladder s).map Level.qty).sum = ((b.sides s).e.map fun x => x.lv.qty).sum := by
      unfold OrderBook.ladder
      rw [List.map_map, List.map_reverse, List.sum_reverse]
      rfl
    rw [hsum]
    exact hs.total_le s
  · obtain ⟨b, hb⟩ := Option.isSome_iff_exists.mp (h.homed ref o hf)
    exact ⟨b, hb, h.posted hz _ b hb ref o hf rfl⟩
  · obtain ⟨k, _, hs⟩ := h.sound l b hb
    have hp := h.posted hz l b hb
    have hmem : ∀ s p, p ∈ (b.ladder s).map Level.price ↔ ∃ x ∈ (b.sides s).e, x.lv.price = p := by
      intro s p
      simp [OrderBook.ladder]
    have hlast : ∀ {s lv}, b.best s = some lv → ∃ x, (b.sides s).e.getLast? = some x ∧ x.lv = lv := by
      intro s lv hbest
      exact Option.map_eq_some_iff.mp hbest
    refine ⟨fun s => ⟨?_, fun p => (hmem s p).trans (hs.prices hp s p)⟩, fun lv hlv => ?_, fun lv hlv => ?_⟩
    · unfold OrderBook.ladder
      rw [List.Nodup, List.map_map, List.pairwise_map, List.pairwise_reverse]
      refine (hs.sorted s).imp fun hbetter he => ?_
      have he : _ = _ := he
      simp only [Function.comp_apply] at he
      rw [he, better_irrefl] at hbetter
      cases hbetter
    · obtain ⟨x, hx, rfl⟩ := hlast hlv
      refine ⟨(hs.prices hp .buy _).mp ⟨x, List.mem_of_getLast? hx, rfl⟩, fun p hpr => ?_⟩
      obtain ⟨y, hy, rfl⟩ := (hs.prices hp .buy p).mpr hpr
      simpa [better] using (hs.sorted .buy).best hx y hy
    · obtain ⟨x, hx, rfl⟩ := hlast hlv
      refine ⟨(hs.prices hp .sell _).mp ⟨x, List.mem_of_getLast? hx, rfl⟩, fun p hpr => ?_⟩
      obtain ⟨y, hy, rfl⟩ := (hs.prices hp .sell p).mpr hpr
      simpa [better] using (hs.sorted .sell).best hx y hy

/-- A buy order. -/
def bid (loc ref shares : Nat) (price : Int) : Message :=
  .addOrder
    { h := ⟨loc, 0, 0⟩
      ref := ref
      side := .buy
      shares := shares
      symbol := Symbol.blank
      price := price
      hasAttribution := false
      mpid := [] }

/-- One order on each of two instruments. -/
def twoBooks : List Message := [bid 1 7 10 100, bid 2 8 20 300]

/-- The first level of every book has id 1: the live orders that carry it, over all books, are more
than those of the level. -/
theorem level_ids_shared_between_books :
    ∃ mb b x, mb = (replay MarketBooks.on (.new {}) twoBooks).1 ∧ mb.overflows = 0 ∧ mb.book 1 = some b ∧
      x ∈ (b.sides .buy).e ∧ x.lv.qty = 10 ∧ mb.orders.total (fun o => if o.level = x.id then o.info.qty else 0) = 30 ∧
      ∃ ref o, mb.orders.find ref = some o ∧ o.level = x.id ∧ o.info.locate ≠ 1 :=
  ⟨_, _, ⟨⟨100, 10, 1⟩, 1⟩, rfl, rfl, rfl, List.mem_cons_self, rfl, rfl, 8, ⟨⟨2, .buy, 300, 20⟩, 1⟩, rfl, rfl, by decide⟩

/-- The best bid of the first of the two books is its one live price. -/
theorem ladder_aggregates_two_books :
    ∃ mb b, mb = (replay MarketBooks.on (.new {}) twoBooks).1 ∧ mb.book 1 = some b ∧
      b.best .buy = some ⟨100, 10, 1⟩ ∧ IsGreatest (livePrices mb 1 .buy) 100 := by
  refine ⟨_, _, rfl, rfl, rfl, ?_⟩
  exact ((ladder_aggregates_orders {} twoBooks _ rfl (by decide)).2.2.2 rfl).2 1 _ rfl |>.2.1 ⟨100, 10, 1⟩ rfl

end OptiTrade.Book
