import OptiTrade.Book.Reference

/-! # The books refine the maps

`Mirrors` relates one sorted array to one map of levels, `Simulates` the whole state to the reference.
The operations of a side are compared case by case with `addOrder_cases` and `take_cases`. -/

namespace OptiTrade.Book
set_option autoImplicit false

open Itch (Message)

/-- A slot of the array as an entry of the map. -/
def Entry.toRef (x : Entry) : (Σ _ : Int, RefLevel) := ⟨x.lv.price, ⟨x.lv.qty, x.lv.orders, x.id⟩⟩

/-- The array holds the levels of the map. -/
structure Mirrors (s : Side) (sb : SideBook) (lv : RefSide) : Prop where
  sorted : Sorted s sb.e
  positive : ∀ x ∈ sb.e, 1 ≤ x.lv.qty
  fits : sb.e.length ≤ sb.capacity
  perm : lv.entries.Perm (sb.e.map Entry.toRef)

namespace Mirrors
variable {s : Side} {sb sb' : SideBook} {lv lv' : RefSide} {ws bs : List Entry} {x : Entry} {price : Int}

theorem keys_perm (h : Mirrors s sb lv) : lv.keys.Perm (sb.e.map fun x => x.lv.price) := by
  have hp := h.perm.map Sigma.fst
  rwa [List.map_map] at hp

theorem length_eq (h : Mirrors s sb lv) : lv.keys.length = sb.e.length := by
  rw [h.keys_perm.length_eq, List.length_map]

theorem lookup_some (h : Mirrors s sb lv) (he : sb.e = ws ++ x :: bs) :
    lv.lookup x.lv.price = some ⟨x.lv.qty, x.lv.orders, x.id⟩ := by
  refine (List.mem_dlookup_iff lv.nodupKeys).mpr (h.perm.mem_iff.mpr ?_)
  rw [he]
  exact List.mem_map.mpr ⟨x, by simp, rfl⟩

theorem lookup_none (h : Mirrors s sb lv) (hn : ∀ y ∈ sb.e, y.lv.price ≠ price) : lv.lookup price = none := by
  refine AList.lookup_eq_none.mpr fun hmem => ?_
  obtain ⟨y, hy, hp⟩ := List.mem_map.mp (h.keys_perm.mem_iff.mp (AList.mem_keys.mp hmem))
  exact hn y hy hp

theorem erase_perm (h : Mirrors s sb lv) (he : sb.e = ws ++ x :: bs) :
    (lv.erase x.lv.price).entries.Perm ((ws ++ bs).map Entry.toRef) := by
  have hk := h.perm.kerase (a := x.lv.price) lv.nodupKeys
  have hs := h.sorted
  rw [he] at hk hs
  have hne := hs.between.ne
  have hws : x.lv.price ∉ (ws.map Entry.toRef).keys := by
    intro hmem
    rw [List.keys, List.map_map] at hmem
    obtain ⟨y, hy, hp⟩ := List.mem_map.mp hmem
    exact hne y (List.mem_append_left _ hy) hp
  rw [List.map_append, List.map_cons, List.kerase_append_right hws, List.kerase_cons_eq (show x.lv.price = x.toRef.1 from rfl),
    ← List.map_append] at hk
  exact hk

theorem insert_perm {v : Entry} (hp : (lv.erase v.lv.price).entries.Perm ((ws ++ bs).map Entry.toRef)) :
    (lv.insert v.lv.price ⟨v.lv.qty, v.lv.orders, v.id⟩).entries.Perm ((ws ++ v :: bs).map Entry.toRef) := by
  have hc := hp.cons v.toRef
  rw [List.map_append] at hc
  rw [List.map_append, List.map_cons]
  exact hc.trans List.perm_middle.symm

/-- A price that has no level yet. -/
theorem insert (h : Mirrors s sb lv) (he : sb.e = ws ++ bs) {v : Entry} (hb : Between s v.lv.price ws bs)
    (hq : 1 ≤ v.lv.qty) (hroom : sb.e.length < sb.capacity) (he' : sb'.e = ws ++ v :: bs)
    (hc : sb'.capacity = sb.capacity) :
    Mirrors s sb' (lv.insert v.lv.price ⟨v.lv.qty, v.lv.orders, v.id⟩) where
  sorted := by
    rw [he']
    exact (he ▸ h.sorted).insert hb
  positive := by
    intro y hy
    rw [he', List.mem_append, List.mem_cons] at hy
    rcases hy with hy | rfl | hy
    · exact h.positive y (by rw [he]; exact List.mem_append_left _ hy)
    · exact hq
    · exact h.positive y (by rw [he]; exact List.mem_append_right _ hy)
  fits := by
    rw [he] at hroom
    rw [he', hc]
    simp only [List.length_append, List.length_cons] at hroom ⊢
    omega
  perm := by
    rw [he']
    refine insert_perm ?_
    have hnone : v.lv.price ∉ lv.entries.keys := by
      have hn : lv.lookup v.lv.price = none := h.lookup_none (by rw [he]; exact hb.ne)
      intro hmem
      have := AList.lookup_isSome.mpr (AList.mem_keys.mpr hmem)
      rw [hn] at this
      cases this
    show (lv.entries.kerase v.lv.price).Perm _
    rw [List.kerase_of_notMem_keys hnone, ← he]
    exact h.perm

theorem erase (h : Mirrors s sb lv) (he : sb.e = ws ++ x :: bs) (he' : sb'.e = ws ++ bs)
    (hc : sb'.capacity = sb.capacity) : Mirrors s sb' (lv.erase x.lv.price) where
  sorted := by
    rw [he']
    exact (he ▸ h.sorted).remove
  positive := by
    intro y hy
    rw [he'] at hy
    exact h.positive y (by rw [he]; exact List.mem_append.mpr ((List.mem_append.mp hy).imp_right (List.mem_cons_of_mem x)))
  fits := by
    have := h.fits
    rw [he] at this
    rw [he', hc]
    simp only [List.length_append, List.length_cons] at this ⊢
    omega
  perm := by
    rw [he']
    exact h.erase_perm he

/-- A level changes in place. -/
theorem replace (h : Mirrors s sb lv) (he : sb.e = ws ++ x :: bs) {v : Entry} (hp : v.lv.price = x.lv.price)
    (hq : 1 ≤ v.lv.qty) (he' : sb'.e = ws ++ v :: bs) (hc : sb'.capacity = sb.capacity) :
    Mirrors s sb' (lv.insert x.lv.price ⟨v.lv.qty, v.lv.orders, v.id⟩) where
  sorted := by
    rw [he']
    exact (he ▸ h.sorted).replace hp
  positive := by
    intro y hy
    rw [he', List.mem_append, List.mem_cons] at hy
    rcases hy with hy | rfl | hy
    · exact h.positive y (by rw [he]; exact List.mem_append_left _ hy)
    · exact hq
    · exact h.positive y (by rw [he]; exact List.mem_append_right _ (List.mem_cons_of_mem x hy))
  fits := by
    have := h.fits
    rw [he] at this
    rw [he', hc]
    simpa using this
  perm := by
    rw [he', ← hp]
    exact insert_perm (hp ▸ h.erase_perm he)

theorem worst_eq (h : Mirrors s sb lv) : lv.worst s = sb.e.head?.map fun x => x.lv.price := by
  have hk := h.keys_perm
  cases he : sb.e with
  | nil =>
    rw [he] at hk
    have hnil : lv.keys = [] := List.perm_nil.mp hk
    cases s <;> simp [RefSide.worst, hnil]
  | cons x bs =>
    have hs := h.sorted
    rw [he] at hk hs
    have hfirst := (List.pairwise_cons.mp hs).1
    have hmem : x.lv.price ∈ lv.keys := hk.mem_iff.mpr (by simp)
    have hall : ∀ p ∈ lv.keys, p = x.lv.price ∨ better s p x.lv.price = true := by
      intro p hp
      obtain ⟨y, hy, rfl⟩ := List.mem_map.mp (hk.mem_iff.mp hp)
      rcases List.mem_cons.mp hy with rfl | hy
      · exact .inl rfl
      · exact .inr (hfirst y hy)
    cases s with
    | buy =>
      refine List.min?_eq_some_iff.mpr ⟨hmem, fun p hp => ?_⟩
      show x.lv.price ≤ p
      rcases hall p hp with h | h
      · omega
      · simp only [better, decide_eq_true_eq] at h
        omega
    | sell =>
      refine List.max?_eq_some_iff.mpr ⟨hmem, fun p hp => ?_⟩
      show p ≤ x.lv.price
      rcases hall p hp with h | h
      · omega
      · simp only [better, decide_eq_true_eq] at h
        omega

/-- The array read from its end is the map sorted. -/
theorem ladder_eq (h : Mirrors s sb lv) : lv.ladder s = sb.e.reverse.map Entry.lv := by
  have htrans : ∀ a b c : Level, (!better s b.price a.price) = true → (!better s c.price b.price) = true →
      (!better s c.price a.price) = true := by
    intro a b c h₁ h₂
    cases s <;> simp only [better, Bool.not_eq_true', decide_eq_false_iff_not] at * <;> omega
  have htotal : ∀ a b : Level, ((!better s b.price a.price) || (!better s a.price b.price)) = true := by
    intro a b
    cases s <;> simp only [better, Bool.or_eq_true, Bool.not_eq_true', decide_eq_false_iff_not] <;> omega
  have hdesc : (sb.e.reverse.map Entry.lv).Pairwise fun a b => better s a.price b.price = true := by
    rw [List.pairwise_map, List.pairwise_reverse]
    exact h.sorted
  have hperm : (lv.ladder s).Perm (sb.e.reverse.map Entry.lv) := by
    have h₁ := h.perm.map fun x => (⟨x.1, x.2.qty, x.2.orders⟩ : Level)
    rw [List.map_map] at h₁
    exact (List.mergeSort_perm _ _).trans (h₁.trans ((List.reverse_perm sb.e).symm.map Entry.lv))
  have hinj : ((sb.e.reverse.map Entry.lv).map Level.price).Nodup := by
    rw [List.Nodup, List.pairwise_map]
    refine hdesc.imp fun hab he => ?_
    rw [he, better_irrefl] at hab
    cases hab
  -- two levels of the same price are the same level
  have hanti : ∀ a b, a ∈ lv.ladder s → b ∈ sb.e.reverse.map Entry.lv → (!better s b.price a.price) = true →
      (!better s a.price b.price) = true → a = b := by
    intro a b ha hb hab hba
    refine List.inj_on_of_nodup_map hinj (hperm.mem_iff.mp ha) hb ?_
    by_contra hne
    rw [better_total (by simpa using hba) hne] at hab
    cases hab
  have hsorted : (lv.ladder s).Pairwise fun a b => (!better s b.price a.price) = true :=
    List.pairwise_mergeSort htrans htotal _
  have hdesc' : (sb.e.reverse.map Entry.lv).Pairwise fun a b => (!better s b.price a.price) = true :=
    hdesc.imp fun hab => by simp [better_asymm hab]
  exact List.Perm.eq_of_pairwise hanti hsorted hdesc' hperm

end Mirrors

/-! ## Books -/

/-- A book and its reference, side by side. -/
structure MirrorsBook (cap : Nat) (b : OrderBook) (rb : RefBook) : Prop where
  side : ∀ s, Mirrors s (b.sides s) (rb.sides s)
  capacity : ∀ s, (b.sides s).capacity = cap
  nextId : b.nextId = rb.nextGen

namespace MirrorsBook
variable {cap : Nat} {b b' : OrderBook} {rb : RefBook} {s : Side} {price : Int} {qty : Nat}

theorem new (cap : Nat) : MirrorsBook cap (.new cap) {} where
  side := fun _ => ⟨List.Pairwise.nil, fun _ hx => absurd hx List.not_mem_nil, Nat.zero_le _, List.Perm.nil⟩
  capacity := fun _ => rfl
  nextId := rfl

theorem set (h : MirrorsBook cap b rb) {lv : RefSide} {next : Nat} (hside : Mirrors s (b'.sides s) lv)
    (hother : ∀ s', s' ≠ s → b'.sides s' = b.sides s') (hcap : (b'.sides s).capacity = cap) (hnext : b'.nextId = next) :
    MirrorsBook cap b' { sides := Function.update rb.sides s lv, nextGen := next } := by
  refine ⟨fun s' => ?_, fun s' => ?_, hnext⟩
  · by_cases hs : s' = s
    · subst hs
      simpa using hside
    · show Mirrors s' (b'.sides s') (Function.update rb.sides s lv s')
      rw [Function.update_of_ne hs, hother s' hs]
      exact h.side s'
  · by_cases hs : s' = s
    · rw [hs]
      exact hcap
    · rw [hother s' hs]
      exact h.capacity s'

theorem same (h : MirrorsBook cap b rb) (hs : b'.sides = b.sides) (hn : b'.nextId = b.nextId) :
    MirrorsBook cap b' { sides := Function.update rb.sides s (rb.sides s), nextGen := rb.nextGen } := by
  rw [Function.update_eq_self]
  exact ⟨fun s' => by rw [hs]; exact h.side s', fun s' => by rw [hs]; exact h.capacity s', by rw [hn]; exact h.nextId⟩

theorem place (h : MirrorsBook cap b rb) {lv : RefSide} {sb : SideBook} {ws bs : List Entry} (n : Nat)
    (hm : Mirrors s sb lv) (hcap : sb.capacity = cap) (he : sb.e = ws ++ bs) (hb : Between s price ws bs)
    (hroom : sb.e.length < cap) (hq : 1 ≤ qty) :
    MirrorsBook cap ({ b with overflows := n }.place s ws bs price qty).1
      { sides := Function.update rb.sides s (lv.insert price ⟨qty, 1, rb.nextGen⟩), nextGen := add64 rb.nextGen 1 } := by
  refine h.set ?_ (fun s' hs => OrderBook.setSide_ne _ hs _) ?_ ?_
  · rw [← h.nextId]
    refine hm.insert (v := ⟨⟨price, qty, 1⟩, b.nextId⟩) he hb hq (by omega) ?_ ?_
    · simp [OrderBook.place]
    · simp [OrderBook.place, h.capacity, hcap]
  · simp [OrderBook.place, h.capacity]
  · show add64 b.nextId 1 = _
    rw [h.nextId]

/-- **An add does the same to the array and to the map.** -/
theorem add (h : MirrorsBook cap b rb) (s : Side) (price : Int) (hq : 1 ≤ qty) :
    (b.addOrder s price qty).2 = ((rb.sides s).add cap s price qty rb.nextGen).2.1 ∧
    (b.addOrder s price qty).1.overflows - b.overflows =
      (if ((rb.sides s).add cap s price qty rb.nextGen).2.2 = true then 1 else 0) ∧
    MirrorsBook cap (b.addOrder s price qty).1
      { sides := Function.update rb.sides s ((rb.sides s).add cap s price qty rb.nextGen).1
        nextGen :=
          if (rb.sides s).lookup price = none ∧
              ((rb.sides s).add cap s price qty rb.nextGen).1.lookup price ≠ none then add64 rb.nextGen 1
          else rb.nextGen } := by
  have hm := h.side s
  have hcap := h.capacity s
  have hfull : ∀ x : Entry, x ∈ (b.sides s).e →
      (OrderBook.Full x qty ↔ kQtyMax < x.lv.qty + qty ∨ x.lv.orders = kOrdersMax) := by
    intro x hx
    have := hm.positive x hx
    unfold OrderBook.Full kQtyMax
    omega
  have hadd := OrderBook.addOrder_cases hm.sorted price qty
  generalize b.addOrder s price qty = out at hadd ⊢
  cases hadd with
  | nothing h0 => omega
  | full ws bs x _ he hp hf =>
    have hl := hm.lookup_some he
    rw [hp] at hl
    have href : (rb.sides s).add cap s price qty rb.nextGen = (rb.sides s, 0, true) := by
      unfold RefSide.add
      rw [hl]
      dsimp only
      rw [if_pos ((hfull x (by rw [he]; simp)).mp hf)]
    rw [href]
    refine ⟨rfl, Nat.add_sub_cancel_left _ _, ?_⟩
    rw [if_neg (by simp [hl])]
    exact h.same rfl rfl
  | joined ws bs x _ he hp hf =>
    have hl := hm.lookup_some he
    rw [hp] at hl
    have href : (rb.sides s).add cap s price qty rb.nextGen =
        ((rb.sides s).insert price ⟨x.lv.qty + qty, x.lv.orders + 1, x.id⟩, x.id, false) := by
      unfold RefSide.add
      rw [hl]
      dsimp only
      rw [if_neg fun h' => hf ((hfull x (by rw [he]; simp)).mpr h')]
    rw [href]
    refine ⟨rfl, Nat.sub_self _, ?_⟩
    rw [if_neg (by simp [hl])]
    refine h.set ?_ (fun s' hs => OrderBook.setSide_ne _ hs _) (by simp [hcap]) h.nextId
    rw [← hp]
    refine hm.replace (v := { x with lv := { x.lv with qty := x.lv.qty + qty, orders := x.lv.orders + 1 } })
      he rfl ?_ (by simp) (by simp)
    show 1 ≤ x.lv.qty + qty
    omega
  | refused _ hlen hb =>
    have hn : (rb.sides s).lookup price = none := hm.lookup_none hb.ne
    have href : (rb.sides s).add cap s price qty rb.nextGen = (rb.sides s, 0, true) := by
      unfold RefSide.add
      rw [hn]
      dsimp only
      rw [if_neg (by rw [hm.length_eq]; omega), hm.worst_eq]
      cases he : (b.sides s).e with
      | nil => rfl
      | cons x bs =>
        have hx := hb.better x (by rw [he]; exact List.mem_cons_self)
        simp only [List.head?_cons, Option.map_some]
        rw [if_pos hx]
    rw [href]
    refine ⟨rfl, Nat.add_sub_cancel_left _ _, ?_⟩
    rw [if_neg (by simp [hn])]
    exact h.same rfl rfl
  | evicted x ws bs _ he hlen hb =>
    have hn : (rb.sides s).lookup price = none := hm.lookup_none (by rw [he]; exact hb.ne)
    have href : (rb.sides s).add cap s price qty rb.nextGen =
        (((rb.sides s).erase x.lv.price).insert price ⟨qty, 1, rb.nextGen⟩, rb.nextGen, true) := by
      unfold RefSide.add
      rw [hn]
      dsimp only
      rw [if_neg (by rw [hm.length_eq]; omega), hm.worst_eq, he]
      simp only [List.cons_append, List.head?_cons, Option.map_some]
      rw [if_neg (by rw [better_asymm (hb.worse x List.mem_cons_self)]; decide)]
    rw [href]
    refine ⟨h.nextId, Nat.add_sub_cancel_left _ _, ?_⟩
    rw [if_pos (by simp [hn])]
    have hfirst : (b.sides s).e = [] ++ x :: (ws ++ bs) := he
    have hdrop : Mirrors s { b.sides s with e := ws ++ bs } ((rb.sides s).erase x.lv.price) :=
      hm.erase hfirst rfl rfl
    refine h.place _ hdrop hcap rfl ⟨fun y hy => hb.worse y (List.mem_cons_of_mem x hy), hb.better⟩ ?_ hq
    rw [he] at hlen
    simp only [List.cons_append, List.length_cons] at hlen
    show (ws ++ bs).length < cap
    omega
  | inserted ws bs _ he hlen hb =>
    have hn : (rb.sides s).lookup price = none := hm.lookup_none (by rw [he]; exact hb.ne)
    have hroom : (b.sides s).e.length < cap := by
      have := hm.fits
      omega
    have href : (rb.sides s).add cap s price qty rb.nextGen =
        ((rb.sides s).insert price ⟨qty, 1, rb.nextGen⟩, rb.nextGen, false) := by
      unfold RefSide.add
      rw [hn]
      dsimp only
      rw [if_pos (by rw [hm.length_eq]; exact hroom)]
    rw [href]
    refine ⟨h.nextId, Nat.sub_self _, ?_⟩
    rw [if_pos (by simp [hn])]
    exact h.place b.overflows hm hcap he hb hroom hq

/-- **Shares leave the same level of the array and of the map.** `gen` is the incarnation the map asks for: the
same as the array's, or that of the level itself where the array takes any. -/
theorem takeAs (h : MirrorsBook cap b rb) (s : Side) (price : Int) (hq : 1 ≤ qty) (id gen : Nat) (whole : Bool)
    (hgen : ∀ x ∈ (b.sides s).e, x.lv.price = price → (x.id = gen ↔ (id ≠ kNoLevel → x.id = id))) :
    MirrorsBook cap (b.take s price qty id whole).1
      { sides := Function.update rb.sides s ((rb.sides s).take price qty gen whole), nextGen := rb.nextGen } := by
  have hm := h.side s
  have htake := OrderBook.take_cases hm.sorted price qty id whole
  generalize b.take s price qty id whole = out at htake ⊢
  unfold RefSide.take
  cases htake with
  | nothing h0 => omega
  | untracked hn =>
    rw [hm.lookup_none hn]
    exact h.same rfl rfl
  | stale ws bs x he hp hid hne =>
    have hl := hm.lookup_some he
    have hx := hgen x (by rw [he]; simp) hp
    rw [hp] at hl
    rw [hl]
    dsimp only
    rw [if_pos (.inl fun heq => hne (hx.mp heq hid))]
    exact h.same rfl rfl
  | short ws bs x he hp _ hlt =>
    have hl := hm.lookup_some he
    rw [hp] at hl
    rw [hl]
    dsimp only
    rw [if_pos (.inr hlt)]
    exact h.same rfl rfl
  | emptied ws bs x _ he hp hid heq =>
    have hl := hm.lookup_some he
    have hx := (hgen x (by rw [he]; simp) hp).mpr hid
    rw [hp] at hl
    rw [hl]
    dsimp only
    rw [if_neg (by rw [hx]; omega), if_pos heq]
    refine h.set ?_ (fun s' hs => OrderBook.setSide_ne _ hs _) (by simp [h.capacity]) h.nextId
    rw [← hp]
    exact hm.erase he (by simp) (by simp)
  | lessened ws bs x _ he hp hid hlt =>
    have hl := hm.lookup_some he
    have hx := (hgen x (by rw [he]; simp) hp).mpr hid
    rw [hp] at hl
    rw [hl]
    dsimp only
    rw [if_neg (by rw [hx]; omega), if_neg (by omega)]
    refine h.set ?_ (fun s' hs => OrderBook.setSide_ne _ hs _) (by simp [h.capacity]) h.nextId
    rw [← hp]
    refine hm.replace (v := OrderBook.lessened x qty whole) he rfl ?_ (by simp) (by simp)
    show 1 ≤ x.lv.qty - qty
    omega

theorem take (h : MirrorsBook cap b rb) (s : Side) (price : Int) (hq : 1 ≤ qty) {id : Nat} (hid : id ≠ 0)
    (whole : Bool) :
    MirrorsBook cap (b.take s price qty id whole).1
      { sides := Function.update rb.sides s ((rb.sides s).take price qty id whole), nextGen := rb.nextGen } :=
  h.takeAs s price hq id id whole fun _ _ _ => ⟨fun he _ => he, fun hx => hx hid⟩

end MirrorsBook

/-! ## The whole state -/

/-- **The simulation relation**: the tables agree, and every book is that of its reference. -/
structure Simulates (mb : MarketBooks) (r : Reference) : Prop where
  maxOrders : mb.orders.limit = r.maxOrders
  maxLevels : mb.config.maxLevelsPerSide = r.maxLevels
  maxSymbols : mb.bySymbol.limit = r.maxSymbols
  orders : mb.orders.entries = r.orders
  held : mb.orders.size ≤ mb.orders.limit
  positive : ∀ ref o, r.orders.lookup ref = some o → 1 ≤ o.info.qty
  books : ∀ l, Option.Rel (MirrorsBook r.maxLevels) (mb.slots l).book (r.books.lookup l)
  symbols : mb.bySymbol.entries = r.bySymbol
  symbol : ∀ l, (mb.slots l).symbol = (r.symbolOf.lookup l).getD Symbol.blank
  written : ∀ l s, r.symbolOf.lookup l = some s → s.isEmpty = false
  lastTrade : ∀ l, (mb.slots l).lastTrade = (r.lastTrades.lookup l).getD 0
  applied : mb.applied = r.applied
  overflows : mb.overflows = r.overflows

namespace Simulates
variable {mb : MarketBooks} {r : Reference}

theorem new (config : MarketBooks.Config) : Simulates (.new config) (.new config) where
  maxOrders := rfl
  maxLevels := rfl
  maxSymbols := rfl
  orders := rfl
  held := Nat.zero_le _
  positive := fun _ _ h => by cases h
  books := fun _ => .none
  symbols := rfl
  symbol := fun _ => rfl
  written := fun _ _ h => by cases h
  lastTrade := fun _ => rfl
  applied := rfl
  overflows := rfl

theorem find_eq (h : Simulates mb r) (ref : Nat) : mb.orders.find ref = r.orders.lookup ref := by
  rw [← h.orders]
  rfl

theorem size_eq (h : Simulates mb r) : mb.orders.size = r.orders.keys.length := by
  rw [← h.orders]
  rfl

theorem book_cases (h : Simulates mb r) (l : Nat) :
    ((mb.slots l).book = none ∧ r.books.lookup l = none) ∨
    ∃ b rb, (mb.slots l).book = some b ∧ r.books.lookup l = some rb ∧ MirrorsBook r.maxLevels b rb := by
  have hb := h.books l
  generalize (mb.slots l).book = o at hb ⊢
  generalize r.books.lookup l = o' at hb ⊢
  cases hb with
  | none => exact .inl ⟨rfl, rfl⟩
  | some hb => exact .inr ⟨_, _, rfl, rfl, hb⟩

theorem ensureBook (h : Simulates mb r) (loc : Nat) :
    MirrorsBook r.maxLevels (mb.ensureBook (mb.slots loc)) (r.bookAt loc) := by
  unfold MarketBooks.ensureBook Reference.bookAt
  rcases h.book_cases loc with ⟨hs, hl⟩ | ⟨b, rb, hs, hl, hb⟩
  · rw [hs, hl, h.maxLevels]
    exact .new r.maxLevels
  · rw [hs, hl]
    exact hb

/-- The book of one locate changes on both. -/
theorem setBook (h : Simulates mb r) {loc : Nat} {b : OrderBook} {rb : RefBook} (hb : MirrorsBook r.maxLevels b rb) :
    Simulates (mb.setSlot loc { mb.slots loc with book := some b }) { r with books := r.books.insert loc rb } where
  maxOrders := h.maxOrders
  maxLevels := h.maxLevels
  maxSymbols := h.maxSymbols
  orders := h.orders
  held := h.held
  positive := h.positive
  books := by
    intro l
    by_cases hl : l = loc
    · subst hl
      simp only [MarketBooks.setSlot, Function.update_self, AList.lookup_insert]
      exact .some hb
    · simp only [MarketBooks.setSlot, Function.update_of_ne hl, AList.lookup_insert_ne hl]
      exact h.books l
  symbols := h.symbols
  symbol := by
    intro l
    by_cases hl : l = loc
    · subst hl
      simp only [MarketBooks.setSlot, Function.update_self]
      exact h.symbol l
    · simp only [MarketBooks.setSlot, Function.update_of_ne hl]
      exact h.symbol l
  written := h.written
  lastTrade := by
    intro l
    by_cases hl : l = loc
    · subst hl
      simp only [MarketBooks.setSlot, Function.update_self]
      exact h.lastTrade l
    · simp only [MarketBooks.setSlot, Function.update_of_ne hl]
      exact h.lastTrade l
  applied := h.applied
  overflows := h.overflows

theorem setOrders (h : Simulates mb r) (os : BoundedMap Nat OrderRecord) (os' : AList fun _ : Nat => OrderRecord)
    (n n' : Nat) (hl : os.limit = mb.orders.limit) (ho : os.entries = os') (hs : os.size ≤ os.limit)
    (hp : ∀ ref o, os'.lookup ref = some o → 1 ≤ o.info.qty) (hn : n = n') :
    Simulates { mb with orders := os, overflows := n } { r with orders := os', overflows := n' } :=
  ⟨hl.trans h.maxOrders, h.maxLevels, h.maxSymbols, ho, hs, hp, h.books, h.symbols, h.symbol, h.written, h.lastTrade,
    h.applied, hn⟩

theorem insertOrder (h : Simulates mb r) {ref : Nat} (hfree : r.orders.lookup ref = none)
    (hroom : r.orders.keys.length < r.maxOrders) (loc : Nat) (side : Side) (price : Int) {qty : Nat} (hq : 1 ≤ qty) :
    (mb.insertOrder ref loc side price qty).2 = (r.insertOrder ref loc side price qty).2 ∧
      Simulates (mb.insertOrder ref loc side price qty).1 (r.insertOrder ref loc side price qty).1 := by
  obtain ⟨hid, hover, hbook⟩ := (h.ensureBook loc).add side price hq
  have hins : ∀ v, mb.orders.insert ref v = ({ mb.orders with entries := mb.orders.entries.insert ref v }, true) :=
    fun v => BoundedMap.insert_fresh v (by rw [h.find_eq, hfree]) (by rw [h.size_eq, h.maxOrders]; exact hroom)
  unfold MarketBooks.insertOrder Reference.insertOrder
  dsimp only
  rw [hins, hid]
  refine ⟨rfl, ?_⟩
  have hset : Simulates (mb.setSlot loc _) _ := h.setBook hbook
  refine hset.setOrders _ (r.orders.insert ref _) _ _ rfl (by rw [← h.orders]) ?_ ?_ ?_
  · rw [BoundedMap.size_insert_true (hins _)]
    show mb.orders.size + 1 ≤ mb.orders.limit
    rw [h.size_eq, h.maxOrders]
    exact hroom
  · intro ref' o ho
    by_cases hr : ref' = ref
    · subst hr
      rw [AList.lookup_insert] at ho
      rw [← Option.some.inj ho]
      exact hq
    · rw [AList.lookup_insert_ne hr] at ho
      exact h.positive ref' o ho
  · rw [hover, h.overflows]
    split_ifs <;> rfl

/-- Shares of an order leave its level. -/
theorem takeFrom (h : Simulates mb r) (o : OrderRecord) {qty : Nat} (hq : 1 ≤ qty) (whole : Bool) :
    Simulates
      (if o.level ≠ kNoLevel then
        mb.withBook o.info.locate fun b => (b.take o.info.side o.info.price qty o.level whole).1
      else mb) (r.takeFrom o qty whole) := by
  unfold Reference.takeFrom MarketBooks.withBook
  rcases h.book_cases o.info.locate with ⟨hs, hl⟩ | ⟨b, rb, hs, hl, hb⟩
  · -- no book, so nothing to take from
    have hsame : mb.setSlot o.info.locate { mb.slots o.info.locate with book := none } = mb := by
      unfold MarketBooks.setSlot
      rw [← hs]
      simp
    rw [hs, hl, Option.map_none, hsame]
    simpa using h
  · rw [hs, hl]
    dsimp only
    by_cases hlev : o.level = kNoLevel
    · rw [if_neg (not_not.mpr hlev), if_pos (show o.level = 0 from hlev)]
      exact h
    · rw [if_pos hlev, if_neg (show ¬o.level = 0 from hlev)]
      exact h.setBook (hb.take o.info.side o.info.price hq hlev whole)

theorem withBook_removeOrder (mb : MarketBooks) (o : OrderRecord) (qty : Nat) :
    (if o.level ≠ kNoLevel then
      mb.withBook o.info.locate fun b => (b.removeOrder o.info.side o.info.price qty o.level).1
    else mb) =
    if o.level ≠ kNoLevel then
      mb.withBook o.info.locate fun b => (b.take o.info.side o.info.price qty o.level true).1
    else mb := by
  split_ifs with hlev
  · simp only [OrderBook.removeOrder, if_pos hlev]
  · rfl

theorem withBook_reduceOrder (mb : MarketBooks) (o : OrderRecord) (qty : Nat) :
    (if o.level ≠ kNoLevel then
      mb.withBook o.info.locate fun b => (b.reduceOrder o.info.side o.info.price qty o.level).1
    else mb) =
    if o.level ≠ kNoLevel then
      mb.withBook o.info.locate fun b => (b.take o.info.side o.info.price qty o.level false).1
    else mb := by
  split_ifs with hlev
  · simp only [OrderBook.reduceOrder, if_pos hlev]
  · rfl

theorem takeFrom_orders (r : Reference) (o : OrderRecord) (qty : Nat) (whole : Bool) :
    (r.takeFrom o qty whole).orders = r.orders := by
  unfold Reference.takeFrom
  split
  · rfl
  · split_ifs <;> rfl

theorem dropOrder (h : Simulates mb r) {ref : Nat} {o : OrderRecord} (ho : r.orders.lookup ref = some o) :
    Simulates (mb.drop ref) (r.dropOrder ref o) := by
  have ht := h.takeFrom o (h.positive ref o ho) true
  rw [← withBook_removeOrder] at ht
  have hf : mb.orders.find ref = some o := by rw [h.find_eq, ho]
  unfold MarketBooks.drop Reference.dropOrder
  rw [hf]
  dsimp only
  have hfind := ht.find_eq ref
  rw [takeFrom_orders, ho] at hfind
  refine ht.setOrders _ _ _ _ rfl ?_ ?_ ?_ ht.overflows
  · show AList.erase ref _ = AList.erase ref _
    rw [ht.orders]
  · have h₁ := BoundedMap.size_erase hfind
    have h₂ := ht.held
    rw [BoundedMap.limit_erase]
    omega
  · intro ref' o' ho'
    by_cases hr : ref' = ref
    · subst hr
      rw [AList.lookup_erase] at ho'
      cases ho'
    · rw [AList.lookup_erase_ne hr] at ho'
      exact ht.positive ref' o' ho'

/-- The last trade of one locate changes on both. -/
theorem setLastTrade (h : Simulates mb r) (loc : Nat) (price : Int) :
    Simulates (mb.setSlot loc { mb.slots loc with lastTrade := price })
      { r with lastTrades := r.lastTrades.insert loc price } where
  maxOrders := h.maxOrders
  maxLevels := h.maxLevels
  maxSymbols := h.maxSymbols
  orders := h.orders
  held := h.held
  positive := h.positive
  books := by
    intro l
    by_cases hl : l = loc
    · subst hl
      simp only [MarketBooks.setSlot, Function.update_self]
      exact h.books l
    · simp only [MarketBooks.setSlot, Function.update_of_ne hl]
      exact h.books l
  symbols := h.symbols
  symbol := by
    intro l
    by_cases hl : l = loc
    · subst hl
      simp only [MarketBooks.setSlot, Function.update_self]
      exact h.symbol l
    · simp only [MarketBooks.setSlot, Function.update_of_ne hl]
      exact h.symbol l
  written := h.written
  lastTrade := by
    intro l
    by_cases hl : l = loc
    · subst hl
      simp only [MarketBooks.setSlot, Function.update_self, AList.lookup_insert, Option.getD_some]
    · simp only [MarketBooks.setSlot, Function.update_of_ne hl, AList.lookup_insert_ne hl]
      exact h.lastTrade l
  applied := h.applied
  overflows := h.overflows

theorem count (h : Simulates mb r) :
    Simulates { mb with applied := mb.applied + 1 } { r with applied := r.applied + 1 } :=
  { h with applied := congrArg (· + 1) h.applied }

theorem reduce (h : Simulates mb r) (ref shares : Nat) (tradePrice : Option Int) (execution : Bool) :
    (mb.reduce ref shares tradePrice execution).2 = (r.reduce ref shares tradePrice execution).2 ∧
      Simulates (mb.reduce ref shares tradePrice execution).1 (r.reduce ref shares tradePrice execution).1 := by
  unfold MarketBooks.reduce Reference.reduce
  rw [h.find_eq]
  cases ho : r.orders.lookup ref with
  | none => exact ⟨rfl, h⟩
  | some o =>
    dsimp only
    by_cases h₁ : shares = 0
    · rw [if_pos h₁, if_pos h₁]
      exact ⟨rfl, h⟩
    rw [if_neg h₁, if_neg h₁]
    by_cases h₂ : o.info.qty < shares
    · rw [if_pos h₂, if_pos h₂]
      exact ⟨rfl, h.dropOrder ho⟩
    rw [if_neg h₂, if_neg h₂]
    refine ⟨rfl, ?_⟩
    -- the order after the shares are gone
    have hcut : Simulates
        (if shares = o.info.qty then mb.drop ref
        else
          let mb :=
            if o.level ≠ kNoLevel then
              mb.withBook o.info.locate fun b => (b.reduceOrder o.info.side o.info.price shares o.level).1
            else mb
          { mb with orders := mb.orders.set ref { o with info := { o.info with qty := o.info.qty - shares } } })
        (if shares = o.info.qty then r.dropOrder ref o
        else
          let r := r.takeFrom o shares false
          { r with orders := r.orders.insert ref { o with info := { o.info with qty := o.info.qty - shares } } }) := by
      by_cases h₃ : shares = o.info.qty
      · rw [if_pos h₃, if_pos h₃]
        exact h.dropOrder ho
      rw [if_neg h₃, if_neg h₃, withBook_reduceOrder]
      have ht := h.takeFrom o (show 1 ≤ shares by omega) false
      have hfind := ht.find_eq ref
      rw [takeFrom_orders, ho] at hfind
      dsimp only
      refine ht.setOrders _ _ _ _ rfl ?_ ?_ ?_ ht.overflows
      · show AList.insert ref _ _ = AList.insert ref _ _
        rw [ht.orders]
      · rw [BoundedMap.size_set hfind, BoundedMap.limit_set]
        exact ht.held
      · intro ref' o' ho'
        by_cases hr : ref' = ref
        · subst hr
          rw [AList.lookup_insert] at ho'
          rw [← Option.some.inj ho']
          show 1 ≤ o.info.qty - shares
          omega
        · rw [AList.lookup_insert_ne hr] at ho'
          exact ht.positive ref' o' ho'
    cases execution with
    | true => exact (hcut.setLastTrade o.info.locate (tradePrice.getD o.info.price)).count
    | false => exact hcut.count

theorem onStockDirectory (h : Simulates mb r) (m : Itch.StockDirectory) :
    (mb.onStockDirectory m).2 = (r.onStockDirectory m).2 ∧
      Simulates (mb.onStockDirectory m).1 (r.onStockDirectory m).1 := by
  have hfind : mb.bySymbol.find m.symbol = r.bySymbol.lookup m.symbol := by
    rw [← h.symbols]
    rfl
  unfold MarketBooks.onStockDirectory Reference.onStockDirectory
  dsimp only
  by_cases h₁ : m.symbol.isEmpty = true
  · rw [if_pos h₁, if_pos h₁]
    exact ⟨rfl, h⟩
  rw [if_neg h₁, if_neg h₁, hfind]
  cases hb : r.bySymbol.lookup m.symbol with
  | some bound => exact ⟨rfl, h⟩
  | none =>
    dsimp only
    have hbound : (mb.slots m.h.locate).symbol.isEmpty = false ↔ (r.symbolOf.lookup m.h.locate).isSome = true := by
      rw [h.symbol]
      cases hl : r.symbolOf.lookup m.h.locate with
      | none => simp [show Symbol.blank.isEmpty = true from rfl]
      | some s => simp [h.written _ s hl]
    have hsize : mb.bySymbol.size = r.bySymbol.keys.length := by
      rw [← h.symbols]
      rfl
    by_cases h₂ : (mb.slots m.h.locate).symbol.isEmpty = false
    · rw [if_pos h₂, if_pos (hbound.mp h₂)]
      exact ⟨rfl, h⟩
    rw [if_neg h₂, if_neg fun h' => h₂ (hbound.mpr h'), hsize, h.maxSymbols]
    by_cases h₃ : r.maxSymbols ≤ r.bySymbol.keys.length
    · rw [if_pos h₃, if_pos h₃]
      exact ⟨rfl, h⟩
    rw [if_neg h₃, if_neg h₃]
    refine ⟨rfl, ?_⟩
    have hins := BoundedMap.insert_fresh (m := mb.bySymbol) m.h.locate (by rw [hfind, hb])
      (by rw [hsize, h.maxSymbols]; omega)
    rw [hins]
    have hset : Simulates (mb.setSlot m.h.locate _) _ := h.setBook (h.ensureBook m.h.locate)
    refine ⟨h.maxOrders, h.maxLevels, h.maxSymbols, h.orders, h.held, h.positive, ?_, ?_, ?_, ?_, ?_, h.applied,
      h.overflows⟩
    · intro l
      have := hset.books l
      by_cases hl : l = m.h.locate
      · subst hl
        simpa [MarketBooks.setSlot] using this
      · simpa [MarketBooks.setSlot, hl] using this
    · show AList.insert m.symbol _ mb.bySymbol.entries = _
      rw [h.symbols]
    · intro l
      by_cases hl : l = m.h.locate
      · subst hl
        simp [MarketBooks.setSlot]
      · simp only [MarketBooks.setSlot, Function.update_of_ne hl, AList.lookup_insert_ne hl]
        exact h.symbol l
    · intro l s hs
      by_cases hl : l = m.h.locate
      · subst hl
        rw [AList.lookup_insert] at hs
        rw [← Option.some.inj hs]
        simpa using h₁
      · rw [AList.lookup_insert_ne hl] at hs
        exact h.written l s hs
    · intro l
      have := hset.lastTrade l
      by_cases hl : l = m.h.locate
      · subst hl
        simpa [MarketBooks.setSlot] using this
      · simpa [MarketBooks.setSlot, hl] using this

/-- An order the table has room for. -/
theorem counted (h : Simulates mb r) {ref : Nat} (hfree : r.orders.lookup ref = none)
    (hroom : r.orders.keys.length < r.maxOrders) (loc : Nat) (side : Side) (price : Int) {qty : Nat} (hq : 1 ≤ qty) :
    (match mb.insertOrder ref loc side price qty with
      | (mb, true) => (({ mb with applied := mb.applied + 1 } : MarketBooks), Applied.ok)
      | (mb, false) => (mb, .capacity)).2 = (r.addNew ref loc side price qty).2 ∧
    Simulates (match mb.insertOrder ref loc side price qty with
      | (mb, true) => (({ mb with applied := mb.applied + 1 } : MarketBooks), Applied.ok)
      | (mb, false) => (mb, .capacity)).1 (r.addNew ref loc side price qty).1 := by
  obtain ⟨hres, hsim⟩ := h.insertOrder hfree hroom loc side price hq
  unfold Reference.addNew
  rcases hmb : mb.insertOrder ref loc side price qty with ⟨mb', _ | _⟩
  · rcases hr : r.insertOrder ref loc side price qty with ⟨r', _ | _⟩
    · rw [hmb, hr] at hsim
      exact ⟨rfl, hsim⟩
    · rw [hmb, hr] at hres
      cases hres
  · rcases hr : r.insertOrder ref loc side price qty with ⟨r', _ | _⟩
    · rw [hmb, hr] at hres
      cases hres
    · rw [hmb, hr] at hsim
      exact ⟨rfl, hsim.count⟩

/-- **One message: the same code, and related states again.** -/
theorem on (h : Simulates mb r) (m : Message) : (mb.on m).2 = (r.on m).2 ∧ Simulates (mb.on m).1 (r.on m).1 := by
  cases m with
  | systemEvent m => exact ⟨rfl, h⟩
  | stockDirectory m => exact h.onStockDirectory m
  | addOrder m =>
    simp only [MarketBooks.on, MarketBooks.onAddOrder, Reference.on]
    rw [h.find_eq, h.size_eq, h.maxOrders]
    by_cases h₁ : m.shares = 0
    · rw [if_pos h₁, if_pos h₁]
      exact ⟨rfl, h⟩
    rw [if_neg h₁, if_neg h₁]
    by_cases h₂ : (r.orders.lookup m.ref).isSome = true
    · rw [if_pos h₂, if_pos h₂]
      exact ⟨rfl, h⟩
    rw [if_neg h₂, if_neg h₂]
    by_cases h₃ : r.maxOrders ≤ r.orders.keys.length
    · rw [if_pos h₃, if_pos h₃]
      exact ⟨rfl, h⟩
    rw [if_neg h₃, if_neg h₃]
    exact h.counted (by simpa using h₂) (by omega) _ _ _ (by omega)
  | orderExecuted m => exact h.reduce m.ref m.shares none true
  | orderExecutedPrice m => exact h.reduce m.ref m.shares (some m.price) true
  | orderCancel m => exact h.reduce m.ref m.shares none false
  | orderDelete m =>
    simp only [MarketBooks.on, MarketBooks.onOrderDelete, Reference.on]
    rw [h.find_eq]
    cases ho : r.orders.lookup m.ref with
    | none => exact ⟨rfl, h⟩
    | some o => exact ⟨rfl, (h.dropOrder ho).count⟩
  | orderReplace m =>
    simp only [MarketBooks.on, MarketBooks.onOrderReplace, Reference.on]
    rw [h.find_eq]
    cases ho : r.orders.lookup m.oldRef with
    | none => exact ⟨rfl, h⟩
    | some o =>
      dsimp only
      rw [h.find_eq]
      by_cases h₁ : m.shares = 0
      · rw [if_pos h₁, if_pos h₁]
        exact ⟨rfl, h⟩
      rw [if_neg h₁, if_neg h₁]
      by_cases h₂ : (r.orders.lookup m.newRef).isSome = true
      · rw [if_pos h₂, if_pos h₂]
        exact ⟨rfl, h⟩
      rw [if_neg h₂, if_neg h₂]
      have hd := h.dropOrder ho
      have horders : (r.dropOrder m.oldRef o).orders = r.orders.erase m.oldRef := by
        unfold Reference.dropOrder
        dsimp only
        rw [takeFrom_orders]
      -- the slot just freed is room enough
      refine hd.counted ?_ ?_ _ _ _ (by omega)
      · have hne : m.newRef ≠ m.oldRef := by
          intro he
          rw [he, ho] at h₂
          exact h₂ rfl
        rw [horders, AList.lookup_erase_ne hne]
        simpa using h₂
      · have hsize := BoundedMap.size_erase (show mb.orders.find m.oldRef = some o by rw [h.find_eq, ho])
        have hheld := h.held
        have hlen : (mb.orders.erase m.oldRef).size = (r.orders.erase m.oldRef).keys.length := by
          rw [← h.orders]
          rfl
        rw [horders, ← hlen, ← hd.maxOrders]
        have hlim : (mb.drop m.oldRef).orders.limit = mb.orders.limit := by
          rw [hd.maxOrders, h.maxOrders]
          unfold Reference.dropOrder Reference.takeFrom
          dsimp only
          split
          · rfl
          · split_ifs <;> rfl
        rw [hlim]
        omega
  | trade m => exact ⟨rfl, h.setLastTrade m.h.locate m.price⟩

theorem replay (h : Simulates mb r) (ms : List Message) :
    (Book.replay MarketBooks.on mb ms).2 = (Book.replay Reference.on r ms).2 ∧
      Simulates (Book.replay MarketBooks.on mb ms).1 (Book.replay Reference.on r ms).1 := by
  induction ms generalizing mb r with
  | nil => exact ⟨rfl, h⟩
  | cons m ms ih =>
    obtain ⟨hcode, hstep⟩ := h.on m
    obtain ⟨hcodes, hrun⟩ := ih hstep
    exact ⟨congrArg₂ List.cons hcode hcodes, hrun⟩

theorem view_eq (h : Simulates mb r) : mb.view = r.view := by
  have hladders : ∀ l, (mb.book l).map OrderBook.ladder = (r.books.lookup l).map fun b s => (b.sides s).ladder s := by
    intro l
    unfold MarketBooks.book
    rcases h.book_cases l with ⟨hs, hl⟩ | ⟨b, rb, hs, hl, hb⟩
    · rw [hs, hl]
      rfl
    · rw [hs, hl]
      exact congrArg some (funext fun s => (hb.side s).ladder_eq.symm)
  have hdepth : ∀ l s, ((mb.book l).map fun b => b.depth s).getD 0 =
      ((r.books.lookup l).map fun b => (b.sides s).keys.length).getD 0 := by
    intro l s
    unfold MarketBooks.book
    rcases h.book_cases l with ⟨hs, hl⟩ | ⟨b, rb, hs, hl, hb⟩
    · rw [hs, hl]
      rfl
    · rw [hs, hl]
      exact (hb.side s).length_eq.symm
  unfold MarketBooks.view Reference.view
  rw [View.mk.injEq]
  refine ⟨funext h.find_eq, h.size_eq, funext hladders, funext fun l => funext (hdepth l), h.applied, h.overflows,
    funext h.lastTrade, funext h.symbol, funext fun s => ?_⟩
  show mb.bySymbol.entries.lookup s = _
  rw [h.symbols]

end Simulates

/-- **The books refine the reference.** For every configuration and every sequence of messages the
books answer each message with the code of the reference, and after the sequence show the same live
orders, ladders, depth, counters, trades, symbols and locates. -/
theorem market_books_refine_reference (config : MarketBooks.Config) (ms : List Message) :
    (replay MarketBooks.on (.new config) ms).2 = (replay Reference.on (.new config) ms).2 ∧
      (replay MarketBooks.on (.new config) ms).1.view = (replay Reference.on (.new config) ms).1.view := by
  obtain ⟨hcodes, hsim⟩ := (Simulates.new config).replay ms
  exact ⟨hcodes, hsim.view_eq⟩

end OptiTrade.Book
