import OptiTrade.Sim.Storage

/-! # The venue refines its list of working orders

Every call of the venue is, through its storage, the call of the same name on the list. -/

namespace OptiTrade.Sim
set_option autoImplicit false

open Ouch (Token)
open Book (MarketBooks Level)

theorem Order.shrink_zero (o : Order) : o.shrink 0 = o := by
  unfold Order.shrink
  rw [Nat.min_zero, Nat.sub_zero]

theorem takeLevels_locate (ls : List Level) (t : Tape) (o : Order) : (takeLevels ls t o).2.locate = o.locate := by
  induction ls generalizing t o with
  | nil => rfl
  | cons lv ls ih =>
    unfold takeLevels
    split_ifs
    · rfl
    · rw [ih]
      rfl
    · rfl

theorem revise_append {f : Tape → Order → Tape × Option Order} {os os' : List Order} {t : Tape}
    (h : ∀ o ∈ os, ∀ t, f t o = (t, some o)) :
    revise f (os ++ os') t = (os ++ (revise f os' t).1, (revise f os' t).2) := by
  induction os with
  | nil => rfl
  | cons o os ih =>
    rw [List.cons_append, revise, h o List.mem_cons_self, ih fun o ho => h o (List.mem_cons_of_mem _ ho)]
    rfl

namespace Venue
variable {v w : Venue} {hs hand : List Nat}

/-- The venue stands for the list of `d`. -/
def Refines (v : Venue) (d : Floor) : Prop := ∃ hs, Stored v hs [] ∧ v.floor hs = d

theorem floor_eq {d : Floor} (hb : v.books = d.books) (ho : hs.map v.order = d.orders)
    (hc : v.orders.capacity = d.maxOrders) (hr : v.nextRef = d.nextRef) (ht : v.tape = d.tape) : v.floor hs = d := by
  unfold floor
  rw [hb, ho, hc, hr, ht]

/-! ## Loops -/

/-- One visit does to the order `x` what `f` says. -/
structure Acts (f : Tape → Order → Tape × Option Order) (w w' : Venue) (as : List Nat) (x : Nat) (bs : List Nat) :
    Prop where
  books : w'.books = w.books
  nextRef : w'.nextRef = w.nextRef
  capacity : w'.orders.capacity = w.orders.capacity
  tape : w'.tape = (f w.tape (w.order x)).1
  others : ∀ j, j ≠ x → w'.order j = w.order j
  own : (∃ o, (f w.tape (w.order x)).2 = some o ∧ w'.order x = o ∧ Stored w' (as ++ x :: bs) []) ∨
    ((f w.tape (w.order x)).2 = none ∧ Stored w' (as ++ bs) [])

theorem map_order_congr {xs : List Nat} (h : ∀ j ∈ xs, w.order j = v.order j) : xs.map w.order = xs.map v.order :=
  List.map_congr_left h

theorem visit_refines {f : Tape → Order → Tape × Option Order} {body : Venue → Nat → Venue} {s : Nat}
    (hv : Stored v hs []) (hskip : ∀ t o, o.slot ≠ s → f t o = (t, some o))
    (hbody : ∀ w as x bs, Stored w (as ++ x :: bs) [] → (w.order x).slot = s → Acts f w (body w x) as x bs) :
    Refines (v.visit (v.ends s).head body) ((v.floor hs).revise f) := by
  -- the orders behind us are final, those ahead are still to be revised
  let P : List Nat → Venue → Prop := fun xs w => ∃ done todo,
    (todo.filter fun j => (w.order j).slot = s) = xs ∧ Stored w (done ++ todo) [] ∧ w.books = v.books ∧
      w.nextRef = v.nextRef ∧ w.orders.capacity = v.orders.capacity ∧
      revise f (hs.map v.order) v.tape =
        (done.map w.order ++ (revise f (todo.map w.order) w.tape).1, (revise f (todo.map w.order) w.tape).2)
  have hwalk : P [] (v.visit (v.ends s).head body) := by
    have hhead := (hv.linked s).head
    unfold visit
    rw [hhead]
    refine walk_list (P := P) ?_ ?_ _ _ _ ?_ ⟨[], hs, rfl, hv, rfl, rfl, rfl, rfl⟩
    · rintro x xs w ⟨done, todo, hxs, hw, -⟩
      have hl := hw.linked s
      rw [List.filter_append, hxs] at hl
      exact hl.next _ x xs rfl
    · rintro x xs w ⟨done, todo, hxs, hw, hb, hr, hc, hrev⟩
      obtain ⟨skip, rest, rfl, hno, hx, hrest⟩ := List.filter_eq_cons_iff.mp hxs
      have hx' : (w.order x).slot = s := by simpa using hx
      have hw' : Stored w ((done ++ skip) ++ x :: rest) [] := by rw [List.append_assoc]; exact hw
      have hact := hbody w (done ++ skip) x rest hw' hx'
      have hnd : ((done ++ skip) ++ x :: rest).Nodup := by have := hw'.nodup; rwa [List.append_nil] at this
      have hxr : x ∉ rest := (List.nodup_cons.mp (List.nodup_append.mp hnd).2.1).1
      have hxd : x ∉ done ++ skip := fun hm => (List.nodup_append.mp hnd).2.2 x hm x List.mem_cons_self rfl
      have hrest' : rest.map (body w x).order = rest.map w.order :=
        map_order_congr fun j hj => hact.others j fun e => hxr (e ▸ hj)
      have hdone' : (done ++ skip).map (body w x).order = (done ++ skip).map w.order :=
        map_order_congr fun j hj => hact.others j fun e => hxd (e ▸ hj)
      have hfil : (rest.filter fun j => ((body w x).order j).slot = s) = xs := by
        rw [← hrest]
        refine List.filter_congr fun j hj => ?_
        rw [hact.others j fun e => hxr (e ▸ hj)]
      have hskip' : ∀ o ∈ skip.map w.order, ∀ t, f t o = (t, some o) := by
        intro o ho t
        obtain ⟨j, hj, rfl⟩ := List.mem_map.mp ho
        exact hskip t _ (by simpa using hno j hj)
      rw [List.map_append, revise_append hskip', List.map_cons, revise] at hrev
      rcases hact.own with ⟨o, ho, hox, hst⟩ | ⟨hgone, hst⟩
      · refine ⟨done ++ skip ++ [x], rest, hfil, by rw [List.append_assoc]; exact hst, hact.books.trans hb,
          hact.nextRef.trans hr, hact.capacity.trans hc, ?_⟩
        have hdone₁ : (done ++ skip ++ [x]).map (body w x).order = done.map w.order ++ skip.map w.order ++ [o] := by
          rw [List.map_append, hdone', List.map_append, List.map_singleton, hox]
        rw [hrev, hrest', hact.tape, ho, hdone₁]
        simp
      · refine ⟨done ++ skip, rest, hfil, hst, hact.books.trans hb, hact.nextRef.trans hr, hact.capacity.trans hc, ?_⟩
        rw [hrev, hrest', hact.tape, hgone, hdone', List.map_append]
        simp
    · exact (List.length_filter_le _ _).trans hv.length_le
  obtain ⟨done, todo, hxs, hw, hb, hr, hc, hrev⟩ := hwalk
  have hskip' : ∀ o ∈ todo.map (v.visit (v.ends s).head body).order, ∀ t, f t o = (t, some o) := by
    intro o ho t
    obtain ⟨j, hj, rfl⟩ := List.mem_map.mp ho
    exact hskip t _ (by simpa using List.filter_eq_nil_iff.mp hxs j hj)
  rw [← List.append_nil (todo.map _), revise_append hskip'] at hrev
  simp only [revise, List.append_nil] at hrev
  refine ⟨done ++ todo, hw, floor_eq hb ?_ hc hr ?_⟩
  · show _ = (revise f (hs.map v.order) v.tape).1
    rw [hrev, List.map_append]
  · show _ = (revise f (hs.map v.order) v.tape).2
    rw [hrev]

/-! ## Market data -/

theorem execute_keeps (v : Venue) (h qty : Nat) (price : Int) (liquidity : Byte) :
    Keeps v (v.execute h qty price liquidity) := by
  have hset : Keeps v (v.setOrder h ((v.order h).fill qty)) := Keeps.setOrder rfl rfl rfl
  exact ⟨rfl, rfl, rfl, rfl, hset.token, hset.slot, hset.resting⟩

theorem order_execute (v : Venue) (h j qty : Nat) (price : Int) (liquidity : Byte) :
    (v.execute h qty price liquidity).order j = if j = h then (v.order h).fill qty else v.order j :=
  order_setOrder v h j _

theorem tape_execute (v : Venue) (h qty : Nat) (price : Int) (liquidity : Byte) :
    (v.execute h qty price liquidity).tape = v.tape.execute (v.order h) qty price liquidity := rfl

theorem Stored.removeOrder_done {as bs : List Nat} {x : Nat} (hw : Stored w (as ++ x :: bs) hand)
    (hdone : (w.order x).leaves = 0) :
    Stored (w.removeOrder x) (as ++ bs) hand ∧ (w.removeOrder x).books = w.books ∧
      (w.removeOrder x).nextRef = w.nextRef ∧ (w.removeOrder x).tape = w.tape ∧
      (w.removeOrder x).orders.capacity = w.orders.capacity ∧ ∀ j, j ≠ x → (w.removeOrder x).order j = w.order j := by
  obtain ⟨hst, hrem⟩ := hw.removeOrder
  refine ⟨hst, hrem.books, hrem.nextRef, hrem.tape, hrem.capacity, fun j hj => ?_⟩
  rw [hrem.order j hj, hdone, Order.shrink_zero, ite_self]

theorem capacity_of_keeps (h : Keeps v w) : w.orders.capacity = v.orders.capacity := by rw [h.pool]

theorem sweepThrough_refines (hv : Stored v hs []) (loc : Nat) (addedSide : Side) (addedPrice : Int) :
    Refines (v.sweepThrough loc addedSide addedPrice) ((v.floor hs).sweepThrough loc addedSide addedPrice) := by
  refine visit_refines hv (fun t o ho => by rw [sweepHit, if_neg fun h => ho h.1]) fun w as x bs hw hx => ?_
  dsimp only
  by_cases hc : crosses (opposite addedSide) (w.order x).price addedPrice = true
  · have hf : sweepHit loc (opposite addedSide) addedPrice w.tape (w.order x) =
        (w.tape.execute (w.order x) (w.order x).leaves (w.order x).price kAdded, none) := by
      rw [sweepHit, if_pos ⟨hx, hc⟩]
    rw [if_pos hc]
    have hk := execute_keeps w x (w.order x).leaves (w.order x).price kAdded
    have hdone : ((w.execute x (w.order x).leaves (w.order x).price kAdded).order x).leaves = 0 := by
      rw [order_execute, if_pos rfl]
      exact Nat.sub_self _
    obtain ⟨hst, hb, hr, ht, hcap, ho⟩ := (hk.stored hw).removeOrder_done hdone
    refine ⟨hb, hr, hcap, ?_, fun j hj => ?_, .inr ⟨by rw [hf], hst⟩⟩
    · rw [ht, hf]
      rfl
    · rw [ho j hj, order_execute, if_neg hj]
  · have hf : sweepHit loc (opposite addedSide) addedPrice w.tape (w.order x) = (w.tape, some (w.order x)) := by
      rw [sweepHit, if_neg fun h => hc h.2]
    rw [if_neg hc]
    exact ⟨rfl, rfl, rfl, by rw [hf], fun _ _ => rfl, .inl ⟨_, by rw [hf], rfl, hw⟩⟩

/-- An order that fills, and goes if nothing of it is left. -/
theorem hit_acts {f : Tape → Order → Tape × Option Order} {as bs : List Nat} {x qty : Nat} {o : Order} {px : Int}
    {liquidity : Byte} (hw : Stored w (as ++ x :: bs) []) (htok : o.token = (w.order x).token)
    (hslot : o.slot = (w.order x).slot) (hrest : o.resting = (w.order x).resting) (hsince : o.since = (w.order x).since)
    (hf : f w.tape (w.order x) =
      (w.tape.execute (w.order x) qty px liquidity, if (o.fill qty).leaves = 0 then none else some (o.fill qty))) :
    Acts f w
      (if (((w.setOrder x o).execute x qty px liquidity).order x).leaves = 0 then
        ((w.setOrder x o).execute x qty px liquidity).removeOrder x
      else (w.setOrder x o).execute x qty px liquidity) as x bs := by
  have hk : Keeps w ((w.setOrder x o).execute x qty px liquidity) :=
    (Keeps.setOrder htok hslot hrest).trans (execute_keeps _ x qty px liquidity)
  have hown : ((w.setOrder x o).execute x qty px liquidity).order x = o.fill qty := by
    rw [order_execute, if_pos rfl, order_setOrder_self]
  have hothers : ∀ j, j ≠ x → ((w.setOrder x o).execute x qty px liquidity).order j = w.order j := by
    intro j hj
    rw [order_execute, if_neg hj, order_setOrder_ne _ _ hj]
  have htape : ((w.setOrder x o).execute x qty px liquidity).tape = w.tape.execute (w.order x) qty px liquidity := by
    rw [tape_execute, order_setOrder_self]
    unfold Tape.execute
    rw [htok, hsince]
    rfl
  rw [hown]
  by_cases hz : (o.fill qty).leaves = 0
  · rw [if_pos hz] at hf ⊢
    obtain ⟨hst, hb, hr, ht, hcap, ho⟩ := (hk.stored hw).removeOrder_done (by rw [hown]; exact hz)
    refine ⟨hb, hr, hcap, by rw [ht, htape, hf], fun j hj => ?_, .inr ⟨by rw [hf], hst⟩⟩
    rw [ho j hj, hothers j hj]
  · rw [if_neg hz] at hf ⊢
    exact ⟨rfl, rfl, rfl, by rw [htape, hf], hothers, .inl ⟨_, by rw [hf], hown, hk.stored hw⟩⟩

theorem consume_refines (hv : Stored v hs []) (loc : Nat) (side : Side) (level execPrice : Int) (shares : Nat) :
    Refines (v.consume loc side level execPrice shares) ((v.floor hs).consume loc side level execPrice shares) := by
  refine visit_refines hv (fun t o ho => by unfold consumeHit; rw [if_neg fun h => ho h.1]) fun w as x bs hw hx => ?_
  dsimp only
  by_cases hp : (w.order x).price = level
  · rw [if_pos hp]
    by_cases hq : shares ≤ (w.order x).ahead
    · have hf : consumeHit loc side level execPrice shares w.tape (w.order x) =
          (w.tape, some { w.order x with ahead := (w.order x).ahead - shares }) := by
        unfold consumeHit
        rw [if_pos ⟨hx, hp⟩, if_pos hq]
      rw [if_pos hq]
      have hk : Keeps w (w.setOrder x { w.order x with ahead := (w.order x).ahead - shares }) := Keeps.setOrder rfl rfl rfl
      refine ⟨rfl, rfl, rfl, by rw [hf]; rfl, fun j hj => order_setOrder_ne _ _ hj, .inl ⟨_, by rw [hf], ?_, hk.stored hw⟩⟩
      exact order_setOrder_self ..
    · rw [if_neg hq]
      refine hit_acts hw rfl rfl rfl rfl ?_
      refine (if_pos ⟨hx, hp⟩).trans ((if_neg hq).trans ?_)
      cases side <;> rfl
  · have hf : consumeHit loc side level execPrice shares w.tape (w.order x) = (w.tape, some (w.order x)) := by
      unfold consumeHit
      rw [if_neg fun h => hp h.2]
    rw [if_neg hp]
    exact ⟨rfl, rfl, rfl, by rw [hf], fun _ _ => rfl, .inl ⟨_, by rw [hf], rfl, hw⟩⟩

theorem refines_ite {c : Prop} [Decidable c] {d d' : Floor} (hpos : c → Refines v d) (hneg : ¬c → Refines w d') :
    Refines (if c then v else w) (if c then d else d') := by
  split_ifs with hc
  · exact hpos hc
  · exact hneg hc

/-- **Market messages** do to the storage what they do to the list. -/
theorem apply_refines (hv : Stored v hs []) (m : Itch.Message) : Refines (v.apply m) ((v.floor hs).apply m) := by
  have hk : Keeps v { v with books := (v.books.on m).1 } :=
    ⟨rfl, rfl, rfl, rfl, fun _ => rfl, fun _ => rfl, fun _ => rfl⟩
  have hv' := hk.stored hv
  have hidle : Refines { v with books := (v.books.on m).1 } ({ v with books := (v.books.on m).1 }.floor hs) := ⟨hs, hv', rfl⟩
  cases m with
  | addOrder m => exact refines_ite (fun _ => sweepThrough_refines hv' _ _ _) fun _ => hidle
  | orderExecuted m =>
    simp only [Venue.apply, Floor.apply, floor]
    cases v.books.order m.ref with
    | none => exact hidle
    | some info => exact refines_ite (fun _ => consume_refines hv' _ _ _ _ _) fun _ => hidle
  | orderExecutedPrice m =>
    simp only [Venue.apply, Floor.apply, floor]
    cases v.books.order m.ref with
    | none => exact hidle
    | some info => exact refines_ite (fun _ => consume_refines hv' _ _ _ _ _) fun _ => hidle
  | orderReplace m =>
    simp only [Venue.apply, Floor.apply, floor]
    cases v.books.order m.oldRef with
    | none => exact hidle
    | some info => exact refines_ite (fun _ => sweepThrough_refines hv' _ _ _) fun _ => hidle
  | stockDirectory m => exact hidle
  | orderCancel m => exact hidle
  | orderDelete m => exact hidle
  | trade m => exact hidle
  | systemEvent m => exact hidle

/-! ## Tokens -/

theorem find_none (hv : Stored v hs []) {t : Token} (hf : v.byToken.find t = none) : (v.floor hs).find t = none := by
  refine List.find?_eq_none.mpr fun o ho => ?_
  obtain ⟨j, hj, rfl⟩ := List.mem_map.mp ho
  intro htok
  rw [(hv.token t j).mpr ⟨.inl hj, by simpa using htok⟩] at hf
  cases hf

/-- The order of a token, in the middle of the others. -/
theorem find_some (hv : Stored v hs []) {t : Token} {h : Nat} (hf : v.byToken.find t = some h) :
    ∃ as bs, hs = as ++ h :: bs ∧ (v.order h).token = t ∧ (∀ j ∈ as, (v.order j).token ≠ t) ∧
      (v.floor hs).find t = some (v.order h) := by
  obtain ⟨hin, htok⟩ := (hv.token t h).mp hf
  have hmem : h ∈ hs := hin.resolve_right (by simp)
  obtain ⟨as, bs, rfl⟩ := List.append_of_mem hmem
  have has : ∀ j ∈ as, (v.order j).token ≠ t := by
    intro j hj ht
    have hjh : j = h := hv.token_inj (.inl (by simp [hj])) (.inl (by simp)) (by rw [ht, htok])
    have hnd := hv.nodup
    rw [List.append_nil] at hnd
    exact (List.nodup_append.mp hnd).2.2 j hj h List.mem_cons_self hjh
  refine ⟨as, bs, rfl, htok, has, ?_⟩
  show ((as ++ h :: bs).map v.order).find? _ = _
  rw [List.map_append, List.map_cons, List.find?_append, List.find?_cons_of_pos (by simpa using htok),
    List.find?_eq_none.mpr]
  · rfl
  · intro o ho
    obtain ⟨j, hj, rfl⟩ := List.mem_map.mp ho
    simpa using has j hj

theorem find_isSome (hv : Stored v hs []) (t : Token) : ((v.floor hs).find t).isSome = (v.byToken.find t).isSome := by
  cases hf : v.byToken.find t with
  | none =>
    rw [find_none hv hf]
    rfl
  | some h =>
    obtain ⟨as, bs, -, -, -, hfind⟩ := find_some hv hf
    rw [hfind]
    rfl

theorem amend_map {as bs : List Nat} {h removed : Nat} {t : Token} {new : Option Order} (htok : (v.order h).token = t)
    (has : ∀ j ∈ as, (v.order j).token ≠ t) :
    amend t removed new ((as ++ h :: bs).map v.order) = as.map v.order ++ (new.toList ++
      bs.map fun j => if (v.order h).follows (v.order j) = true then (v.order j).shrink removed else v.order j) := by
  induction as with
  | nil =>
    rw [List.nil_append, List.map_cons, amend, if_pos htok, List.map_map]
    rfl
  | cons a as ih =>
    rw [List.cons_append, List.map_cons, amend, if_neg (has a List.mem_cons_self),
      ih fun j hj => has j (List.mem_cons_of_mem _ hj)]
    rfl

theorem map_shrunk {as bs : List Nat} {h removed : Nat} (hv : Stored v (as ++ h :: bs) [])
    (ho : ∀ j, j ≠ h → w.order j =
      if j ∈ bs ∧ (v.order h).follows (v.order j) = true then (v.order j).shrink removed else v.order j) :
    as.map w.order = as.map v.order ∧
      bs.map w.order =
        bs.map fun j => if (v.order h).follows (v.order j) = true then (v.order j).shrink removed else v.order j := by
  have hnd := hv.nodup
  rw [List.append_nil] at hnd
  obtain ⟨-, hndb, hdis⟩ := List.nodup_append.mp hnd
  refine ⟨map_order_congr fun j hj => ?_, List.map_congr_left fun j hj => ?_⟩
  · have hjb : j ∉ bs := fun hm => hdis j hj j (List.mem_cons_of_mem _ hm) rfl
    rw [ho j (hdis j hj h List.mem_cons_self), if_neg fun hc => hjb hc.1]
  · rw [ho j fun e => (List.nodup_cons.mp hndb).1 (e ▸ hj)]
    simp [hj]

theorem removeOrder_refines {as bs : List Nat} {h : Nat} {t : Token} (hv : Stored v (as ++ h :: bs) [])
    (htok : (v.order h).token = t) (has : ∀ j ∈ as, (v.order j).token ≠ t) :
    Refines (v.removeOrder h) ((v.floor (as ++ h :: bs)).amend t (v.order h).leaves none) := by
  obtain ⟨hst, hrem⟩ := hv.removeOrder
  refine ⟨as ++ bs, hst, ?_⟩
  obtain ⟨hmapa, hmapb⟩ := map_shrunk hv hrem.order
  refine floor_eq hrem.books ?_ hrem.capacity hrem.nextRef hrem.tape
  show _ = amend t (v.order h).leaves none ((as ++ h :: bs).map v.order)
  rw [amend_map htok has, List.map_append, hmapa, hmapb]
  rfl

/-- Reducing an order, through the storage. -/
theorem reduce_refines {as bs : List Nat} {h removed keep : Nat} {t : Token} (hv : Stored v (as ++ h :: bs) [])
    (htok : (v.order h).token = t) (has : ∀ j ∈ as, (v.order j).token ≠ t) :
    Refines ((v.shrinkFollowers h removed).setOrder h { (v.shrinkFollowers h removed).order h with leaves := keep })
      ((v.floor (as ++ h :: bs)).amend t removed (some { v.order h with leaves := keep })) := by
  have hsh : Shrinks v (v.shrinkFollowers h removed) h removed bs := shrinkFollowers_shrinks hv
  have hnd := hv.nodup
  rw [List.append_nil] at hnd
  obtain ⟨-, hndb, -⟩ := List.nodup_append.mp hnd
  have hown : (v.shrinkFollowers h removed).order h = v.order h := by
    rw [hsh.order, if_neg fun hc => (List.nodup_cons.mp hndb).1 hc.1]
  rw [hown]
  have hk : Keeps (v.shrinkFollowers h removed) ((v.shrinkFollowers h removed).setOrder h { v.order h with leaves := keep }) :=
    Keeps.setOrder (by rw [hown]) (by rw [hown]; rfl) (by rw [hown])
  refine ⟨as ++ h :: bs, hk.stored (hsh.keeps.stored hv), ?_⟩
  have hothers : ∀ j, j ≠ h → ((v.shrinkFollowers h removed).setOrder h { v.order h with leaves := keep }).order j =
      if j ∈ bs ∧ (v.order h).follows (v.order j) = true then (v.order j).shrink removed else v.order j := by
    intro j hj
    rw [order_setOrder_ne _ _ hj, hsh.order]
  obtain ⟨hmapa, hmapb⟩ := map_shrunk hv hothers
  refine floor_eq hsh.books ?_ (capacity_of_keeps (hsh.keeps.trans hk)) hsh.nextRef hsh.tape
  show _ = amend t removed _ ((as ++ h :: bs).map v.order)
  rw [amend_map htok has, List.map_append, List.map_cons, hmapa, hmapb, order_setOrder_self]
  rfl

/-! ## Requests -/

theorem Keeps.say (v : Venue) (m : Ouch.Outbound) (about : List Nat) : Keeps v (v.say m about) :=
  ⟨rfl, rfl, rfl, rfl, fun _ => rfl, fun _ => rfl, fun _ => rfl⟩

theorem onCancel_refines (hv : Stored v hs []) (r : Ouch.CancelOrder) (sent : Nat) :
    Refines (v.onCancel r sent) ((v.floor hs).onCancel r sent) := by
  unfold onCancel Floor.onCancel
  cases hf : v.byToken.find r.token with
  | none =>
    rw [find_none hv hf]
    exact ⟨hs, hv, rfl⟩
  | some h =>
    obtain ⟨as, bs, rfl, htok, has, hfind⟩ := find_some hv hf
    rw [hfind]
    dsimp only
    refine refines_ite (fun _ => ⟨_, hv, rfl⟩) fun hopen => ?_
    have hsaid := (Keeps.say v (.canceled ⟨v.clock, (v.order h).token, (v.order h).leaves - (r.shares - (v.order h).filled),
      ascii 'U'⟩) (sent :: (v.order h).since)).stored hv
    by_cases hz : r.shares - (v.order h).filled = 0
    · rw [if_pos hz, if_pos hz, hz, Nat.sub_zero]
      rw [hz, Nat.sub_zero] at hsaid
      exact removeOrder_refines hsaid rfl (by rw [show Order.token _ = r.token from htok]; exact has)
    · rw [if_neg hz, if_neg hz]
      exact reduce_refines hsaid rfl (by rw [show Order.token _ = r.token from htok]; exact has)

/-- What a call does while order `h` is in hand. -/
structure Hands (v w : Venue) (h : Nat) (t : Tape) (o : Order) : Prop where
  keeps : Keeps v w
  books : w.books = v.books
  nextRef : w.nextRef = v.nextRef
  tape : w.tape = t
  own : w.order h = o
  others : ∀ j, j ≠ h → w.order j = v.order j

theorem takeLevels_hands (h : Nat) (ls : List Level) (v : Venue) :
    Hands v (takeLevels h ls v) h (Sim.takeLevels ls v.tape (v.order h)).1 (Sim.takeLevels ls v.tape (v.order h)).2 := by
  induction ls generalizing v with
  | nil => exact ⟨.refl v, rfl, rfl, rfl, rfl, fun _ _ => rfl⟩
  | cons lv ls ih =>
    unfold takeLevels Sim.takeLevels
    dsimp only
    split_ifs with hz hc
    · exact ⟨.refl v, rfl, rfl, rfl, rfl, fun _ _ => rfl⟩
    · have hown : (v.execute h (min (v.order h).leaves lv.qty) lv.price kRemoved).order h =
          (v.order h).fill (min (v.order h).leaves lv.qty) := by
        rw [order_execute, if_pos rfl]
      have hrest := ih (v.execute h (min (v.order h).leaves lv.qty) lv.price kRemoved)
      rw [hown, tape_execute] at hrest
      refine ⟨(execute_keeps ..).trans hrest.keeps, hrest.books, hrest.nextRef, hrest.tape, hrest.own, fun j hj => ?_⟩
      rw [hrest.others j hj, order_execute, if_neg hj]
    · exact ⟨.refl v, rfl, rfl, rfl, rfl, fun _ _ => rfl⟩

theorem queueAhead_eq (hv : Stored v hs hand) (o : Order) (displayed : Nat) :
    v.queueAhead o displayed = (v.floor hs).queueAhead o displayed := by
  have hfil : ((hs.map v.order).filter fun e => e.slot = o.slot) = (hs.filter fun j => (v.order j).slot = o.slot).map v.order := by
    rw [List.filter_map]
    rfl
  have hlen : (hs.filter fun j => (v.order j).slot = o.slot).length ≤ v.orders.capacity :=
    (List.length_filter_le _ _).trans hv.length_le
  unfold queueAhead Floor.queueAhead floor
  dsimp only
  rw [hfil, List.foldl_map]
  exact congrArg (fun r : Nat × Nat => max r.1 r.2) ((hv.linked o.slot).walk_eq_foldl hlen (displayed, 0))

/-- The end of an arrival: the order finishes or comes to rest. -/
theorem rest_refines {h : Nat} {displayed : Nat} (hv : Stored v hs [h])
    (hdisp : displayed = match v.books.book (v.order h).locate with
      | some b => b.qtyAt (v.order h).side (v.order h).price
      | none => 0) :
    Refines
      (if (v.order h).leaves = 0 then v.removeOrder h
      else if (v.order h).tif = Ouch.kTifIoc then
        (v.say (.canceled ⟨v.clock, (v.order h).token, (v.order h).leaves, ascii 'I'⟩) (v.order h).since).removeOrder h
      else (v.setOrder h { v.order h with ahead := v.queueAhead (v.order h) displayed }).linkTail h)
      ((v.floor hs).rest (v.order h)) := by
  have hdrop : ∀ w, Stored w hs [h] → Refines (w.removeOrder h) (w.floor hs) := by
    intro w hw
    obtain ⟨hst, hord, hcap⟩ := hw.drop
    rw [removeOrder_of_hand hw]
    exact ⟨hs, hst, floor_eq rfl (by rw [hord]; rfl) hcap rfl rfl⟩
  unfold Floor.rest
  refine refines_ite (fun _ => hdrop v hv) fun _ => refines_ite (fun _ => ?_) fun _ => ?_
  · exact hdrop _ ((Keeps.say v _ _).stored hv)
  · have hk : Keeps v (v.setOrder h { v.order h with ahead := v.queueAhead (v.order h) displayed }) := Keeps.setOrder rfl rfl rfl
    have hout : h ∉ hs := fun hm => (List.nodup_append.mp hv.nodup).2.2 h hm h List.mem_cons_self rfl
    refine ⟨hs ++ [h], (hk.stored hv).linkTail, floor_eq rfl ?_ rfl rfl rfl⟩
    have hmap : hs.map ((v.setOrder h { v.order h with ahead := v.queueAhead (v.order h) displayed }).linkTail h).order =
        hs.map v.order := by
      refine map_order_congr fun j hj => ?_
      have hne : j ≠ h := fun e => hout (e ▸ hj)
      rw [order_linkTail, if_neg hne, order_setOrder_ne _ _ hne]
    rw [List.map_append, hmap, List.map_singleton, order_linkTail, if_pos rfl, order_setOrder_self, queueAhead_eq hv, hdisp]
    rfl

theorem work_refines {h : Nat} (hv : Stored v hs [h]) : Refines (v.work h) ((v.floor hs).work (v.order h)) := by
  have hout : h ∉ hs := fun hm => (List.nodup_append.mp hv.nodup).2.2 h hm h List.mem_cons_self rfl
  have hrest : ∀ w t o, Hands v w h t o → o.locate = (v.order h).locate → Refines
      (if (w.order h).leaves = 0 then w.removeOrder h
      else if (w.order h).tif = Ouch.kTifIoc then
        (w.say (.canceled ⟨w.clock, (w.order h).token, (w.order h).leaves, ascii 'I'⟩) (w.order h).since).removeOrder h
      else (w.setOrder h { w.order h with ahead := w.queueAhead (w.order h) (match v.books.book (v.order h).locate with
        | some b => b.qtyAt (w.order h).side (w.order h).price
        | none => 0) }).linkTail h) ({ v.floor hs with tape := t }.rest o) := by
    intro w t o hh hloc
    have hfl : w.floor hs = { v.floor hs with tape := t } := by
      refine floor_eq hh.books ?_ (capacity_of_keeps hh.keeps) hh.nextRef hh.tape
      exact map_order_congr fun j hj => hh.others j fun e => hout (e ▸ hj)
    have hw := rest_refines (hh.keeps.stored hv) rfl
    rw [hfl, hh.own, hh.books, hloc] at hw
    rw [hh.own]
    exact hw
  cases hb : v.books.book (v.order h).locate with
  | none =>
    have hidle := hrest v v.tape (v.order h) ⟨.refl v, rfl, rfl, rfl, rfl, fun _ _ => rfl⟩ rfl
    unfold work Floor.work
    rw [show (v.floor hs).books.book (v.order h).locate = none from hb, hb]
    rw [hb] at hidle
    exact hidle
  | some b =>
    have htake := hrest _ _ _ (takeLevels_hands h (b.ladder (opposite (v.order h).side)) v) (takeLevels_locate _ _ _)
    unfold work Floor.work
    rw [show (v.floor hs).books.book (v.order h).locate = some b from hb, hb]
    rw [hb] at htake
    exact htake

theorem reject_refines (hv : Stored v hs []) (token : Token) (reason : Byte) (sent : Nat) :
    Refines (v.reject token reason sent) ((v.floor hs).reject token reason sent) :=
  ⟨hs, (Keeps.say v _ _).stored hv, rfl⟩

theorem allocate_none_iff (hv : Stored v hs []) : (v.orders.allocate).2 = none ↔ v.orders.capacity ≤ hs.length := by
  obtain ⟨fl, hfl⟩ := hv.pool
  have h₁ := hv.length_eq
  have h₂ := hfl.size_eq
  rw [List.append_nil] at h₁
  rw [hfl.allocate_none_iff, ← List.length_eq_zero_iff]
  omega

/-- Nothing is reported but rejections and cancels. -/
def Declines (v w : Venue) : Prop :=
  ∃ xs, w.said = v.said ++ xs ∧ ∀ x ∈ xs, (∃ m, x.msg = .rejected m) ∨ ∃ m, x.msg = .canceled m

/-- Order `h` is in hand, on its way to the book, and has been acknowledged. -/
structure Arrives (v w : Venue) (hs : List Nat) (h : Nat) : Prop where
  stored : Stored w hs [h]
  books : w.books = v.books
  clock : w.clock = v.clock
  said : ∃ m, w.said = v.said ++ [⟨m, (w.order h).since⟩] ∧
    (m = .accepted ((w.order h).accepted v.clock) ∨ ∃ previous, m = .replaced ⟨(w.order h).accepted v.clock, previous⟩)

theorem reject_declines (v : Venue) (token : Token) (reason : Byte) (sent : Nat) : Declines v (v.reject token reason sent) := by
  refine ⟨_, rfl, fun x hx => ?_⟩
  rw [List.mem_singleton.mp hx]
  exact .inl ⟨_, rfl⟩

theorem Refines.declines {w : Venue} {d : Floor} (h : Refines w d) {x : Said}
    (hx : (∃ m, x.msg = .rejected m) ∨ ∃ m, x.msg = .canceled m) (hd : d.tape.said = v.said ++ [x]) : Declines v w := by
  obtain ⟨hs', _, hfl⟩ := h
  refine ⟨[x], ?_, fun y hy => ?_⟩
  · rw [← hd, ← hfl]
    rfl
  · rw [List.mem_singleton.mp hy]
    exact hx

theorem onCancel_declines (hv : Stored v hs []) (r : Ouch.CancelOrder) (sent : Nat) : Declines v (v.onCancel r sent) := by
  have href := onCancel_refines hv r sent
  unfold Floor.onCancel at href
  split at href
  · obtain ⟨hs', _, hfl⟩ := href
    exact ⟨[], by rw [List.append_nil]; exact congrArg (fun d : Floor => d.tape.said) hfl, fun x hx => absurd hx List.not_mem_nil⟩
  · dsimp only at href
    split_ifs at href
    · obtain ⟨hs', _, hfl⟩ := href
      exact ⟨[], by rw [List.append_nil]; exact congrArg (fun d : Floor => d.tape.said) hfl, fun x hx => absurd hx List.not_mem_nil⟩
    · exact href.declines (.inr ⟨_, rfl⟩) rfl
    · exact href.declines (.inr ⟨_, rfl⟩) rfl

/-- A new order is rejected or arrives. -/
theorem onEnter_cases (hv : Stored v hs []) (r : Ouch.EnterOrder) (sent : Nat) :
    (Declines v (v.onEnter r sent) ∧ Refines (v.onEnter r sent) ((v.floor hs).onEnter r sent)) ∨
    ∃ w h, Arrives v w hs h ∧ v.onEnter r sent = w.work h ∧ (v.floor hs).onEnter r sent = (w.floor hs).work (w.order h) := by
  have hreject : ∀ reason, Declines v (v.reject r.token reason sent) ∧
      Refines (v.reject r.token reason sent) ((v.floor hs).reject r.token reason sent) := fun reason =>
    ⟨reject_declines v _ _ _, reject_refines hv _ _ _⟩
  unfold onEnter Floor.onEnter
  rw [find_isSome hv]
  by_cases hused : (!validToken r.token || (v.byToken.find r.token).isSome) = true
  · rw [if_pos hused, if_pos hused]
    exact .inl (hreject _)
  rw [if_neg hused, if_neg hused]
  have hfresh : v.byToken.find r.token = none := by
    cases hf : v.byToken.find r.token with
    | none => rfl
    | some h => exact absurd (by simp [hf]) hused
  have hb : (v.floor hs).books = v.books := rfl
  rw [hb]
  cases v.books.locate r.stock with
  | none => exact .inl (hreject _)
  | some loc =>
    dsimp only
    by_cases hz : r.shares = 0
    · rw [if_pos hz, if_pos hz]
      exact .inl (hreject _)
    rw [if_neg hz, if_neg hz]
    by_cases hm : kMaxOrderQty < r.shares
    · rw [if_pos hm, if_pos hm]
      exact .inl (hreject _)
    rw [if_neg hm, if_neg hm]
    by_cases hp : r.price ≤ 0 ∨ kMaxPrice < r.price
    · rw [if_pos hp, if_pos hp]
      exact .inl (hreject _)
    rw [if_neg hp, if_neg hp]
    have hfull := allocate_none_iff hv
    have hlen : (v.floor hs).orders.length = hs.length := List.length_map _
    cases ha : v.orders.allocate with
    | mk orders h =>
      rw [ha] at hfull
      cases h with
      | none =>
        have hle : (v.floor hs).maxOrders ≤ (v.floor hs).orders.length := by rw [hlen]; exact hfull.mp rfl
        rw [if_pos hle]
        exact .inl (hreject _)
      | some h =>
        have hlt : ¬(v.floor hs).maxOrders ≤ (v.floor hs).orders.length := by
          rw [hlen]
          exact fun hle => by cases hfull.mpr hle
        rw [if_neg hlt]
        let o : Order :=
          { token := r.token, locate := loc, side := r.side, price := r.price, leaves := r.shares
            tif := r.timeInForce, stock := r.stock, firm := r.firm, display := r.display, capacity := r.capacity
            sweep := r.intermarketSweep, minQty := r.minQty, cross := r.crossType, ref := v.nextRef
            since := [sent] }
        obtain ⟨hins, hst, hout, hcap, hothers, hown⟩ := hv.enter (o := o) ha hfresh rfl
        let w : Venue := { v with orders := orders.set h o, byToken := (v.byToken.insert o.token h).1, nextRef := v.nextRef + 1 }
        have hw : Stored (w.say (.accepted (w.acceptedOf o o.leaves)) o.since) hs [h] :=
          Keeps.stored (v := { v with orders := orders.set h o, byToken := (v.byToken.insert o.token h).1 })
            ⟨rfl, rfl, rfl, rfl, fun _ => rfl, fun _ => rfl, fun _ => rfl⟩ hst
        have hfloor : (w.say (.accepted (w.acceptedOf o o.leaves)) o.since).floor hs =
            { v.floor hs with nextRef := v.nextRef + 1 }.say (.accepted (o.accepted v.clock)) o.since := by
          refine floor_eq rfl ?_ hcap rfl rfl
          exact List.map_congr_left fun j hj => hothers j fun e => hout (e ▸ hj)
        have howno : (w.say (.accepted (w.acceptedOf o o.leaves)) o.since).order h = o := hown
        refine .inr ⟨w.say (.accepted (w.acceptedOf o o.leaves)) o.since, h, ⟨hw, rfl, rfl, ?_⟩, ?_, ?_⟩
        · rw [howno]
          exact ⟨_, rfl, .inl rfl⟩
        · dsimp only
          rw [if_neg (by rw [show (v.byToken.insert r.token h).2 = true from hins]; simp)]
        · rw [hfloor, howno]
          rfl

/-- A replaced order leaves its queue, takes its new token and arrives again. -/
theorem reenter_arrives {as bs : List Nat} {h : Nat} {r : Ouch.ReplaceOrder} (sent : Nat)
    (hv : Stored v (as ++ h :: bs) []) (htok : (v.order h).token = r.existing)
    (has : ∀ j ∈ as, (v.order j).token ≠ r.existing) (hfresh : v.byToken.find r.replacement = none) :
    let u := (v.shrinkFollowers h (v.order h).leaves).unlink h
    let o := { u.order h with
      token := r.replacement, price := r.price, leaves := r.shares - (u.order h).filled, tif := r.timeInForce
      display := r.display, sweep := r.intermarketSweep, minQty := r.minQty, ref := u.nextRef
      since := sent :: (u.order h).since }
    let w := { u.setOrder h o with
      byToken := ((u.byToken.erase (u.order h).token).insert r.replacement h).1, nextRef := u.nextRef + 1 }
    let o' := Floor.replacement (v.order h) r v.nextRef sent
    let d := { (v.floor (as ++ h :: bs)).amend (v.order h).token (v.order h).leaves none with nextRef := v.nextRef + 1 }
    let w' := w.say (.replaced ⟨w.acceptedOf o o.leaves, (u.order h).token⟩) o.since
    Arrives v w' (as ++ bs) h ∧ w'.order h = o' ∧
      w'.floor (as ++ bs) = d.say (.replaced ⟨o'.accepted v.clock, (v.order h).token⟩) o'.since := by
  intro u o w o' d w'
  obtain ⟨hst, hrem, hown, hbt⟩ := hv.withdraw
  have ho : o = o' := by
    simp only [o, o', Floor.replacement]
    rw [show u.order h = _ from hown, show u.nextRef = _ from hrem.nextRef]
  have hst' : Stored { u.setOrder h o with byToken := ((u.byToken.erase (u.order h).token).insert o.token h).1 } (as ++ bs) [h] :=
    hst.retoken (by rw [hbt]; exact hfresh) (by rw [ho]; rfl)
  have hw : Stored (w.say (.replaced ⟨w.acceptedOf o o.leaves, (u.order h).token⟩) o.since) (as ++ bs) [h] :=
    Keeps.stored (v := { u.setOrder h o with byToken := ((u.byToken.erase (u.order h).token).insert o.token h).1 })
      ⟨rfl, rfl, rfl, rfl, fun _ => rfl, fun _ => rfl, fun _ => rfl⟩ hst'
  have hownw : (w.say (.replaced ⟨w.acceptedOf o o.leaves, (u.order h).token⟩) o.since).order h = o' :=
    (order_setOrder_self u h o).trans ho
  have hfloor : (w.say (.replaced ⟨w.acceptedOf o o.leaves, (u.order h).token⟩) o.since).floor (as ++ bs) =
      d.say (.replaced ⟨o'.accepted v.clock, (v.order h).token⟩) o'.since := by
    refine floor_eq hrem.books ?_ hrem.capacity (congrArg (· + 1) hrem.nextRef) ?_
    · have hset : ∀ xs : List Nat, h ∉ xs → xs.map (u.setOrder h o).order = xs.map u.order := fun xs hx =>
        map_order_congr fun j hj => order_setOrder_ne u o fun e => hx (e ▸ hj)
      have hnd := hv.nodup
      rw [List.append_nil] at hnd
      obtain ⟨-, hndb, hdis⟩ := List.nodup_append.mp hnd
      obtain ⟨hmapa, hmapb⟩ := map_shrunk hv hrem.order
      show (as ++ bs).map (u.setOrder h o).order = amend _ _ none ((as ++ h :: bs).map v.order)
      rw [htok, amend_map htok has, List.map_append, hset as fun hm => hdis h hm h List.mem_cons_self rfl,
        hset bs (List.nodup_cons.mp hndb).1, hmapa, hmapb]
      rfl
    · show u.tape.say (.replaced ⟨o.accepted u.tape.clock, (u.order h).token⟩) o.since =
        v.tape.say (.replaced ⟨o'.accepted v.tape.clock, (v.order h).token⟩) o'.since
      rw [show u.tape = v.tape from hrem.tape, ho, show u.order h = _ from hown]
  have htape : u.tape = v.tape := hrem.tape
  refine ⟨⟨hw, hrem.books, congrArg Tape.clock htape, ?_⟩, hownw, hfloor⟩
  have hsaid := congrArg (fun d : Floor => d.tape.said) hfloor
  rw [hownw]
  exact ⟨_, hsaid, .inr ⟨_, rfl⟩⟩

/-- A replace is ignored, ends the order, or makes it arrive again. -/
theorem onReplace_cases (hv : Stored v hs []) (r : Ouch.ReplaceOrder) (sent : Nat) :
    (Declines v (v.onReplace r sent) ∧ Refines (v.onReplace r sent) ((v.floor hs).onReplace r sent)) ∨
    ∃ w h hs', Arrives v w hs' h ∧ v.onReplace r sent = w.work h ∧
      (v.floor hs).onReplace r sent = (w.floor hs').work (w.order h) := by
  have hidle : Declines v v := ⟨[], by simp, fun x hx => absurd hx List.not_mem_nil⟩
  unfold onReplace Floor.onReplace
  cases hf : v.byToken.find r.existing with
  | none =>
    rw [find_none hv hf]
    exact .inl ⟨hidle, hs, hv, rfl⟩
  | some h =>
    obtain ⟨as, bs, rfl, htok, has, hfind⟩ := find_some hv hf
    rw [hfind]
    dsimp only
    rw [find_isSome hv]
    by_cases hused : (!validToken r.replacement || (v.byToken.find r.replacement).isSome) = true
    · rw [if_pos hused, if_pos hused]
      exact .inl ⟨hidle, _, hv, rfl⟩
    rw [if_neg hused, if_neg hused]
    by_cases hvalid : ¬(0 < r.price ∧ r.price ≤ kMaxPrice ∧ (v.order h).filled < r.shares ∧ r.shares ≤ kMaxOrderQty)
    · rw [if_pos hvalid, if_pos hvalid]
      have hsaid := (Keeps.say v (.canceled ⟨v.clock, (v.order h).token, (v.order h).leaves, ascii 'U'⟩)
        (sent :: (v.order h).since)).stored hv
      have hfirst : ∀ j ∈ as, (v.order j).token ≠ (v.order h).token := fun j hj => by
        rw [htok]
        exact has j hj
      have href := removeOrder_refines hsaid rfl hfirst
      exact .inl ⟨href.declines (.inr ⟨_, rfl⟩) rfl, href⟩
    · rw [if_neg hvalid, if_neg hvalid]
      have hfresh : v.byToken.find r.replacement = none := by
        cases hf' : v.byToken.find r.replacement with
        | none => rfl
        | some h => exact absurd (by simp [hf']) hused
      obtain ⟨harr, hown, hfloor⟩ := reenter_arrives sent hv htok has hfresh
      refine .inr ⟨_, h, _, harr, rfl, ?_⟩
      rw [hfloor, hown]
      rfl

/-- **Requests** do to the storage what they do to the list. An order that goes to the book has been acknowledged
just before. -/
theorem onRequest_cases (hv : Stored v hs []) (m : Ouch.Inbound) (sent : Nat) :
    (Declines v (v.onRequest m sent) ∧ Refines (v.onRequest m sent) ((v.floor hs).onRequest m sent)) ∨
    ∃ w h hs', Arrives v w hs' h ∧ v.onRequest m sent = w.work h ∧
      (v.floor hs).onRequest m sent = (w.floor hs').work (w.order h) := by
  cases m with
  | enter r =>
    rcases onEnter_cases hv r sent with h | ⟨w, h, harr⟩
    · exact .inl h
    · exact .inr ⟨w, h, hs, harr⟩
  | cancel r => exact .inl ⟨onCancel_declines hv r sent, onCancel_refines hv r sent⟩
  | replace r => exact onReplace_cases hv r sent

theorem onRequest_refines (hv : Stored v hs []) (m : Ouch.Inbound) (sent : Nat) :
    Refines (v.onRequest m sent) ((v.floor hs).onRequest m sent) := by
  rcases onRequest_cases hv m sent with ⟨_, h⟩ | ⟨w, h, hs', harr, hv', hd⟩
  · exact h
  · rw [hv', hd]
    exact work_refines harr.stored

end Venue
end OptiTrade.Sim
