import OptiTrade.Book.Changes

/-! # Where the orders live

The locate of a live order has a book, and no book is ever given up. So the book of the order that an applied message is
about is there to be read. -/

namespace OptiTrade.Book
set_option autoImplicit false

open Itch (Message)

namespace MarketBooks
variable {mb mb' mb'' : MarketBooks}

/-- No book goes away. -/
def KeepsBooks (mb mb' : MarketBooks) : Prop := ∀ l, (mb.book l).isSome → (mb'.book l).isSome

/-- The locate of every live order has a book. -/
def Housed (mb : MarketBooks) : Prop := ∀ ref rec, mb.orders.find ref = some rec → (mb.book rec.info.locate).isSome

theorem KeepsBooks.refl (mb : MarketBooks) : KeepsBooks mb mb := fun _ h => h

theorem KeepsBooks.trans (h₁ : KeepsBooks mb mb') (h₂ : KeepsBooks mb' mb'') : KeepsBooks mb mb'' :=
  fun l h => h₂ l (h₁ l h)

theorem setSlot_keepsBooks {l : Nat} {slot : Slot} (h : (mb.book l).isSome → slot.book.isSome) :
    KeepsBooks mb (mb.setSlot l slot) := by
  intro k hk
  by_cases hkl : k = l
  · subst hkl
    simpa [book, setSlot] using h hk
  · simpa [book, setSlot, hkl] using hk

theorem withBook_keepsBooks (mb : MarketBooks) (l : Nat) (f : OrderBook → OrderBook) : KeepsBooks mb (mb.withBook l f) :=
  setSlot_keepsBooks fun h => by simpa [book] using h

theorem drop_keepsBooks (mb : MarketBooks) (ref : Nat) : KeepsBooks mb (mb.drop ref) := by
  unfold drop
  cases mb.orders.find ref with
  | none => exact .refl mb
  | some rec =>
    dsimp only
    split_ifs
    · exact withBook_keepsBooks mb rec.info.locate _
    · exact .refl mb

theorem insertOrder_keepsBooks (mb : MarketBooks) (ref loc : Nat) (side : Side) (price : Int) (qty : Nat) :
    KeepsBooks mb (mb.insertOrder ref loc side price qty).1 ∧
      ((mb.insertOrder ref loc side price qty).1.book loc).isSome := by
  have hk : KeepsBooks mb (mb.setSlot loc { mb.slots loc with
      book := some ((mb.ensureBook (mb.slots loc)).addOrder side price qty).1 }) := setSlot_keepsBooks fun _ => rfl
  refine ⟨hk, ?_⟩
  simp [insertOrder, book, setSlot]

theorem Housed.of (h : Housed mb) (hk : KeepsBooks mb mb')
    (ho : ∀ ref rec, mb'.orders.find ref = some rec →
      (∃ ref' rec', mb.orders.find ref' = some rec' ∧ rec'.info.locate = rec.info.locate) ∨
        (mb'.book rec.info.locate).isSome) : Housed mb' := by
  intro ref rec hf
  rcases ho ref rec hf with ⟨ref', rec', hf', hloc⟩ | hb
  · exact hk _ (hloc ▸ h ref' rec' hf')
  · exact hb

theorem drop_find {ref r : Nat} {rec : OrderRecord} (h : (mb.drop ref).orders.find r = some rec) :
    mb.orders.find r = some rec := by
  unfold drop at h
  cases hf : mb.orders.find ref with
  | none =>
    rw [hf] at h
    exact h
  | some old =>
    rw [hf] at h
    dsimp only at h
    have horders : (if old.level ≠ kNoLevel then
        mb.withBook old.info.locate fun b => (b.removeOrder old.info.side old.info.price old.info.qty old.level).1
      else mb).orders = mb.orders := by split_ifs <;> rfl
    rw [horders, BoundedMap.find_erase] at h
    split_ifs at h
    exact h

theorem Housed.drop (h : Housed mb) (ref : Nat) : Housed (mb.drop ref) :=
  h.of (drop_keepsBooks mb ref) fun r rec hf => .inl ⟨r, rec, drop_find hf, rfl⟩

theorem Housed.insertOrder (h : Housed mb) (ref loc : Nat) (side : Side) (price : Int) (qty : Nat) :
    Housed (mb.insertOrder ref loc side price qty).1 := by
  obtain ⟨hk, hb⟩ := insertOrder_keepsBooks mb ref loc side price qty
  refine h.of hk fun r rec hf => ?_
  let new : OrderRecord := ⟨⟨loc, side, price, qty⟩, ((mb.ensureBook (mb.slots loc)).addOrder side price qty).2⟩
  have hfind : ((mb.orders.insert ref new).1).find r = some rec := hf
  cases hins : mb.orders.insert ref new with
  | mk m' ok =>
    rw [hins] at hfind
    cases ok with
    | true =>
      rw [BoundedMap.find_insert_true hins] at hfind
      split_ifs at hfind
      · obtain rfl : new = rec := Option.some.inj hfind
        exact .inr hb
      · exact .inl ⟨r, rec, hfind, rfl⟩
    | false =>
      obtain rfl := BoundedMap.insert_false hins
      exact .inl ⟨r, rec, hfind, rfl⟩

theorem Housed.reduce (h : Housed mb) (ref shares : Nat) (tradePrice : Option Int) (execution : Bool) :
    KeepsBooks mb (mb.reduce ref shares tradePrice execution).1 ∧ Housed (mb.reduce ref shares tradePrice execution).1 := by
  unfold MarketBooks.reduce
  cases hf : mb.orders.find ref with
  | none => exact ⟨.refl mb, h⟩
  | some rec =>
    dsimp only
    by_cases h₁ : shares = 0
    · rw [if_pos h₁]
      exact ⟨.refl mb, h⟩
    rw [if_neg h₁]
    by_cases h₂ : rec.info.qty < shares
    · rw [if_pos h₂]
      exact ⟨drop_keepsBooks mb ref, h.drop ref⟩
    rw [if_neg h₂]
    have hless : KeepsBooks mb (if shares = rec.info.qty then mb.drop ref
        else
          let mb := if rec.level ≠ kNoLevel then
              mb.withBook rec.info.locate fun b => (b.reduceOrder rec.info.side rec.info.price shares rec.level).1
            else mb
          { mb with orders := mb.orders.set ref { rec with info := { rec.info with qty := rec.info.qty - shares } } }) ∧
      Housed (if shares = rec.info.qty then mb.drop ref
        else
          let mb := if rec.level ≠ kNoLevel then
              mb.withBook rec.info.locate fun b => (b.reduceOrder rec.info.side rec.info.price shares rec.level).1
            else mb
          { mb with orders := mb.orders.set ref { rec with info := { rec.info with qty := rec.info.qty - shares } } }) := by
      by_cases h₃ : shares = rec.info.qty
      · rw [if_pos h₃]
        exact ⟨drop_keepsBooks mb ref, h.drop ref⟩
      · rw [if_neg h₃]
        dsimp only
        let left : OrderRecord := { rec with info := { rec.info with qty := rec.info.qty - shares } }
        have hset : ∀ mb' : MarketBooks, KeepsBooks mb mb' → mb'.orders = mb.orders →
            KeepsBooks mb { mb' with orders := mb'.orders.set ref left } ∧
              Housed { mb' with orders := mb'.orders.set ref left } := by
          intro mb' hk ho
          refine ⟨hk, h.of hk fun r x hx => ?_⟩
          dsimp only at hx
          rw [ho, BoundedMap.find_set] at hx
          split_ifs at hx
          · obtain rfl := Option.some.inj hx
            exact .inl ⟨ref, rec, hf, rfl⟩
          · exact .inl ⟨r, x, hx, rfl⟩
        split_ifs
        · exact hset _ (withBook_keepsBooks mb rec.info.locate _) rfl
        · exact hset _ (.refl mb) rfl
    by_cases h₄ : execution = true
    · rw [if_pos h₄]
      have hprice : ∀ mb' : MarketBooks, KeepsBooks mb' (mb'.setSlot rec.info.locate
          { mb'.slots rec.info.locate with lastTrade := tradePrice.getD rec.info.price }) := fun _ => setSlot_keepsBooks fun hb => hb
      exact ⟨hless.1.trans (hprice _), hless.2.of (hprice _) fun r x hx => .inl ⟨r, x, hx, rfl⟩⟩
    · rw [if_neg h₄]
      exact ⟨hless.1, hless.2.of (.refl _) fun r x hx => .inl ⟨r, x, hx, rfl⟩⟩

/-- **A message keeps the orders housed.** -/
theorem Housed.on (h : Housed mb) (m : Message) : KeepsBooks mb (mb.on m).1 ∧ Housed (mb.on m).1 := by
  cases m with
  | systemEvent m => exact ⟨.refl mb, h⟩
  | stockDirectory m =>
    show KeepsBooks mb (mb.onStockDirectory m).1 ∧ Housed (mb.onStockDirectory m).1
    unfold onStockDirectory
    dsimp only
    by_cases h₁ : m.symbol.isEmpty = true
    · rw [if_pos h₁]
      exact ⟨.refl mb, h⟩
    rw [if_neg h₁]
    cases mb.bySymbol.find m.symbol with
    | some bound => exact ⟨.refl mb, h⟩
    | none =>
      dsimp only
      split_ifs
      · exact ⟨.refl mb, h⟩
      · exact ⟨.refl mb, h⟩
      · have hk : KeepsBooks mb (mb.setSlot m.h.locate { mb.slots m.h.locate with
            book := some (mb.ensureBook (mb.slots m.h.locate)), symbol := m.symbol }) := setSlot_keepsBooks fun _ => rfl
        exact ⟨hk, h.of hk fun r x hx => .inl ⟨r, x, hx, rfl⟩⟩
  | addOrder m =>
    show KeepsBooks mb (mb.onAddOrder m).1 ∧ Housed (mb.onAddOrder m).1
    unfold onAddOrder
    split_ifs
    · exact ⟨.refl mb, h⟩
    · exact ⟨.refl mb, h⟩
    · exact ⟨.refl mb, h⟩
    · have hk := (insertOrder_keepsBooks mb m.ref m.h.locate m.side m.price m.shares).1
      have hh := h.insertOrder m.ref m.h.locate m.side m.price m.shares
      cases hi : mb.insertOrder m.ref m.h.locate m.side m.price m.shares with
      | mk mb' ok =>
        rw [hi] at hk hh
        cases ok
        · exact ⟨hk, hh⟩
        · exact ⟨hk, hh⟩
  | orderExecuted m => exact h.reduce _ _ _ _
  | orderExecutedPrice m => exact h.reduce _ _ _ _
  | orderCancel m => exact h.reduce _ _ _ _
  | orderDelete m =>
    show KeepsBooks mb (mb.onOrderDelete m).1 ∧ Housed (mb.onOrderDelete m).1
    unfold onOrderDelete
    cases mb.orders.find m.ref with
    | none => exact ⟨.refl mb, h⟩
    | some rec => exact ⟨drop_keepsBooks mb m.ref, h.drop m.ref⟩
  | orderReplace m =>
    show KeepsBooks mb (mb.onOrderReplace m).1 ∧ Housed (mb.onOrderReplace m).1
    unfold onOrderReplace
    cases mb.orders.find m.oldRef with
    | none => exact ⟨.refl mb, h⟩
    | some old =>
      dsimp only
      split_ifs
      · exact ⟨.refl mb, h⟩
      · exact ⟨.refl mb, h⟩
      · have hk := (drop_keepsBooks mb m.oldRef).trans
          (insertOrder_keepsBooks (mb.drop m.oldRef) m.newRef old.info.locate old.info.side m.price m.shares).1
        have hh := (h.drop m.oldRef).insertOrder m.newRef old.info.locate old.info.side m.price m.shares
        cases hi : (mb.drop m.oldRef).insertOrder m.newRef old.info.locate old.info.side m.price m.shares with
        | mk mb' ok =>
          rw [hi] at hk hh
          cases ok
          · exact ⟨hk, hh⟩
          · exact ⟨hk, hh⟩
  | trade m =>
    have hk : KeepsBooks mb (mb.onTrade m).1 := setSlot_keepsBooks fun hb => hb
    exact ⟨hk, h.of hk fun r x hx => .inl ⟨r, x, hx, rfl⟩⟩

theorem found_of_reduced {ref shares : Nat} {tradePrice : Option Int} {execution : Bool}
    (h : (mb.reduce ref shares tradePrice execution).2 = .ok) : ∃ rec, mb.orders.find ref = some rec := by
  unfold MarketBooks.reduce at h
  cases hf : mb.orders.find ref with
  | none =>
    rw [hf] at h
    cases h
  | some rec => exact ⟨rec, rfl⟩

theorem Housed.stored (h : Housed mb) {ref : Nat} (hk : KeepsBooks mb mb') (hf : ∃ rec, mb.orders.find ref = some rec)
    (header : Nat) : (mb'.book (mb.storedLocate ref header)).isSome := by
  obtain ⟨rec, hf⟩ := hf
  rw [storedLocate_of_find hf]
  exact hk _ (h ref rec hf)

/-- **An applied message has a book**: that of the locate it is about. -/
theorem Housed.applied (h : Housed mb) {m : Message} (hok : (mb.on m).2 = .ok) :
    ((mb.on m).1.book (mb.touches m)).isSome := by
  have hk := (h.on m).1
  cases m with
  | systemEvent m => cases hok
  | trade m => cases hok
  | stockDirectory m =>
    change (mb.onStockDirectory m).2 = .ok at hok
    show ((mb.onStockDirectory m).1.book m.h.locate).isSome
    unfold onStockDirectory at hok ⊢
    dsimp only at hok ⊢
    by_cases h₁ : m.symbol.isEmpty = true
    · rw [if_pos h₁] at hok
      cases hok
    rw [if_neg h₁] at hok ⊢
    cases hb : mb.bySymbol.find m.symbol with
    | some bound =>
      rw [hb] at hok
      dsimp only at hok
      split_ifs at hok
    | none =>
      rw [hb] at hok
      dsimp only at hok ⊢
      split_ifs at hok ⊢
      simp [book, setSlot]
  | addOrder m =>
    change (mb.onAddOrder m).2 = .ok at hok
    show ((mb.onAddOrder m).1.book m.h.locate).isSome
    have hnew := (insertOrder_keepsBooks mb m.ref m.h.locate m.side m.price m.shares).2
    unfold onAddOrder at hok ⊢
    split_ifs at hok ⊢
    cases hi : mb.insertOrder m.ref m.h.locate m.side m.price m.shares with
    | mk mb' ok =>
      rw [hi] at hnew
      cases ok
      · exact hnew
      · exact hnew
  | orderExecuted m => exact h.stored hk (found_of_reduced hok) _
  | orderExecutedPrice m => exact h.stored hk (found_of_reduced hok) _
  | orderCancel m => exact h.stored hk (found_of_reduced hok) _
  | orderDelete m =>
    refine h.stored hk ?_ m.h.locate
    change (mb.onOrderDelete m).2 = .ok at hok
    unfold onOrderDelete at hok
    cases hf : mb.orders.find m.ref with
    | none =>
      rw [hf] at hok
      cases hok
    | some rec => exact ⟨rec, rfl⟩
  | orderReplace m =>
    refine h.stored hk ?_ m.h.locate
    change (mb.onOrderReplace m).2 = .ok at hok
    unfold onOrderReplace at hok
    cases hf : mb.orders.find m.oldRef with
    | none =>
      rw [hf] at hok
      cases hok
    | some rec => exact ⟨rec, rfl⟩

end MarketBooks
end OptiTrade.Book
