import Mathlib.Tactic.SplitIfs
import OptiTrade.Book.MarketBooks

/-! # Which levels a message changes

A message touches the book of one locate at most. A message that is refused leaves every level alone, apart from the
few refusals that have taken an order off the ladder by then. -/

namespace OptiTrade.Book
set_option autoImplicit false

open Itch (Message)

namespace OrderBook
variable {b : OrderBook} {s : Side} {price : Int} {qty : Nat}

/-- The id of the level that an order at a price is posted to. -/
def postsTo (b : OrderBook) (s : Side) (price : Int) : Nat :=
  match findLevel (b.sides s) s price with
  | some (_, x) => x.id
  | none => b.nextId

/-- An add that is not stored leaves both sides alone. -/
theorem addOrder_refused (h : (b.addOrder s price qty).2 = kNoLevel) :
    (b.addOrder s price qty).1.sides = b.sides ∨ b.postsTo s price = kNoLevel := by
  unfold addOrder at h ⊢
  unfold postsTo
  by_cases hq : qty = 0
  · rw [if_pos hq]
    exact .inl rfl
  · rw [if_neg hq] at h ⊢
    dsimp only at h ⊢
    cases hf : findLevel (b.sides s) s price with
    | some found =>
      rw [hf] at h
      dsimp only at h ⊢
      split_ifs at h ⊢
      · exact .inl rfl
      · exact .inr h
    | none =>
      rw [hf] at h
      dsimp only at h ⊢
      split_ifs at h ⊢
      · exact .inl rfl
      · exact .inr h
      · exact .inr h

theorem ladder_congr {b b' : OrderBook} (h : b'.sides = b.sides) (s : Side) : b'.ladder s = b.ladder s := by
  unfold ladder
  rw [h]

end OrderBook

namespace MarketBooks
variable {mb mb' mb'' : MarketBooks} {l : Nat}

/-- The levels of one side of a locate, best price first; none while it has no book. -/
def levels (mb : MarketBooks) (l : Nat) (s : Side) : List Level :=
  match mb.book l with
  | some b => b.ladder s
  | none => []

/-- The books of all other locates are the same. -/
def OnlyAt (mb mb' : MarketBooks) (l : Nat) : Prop := ∀ k, k ≠ l → mb'.book k = mb.book k

theorem OnlyAt.refl (mb : MarketBooks) (l : Nat) : OnlyAt mb mb l := fun _ _ => rfl

theorem OnlyAt.trans (h₁ : OnlyAt mb mb' l) (h₂ : OnlyAt mb' mb'' l) : OnlyAt mb mb'' l :=
  fun k hk => (h₂ k hk).trans (h₁ k hk)

theorem OnlyAt.levels (h : OnlyAt mb mb' l) {k : Nat} {s : Side} (hc : mb'.levels k s ≠ mb.levels k s) : k = l := by
  by_contra hk
  unfold MarketBooks.levels at hc
  rw [h k hk] at hc
  exact hc rfl

theorem setSlot_onlyAt (mb : MarketBooks) (l : Nat) (slot : Slot) : OnlyAt mb (mb.setSlot l slot) l := by
  intro k hk
  simp [setSlot, book, hk]

theorem drop_onlyAt {ref : Nat} {rec : OrderRecord} (h : mb.orders.find ref = some rec) :
    OnlyAt mb (mb.drop ref) rec.info.locate := by
  unfold drop
  rw [h]
  dsimp only
  split_ifs
  · exact setSlot_onlyAt mb rec.info.locate _
  · exact .refl mb _

theorem insertOrder_onlyAt (mb : MarketBooks) (ref loc : Nat) (side : Side) (price : Int) (qty : Nat) :
    OnlyAt mb (mb.insertOrder ref loc side price qty).1 loc := setSlot_onlyAt mb loc _

theorem reduce_onlyAt (mb : MarketBooks) {ref : Nat} {rec : OrderRecord} (h : mb.orders.find ref = some rec) (shares : Nat)
    (tradePrice : Option Int) (execution : Bool) : OnlyAt mb (mb.reduce ref shares tradePrice execution).1 rec.info.locate := by
  unfold reduce
  rw [h]
  dsimp only
  by_cases h₁ : shares = 0
  · rw [if_pos h₁]
    exact .refl mb _
  rw [if_neg h₁]
  by_cases h₂ : rec.info.qty < shares
  · rw [if_pos h₂]
    exact drop_onlyAt h
  rw [if_neg h₂]
  have hless : OnlyAt mb (if shares = rec.info.qty then mb.drop ref
      else
        let mb := if rec.level ≠ kNoLevel then
            mb.withBook rec.info.locate fun b => (b.reduceOrder rec.info.side rec.info.price shares rec.level).1
          else mb
        { mb with orders := mb.orders.set ref { rec with info := { rec.info with qty := rec.info.qty - shares } } })
      rec.info.locate := by
    by_cases h₃ : shares = rec.info.qty
    · rw [if_pos h₃]
      exact drop_onlyAt h
    · rw [if_neg h₃]
      dsimp only
      split_ifs
      · exact setSlot_onlyAt mb rec.info.locate _
      · exact .refl mb _
  by_cases h₄ : execution = true
  · rw [if_pos h₄]
    exact hless.trans (setSlot_onlyAt _ rec.info.locate _)
  · rw [if_neg h₄]
    exact hless

/-- The locate of a live order, and what the header says for another one. -/
def storedLocate (mb : MarketBooks) (ref header : Nat) : Nat :=
  match mb.order ref with
  | some o => o.locate
  | none => header

/-- The locate whose book a message is about. -/
def touches (mb : MarketBooks) : Message → Nat
  | .addOrder m => m.h.locate
  | .orderExecuted m => mb.storedLocate m.ref m.h.locate
  | .orderExecutedPrice m => mb.storedLocate m.ref m.h.locate
  | .orderCancel m => mb.storedLocate m.ref m.h.locate
  | .orderDelete m => mb.storedLocate m.ref m.h.locate
  | .orderReplace m => mb.storedLocate m.oldRef m.h.locate
  | .stockDirectory m => m.h.locate
  | .trade m => m.h.locate
  | .systemEvent m => m.h.locate

theorem storedLocate_of_find {ref : Nat} {rec : OrderRecord} (h : mb.orders.find ref = some rec) (header : Nat) :
    mb.storedLocate ref header = rec.info.locate := by
  unfold storedLocate order
  rw [h]
  rfl

theorem reduce_onlyAt_stored (mb : MarketBooks) (ref header shares : Nat) (tradePrice : Option Int) (execution : Bool) :
    OnlyAt mb (mb.reduce ref shares tradePrice execution).1 (mb.storedLocate ref header) := by
  cases hf : mb.orders.find ref with
  | none =>
    unfold reduce
    rw [hf]
    exact .refl mb _
  | some rec =>
    rw [storedLocate_of_find hf]
    exact reduce_onlyAt mb hf shares tradePrice execution

/-- **A message touches one book at most.** -/
theorem on_onlyAt (mb : MarketBooks) (m : Message) : OnlyAt mb (mb.on m).1 (mb.touches m) := by
  cases m with
  | stockDirectory m =>
    show OnlyAt mb (mb.onStockDirectory m).1 m.h.locate
    unfold onStockDirectory
    dsimp only
    by_cases h₁ : m.symbol.isEmpty = true
    · rw [if_pos h₁]
      exact .refl mb _
    rw [if_neg h₁]
    cases mb.bySymbol.find m.symbol with
    | some bound => exact .refl mb _
    | none =>
      dsimp only
      split_ifs
      · exact .refl mb _
      · exact .refl mb _
      · exact setSlot_onlyAt mb _ _
  | addOrder m =>
    show OnlyAt mb (mb.onAddOrder m).1 m.h.locate
    unfold onAddOrder
    split_ifs
    · exact .refl mb _
    · exact .refl mb _
    · exact .refl mb _
    · have h := insertOrder_onlyAt mb m.ref m.h.locate m.side m.price m.shares
      cases hi : mb.insertOrder m.ref m.h.locate m.side m.price m.shares with
      | mk mb' ok =>
        rw [hi] at h
        cases ok
        · exact h
        · exact h
  | orderExecuted m => exact reduce_onlyAt_stored mb _ _ _ _ _
  | orderExecutedPrice m => exact reduce_onlyAt_stored mb _ _ _ _ _
  | orderCancel m => exact reduce_onlyAt_stored mb _ _ _ _ _
  | orderDelete m =>
    show OnlyAt mb (mb.onOrderDelete m).1 (mb.storedLocate m.ref m.h.locate)
    unfold onOrderDelete
    cases hf : mb.orders.find m.ref with
    | none => exact .refl mb _
    | some rec =>
      rw [storedLocate_of_find hf]
      exact drop_onlyAt hf
  | orderReplace m =>
    show OnlyAt mb (mb.onOrderReplace m).1 (mb.storedLocate m.oldRef m.h.locate)
    unfold onOrderReplace
    cases hf : mb.orders.find m.oldRef with
    | none => exact .refl mb _
    | some old =>
      rw [storedLocate_of_find hf]
      dsimp only
      split_ifs
      · exact .refl mb _
      · exact .refl mb _
      · have h := (drop_onlyAt hf).trans
          (insertOrder_onlyAt (mb.drop m.oldRef) m.newRef old.info.locate old.info.side m.price m.shares)
        cases hi : (mb.drop m.oldRef).insertOrder m.newRef old.info.locate old.info.side m.price m.shares with
        | mk mb' ok =>
          rw [hi] at h
          cases ok
          · exact h
          · exact h
  | trade m => exact setSlot_onlyAt mb m.h.locate _
  | systemEvent m => exact .refl mb _

/-! ## Refusals -/

/-- No level of any book is changed. -/
def SameLevels (mb mb' : MarketBooks) : Prop := ∀ l s, mb'.levels l s = mb.levels l s

theorem SameLevels.of_book (h : ∀ l, mb'.book l = mb.book l) : SameLevels mb mb' := by
  intro l s
  unfold levels
  rw [h l]

theorem SameLevels.refl (mb : MarketBooks) : SameLevels mb mb := fun _ _ => rfl

theorem SameLevels.store {slot : Slot} {b : OrderBook} (hslot : slot.book = some b)
    (hb : b.sides = (mb.ensureBook (mb.slots l)).sides) : SameLevels mb (mb.setSlot l slot) := by
  intro k s
  by_cases hk : k = l
  · subst hk
    have hnew : (mb.setSlot k slot).book k = some b := by simp [setSlot, book, hslot]
    unfold levels
    rw [hnew]
    dsimp only
    rw [OrderBook.ladder_congr hb]
    unfold ensureBook book
    cases (mb.slots k).book with
    | none => rfl
    | some old => rfl
  · unfold levels
    rw [setSlot_onlyAt mb l slot k hk]

theorem insertOrder_refused {ref loc : Nat} {side : Side} {price : Int} {qty : Nat}
    (h : (mb.insertOrder ref loc side price qty).2 = false) :
    SameLevels mb (mb.insertOrder ref loc side price qty).1 ∨
      (mb.ensureBook (mb.slots loc)).postsTo side price = kNoLevel := by
  have hid : ((mb.ensureBook (mb.slots loc)).addOrder side price qty).2 = kNoLevel := by
    simpa [insertOrder] using h
  rcases OrderBook.addOrder_refused hid with hsides | hwrapped
  · refine .inl fun k s => ?_
    have hstore : SameLevels mb (mb.setSlot loc { mb.slots loc with
        book := some ((mb.ensureBook (mb.slots loc)).addOrder side price qty).1 }) := .store rfl hsides
    exact hstore k s
  · exact .inr hwrapped

theorem onTrade_levels (mb : MarketBooks) (m : Itch.Trade) : SameLevels mb (mb.onTrade m).1 := by
  refine .of_book fun k => ?_
  by_cases hk : k = m.h.locate
  · subst hk
    simp [onTrade, setSlot, book]
  · exact setSlot_onlyAt mb m.h.locate _ k hk

theorem onStockDirectory_levels (mb : MarketBooks) (m : Itch.StockDirectory) : SameLevels mb (mb.onStockDirectory m).1 := by
  unfold onStockDirectory
  dsimp only
  by_cases h₁ : m.symbol.isEmpty = true
  · rw [if_pos h₁]
    exact .refl mb
  rw [if_neg h₁]
  cases mb.bySymbol.find m.symbol with
  | some bound => exact .refl mb
  | none =>
    dsimp only
    split_ifs
    · exact .refl mb
    · exact .refl mb
    · have hstore : SameLevels mb (mb.setSlot m.h.locate { mb.slots m.h.locate with
          book := some (mb.ensureBook (mb.slots m.h.locate)), symbol := m.symbol }) := .store rfl rfl
      exact hstore

/-- The order and the shares of an execution or a cancel. -/
def reduction : Message → Option (Nat × Nat)
  | .orderExecuted m => some (m.ref, m.shares)
  | .orderExecutedPrice m => some (m.ref, m.shares)
  | .orderCancel m => some (m.ref, m.shares)
  | _ => none

/-- **The refusals that change a level**: an order is dropped that is executed or cancelled beyond what is left of it,
and the old order of a replace is gone when the ladder does not take the new one. An add is among them only when the
ids of its book have wrapped around to the one that says that there is no level. -/
inductive Spoils (mb : MarketBooks) (l : Nat) : Message → Applied → Prop
  | beyond (m : Message) (ref shares : Nat) (rec : OrderRecord) : reduction m = some (ref, shares) →
      mb.orders.find ref = some rec → rec.info.locate = l → rec.info.qty < shares → Spoils mb l m .invalid
  | replaced (m : Itch.OrderReplace) (old : OrderRecord) : mb.orders.find m.oldRef = some old → old.info.locate = l →
      Spoils mb l (.orderReplace m) .capacity
  | wrapped (m : Itch.AddOrder) : m.h.locate = l → (mb.ensureBook (mb.slots l)).postsTo m.side m.price = kNoLevel →
      Spoils mb l (.addOrder m) .capacity

theorem reduce_refused {ref shares : Nat} {tradePrice : Option Int} {execution : Bool}
    (h : (mb.reduce ref shares tradePrice execution).2 ≠ .ok) :
    (mb.reduce ref shares tradePrice execution).1 = mb ∨
      ((mb.reduce ref shares tradePrice execution).2 = .invalid ∧
        ∃ rec, mb.orders.find ref = some rec ∧ rec.info.qty < shares ∧
          (mb.reduce ref shares tradePrice execution).1 = mb.drop ref) := by
  unfold reduce at h ⊢
  cases hf : mb.orders.find ref with
  | none => exact .inl rfl
  | some rec =>
    rw [hf] at h
    dsimp only at h ⊢
    by_cases h₁ : shares = 0
    · rw [if_pos h₁]
      exact .inl rfl
    rw [if_neg h₁] at h ⊢
    by_cases h₂ : rec.info.qty < shares
    · rw [if_pos h₂]
      exact .inr ⟨rfl, rec, rfl, h₂, rfl⟩
    · rw [if_neg h₂] at h
      exact absurd rfl h

theorem reduce_spoils {m : Message} {ref shares : Nat} {tradePrice : Option Int} {execution : Bool}
    (hm : reduction m = some (ref, shares)) (hon : mb.on m = mb.reduce ref shares tradePrice execution)
    (h : (mb.on m).2 ≠ .ok) {s : Side} (hc : (mb.on m).1.levels l s ≠ mb.levels l s) : Spoils mb l m (mb.on m).2 := by
  rw [hon] at h hc ⊢
  rcases reduce_refused h with hsame | ⟨hr, rec, hf, hlt, hdrop⟩
  · rw [hsame] at hc
    exact absurd rfl hc
  · rw [hdrop] at hc
    have hl : l = rec.info.locate := (drop_onlyAt hf).levels hc
    rw [hr]
    exact .beyond m ref shares rec hm hf hl.symm hlt

theorem on_spoils {m : Message} (h : (mb.on m).2 ≠ .ok) {s : Side} (hc : (mb.on m).1.levels l s ≠ mb.levels l s) :
    Spoils mb l m (mb.on m).2 := by
  have hat : l = mb.touches m := (on_onlyAt mb m).levels hc
  cases m with
  | stockDirectory m => exact absurd (onStockDirectory_levels mb m l s) hc
  | addOrder m =>
    change (mb.onAddOrder m).2 ≠ .ok at h
    change (mb.onAddOrder m).1.levels l s ≠ mb.levels l s at hc
    show Spoils mb l (.addOrder m) (mb.onAddOrder m).2
    unfold onAddOrder at h hc ⊢
    split_ifs at h hc ⊢
    · exact absurd rfl hc
    · exact absurd rfl hc
    · exact absurd rfl hc
    · cases hi : mb.insertOrder m.ref m.h.locate m.side m.price m.shares with
      | mk mb' ok =>
        rw [hi] at h hc
        cases ok with
        | true => exact absurd rfl h
        | false =>
          have hresult : (mb.insertOrder m.ref m.h.locate m.side m.price m.shares).2 = false := by rw [hi]
          rcases insertOrder_refused hresult with hsame | hwrapped
          · rw [hi] at hsame
            exact absurd (hsame l s) hc
          · refine .wrapped m hat.symm ?_
            rw [hat]
            exact hwrapped
  | orderExecuted m => exact reduce_spoils rfl rfl h hc
  | orderExecutedPrice m => exact reduce_spoils rfl rfl h hc
  | orderCancel m => exact reduce_spoils rfl rfl h hc
  | orderDelete m =>
    refine absurd ?_ hc
    change (mb.onOrderDelete m).2 ≠ .ok at h
    show (mb.onOrderDelete m).1.levels l s = mb.levels l s
    unfold onOrderDelete at h ⊢
    cases hf : mb.orders.find m.ref with
    | none => rfl
    | some rec =>
      rw [hf] at h
      exact absurd rfl h
  | orderReplace m =>
    change (mb.onOrderReplace m).2 ≠ .ok at h
    change (mb.onOrderReplace m).1.levels l s ≠ mb.levels l s at hc
    change l = mb.storedLocate m.oldRef m.h.locate at hat
    show Spoils mb l (.orderReplace m) (mb.onOrderReplace m).2
    unfold onOrderReplace at h hc ⊢
    cases hf : mb.orders.find m.oldRef with
    | none =>
      rw [hf] at hc
      exact absurd rfl hc
    | some old =>
      rw [storedLocate_of_find hf] at hat
      rw [hf] at h hc
      dsimp only at h hc ⊢
      split_ifs at h hc ⊢
      · exact absurd rfl hc
      · exact absurd rfl hc
      · cases hi : (mb.drop m.oldRef).insertOrder m.newRef old.info.locate old.info.side m.price m.shares with
        | mk mb' ok =>
          rw [hi] at h
          cases ok with
          | true => exact absurd rfl h
          | false => exact .replaced m old hf hat.symm
  | trade m => exact absurd (onTrade_levels mb m l s) hc
  | systemEvent m => exact absurd rfl hc

end MarketBooks
end OptiTrade.Book
