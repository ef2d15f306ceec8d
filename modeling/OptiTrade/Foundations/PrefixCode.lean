import OptiTrade.Foundations.Bytes

/-! # Codes that tell where a word ends

A row of code words, one after the other with nothing in between, tells the words when no word goes on as another one. A
word of fixed width followed by as many symbols as it says is such a code. -/

namespace OptiTrade.PrefixCode
set_option autoImplicit false

variable {α β : Type*}

/-- What the words of a code begin with tells the word; no word is empty. -/
structure PrefixFree (P : α → Prop) (code : α → List β) : Prop where
  nonempty : ∀ x, P x → code x ≠ []
  split : ∀ x y xs ys, P x → P y → code x ++ xs = code y ++ ys → x = y

namespace PrefixFree
variable {P : α → Prop} {code : α → List β}

/-- **A row tells its words.** -/
theorem flatMap_injective (h : PrefixFree P code) {l l' : List α} (hl : ∀ x ∈ l, P x) (hl' : ∀ x ∈ l', P x)
    (heq : l.flatMap code = l'.flatMap code) : l = l' := by
  induction l generalizing l' with
  | nil =>
    cases l' with
    | nil => rfl
    | cons y ys =>
      rw [List.flatMap_nil, List.flatMap_cons] at heq
      exact absurd (List.append_eq_nil_iff.mp heq.symm).1 (h.nonempty y (hl' y List.mem_cons_self))
  | cons x xs ih =>
    cases l' with
    | nil =>
      rw [List.flatMap_nil, List.flatMap_cons] at heq
      exact absurd (List.append_eq_nil_iff.mp heq).1 (h.nonempty x (hl x List.mem_cons_self))
    | cons y ys =>
      rw [List.flatMap_cons, List.flatMap_cons] at heq
      obtain rfl := h.split x y _ _ (hl x List.mem_cons_self) (hl' y List.mem_cons_self) heq
      rw [ih (fun z hz => hl z (List.mem_cons_of_mem _ hz)) (fun z hz => hl' z (List.mem_cons_of_mem _ hz))
        (List.append_cancel_left heq)]

end PrefixFree

theorem store_split {w a b : Nat} (ha : a < 256 ^ w) (hb : b < 256 ^ w) {xs ys : List Byte}
    (h : Le.store w a ++ xs = Le.store w b ++ ys) : a = b ∧ xs = ys := by
  obtain ⟨hstore, hrest⟩ := List.append_inj h (by rw [Le.length_store, Le.length_store])
  refine ⟨?_, hrest⟩
  rw [← Le.load_store_of_lt ha, ← Le.load_store_of_lt hb, hstore]

theorem counted_split {w : Nat} {p q xs ys : List Byte} (hp : p.length < 256 ^ w) (hq : q.length < 256 ^ w)
    (h : Le.store w p.length ++ (p ++ xs) = Le.store w q.length ++ (q ++ ys)) : p = q ∧ xs = ys := by
  obtain ⟨hlen, hrest⟩ := store_split hp hq h
  exact List.append_inj hrest hlen

end OptiTrade.PrefixCode
