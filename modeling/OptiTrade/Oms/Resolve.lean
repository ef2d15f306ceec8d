import OptiTrade.Oms.Session

/-! # Which entry a report's token leads to

Several byte strings parse to one number, so the manager encodes the number again and compares before it
looks at its token map. -/

namespace OptiTrade.Oms
set_option autoImplicit false

open Runs
open Ouch (Token)

namespace OrderManager
variable {m : OrderManager} {t : Token}

/-- The entry that `resolve` looks at. -/
def lookup (m : OrderManager) (t : Token) : Option Nat :=
  match t.toId with
  | none => none
  | some id => if Token.fromId id = t then m.tokens.find id else none

theorem resolve_eq_lookup (m : OrderManager) (t : Token) :
    m.resolve t = (m.lookup t).bind fun i =>
      if t.toId = some (m.slots i).token then some (i, false)
      else if t.toId = some (m.slots i).nextToken then some (i, true)
      else none := by
  unfold resolve lookup
  cases t.toId with
  | none => rfl
  | some id =>
    dsimp only
    split_ifs with hc
    · cases m.tokens.find id with
      | none => rfl
      | some i => simp only [Option.bind_some, Option.some.injEq, eq_comm]
    · rfl

theorem lookup_fromId {id : Nat} (h : id ≤ Token.kMaxId) : m.lookup (Token.fromId id) = m.tokens.find id := by
  unfold lookup
  rw [Token.toId_fromId h]
  exact if_pos rfl

theorem lookup_invalid {id : Nat} (h : Token.kMaxId < id) : m.lookup (Token.fromId id) = none := by
  have hto : (Token.fromId id).toId = none := by
    unfold Token.fromId
    rw [if_pos h]
    decide
  unfold lookup
  rw [hto]

theorem lookup_some {i : Nat} (h : m.lookup t = some i) : ∃ id, t = Token.fromId id ∧ m.tokens.find id = some i := by
  unfold lookup at h
  split at h
  · cases h
  · rename_i id hto
    split_ifs at h with hc
    exact ⟨id, hc.symm, h⟩

theorem Tokens.minted (h : m.Tokens) {id i : Nat} (hf : m.tokens.find id = some i) :
    0 < id ∧ id < m.nextToken ∧ id ≤ Token.kMaxId := by
  obtain ⟨hi, htok⟩ := (h.find id i).mp hf
  rcases htok with rfl | ⟨rfl, hne⟩
  · exact ⟨h.token_pos i hi, h.token_lt i hi, h.token_le i hi⟩
  · exact ⟨Nat.pos_of_ne_zero hne, h.nextToken_lt i hi, h.nextToken_le i hi⟩

end OrderManager

/-- **Tokens are exact and not aliased.** Every number that fits comes back from its token; a token parses if
and only if it is digits followed by spaces, within 64 bits at every step; and in every reachable manager the
lookup of a report's token considers an entry if and only if the token is, byte for byte, that of a minted
number that is still in the token map. -/
theorem tokens_exact_and_unaliased (config : Config) (limits : Risk.Limits) (maxLocates : Nat) (es : List Event)
    (s : Session) (h : run Session.next (Session.new config limits maxLocates) es = some s) :
    (∀ id ≤ Token.kMaxId, (Token.fromId id).toId = some id) ∧
    (∀ a ≤ Token.kMaxId, ∀ b ≤ Token.kMaxId, Token.fromId a = Token.fromId b → a = b) ∧
    (∀ t : Token, t.toId.isSome = true ↔
      ∃ ds k, ds ≠ [] ∧ (∀ c ∈ ds, Token.isDigit c = true) ∧ t.chars = ds ++ List.replicate k (ascii ' ')) ∧
    (∀ (t : Token) (k : Nat), (Token.parse 0 0 (t.chars.take k)).2.1 < 2 ^ 64) ∧
    (∀ (t : Token) (i : Nat), s.manager.lookup t = some i ↔
      ∃ id, 0 < id ∧ id < s.manager.nextToken ∧ id ≤ Token.kMaxId ∧ s.manager.tokens.find id = some i ∧
        t = Token.fromId id) ∧
    (∀ t : Token, (s.manager.lookup t).isSome = true → ∀ c ∈ t.chars, Token.isDigit c = true) ∧
    (∀ id, Token.kMaxId < id → s.manager.lookup (Token.fromId id) = none) ∧
    ∀ t : Token, s.manager.resolve t = (s.manager.lookup t).bind fun i =>
      if t.toId = some (s.manager.slots i).token then some (i, false)
      else if t.toId = some (s.manager.slots i).nextToken then some (i, true)
      else none := by
  have htok := ((Session.Ok.new config limits maxLocates).run h).inv.tokens
  have hlook : ∀ (t : Token) (i : Nat), s.manager.lookup t = some i ↔
      ∃ id, 0 < id ∧ id < s.manager.nextToken ∧ id ≤ Token.kMaxId ∧ s.manager.tokens.find id = some i ∧
        t = Token.fromId id := by
    intro t i
    constructor
    · intro hl
      obtain ⟨id, ht, hf⟩ := OrderManager.lookup_some hl
      obtain ⟨h₁, h₂, h₃⟩ := htok.minted hf
      exact ⟨id, h₁, h₂, h₃, hf, ht⟩
    · rintro ⟨id, -, -, hle, hf, rfl⟩
      rw [OrderManager.lookup_fromId hle]
      exact hf
  refine ⟨fun id => Token.toId_fromId, fun a ha b hb => Token.fromId_injective ha hb, Token.toId_isSome_iff,
    Token.parse_take_lt, hlook, fun t ht => ?_, fun id => OrderManager.lookup_invalid,
    OrderManager.resolve_eq_lookup s.manager⟩
  obtain ⟨i, hi⟩ := Option.isSome_iff_exists.mp ht
  obtain ⟨id, -, -, hle, -, rfl⟩ := (hlook t i).mp hi
  unfold Token.fromId
  rw [if_neg (Nat.not_lt.mpr hle)]
  exact Token.all_isDigit_digits (fun c hc => absurd hc List.not_mem_nil) 14 id

/-- A replace in flight: both tokens lead to the order, the padded form of the first to none. -/
theorem tokens_exact_and_unaliased_replace_in_flight :
    ∃ s, run Session.next (Session.new {} {} 2) Session.replaceInFlight = some s ∧
      s.manager.lookup (Token.fromId 2) = some 0 ∧
      s.manager.lookup ⟨49 :: List.replicate 13 (ascii ' '), rfl⟩ = none := by
  have hview : (run Session.next (Session.new {} {} 2) Session.replaceInFlight).map (fun s =>
      (s.manager.nextToken, s.manager.tokens.find 2)) = some (3, some 0) := by decide +kernel
  obtain ⟨s, hr, hv⟩ := Option.map_eq_some_iff.mp hview
  obtain ⟨hn, hf⟩ := Prod.mk.inj hv
  obtain ⟨-, -, -, -, hlook, hdigits, -⟩ := tokens_exact_and_unaliased {} {} 2 Session.replaceInFlight s hr
  refine ⟨s, hr, (hlook _ _).mpr ⟨2, by decide, by rw [hn]; decide, by decide, hf, rfl⟩, ?_⟩
  rw [Option.eq_none_iff_forall_ne_some]
  intro i hi
  have hspace := hdigits _ (by rw [hi]; rfl) (ascii ' ') (by decide)
  exact Bool.false_ne_true hspace

end OptiTrade.Oms
