import Mathlib.Tactic.IntervalCases
import OptiTrade.Core.Types

/-! # OUCH order-entry messages and order tokens

A token is fourteen characters. The manager mints the decimal digits of a counter, so a report
maps back to an order by one parse; `toId_fromId` says that this parse gives the counter back. -/

namespace OptiTrade.Ouch
set_option autoImplicit false

def kTokenSize : Nat := 14

/-- The name of an order: fourteen characters. -/
structure Token where
  chars : List Byte
  size_eq : chars.length = 14
  deriving DecidableEq

namespace Token

/-- Largest id that fits in 14 decimal digits. -/
def kMaxId : Nat := 99999999999999

/-- The loop of `from_id`: `n` more digits of `id` go in front of `acc`, last digit first. -/
def digits : Nat → Nat → List Byte → List Byte
  | 0, _, acc => acc
  | n + 1, id, acc => digits n (id / 10) (UInt8.ofNat (48 + id % 10) :: acc)

theorem digits_length (n id : Nat) (acc : List Byte) :
    (digits n id acc).length = n + acc.length := by
  induction n generalizing id acc with
  | zero => simp [digits]
  | succ n ih => rw [digits, ih, List.length_cons]; omega

/-- What stands for an id that is too large. -/
def invalid : Token := ⟨List.replicate 14 (ascii '#'), by simp⟩

def blank : Token := ⟨List.replicate 14 (ascii ' '), by simp⟩

def fromId (id : Nat) : Token :=
  if kMaxId < id then invalid
  else ⟨digits 14 id [], by rw [digits_length]; rfl⟩

def isDigit (c : Byte) : Bool := 48 ≤ c && c ≤ 57

/-- The loop of `to_id`: the digits read so far, their value and the characters left. -/
def parse : Nat → Nat → List Byte → Nat × Nat × List Byte
  | n, v, [] => (n, v, [])
  | n, v, c :: cs => if isDigit c then parse (n + 1) (v * 10 + (c.toNat - 48)) cs else (n, v, c :: cs)

/-- Digits followed only by spaces. -/
def toId (t : Token) : Option Nat :=
  let (n, v, rest) := parse 0 0 t.chars
  if n = 0 then none
  else if rest.all (· == ascii ' ') then some v else none

/-! ## The round trip -/

theorem isDigit_digit (d : Nat) (h : d < 10) : isDigit (UInt8.ofNat (48 + d)) = true := by
  interval_cases d <;> decide

theorem toNat_digit (d : Nat) (h : d < 10) : (UInt8.ofNat (48 + d)).toNat - 48 = d := by
  interval_cases d <;> decide

theorem parse_digits (k id n v : Nat) (acc : List Byte) :
    parse n v (digits k id acc) = parse (n + k) (v * 10 ^ k + id % 10 ^ k) acc := by
  induction k generalizing id n v acc with
  | zero => simp [digits, Nat.mod_one]
  | succ k ih =>
    have hd : id % 10 < 10 := Nat.mod_lt _ (by omega)
    rw [digits, ih, parse, if_pos (isDigit_digit _ hd), toNat_digit _ hd]
    congr 1
    rw [Nat.pow_succ, Nat.mul_comm (10 ^ k) 10, Nat.mod_mul, Nat.add_mul, Nat.mul_assoc,
      Nat.mul_comm (10 ^ k) 10]
    omega

theorem toId_fromId {id : Nat} (h : id ≤ kMaxId) : (fromId id).toId = some id := by
  have hid : id % 10 ^ 14 = id := Nat.mod_eq_of_lt (by unfold kMaxId at h; omega)
  unfold toId fromId
  rw [if_neg (by omega)]
  simp only [parse_digits, parse, hid]
  simp

theorem fromId_injective {a b : Nat} (ha : a ≤ kMaxId) (hb : b ≤ kMaxId)
    (h : fromId a = fromId b) : a = b := by
  have := toId_fromId ha
  rw [h, toId_fromId hb] at this
  exact (Option.some.inj this).symm

theorem all_isDigit_digits {acc : List Byte} (hacc : ∀ c ∈ acc, isDigit c = true) (n id : Nat) :
    ∀ c ∈ digits n id acc, isDigit c = true := by
  induction n generalizing id acc with
  | zero => exact hacc
  | succ n ih =>
    refine ih (fun c hc => ?_) (id / 10)
    rcases List.mem_cons.mp hc with rfl | hc
    · exact isDigit_digit _ (Nat.mod_lt _ (by decide))
    · exact hacc c hc

/-! ## What parses -/

theorem parse_split (n v : Nat) (cs : List Byte) :
    (parse n v cs).1 = n + (cs.takeWhile isDigit).length ∧ (parse n v cs).2.2 = cs.dropWhile isDigit := by
  induction cs generalizing n v with
  | nil => exact ⟨rfl, rfl⟩
  | cons c cs ih =>
    by_cases hc : isDigit c = true
    · obtain ⟨hn, hrest⟩ := ih (n + 1) (v * 10 + (c.toNat - 48))
      rw [parse, if_pos hc, List.takeWhile_cons_of_pos hc, List.dropWhile_cons_of_pos hc]
      refine ⟨?_, hrest⟩
      rw [hn, List.length_cons]
      omega
    · rw [parse, if_neg hc, List.takeWhile_cons_of_neg hc, List.dropWhile_cons_of_neg hc]
      exact ⟨rfl, rfl⟩

theorem toNat_of_isDigit {c : Byte} (h : isDigit c = true) : c.toNat - 48 < 10 := by
  simp only [isDigit, Bool.and_eq_true, decide_eq_true_eq, UInt8.le_iff_toNat_le] at h
  have h₁ : (48 : Byte).toNat = 48 := rfl
  have h₂ : (57 : Byte).toNat = 57 := rfl
  omega

theorem parse_lt (n v : Nat) (cs : List Byte) (hv : v < 10 ^ n) : (parse n v cs).2.1 < 10 ^ (n + cs.length) := by
  induction cs generalizing n v with
  | nil => exact hv
  | cons c cs ih =>
    rw [parse]
    split_ifs with hc
    · have hd := toNat_of_isDigit hc
      have hlt := ih (n + 1) (v * 10 + (c.toNat - 48)) (by rw [Nat.pow_succ]; omega)
      rwa [List.length_cons, Nat.add_comm cs.length 1, ← Nat.add_assoc]
    · exact hv.trans_le (Nat.pow_le_pow_right (by decide) (Nat.le_add_right _ _))

theorem parse_take_lt (t : Token) (k : Nat) : (parse 0 0 (t.chars.take k)).2.1 < 2 ^ 64 := by
  have hlt := parse_lt 0 0 (t.chars.take k) (by decide)
  have hlen : (t.chars.take k).length ≤ 14 := by
    rw [List.length_take, t.size_eq]
    exact Nat.min_le_right _ _
  calc (parse 0 0 (t.chars.take k)).2.1 < 10 ^ (0 + (t.chars.take k).length) := hlt
    _ ≤ 10 ^ 14 := Nat.pow_le_pow_right (by decide) (by omega)
    _ < 2 ^ 64 := by decide

/-- One or more digits, then only spaces. -/
theorem toId_isSome_iff (t : Token) : t.toId.isSome = true ↔
    ∃ ds k, ds ≠ [] ∧ (∀ c ∈ ds, isDigit c = true) ∧ t.chars = ds ++ List.replicate k (ascii ' ') := by
  obtain ⟨hn, hrest⟩ := parse_split 0 0 t.chars
  have hto : t.toId.isSome = true ↔ t.chars.takeWhile isDigit ≠ [] ∧
      ∀ c ∈ t.chars.dropWhile isDigit, c = ascii ' ' := by
    unfold toId
    dsimp only
    rw [hn, hrest, Nat.zero_add]
    have hall : (t.chars.dropWhile isDigit).all (· == ascii ' ') = true ↔
        ∀ c ∈ t.chars.dropWhile isDigit, c = ascii ' ' := by simp
    rw [← hall]
    by_cases h₀ : t.chars.takeWhile isDigit = []
    · simp [h₀]
    · rw [if_neg (by simpa using h₀)]
      split_ifs with hs
      · exact ⟨fun _ => ⟨h₀, hs⟩, fun _ => rfl⟩
      · exact ⟨fun h => (Bool.false_ne_true h).elim, fun h => absurd h.2 hs⟩
  rw [hto]
  constructor
  · rintro ⟨hne, hs⟩
    refine ⟨_, (t.chars.dropWhile isDigit).length, hne, List.all_eq_true.mp List.all_takeWhile, ?_⟩
    rw [← List.eq_replicate_of_mem hs]
    exact List.takeWhile_append_dropWhile.symm
  · rintro ⟨ds, k, hne, hds, ht⟩
    have hspace : isDigit (ascii ' ') = false := by decide
    have hrep : (List.replicate k (ascii ' ')).takeWhile isDigit = [] := by
      cases k with
      | zero => rfl
      | succ k => rw [List.replicate_succ, List.takeWhile_cons_of_neg (by rw [hspace]; exact Bool.false_ne_true)]
    have htake : t.chars.takeWhile isDigit = ds := by
      rw [ht, List.takeWhile_append_of_pos hds, hrep, List.append_nil]
    have hdrop : t.chars.dropWhile isDigit = List.replicate k (ascii ' ') := by
      have hsplit := List.takeWhile_append_dropWhile (p := isDigit) (l := t.chars)
      rw [htake] at hsplit
      exact List.append_cancel_left (hsplit.trans ht)
    rw [htake, hdrop]
    exact ⟨hne, fun c hc => List.eq_of_mem_replicate hc⟩

end Token

def kTifIoc : Nat := 0
def kTifMarketHours : Nat := 99998
def kTifSystemHours : Nat := 99999

/-- The firm field. -/
structure Firm where
  chars : List Byte
  size_eq : chars.length = 4
  deriving DecidableEq

def Firm.blank : Firm := ⟨List.replicate 4 (ascii ' '), by simp⟩
def Firm.zero : Firm := ⟨List.replicate 4 0, by simp⟩

/-! ## Client to exchange -/

/-- Type `O`. -/
structure EnterOrder where
  token : Token
  side : Side
  shortSell : Bool := false
  shares : Nat
  stock : Symbol
  price : Int
  timeInForce : Nat := kTifSystemHours
  firm : Firm := Firm.blank
  display : Byte := ascii 'Y'
  capacity : Byte := ascii 'P'
  intermarketSweep : Byte := ascii 'N'
  minQty : Nat := 0
  crossType : Byte := ascii 'N'
  customerType : Byte := ascii ' '
  deriving DecidableEq

/-- Type `U` from the client. -/
structure ReplaceOrder where
  existing : Token
  replacement : Token
  /-- Total for the whole chain, executions included. -/
  shares : Nat
  price : Int
  timeInForce : Nat := kTifSystemHours
  display : Byte := ascii 'Y'
  intermarketSweep : Byte := ascii 'N'
  minQty : Nat := 0
  deriving DecidableEq

/-- Type `X`. -/
structure CancelOrder where
  token : Token
  /-- New intended size; 0 cancels everything still open. -/
  shares : Nat
  deriving DecidableEq

/-- A message handed to `OrderGateway::send`. -/
inductive Inbound
  | enter (m : EnterOrder)
  | cancel (m : CancelOrder)
  | replace (m : ReplaceOrder)
  deriving DecidableEq

/-! ## Exchange to client -/

/-- Type `A`, and what type `U` from the exchange has in common with it. -/
structure Accepted where
  ts : Nat := 0
  token : Token
  side : Side
  shares : Nat := 0
  stock : Symbol := Symbol.blank
  price : Int := 0
  timeInForce : Nat := 0
  firm : Firm := Firm.zero
  display : Byte := 0
  ref : Nat := 0
  capacity : Byte := 0
  intermarketSweep : Byte := 0
  minQty : Nat := 0
  crossType : Byte := 0
  /-- `L` live, `D` accepted and immediately canceled. -/
  orderState : Byte := ascii 'L'
  bboWeight : Byte := ascii ' '
  deriving DecidableEq

/-- Type `U` from the exchange. -/
structure Replaced where
  /-- `a.token` is the replacement token and `a.shares` what is open after the replace. -/
  a : Accepted
  previous : Token
  deriving DecidableEq

/-- Type `C`. -/
structure Canceled where
  ts : Nat
  token : Token
  decrement : Nat
  reason : Byte
  deriving DecidableEq

/-- Type `E`. -/
structure Executed where
  ts : Nat
  token : Token
  /-- Incremental. -/
  shares : Nat
  price : Int
  liquidity : Byte := ascii 'A'
  matchNo : Nat
  deriving DecidableEq

/-- Type `J`. -/
structure Rejected where
  ts : Nat
  token : Token
  reason : Byte
  deriving DecidableEq

/-- A report of the exchange. -/
inductive Outbound
  | accepted (m : Accepted)
  | executed (m : Executed)
  | canceled (m : Canceled)
  | rejected (m : Rejected)
  | replaced (m : Replaced)
  deriving DecidableEq

/-- The token under which the request asks for an order to work. -/
def Inbound.opens : Inbound → Option Token
  | .enter m => some m.token
  | .replace m => some m.replacement
  | .cancel _ => none

/-- The token of the order the report is about, after the report. -/
def Outbound.token : Outbound → Token
  | .accepted m => m.token
  | .executed m => m.token
  | .canceled m => m.token
  | .rejected m => m.token
  | .replaced m => m.a.token

end OptiTrade.Ouch
