import Mathlib.Tactic.Common

/-! # Shared vocabulary

Prices and quantities, sides, symbols, and the fixed-width arithmetic of the C++ integer types.
`Price` is `Int` (four implied decimals); `Qty`, `OrderRef`, `Locate`, `Nanos` and `OrderId` are `Nat`,
and an operation whose C++ form can wrap carries its modulus. -/

namespace OptiTrade
set_option autoImplicit false

abbrev Byte := UInt8

def kMaxOrderQty : Nat := 999999

/-- The code of an ASCII character. -/
def ascii (c : Char) : Byte := UInt8.ofNat c.toNat

/-- The side of an order. -/
inductive Side
  | buy
  | sell
  deriving DecidableEq, Repr

def opposite : Side → Side
  | .buy => .sell
  | .sell => .buy

/-! ## Unsigned arithmetic -/

def u32Max : Nat := 4294967295
def u64Max : Nat := 18446744073709551615

/-- `a - b` on `std::uint32_t`. -/
def sub32 (a b : Nat) : Nat := (4294967296 + a - b) % 4294967296

/-- `a + b` on `std::uint32_t`. -/
def add32 (a b : Nat) : Nat := (a + b) % 4294967296

/-- `a + b` on `std::uint64_t`. -/
def add64 (a b : Nat) : Nat := (a + b) % 18446744073709551616

/-- `a - b` on `std::uint64_t`. -/
def sub64 (a b : Nat) : Nat := (18446744073709551616 + a - b) % 18446744073709551616

theorem sub32_eq {a b : Nat} (hab : b ≤ a) (ha : a ≤ u32Max) : sub32 a b = a - b := by
  unfold sub32 u32Max at *
  omega

theorem add32_eq {a b : Nat} (h : a + b ≤ u32Max) : add32 a b = a + b := by
  unfold add32 u32Max at *
  omega

theorem add64_eq {a b : Nat} (h : a + b ≤ u64Max) : add64 a b = a + b := by
  unfold add64 u64Max at *
  omega

theorem sub64_eq {a b : Nat} (hab : b ≤ a) (ha : a ≤ u64Max) : sub64 a b = a - b := by
  unfold sub64 u64Max at *
  omega

/-- `a + b` on `Nanos`, held at the largest value instead of wrapping. -/
def saturatingAdd (a b : Nat) : Nat := if u64Max - b < a then u64Max else a + b

/-! ## Symbols -/

/-- Eight characters, right padded with spaces. -/
structure Symbol where
  chars : List Byte
  size_eq : chars.length = 8
  deriving DecidableEq

namespace Symbol

def blank : Symbol := ⟨List.replicate 8 (ascii ' '), by simp⟩

/-- The first eight characters of a text, padded. -/
def ofText (text : List Byte) : Symbol := ⟨text.take 8 ++ List.replicate (8 - text.length) (ascii ' '), by grind⟩

/-- The text without its trailing padding. -/
def view (s : Symbol) : List Byte :=
  (s.chars.reverse.dropWhile fun c => c == ascii ' ' || c == 0).reverse

def isEmpty (s : Symbol) : Bool := s.view.isEmpty

end Symbol

instance : Inhabited Symbol := ⟨Symbol.blank⟩

end OptiTrade
