import OptiTrade.Oms.Convergence
import OptiTrade.Ouch.RoundTrip
import OptiTrade.Sim.ExchangeSim

/-! # A report of the simulator in the hands of the manager

The simulator counts its references and its executions without a limit here, the wire has eight bytes for each.
What the decoder makes of an encoded report is the report with every integer cut to its field; the manager looks
at none of the cut ones but the match number of an execution. -/

namespace OptiTrade.Agreement
set_option autoImplicit false

open Ouch (Outbound fitsWirePrice)
open Oms (Proper reportOf matchOf)
open Protocol (Report)

/-! ## Fields -/

theorem store_mod (w v : Nat) : Be.store w (v % 256 ^ w) = Be.store w v := by
  have h := Be.store_load (Be.store w v)
  rwa [Be.length_store, Be.load_store] at h

theorem store_four (v : Nat) : Be.store 4 (v % 2 ^ 32) = Be.store 4 v := store_mod 4 v

theorem store_eight (v : Nat) : Be.store 8 (v % 2 ^ 64) = Be.store 8 v := store_mod 8 v

def cutAccepted (m : Ouch.Accepted) : Ouch.Accepted :=
  { m with
    ts := m.ts % 2 ^ 64, shares := m.shares % 2 ^ 32, timeInForce := m.timeInForce % 2 ^ 32, ref := m.ref % 2 ^ 64
    minQty := m.minQty % 2 ^ 32 }

/-- The report with every integer cut to its field. -/
def cut : Outbound → Outbound
  | .accepted m => .accepted (cutAccepted m)
  | .replaced m => .replaced ⟨cutAccepted m.a, m.previous⟩
  | .canceled m => .canceled { m with ts := m.ts % 2 ^ 64, decrement := m.decrement % 2 ^ 32 }
  | .executed m => .executed { m with ts := m.ts % 2 ^ 64, shares := m.shares % 2 ^ 32, matchNo := m.matchNo % 2 ^ 64 }
  | .rejected m => .rejected { m with ts := m.ts % 2 ^ 64 }

theorem cutAccepted_typed (m : Ouch.Accepted) : (cutAccepted m).Typed :=
  ⟨Nat.mod_lt _ (by decide), Nat.mod_lt _ (by decide), Nat.mod_lt _ (by decide), Nat.mod_lt _ (by decide),
    Nat.mod_lt _ (by decide)⟩

theorem cut_typed (m : Outbound) : (cut m).Typed := by
  cases m with
  | accepted m => exact cutAccepted_typed m
  | replaced m => exact cutAccepted_typed m.a
  | canceled m => exact ⟨Nat.mod_lt _ (by decide), Nat.mod_lt _ (by decide)⟩
  | executed m => exact ⟨Nat.mod_lt _ (by decide), Nat.mod_lt _ (by decide), Nat.mod_lt _ (by decide)⟩
  | rejected m => exact Nat.mod_lt _ (by decide)

theorem cut_wirePrice (m : Outbound) : (cut m).wirePrice = m.wirePrice := by
  cases m <;> rfl

theorem writeAcceptedCommon_cut (type : Byte) (m : Ouch.Accepted) :
    Ouch.writeAcceptedCommon type (cutAccepted m) = Ouch.writeAcceptedCommon type m := by
  unfold Ouch.writeAcceptedCommon cutAccepted
  rw [store_eight, store_eight, store_four, store_four, store_four]

/-- The wire does not see what is cut. -/
theorem write_cut (m : Outbound) : Ouch.write (cut m) = Ouch.write m := by
  cases m with
  | accepted m =>
    show Ouch.writeAcceptedCommon _ (cutAccepted m) ++ _ = _
    rw [writeAcceptedCommon_cut]
    rfl
  | replaced m =>
    show Ouch.writeAcceptedCommon _ (cutAccepted m.a) ++ _ ++ _ = _
    rw [writeAcceptedCommon_cut]
    rfl
  | canceled m =>
    show _ :: Be.store 8 (m.ts % 2 ^ 64) ++ _ ++ Be.store 4 (m.decrement % 2 ^ 32) ++ _ = _
    rw [store_eight, store_four]
    rfl
  | executed m =>
    show _ :: Be.store 8 (m.ts % 2 ^ 64) ++ _ ++ Be.store 4 (m.shares % 2 ^ 32) ++ _ ++ _ ++ Be.store 8 (m.matchNo % 2 ^ 64) = _
    rw [store_eight, store_eight, store_four]
    rfl
  | rejected m =>
    show _ :: Be.store 8 (m.ts % 2 ^ 64) ++ _ ++ _ = _
    rw [store_eight]
    rfl

theorem proper_encodable {m : Outbound} (hp : Proper m) : m.Encodable := by
  cases m with
  | accepted m => exact hp
  | replaced m => exact .inl hp
  | canceled m => trivial
  | executed m => trivial
  | rejected m => trivial

theorem cut_encodable {m : Outbound} (h : m.Encodable) : (cut m).Encodable := by
  cases m with
  | accepted m => exact h
  | replaced m => exact h
  | canceled m => trivial
  | executed m => trivial
  | rejected m => trivial

/-- **Decoding** an encoded report gives the report, its integers cut to their fields. -/
theorem decode_encode {m : Outbound} {bs : List Byte} (hm : m.Encodable) (h : Ouch.encode m = some bs) :
    Ouch.decodeOutbound bs = .ok (cut m) := by
  unfold Ouch.encode at h
  split_ifs at h with hfits
  cases h
  have hfits' : fitsWirePrice (cut m).wirePrice = true := by rw [cut_wirePrice, hfits]
  rw [← write_cut, ← Ouch.Outbound.bytes_fields hfits']
  exact Ouch.decodeOutbound_fields (cut_typed m) (cut_encodable hm) ((Ouch.fitsWirePrice_iff _).mp hfits')

/-! ## What the manager sees -/

/-- The share counts and the match number fit their fields. -/
def Fits : Outbound → Prop
  | .replaced m => m.a.shares < 2 ^ 32
  | .canceled m => m.decrement < 2 ^ 32
  | .executed m => m.shares < 2 ^ 32 ∧ m.matchNo < 2 ^ 64
  | .accepted _ | .rejected _ => True

theorem reportOf_cut {m : Outbound} (h : Fits m) : reportOf (cut m) = reportOf m := by
  cases m with
  | accepted m => rfl
  | replaced m =>
    show Report.replaced m.a.token m.previous (m.a.shares % 2 ^ 32) = _
    rw [Nat.mod_eq_of_lt h]
    rfl
  | canceled m =>
    show Report.canceled m.token (m.decrement % 2 ^ 32) = _
    rw [Nat.mod_eq_of_lt h]
    rfl
  | executed m =>
    show Report.executed m.token (m.shares % 2 ^ 32) = _
    rw [Nat.mod_eq_of_lt h.1]
    rfl
  | rejected m => rfl

theorem matchOf_cut {m : Outbound} (h : Fits m) : matchOf (cut m) = matchOf m := by
  cases m with
  | executed m =>
    show [m.matchNo % 2 ^ 64] = _
    rw [Nat.mod_eq_of_lt h.2]
    rfl
  | accepted m => rfl
  | replaced m => rfl
  | canceled m => rfl
  | rejected m => rfl

theorem proper_cut {m : Outbound} (hp : Proper m) : Proper (cut m) := by
  cases m with
  | accepted m => exact hp
  | replaced m => exact hp
  | canceled m => trivial
  | executed m => exact hp
  | rejected m => trivial

theorem proper_of_cut {m : Outbound} (hp : Proper (cut m)) : Proper m := by
  cases m with
  | accepted m => exact hp
  | replaced m => exact hp
  | canceled m => trivial
  | executed m => exact hp
  | rejected m => trivial

end OptiTrade.Agreement
