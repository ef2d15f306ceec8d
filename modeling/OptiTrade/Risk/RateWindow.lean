import OptiTrade.Foundations.RingBuffer
import OptiTrade.Foundations.SlidingWindow
import OptiTrade.Risk.Verdicts

/-! # The rate window

The ring of the engine against the log of all admissions. Each admission is logged at the largest admission time so
far, with a mark if the rate step passed at its own time. -/

namespace OptiTrade.Risk
set_option autoImplicit false

open Window (runningMax HasRoom)

namespace RiskEngine

/-- The times of the admissions in their order, and whether the rate step passed there. -/
def admissions (r : RiskEngine) : List Op → List (Nat × Bool)
  | [] => []
  | op :: ops =>
    match r.admits op with
    | some now => (now, r.rateHasRoom now) :: (r.apply op).admissions ops
    | none => (r.apply op).admissions ops

/-- The admissions at their running maximum. -/
def counted (admissions : List (Nat × Bool)) : List (Nat × Bool) :=
  (runningMax 0 (admissions.map Prod.fst)).zip (admissions.map Prod.snd)

theorem admissions_snoc (r : RiskEngine) (ops : List Op) (op : Op) : r.admissions (ops ++ [op]) =
    r.admissions ops ++ ((r.after ops).admits op).toList.map fun now => (now, (r.after ops).rateHasRoom now) := by
  induction ops generalizing r with
  | nil =>
    show (match r.admits op with | some now => _ | none => _ : List (Nat × Bool)) = [] ++ _
    rw [List.nil_append]
    show _ = (r.admits op).toList.map fun now => (now, r.rateHasRoom now)
    cases r.admits op <;> rfl
  | cons o ops ih =>
    rw [List.cons_append]
    show (match r.admits o with | some now => _ | none => _ : List (Nat × Bool)) =
      (match r.admits o with | some now => _ | none => _ : List (Nat × Bool)) ++ _
    cases r.admits o with
    | none => exact ih (r.apply o)
    | some now =>
      rw [List.cons_append]
      exact congrArg _ (ih (r.apply o))

/-- **What the ring holds**: the last entries of the log, each at its own place. -/
structure Ring (r : RiskEngine) (log : List Nat) : Prop where
  size : 0 < r.rateSize
  filled : r.rateFilled = min log.length r.rateSize
  next : r.rateNext = log.length % r.rateSize
  cells : ∀ k t, log.length ≤ k + r.rateSize → log[k]? = some t → r.rateRing (k % r.rateSize) = t
  latest : r.rateLatest = log.getLastD 0

variable {r r' : RiskEngine} {log : List Nat}

theorem Ring.room (h : r.Ring log) (now : Nat) : r.rateHasRoom now = true ↔ HasRoom r.rateSize kRateWindowNs log now := by
  have hsize := h.size
  have hfilled := h.filled
  unfold rateHasRoom HasRoom
  by_cases hlen : log.length < r.rateSize
  · rw [if_pos (.inr (by omega))]
    exact ⟨fun _ => .inl hlen, fun _ => rfl⟩
  · rw [if_neg (by omega)]
    have hk : log.length - r.rateSize < log.length := by omega
    have hget := List.getElem?_eq_getElem hk
    -- the oldest cell is the one that the next admission overwrites
    have hplace : r.rateNext = (log.length - r.rateSize) % r.rateSize := by
      rw [h.next]
      exact Nat.mod_eq_sub_mod (by omega)
    have holdest := h.cells _ _ (by omega) hget
    rw [← hplace] at holdest
    rw [hget, holdest]
    simp only [decide_eq_true_eq, Option.some.injEq, exists_eq_left']
    omega

theorem Ring.record (h : r.Ring log) (now : Nat) : (r.rateRecord now).Ring (log ++ [max (log.getLastD 0) now]) := by
  have hsize := h.size
  have hstep : r.rateRecord now = _ := if_neg (by omega)
  rw [hstep, ← h.latest]
  refine ⟨hsize, ?_, ?_, ?_, ?_⟩
  · have hfilled := h.filled
    dsimp only
    rw [List.length_append, List.length_singleton]
    split_ifs <;> omega
  · have hnext := h.next
    have hlt := Nat.mod_lt log.length hsize
    dsimp only
    rw [List.length_append, List.length_singleton, Nat.add_mod, ← hnext]
    by_cases hone : r.rateSize = 1
    · rw [if_pos (by omega), hone, Nat.mod_one]
    · rw [Nat.mod_eq_of_lt (by omega : 1 < r.rateSize)]
      by_cases hwrap : r.rateNext + 1 = r.rateSize
      · rw [if_pos hwrap, hwrap, Nat.mod_self]
      · rw [if_neg hwrap, Nat.mod_eq_of_lt (by omega)]
  · intro k t hk ht
    dsimp only at hk ⊢
    rw [List.length_append, List.length_singleton] at hk
    rw [h.next]
    by_cases hlast : k = log.length
    · rw [hlast, List.getElem?_concat_length] at ht
      rw [hlast, Function.update_self]
      exact Option.some.inj ht
    · have hlt : k < (log ++ [max r.rateLatest now]).length := (List.getElem?_eq_some_iff.mp ht).1
      rw [List.length_append, List.length_singleton] at hlt
      rw [List.getElem?_append_left (by omega)] at ht
      have hne : (k + 0) % r.rateSize ≠ (k + (log.length - k)) % r.rateSize :=
        RingBuffer.offset_ne hsize (by omega) (by omega)
      have hsum : k + (log.length - k) = log.length := by omega
      rw [Nat.add_zero, hsum] at hne
      rw [Function.update_of_ne hne]
      exact h.cells k t (by omega) ht
  · dsimp only
    rw [List.getLastD_concat]

theorem Ring.same (h : r.Ring log) (hc : SameControls r r') : r'.Ring log := by
  refine ⟨?_, ?_, ?_, ?_, ?_⟩
  · rw [hc.rateSize]
    exact h.size
  · rw [hc.rateFilled, hc.rateSize]
    exact h.filled
  · rw [hc.rateNext, hc.rateSize]
    exact h.next
  · rw [hc.rateSize, hc.rateRing]
    exact h.cells
  · rw [hc.rateLatest]
    exact h.latest

theorem Ring.apply (h : r.Ring log) (op : Op) :
    (r.apply op).Ring (log ++ (r.admits op).toList.map fun now => max (log.getLastD 0) now) := by
  have he := r.effect op
  generalize r.apply op = r' at he
  cases he with
  | quiet _ r' ha _ _ hc =>
    rw [ha]
    exact (List.append_nil log).symm ▸ h.same hc
  | recorded _ now ha =>
    rw [ha]
    exact h.record now
  | sampled _ r₀ hs hc =>
    have ha : r.admits op = none := by
      cases op with
      | fill l side qty price => rfl
      | mark l price => rfl
      | _ => exact absurd hs (by simp [samples])
    rw [ha]
    have hring : r₀.Ring log := h.same hc
    exact (List.append_nil log).symm ▸ ⟨hring.size, hring.filled, hring.next, hring.cells, hring.latest⟩
  | switched on =>
    exact (List.append_nil log).symm ▸ ⟨h.size, h.filled, h.next, h.cells, h.latest⟩

theorem apply_rateSize (r : RiskEngine) (op : Op) : (r.apply op).rateSize = r.rateSize := by
  have he := r.effect op
  generalize r.apply op = r' at he
  cases he with
  | quiet _ r' _ _ _ hc => exact hc.rateSize
  | recorded _ now _ =>
    unfold rateRecord
    by_cases hz : r.rateSize = 0
    · rw [if_pos hz]
    · rw [if_neg hz]
  | sampled _ r₀ _ hc => exact hc.rateSize
  | switched on => rfl

theorem counted_times (admissions : List (Nat × Bool)) :
    (counted admissions).map Prod.fst = runningMax 0 (admissions.map Prod.fst) :=
  List.map_fst_zip (by simp)

theorem counted_snoc (admissions : List (Nat × Bool)) (now : Nat) (ok : Bool) : counted (admissions ++ [(now, ok)]) =
    counted admissions ++ [(max ((runningMax 0 (admissions.map Prod.fst)).getLastD 0) now, ok)] := by
  unfold counted
  rw [List.map_append, List.map_append]
  show (runningMax 0 (_ ++ [now])).zip (_ ++ [ok]) = _
  rw [Window.runningMax_snoc, List.zip_append (by simp)]
  rfl

/-- The ring and the log, call by call. -/
theorem after_ring {limits : Limits} (hlo : 1 ≤ limits.maxOrdersPerSecond) (hhi : limits.maxOrdersPerSecond ≤ kMaxRateRing)
    (maxLocates : Nat) (ops : List Op) :
    let start := new limits maxLocates
    (start.after ops).rateSize = limits.maxOrdersPerSecond ∧
      (start.after ops).Ring (runningMax 0 ((start.admissions ops).map Prod.fst)) ∧
      Window.Marked limits.maxOrdersPerSecond kRateWindowNs (counted (start.admissions ops)) := by
  intro start
  induction ops using List.reverseRecOn with
  | nil =>
    have hsize : start.rateSize = limits.maxOrdersPerSecond := if_pos hhi
    refine ⟨hsize, ⟨by show 0 < start.rateSize; omega, ?_, ?_, fun k t _ ht => absurd ht (by simp [admissions, runningMax]), rfl⟩,
      fun before t rest h => absurd h (by simp [counted, admissions])⟩
    · exact (Nat.zero_min _).symm
    · exact (Nat.zero_mod _).symm
  | append_singleton ops op ih =>
    obtain ⟨hsize, hring, hmarked⟩ := ih
    rw [after_snoc, admissions_snoc]
    refine ⟨(apply_rateSize _ op).trans hsize, ?_⟩
    have hring' := hring.apply op
    cases ha : (start.after ops).admits op with
    | none =>
      rw [ha] at hring'
      simp only [Option.toList_none, List.map_nil, List.append_nil] at hring' ⊢
      exact ⟨hring', hmarked⟩
    | some now =>
      rw [ha] at hring'
      simp only [Option.toList_some, List.map_cons, List.map_nil, List.map_append] at hring' ⊢
      rw [Window.runningMax_snoc]
      refine ⟨hring', ?_⟩
      rw [counted_snoc]
      refine hmarked.snoc fun hok => ⟨now, le_max_right _ _, ?_⟩
      have hroom := (hring.room now).mp hok
      rw [hsize] at hroom
      rw [counted_times]
      exact hroom

/-- A verdict that lets an order through, or a replace that grows, has passed the rate step. -/
theorem rateHasRoom_of_verdict {r : RiskEngine} {l : Nat} {side : Option Side} {price : Int} {qty : Nat} {reference : Int}
    {now : Nat} (h : r.evaluateAny l side price qty reference now = .none ∨
      ∃ growth, growth ≠ 0 ∧ r.evaluateReplaceAny l side price qty growth reference now = .none) :
    r.rateHasRoom now = true := by
  cases side with
  | none =>
    rcases h with h | ⟨growth, _, h⟩
    · unfold evaluateAny at h
      dsimp only at h
      split_ifs at h
    · unfold evaluateReplaceAny at h
      dsimp only at h
      split_ifs at h
  | some side =>
    rcases h with h | ⟨growth, hg, h⟩
    · obtain ⟨_, hrate, _⟩ := assess_eq_none.mp h
      simpa using hrate
    · obtain ⟨_, hrate, _⟩ := assess_eq_none.mp h
      simpa [hg] using hrate

/-- **The ring is the sliding window.** -/
theorem rate_ring_is_sliding_window (limits : Limits) (hlo : 1 ≤ limits.maxOrdersPerSecond)
    (hhi : limits.maxOrdersPerSecond ≤ kMaxRateRing) (maxLocates : Nat) (ops : List Op) :
    let start := new limits maxLocates
    let r := start.after ops
    let admitted := start.admissions ops
    let times := admitted.map Prod.fst
    (∀ now, times.Pairwise (· ≤ ·) → (∀ t ∈ times, t ≤ now) →
      (r.rateHasRoom now = true ↔ times.countP (fun t => now - t < kRateWindowNs) < limits.maxOrdersPerSecond)) ∧
    (∀ l side price qty reference now, (r.evaluateAny l side price qty reference now = .none ∨
      ∃ growth, growth ≠ 0 ∧ r.evaluateReplaceAny l side price qty growth reference now = .none) →
      r.rateHasRoom now = true) ∧
    (times.Pairwise (· ≤ ·) → (∀ a ∈ admitted, a.2 = true) →
      ∀ u, times.countP (fun t => u ≤ t ∧ t < u + kRateWindowNs) ≤ limits.maxOrdersPerSecond) ∧
    ∀ u, (counted admitted).countP (fun a => a.2 && decide (u ≤ a.1 ∧ a.1 < u + kRateWindowNs)) ≤
      limits.maxOrdersPerSecond := by
  intro start r admitted times
  obtain ⟨hsize, hring, hmarked⟩ := after_ring hlo hhi maxLocates ops
  have hbound : ∀ u, (counted admitted).countP (fun a => a.2 && decide (u ≤ a.1 ∧ a.1 < u + kRateWindowNs)) ≤
      limits.maxOrdersPerSecond := by
    intro u
    refine Window.window_bound hlo ?_ hmarked u
    rw [counted_times]
    exact Window.runningMax_sorted 0 _
  have hself : times.Pairwise (· ≤ ·) → runningMax 0 times = times :=
    fun hs => Window.runningMax_eq_self hs fun t _ => Nat.zero_le t
  refine ⟨fun now hs hnow => ?_, fun l side price qty reference now h => rateHasRoom_of_verdict h, fun hs hall u => ?_, hbound⟩
  · rw [hring.room, hsize]
    show HasRoom _ _ (runningMax 0 times) now ↔ _
    rw [hself hs, Window.hasRoom_iff hlo hs]
    have hsame : times.countP (fun t => now < t + kRateWindowNs) = times.countP (fun t => now - t < kRateWindowNs) := by
      refine List.countP_congr fun t ht => ?_
      have := hnow t ht
      simp only [decide_eq_true_eq]
      omega
    rw [hsame]
  · have hcounted : counted admitted = admitted := by
      unfold counted
      show (runningMax 0 times).zip (admitted.map Prod.snd) = admitted
      rw [hself hs]
      exact (List.zip_of_prod rfl rfl).symm
    have hu := hbound u
    rw [hcounted] at hu
    refine le_trans (le_of_eq ?_) hu
    show (admitted.map Prod.fst).countP _ = _
    rw [List.countP_map]
    refine List.countP_congr fun a ha => ?_
    simp [hall a ha]

/-- Two orders a second, three sent: the third is refused, and the window holds two. -/
theorem rate_ring_two_a_second :
    let start := new { maxOrdersPerSecond := 2 } 1
    let ops : List Op := [.check 0 (some .buy) 100 1 0 5, .check 0 (some .buy) 100 1 0 6, .check 0 (some .buy) 100 1 0 7]
    start.admissions ops = [(5, true), (6, true)] ∧ (start.after ops).rateHasRoom 7 = false ∧
      (counted (start.admissions ops)).countP (fun a => a.2 && decide (5 ≤ a.1 ∧ a.1 < 5 + kRateWindowNs)) ≤ 2 := by
  intro start ops
  have h := rate_ring_is_sliding_window { maxOrdersPerSecond := 2 } (by decide) (by decide) 1 ops
  exact ⟨by decide, by decide, h.2.2.2 5⟩

/-! ## A clock that steps back -/

/-- The oldest admission in the ring has expired at `latest` but not at `now`. -/
structure Unexpires (r : RiskEngine) (now latest : Nat) : Prop where
  rated : r.rateSize ≠ 0
  full : r.rateSize ≤ r.rateFilled
  expired : r.rateRing r.rateNext + kRateWindowNs ≤ latest
  stepsBack : now < r.rateRing r.rateNext + kRateWindowNs

theorem rateHasRoom_stepping_back {r : RiskEngine} {now latest : Nat} (h : now < latest) :
    r.rateHasRoom now = r.rateHasRoom latest ↔ ¬r.Unexpires now latest := by
  have hiff : r.Unexpires now latest ↔ r.rateSize ≠ 0 ∧ r.rateSize ≤ r.rateFilled ∧
      r.rateRing r.rateNext + kRateWindowNs ≤ latest ∧ now < r.rateRing r.rateNext + kRateWindowNs :=
    ⟨fun h => ⟨h.1, h.2, h.3, h.4⟩, fun h => ⟨h.1, h.2.1, h.2.2.1, h.2.2.2⟩⟩
  rw [hiff]
  unfold rateHasRoom
  by_cases hroom : r.rateSize = 0 ∨ r.rateFilled < r.rateSize
  · rw [if_pos hroom, if_pos hroom]
    refine ⟨fun _ hc => ?_, fun _ => rfl⟩
    omega
  · rw [if_neg hroom, if_neg hroom]
    dsimp only
    rw [decide_eq_decide]
    omega

/-- The verdict at an earlier time is the one at the latest admission unless an admission that has expired there
counts again. -/
theorem evaluate_stepping_back {r : RiskEngine} {now latest : Nat} (h : now < latest) (l : Nat) (side : Side) (price : Int)
    (qty : Nat) (reference : Int) :
    r.evaluate l side price qty reference now = r.evaluate l side price qty reference latest ↔
      ¬(r.Clear l side price qty qty false reference ∧ r.Unexpires now latest) := by
  unfold evaluate
  by_cases hc : r.Clear l side price qty qty false reference
  · rw [assess_of_clear hc, assess_of_clear hc]
    by_cases hu : r.Unexpires now latest
    · have hlater : r.rateHasRoom latest = true := by
        unfold rateHasRoom
        have := hu.full
        have := hu.rated
        rw [if_neg (by omega)]
        have := hu.expired
        exact decide_eq_true (by omega)
      have hnow : r.rateHasRoom now = false := by
        have hne := mt (rateHasRoom_stepping_back h).mp (not_not.mpr hu)
        rw [hlater] at hne
        exact Bool.eq_false_iff.mpr hne
      rw [hlater, hnow]
      refine ⟨fun he => ?_, fun hn => absurd ⟨hc, hu⟩ hn⟩
      simp only [Bool.not_false, Bool.true_or, Bool.and_self, if_true, Bool.not_true, Bool.and_false, Bool.false_eq_true,
        if_false] at he
      split_ifs at he
    · rw [(rateHasRoom_stepping_back h).mpr hu]
      exact ⟨fun _ hn => hu hn.2, fun _ => rfl⟩
  · exact ⟨fun _ hn => hc hn.1, fun _ => assess_of_not_clear hc now latest⟩

/-- The latest time that an admission was recorded at. -/
def latestAdmission (r : RiskEngine) (ops : List Op) : Option Nat := (runningMax 0 ((r.admissions ops).map Prod.fst)).getLast?

/-- **When a step back counts as no time having passed.** -/
theorem backward_step_same_verdict_iff (limits : Limits) (maxLocates : Nat) (ops : List Op) (latest now : Nat)
    (hlatest : (new limits maxLocates).latestAdmission ops = some latest) (hnow : now < latest) :
    let r := (new limits maxLocates).after ops
    ∀ l side price qty reference,
      (r.evaluateAny l side price qty reference now = r.evaluateAny l side price qty reference latest ∧
        ∀ s, side = some s → (r.check l s price qty reference now).1 = (r.check l s price qty reference latest).1) ↔
      ¬∃ s, side = some s ∧ r.Clear l s price qty qty false reference ∧ r.Unexpires now latest := by
  intro r l side price qty reference
  cases side with
  | none =>
    refine ⟨fun _ hs => ?_, fun _ => ⟨rfl, fun s hs => ?_⟩⟩
    · obtain ⟨s, hs, _⟩ := hs
      cases hs
    · cases hs
  | some side =>
    have hback := evaluate_stepping_back (r := r) hnow l side price qty reference
    constructor
    · rintro ⟨he, _⟩ ⟨s, hs, hbad⟩
      obtain rfl := Option.some.inj hs
      exact hback.mp he hbad
    · intro hn
      have he := hback.mpr fun hbad => hn ⟨side, rfl, hbad⟩
      refine ⟨he, fun s hs => ?_⟩
      obtain rfl := Option.some.inj hs
      exact he

/-- Two admissions one and a half seconds apart. -/
def spreadAdmissions : List Op := [.check 0 (some .buy) 100 1 0 0, .check 0 (some .buy) 100 1 0 1500000000]

/-- Stepping back to a time at which the first one has expired too changes nothing. -/
theorem backward_step_within_the_second :
    let r := (new { maxOrdersPerSecond := 2 } 1).after spreadAdmissions
    r.evaluateAny 0 (some .buy) 100 1 0 1200000000 = r.evaluateAny 0 (some .buy) 100 1 0 1500000000 := by
  intro r
  have h := backward_step_same_verdict_iff { maxOrdersPerSecond := 2 } 1 spreadAdmissions 1500000000 1200000000
    (by decide) (by decide) 0 (some .buy) 100 1 0
  refine (h.mpr ?_).1
  rintro ⟨s, _, _, hu⟩
  exact absurd hu.stepsBack (by decide)

/-- Stepping back to 0.9 s, the first admission counts again: the order is refused, and would not be at 1.5 s. -/
theorem backward_step_is_refused :
    ¬∀ (limits : Limits) (maxLocates : Nat) (ops : List Op) (latest now : Nat),
      (new limits maxLocates).latestAdmission ops = some latest → now < latest → ∀ l side price qty reference,
        ((new limits maxLocates).after ops).evaluateAny l side price qty reference now =
          ((new limits maxLocates).after ops).evaluateAny l side price qty reference latest := by
  intro h
  have hsame := h { maxOrdersPerSecond := 2 } 1 spreadAdmissions 1500000000 900000000 (by decide) (by decide)
    0 (some .buy) 100 1 0
  exact absurd hsame (by decide)

end RiskEngine
end OptiTrade.Risk
