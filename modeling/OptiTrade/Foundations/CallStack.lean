import Mathlib.Order.Filter.AtTopBot.Basic
import Mathlib.Order.Filter.Finite
import OptiTrade.Foundations.Runs

/-! # Infinite runs of a machine with a call stack

A step touches the topmost frame only, so what lies under it waits. In a run that goes on for ever and
nests only so deep, some frame is never left and acts again and again: an activation. A frame whose own
turns decrease a measure, while the others leave the measure alone, is not one. -/

namespace OptiTrade.Runs
set_option autoImplicit false

open Filter

/-- A bounded sequence has a place from which it is never lower and to whose value it keeps returning. -/
theorem exists_floor {f : ℕ → ℕ} {bound : ℕ} (hb : ∀ n, f n ≤ bound) :
    ∃ N, (∀ m ≥ N, f N ≤ f m) ∧ ∀ k, ∃ m ≥ k, f m = f N := by
  have hval : ∃ v, ∃ᶠ n in atTop, f n = v := by
    by_contra hcon
    have hall : ∀ᶠ n in atTop, ∀ v ∈ Finset.range (bound + 1), f n ≠ v :=
      (eventually_all_finset _).mpr fun v _ => not_frequently.mp (not_exists.mp hcon v)
    obtain ⟨n, hn⟩ := hall.exists
    exact hn (f n) (Finset.mem_range.mpr (Nat.lt_succ_of_le (hb n))) rfl
  classical
  -- the least value that is taken infinitely often
  have hlow : ∀ᶠ n in atTop, ∀ v ∈ Finset.range (Nat.find hval), f n ≠ v :=
    (eventually_all_finset _).mpr fun v hv => not_frequently.mp (Nat.find_min hval (Finset.mem_range.mp hv))
  obtain ⟨K, hK⟩ := eventually_atTop.mp hlow
  obtain ⟨N, hN, hfN⟩ := frequently_atTop.mp (Nat.find_spec hval) K
  refine ⟨N, fun m hm => ?_, fun k => ?_⟩
  · rw [hfN]
    by_contra hlt
    exact hK m (le_trans hN hm) (f m) (Finset.mem_range.mpr (not_le.mp hlt)) rfl
  · obtain ⟨m, hm, hfm⟩ := frequently_atTop.mp (Nat.find_spec hval) k
    exact ⟨m, hm, hfm.trans hfN.symm⟩

variable {σ ε φ : Type*} {step : σ → ε → Option σ} {stack : σ → List φ} {s : ℕ → σ} {e : ℕ → ε}

/-- A run that goes on for ever. -/
def Behavior (step : σ → ε → Option σ) (s : ℕ → σ) (e : ℕ → ε) : Prop :=
  ∀ n, step (s n) (e n) = some (s (n + 1))

theorem Behavior.run (h : Behavior step s e) (n : ℕ) : run step (s 0) ((List.range n).map e) = some (s n) := by
  induction n with
  | zero => rfl
  | succ n ih =>
    rw [List.range_succ, List.map_append, run_append, ih]
    simp [run_cons, h n]

/-- A step touches the topmost frame only. -/
def Framed (step : σ → ε → Option σ) (stack : σ → List φ) : Prop :=
  ∀ ⦃s e s' f rest⦄, stack s = f :: rest → step s e = some s' → ∃ us, stack s' = us ++ rest

theorem Framed.below (h : Framed step stack) {s s' : σ} {e : ε} {us tail : List φ} (hne : us ≠ [])
    (hs : stack s = us ++ tail) (hn : step s e = some s') : ∃ us', stack s' = us' ++ tail := by
  obtain ⟨f, us, rfl⟩ := List.exists_cons_of_ne_nil hne
  obtain ⟨us', hus'⟩ := h (hs.trans (List.cons_append ..)) hn
  exact ⟨us' ++ us, by rw [hus', List.append_assoc]⟩

/-- From `N` on there is a frame on top of `rest`, and again and again it is the topmost one. -/
structure Activation (stack : σ → List φ) (s : ℕ → σ) (N : ℕ) (rest : List φ) : Prop where
  above : ∀ m ≥ N, ∃ us f, stack (s m) = us ++ f :: rest
  often : ∀ k, ∃ m ≥ k, ∃ f, stack (s m) = f :: rest

theorem not_popped {us rest : List φ} {f : φ} (h : rest = us ++ f :: rest) : False := by
  have hlen := congrArg List.length h
  rw [List.length_append, List.length_cons] at hlen
  omega

theorem cons_inj_of_append {us vs : List φ} {f g : φ} {rest : List φ} (h : us ++ f :: rest = vs ++ g :: rest) :
    us = vs ∧ f = g := by
  have hlen := congrArg List.length h
  obtain ⟨h₁, h₂⟩ := List.append_inj h (by simpa using hlen)
  exact ⟨h₁, (List.cons.inj h₂).1⟩

/-- **A run that nests only so deep and never leaves a frame has an activation over that frame.** -/
theorem Framed.exists_activation (h : Framed step stack) (hrun : Behavior step s e) {bound : ℕ}
    (hb : ∀ n, (stack (s n)).length ≤ bound) {tail : List φ} (hne : ∀ n, ∃ us, us ≠ [] ∧ stack (s n) = us ++ tail) :
    ∃ N rest us, rest = us ++ tail ∧ Activation stack s N rest := by
  obtain ⟨N, hfloor, hoften⟩ := exists_floor hb
  obtain ⟨us, husne, hus⟩ := hne N
  obtain ⟨f, us, rfl⟩ := List.exists_cons_of_ne_nil husne
  have hlen : (stack (s N)).length = (us ++ tail).length + 1 := by rw [hus]; simp
  -- the frame on top of `us ++ tail` is never left
  have habove : ∀ m ≥ N, ∃ vs g, stack (s m) = vs ++ g :: (us ++ tail) := by
    intro m hm
    induction m, hm using Nat.le_induction with
    | base => exact ⟨[], f, hus⟩
    | succ m hm ih =>
      obtain ⟨vs, g, hvs⟩ := ih
      obtain ⟨ws, hws⟩ := h.below (List.append_ne_nil_of_right_ne_nil vs (List.cons_ne_nil g []))
        (hvs.trans (by simp : _ = (vs ++ [g]) ++ (us ++ tail))) (hrun m)
      have hlow := hfloor (m + 1) (Nat.le_succ_of_le hm)
      have hwsne : ws ≠ [] := by
        rintro rfl
        rw [hlen, hws, List.nil_append] at hlow
        exact Nat.not_succ_le_self _ hlow
      obtain ⟨xs, x, rfl⟩ := (List.eq_nil_or_concat' ws).resolve_left hwsne
      exact ⟨xs, x, by simpa using hws⟩
  refine ⟨N, us ++ tail, us, rfl, habove, fun k => ?_⟩
  obtain ⟨m, hm, hheight⟩ := hoften (max k N)
  obtain ⟨vs, g, hvs⟩ := habove m (le_trans (le_max_right k N) hm)
  refine ⟨m, le_trans (le_max_left k N) hm, g, ?_⟩
  have hnil : vs = [] := by
    rw [hlen, hvs] at hheight
    simp only [List.length_append, List.length_cons] at hheight
    exact List.eq_nil_of_length_eq_zero (by omega)
  rw [hvs, hnil, List.nil_append]

namespace Activation
variable {N : ℕ} {rest : List φ} {P : σ → φ → Prop}

theorem later (ha : Activation stack s N rest) {n : ℕ} (hn : N ≤ n) : Activation stack s n rest :=
  ⟨fun m hm => ha.above m (hn.trans hm), ha.often⟩

theorem invariant (ha : Activation stack s N rest) (hf : Framed step stack) (hrun : Behavior step s e)
    (hown : ∀ ⦃s e s' f us g⦄, stack s = f :: rest → P s f → step s e = some s' → stack s' = us ++ g :: rest → P s' g)
    (hother : ∀ ⦃s e s' f us⦄, us ≠ [] → stack s = us ++ f :: rest → P s f → step s e = some s' → P s' f)
    (hstart : ∀ us f, stack (s N) = us ++ f :: rest → P (s N) f) :
    ∀ m ≥ N, ∀ us f, stack (s m) = us ++ f :: rest → P (s m) f := by
  intro m hm
  induction m, hm using Nat.le_induction with
  | base => exact hstart
  | succ m hm ih =>
    intro us' g hg
    obtain ⟨us, f, hs⟩ := ha.above m hm
    by_cases hus : us = []
    · subst hus
      exact hown hs (ih [] f hs) (hrun m) hg
    · obtain ⟨us'', hs'⟩ := hf.below hus hs (hrun m)
      obtain ⟨_, rfl⟩ := cons_inj_of_append (hs'.symm.trans hg)
      exact hother hus hs (ih us f hs) (hrun m)

/-- **A frame whose own turns decrease a measure that the steps above it leave alone is left.** -/
theorem false_of_measure (ha : Activation stack s N rest) (hf : Framed step stack) (hrun : Behavior step s e)
    {μ : σ → φ → ℕ}
    (hown : ∀ ⦃s e s' f us g⦄, stack s = f :: rest → P s f → step s e = some s' → stack s' = us ++ g :: rest →
      P s' g ∧ μ s' g < μ s f)
    (hother : ∀ ⦃s e s' f us⦄, us ≠ [] → stack s = us ++ f :: rest → P s f → step s e = some s' →
      P s' f ∧ μ s' f ≤ μ s f)
    (hstart : ∀ us f, stack (s N) = us ++ f :: rest → P (s N) f) : False := by
  have key : ∀ v, ∀ n ≥ N, ∀ us f, stack (s n) = us ++ f :: rest → P (s n) f → μ (s n) f ≤ v → False := by
    intro v
    induction v using Nat.strong_induction_on with
    | _ v ih =>
      intro n hn us f hs hP hv
      classical
      have hvisit : ∃ m, n ≤ m ∧ ∃ g, stack (s m) = g :: rest := by
        obtain ⟨m, hm, hg⟩ := ha.often n
        exact ⟨m, hm, hg⟩
      -- until the frame is on top again it stays as it is
      have hwait : ∀ k ≥ n, k ≤ Nat.find hvisit →
          ∃ vs, stack (s k) = vs ++ f :: rest ∧ P (s k) f ∧ μ (s k) f ≤ v := by
        intro k hk
        induction k, hk using Nat.le_induction with
        | base => exact fun _ => ⟨us, hs, hP, hv⟩
        | succ k hk ihk =>
          intro hle
          obtain ⟨vs, hvs, hPk, hvk⟩ := ihk (Nat.le_of_succ_le hle)
          have hne : vs ≠ [] := by
            rintro rfl
            exact Nat.find_min hvisit hle ⟨hk, f, hvs⟩
          obtain ⟨ws, hws⟩ := hf.below hne hvs (hrun k)
          obtain ⟨h₁, h₂⟩ := hother hne hvs hPk (hrun k)
          exact ⟨ws, hws, h₁, h₂.trans hvk⟩
      obtain ⟨hle, g, hg⟩ := Nat.find_spec hvisit
      obtain ⟨vs, hvs, hPm, hvm⟩ := hwait _ hle le_rfl
      obtain ⟨rfl, rfl⟩ := cons_inj_of_append ((hvs.symm.trans hg).trans (List.nil_append _).symm)
      obtain ⟨ws, g, hws⟩ := ha.above (Nat.find hvisit + 1) (hn.trans (Nat.le_succ_of_le hle))
      obtain ⟨hPg, hlt⟩ := hown hvs hPm (hrun _) hws
      exact ih _ (hlt.trans_le hvm) _ (hn.trans (Nat.le_succ_of_le hle)) ws g hws hPg le_rfl
  obtain ⟨us, f, hs⟩ := ha.above N le_rfl
  exact key _ N le_rfl us f hs (hstart us f hs) le_rfl

end Activation
end OptiTrade.Runs
