import Mathlib.Tactic.Common

/-! # Finite runs of a partial step function

A component is a step function `σ → ε → Option σ`: an event that is not enabled in a state has no
successor. `run` executes a list of events, `Along` says that every event of the list meets a
condition in the state it is taken in. The two invariant rules turn a step lemma into a run lemma. -/

namespace OptiTrade.Runs
set_option autoImplicit false

variable {σ ε : Type*} {step : σ → ε → Option σ}

/-- The state after the events, or `none` as soon as one of them is not enabled. -/
def run (step : σ → ε → Option σ) : σ → List ε → Option σ
  | s, [] => some s
  | s, e :: es => (step s e).bind fun s' => run step s' es

@[simp] theorem run_nil (s : σ) : run step s [] = some s := rfl

theorem run_cons (s : σ) (e : ε) (es : List ε) :
    run step s (e :: es) = (step s e).bind fun s' => run step s' es := rfl

theorem run_cons_some {s t : σ} {e : ε} {es : List ε} (h : run step s (e :: es) = some t) :
    ∃ s', step s e = some s' ∧ run step s' es = some t := by
  rw [run_cons] at h
  exact Option.bind_eq_some_iff.mp h

theorem run_append (s : σ) (es fs : List ε) :
    run step s (es ++ fs) = (run step s es).bind fun s' => run step s' fs := by
  induction es generalizing s with
  | nil => rfl
  | cons e es ih =>
    rw [List.cons_append, run_cons, run_cons, Option.bind_assoc]
    congr 1
    funext s'
    exact ih s'

theorem run_append_some {s u : σ} {es fs : List ε} (h : run step s (es ++ fs) = some u) :
    ∃ t, run step s es = some t ∧ run step t fs = some u := by
  rw [run_append] at h
  exact Option.bind_eq_some_iff.mp h

/-- Every event of the list meets `Q` in the state it is taken in. -/
def Along (step : σ → ε → Option σ) (Q : σ → ε → Prop) : σ → List ε → Prop
  | _, [] => True
  | s, e :: es => Q s e ∧ ∀ s', step s e = some s' → Along step Q s' es

instance decidableAlong {Q : σ → ε → Prop} [∀ s e, Decidable (Q s e)] :
    (s : σ) → (es : List ε) → Decidable (Along step Q s es)
  | _, [] => isTrue trivial
  | s, e :: es =>
    match hs : step s e with
    | none => decidable_of_iff (Q s e) ⟨fun h => ⟨h, fun _ h' => nomatch hs.symm.trans h'⟩, And.left⟩
    | some t =>
      have : Decidable (Along step Q t es) := decidableAlong t es
      decidable_of_iff (Q s e ∧ Along step Q t es)
        ⟨fun h => ⟨h.1, fun _ h' => Option.some.inj (hs.symm.trans h') ▸ h.2⟩, fun h => ⟨h.1, h.2 t hs⟩⟩

theorem along_of_forall {Q : ε → Prop} {es : List ε} (h : ∀ e ∈ es, Q e) (s : σ) : Along step (fun _ e => Q e) s es := by
  induction es generalizing s with
  | nil => trivial
  | cons e es ih => exact ⟨h e List.mem_cons_self, fun s' _ => ih (fun e' he' => h e' (List.mem_cons_of_mem _ he')) s'⟩

theorem along_imp {Q Q' : σ → ε → Prop} (h : ∀ s e, Q s e → Q' s e) {es : List ε} {s : σ} (hq : Along step Q s es) :
    Along step Q' s es := by
  induction es generalizing s with
  | nil => trivial
  | cons e es ih => exact ⟨h s e hq.1, fun s' hs => ih (hq.2 s' hs)⟩

theorem Along.and {Q Q' : σ → ε → Prop} {es : List ε} {s : σ} (h : Along step Q s es) (h' : Along step Q' s es) :
    Along step (fun s e => Q s e ∧ Q' s e) s es := by
  induction es generalizing s with
  | nil => trivial
  | cons e es ih => exact ⟨⟨h.1, h'.1⟩, fun s' hs => ih (h.2 s' hs) (h'.2 s' hs)⟩

/-- **Invariant rule.** What every step preserves holds at the end of every run. -/
theorem run_invariant {P : σ → Prop} (hstep : ∀ s e s', P s → step s e = some s' → P s') :
    ∀ {es : List ε} {s t : σ}, run step s es = some t → P s → P t
  | [], s, t, h, hs => by
      have hst : s = t := by simpa using h
      exact hst ▸ hs
  | e :: es, s, t, h, hs => by
      obtain ⟨s', h₁, h₂⟩ := run_cons_some h
      exact run_invariant hstep h₂ (hstep s e s' hs h₁)

/-- **Conditional invariant rule.** The step lemma may use the condition its event meets. -/
theorem run_invariant_along {P : σ → Prop} {Q : σ → ε → Prop}
    (hstep : ∀ s e s', P s → Q s e → step s e = some s' → P s') :
    ∀ {es : List ε} {s t : σ}, run step s es = some t → Along step Q s es → P s → P t
  | [], s, t, h, _, hs => by
      have hst : s = t := by simpa using h
      exact hst ▸ hs
  | e :: es, s, t, h, hq, hs => by
      obtain ⟨s', h₁, h₂⟩ := run_cons_some h
      exact run_invariant_along hstep h₂ (hq.2 s' h₁) (hstep s e s' hs hq.1 h₁)

/-! ## Companions -/

/-- A step beside which a companion moves on, that looks at the state and never stops it. -/
def beside {τ : Type*} (step : σ → ε → Option σ) (move : σ → τ → ε → τ) (p : σ × τ) (e : ε) : Option (σ × τ) :=
  (step p.1 e).map fun s' => (s', move p.1 p.2 e)

theorem beside_some {τ : Type*} {move : σ → τ → ε → τ} {p p' : σ × τ} {e : ε} (h : beside step move p e = some p') :
    step p.1 e = some p'.1 ∧ p'.2 = move p.1 p.2 e := by
  obtain ⟨s', h₁, rfl⟩ := Option.map_eq_some_iff.mp h
  exact ⟨h₁, rfl⟩

theorem run_beside {τ : Type*} (move : σ → τ → ε → τ) {es : List ε} {s t : σ} (h : run step s es = some t) (x : τ) :
    ∃ y, run (beside step move) (s, x) es = some (t, y) := by
  induction es generalizing s x with
  | nil =>
    obtain rfl : s = t := by simpa using h
    exact ⟨x, rfl⟩
  | cons e es ih =>
    obtain ⟨s', h₁, h₂⟩ := run_cons_some h
    obtain ⟨y, hy⟩ := ih h₂ (move s x e)
    refine ⟨y, ?_⟩
    have hstep : beside step move (s, x) e = some (s', move s x e) := by
      unfold beside
      rw [h₁]
      rfl
    rw [run_cons, hstep]
    exact hy

/-! ## Labelled relations -/

/-- The steps of a labelled relation along a list of labels. -/
inductive Follows (R : σ → ε → σ → Prop) : σ → List ε → σ → Prop
  | nil (s : σ) : Follows R s [] s
  | cons {s u t : σ} {e : ε} {es : List ε} : R s e u → Follows R u es t → Follows R s (e :: es) t

namespace Follows
variable {R : σ → ε → σ → Prop} {s t : σ} {es : List ε}

theorem snoc {u : σ} {e : ε} (h : Follows R s es t) (hr : R t e u) : Follows R s (es ++ [e]) u := by
  induction h with
  | nil s => exact .cons hr (.nil u)
  | cons h₁ _ ih => exact .cons h₁ (ih hr)

theorem invariant {P : σ → Prop} (hstep : ∀ s e u, P s → R s e u → P u) (h : Follows R s es t) (hs : P s) :
    P t := by
  induction h with
  | nil s => exact hs
  | cons h₁ _ ih => exact ih (hstep _ _ _ hs h₁)

/-- **Simulation rule.** What commutes with every step over the labels of `P` commutes with the whole
list. -/
theorem simulate {S : σ → σ → Prop} {P : ε → Prop}
    (hstep : ∀ s e u s', P e → R s e u → S s s' → ∃ u', R s' e u' ∧ S u u')
    (h : Follows R s es t) (he : ∀ e ∈ es, P e) {s' : σ} (hs : S s s') :
    ∃ t', Follows R s' es t' ∧ S t t' := by
  induction h generalizing s' with
  | nil s => exact ⟨s', .nil s', hs⟩
  | cons h₁ _ ih =>
    obtain ⟨u', h₂, h₃⟩ := hstep _ _ _ _ (he _ List.mem_cons_self) h₁ hs
    obtain ⟨t', h₄, h₅⟩ := ih (fun e' he' => he e' (List.mem_cons_of_mem _ he')) h₃
    exact ⟨t', .cons h₂ h₄, h₅⟩

end Follows

end OptiTrade.Runs
