import OptiTrade.Foundations.Runs

/-! # One machine run by another

A step of the first machine is a run of the second, of as many events as it takes. `Reaches` forgets which events they
were, all but that they meet `P`; the simulation rule turns a lemma about a step into one about a run. -/

namespace OptiTrade.Runs
set_option autoImplicit false

variable {σ ε τ δ : Type*} {step : σ → ε → Option σ} {next : τ → δ → Option τ} {P : δ → Prop}

/-- Events that meet `P` lead from `t` to `t'`. -/
def Reaches (next : τ → δ → Option τ) (P : δ → Prop) (t t' : τ) : Prop :=
  ∃ es, run next t es = some t' ∧ ∀ e ∈ es, P e

namespace Reaches
variable {t t' t'' : τ}

theorem refl (t : τ) : Reaches next P t t := ⟨[], rfl, fun _ he => by cases he⟩

theorem single {e : δ} (hs : next t e = some t') (he : P e) : Reaches next P t t' := by
  refine ⟨[e], ?_, fun _ hm => List.mem_singleton.mp hm ▸ he⟩
  rw [run_cons, hs]
  rfl

theorem trans (h : Reaches next P t t') (h' : Reaches next P t' t'') : Reaches next P t t'' := by
  obtain ⟨es, hr, hes⟩ := h
  obtain ⟨fs, hr', hfs⟩ := h'
  refine ⟨es ++ fs, ?_, fun e he => (List.mem_append.mp he).elim (hes e) (hfs e)⟩
  rw [run_append, hr]
  exact hr'

theorem snoc {e : δ} (h : Reaches next P t t') (hs : next t' e = some t'') (he : P e) : Reaches next P t t'' :=
  h.trans (single hs he)

theorem invariant {Q : τ → Prop} (h : Reaches next P t t') (hq : ∀ u e u', Q u → P e → next u e = some u' → Q u') (ht : Q t) :
    Q t' := by
  obtain ⟨es, hr, hes⟩ := h
  exact run_invariant_along hq hr (along_of_forall hes _) ht

end Reaches

theorem Follows.append {R : τ → δ → τ → Prop} {t u v : τ} {es fs : List δ} (h : Follows R t es u) (h' : Follows R u fs v) :
    Follows R t (es ++ fs) v := by
  induction h with
  | nil t => exact h'
  | cons hs _ ih => exact .cons hs (ih h')

/-- **Simulation rule.** Where a step between related states is a run of the other machine, a run is. -/
theorem run_reaches {R : σ → τ → Prop} {Q : ε → Prop}
    (hstep : ∀ s t e s', R s t → Q e → step s e = some s' → ∃ t', Reaches next P t t' ∧ R s' t') {es : List ε} {s s' : σ} {t : τ}
    (hr : run step s es = some s') (hq : ∀ e ∈ es, Q e) (h : R s t) : ∃ t', Reaches next P t t' ∧ R s' t' := by
  induction es generalizing s t with
  | nil =>
    obtain rfl : s = s' := by simpa using hr
    exact ⟨t, .refl t, h⟩
  | cons e es ih =>
    obtain ⟨u, hs, hrest⟩ := run_cons_some hr
    obtain ⟨v, hv, hu⟩ := hstep s t e u h (hq e List.mem_cons_self) hs
    obtain ⟨t', ht, hend⟩ := ih hrest (fun e' he => hq e' (List.mem_cons_of_mem _ he)) hu
    exact ⟨t', hv.trans ht, hend⟩

/-- **History rule.** An invariant of the states and the events so far. -/
theorem run_history {H : List ε → σ → Prop} {Q : ε → Prop}
    (hstep : ∀ past s e s', H past s → Q e → step s e = some s' → H (past ++ [e]) s') {es : List ε} {s t : σ}
    (hr : run step s es = some t) (hq : ∀ e ∈ es, Q e) (h : H [] s) : H es t := by
  have hgen : ∀ es past s, run step s es = some t → (∀ e ∈ es, Q e) → H past s → H (past ++ es) t := by
    intro es
    induction es with
    | nil =>
      intro past s hr _ h
      obtain rfl : s = t := by simpa using hr
      rwa [List.append_nil]
    | cons e es ih =>
      intro past s hr hq h
      obtain ⟨u, hs, hrest⟩ := run_cons_some hr
      rw [List.append_cons]
      exact ih (past ++ [e]) u hrest (fun e' he => hq e' (List.mem_cons_of_mem _ he))
        (hstep past s e u h (hq e List.mem_cons_self) hs)
  exact hgen es [] s hr hq h

end OptiTrade.Runs
