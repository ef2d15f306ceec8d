import Mathlib.Data.List.Basic
import Mathlib.Logic.Function.Basic
import Mathlib.Order.Lattice
import Mathlib.Tactic.Common

/-! # What one party of an order-entry protocol knows of its orders

A client enters orders under tokens, replaces them under new tokens and cancels them; the other party
answers with reports. A `View` gives the orders a client believes to be working, by the token each is
known by. `Legal v ρ w` says that report `ρ` makes sense to a client with view `v` and leaves it with
`w`; nothing else is ever applied. Tokens are any type with decidable equality. -/

namespace OptiTrade.Protocol
set_option autoImplicit false

variable {τ : Type*}

/-- A working order as its client sees it. -/
structure Row (τ : Type*) where
  leaves : Nat
  cum : Nat
  accepted : Bool
  /-- The replacement token and the total asked for, while a replace is unanswered. -/
  repl : Option (τ × Nat)
  /-- A cancel is unanswered. -/
  cancel : Bool

namespace Row

/-- The order answers, or will answer, to token `k`. -/
def HasToken (t : τ) (r : Row τ) (k : τ) : Prop := k = t ∨ ∃ n, r.repl = some (k, n)

/-- The token a cancel is addressed to. -/
def target (t : τ) (r : Row τ) : τ :=
  match r.repl with
  | some (t₂, _) => t₂
  | none => t

/-- The shares a client has to be ready to see executed. -/
def reserve (r : Row τ) : Nat :=
  match r.repl with
  | some (_, total) => max r.leaves (total - r.cum)
  | none => r.leaves

theorem target_hasToken (t : τ) (r : Row τ) : r.HasToken t (r.target t) := by
  unfold target HasToken
  cases h : r.repl with
  | none => exact .inl rfl
  | some p => exact .inr ⟨p.2, rfl⟩

theorem leaves_le_reserve (r : Row τ) : r.leaves ≤ r.reserve := by
  unfold reserve
  cases r.repl with
  | none => exact le_refl _
  | some p => exact le_max_left _ _

end Row

/-- The working orders of a client by their active tokens. -/
abbrev View (τ : Type*) := τ → Option (Row τ)

/-- What a client asks for. -/
inductive Request (τ : Type*)
  | enter (t : τ) (qty : Nat)
  | replace (t t₂ : τ) (total : Nat)
  | cancel (t : τ)

/-- What an exchange reports. -/
inductive Report (τ : Type*)
  | accepted (t : τ)
  /-- Accepted and dead at once. -/
  | dead (t : τ)
  | rejected (t : τ)
  | executed (t : τ) (qty : Nat)
  | canceled (t : τ) (qty : Nat)
  | replaced (t₂ t : τ) (qty : Nat)

/-- The tokens a request names. -/
def Request.names : Request τ → List τ
  | .enter t _ => [t]
  | .replace t t₂ _ => [t, t₂]
  | .cancel t => [t]

/-- The token of the order a request is about. -/
def Request.subject : Request τ → τ
  | .enter t _ => t
  | .replace t _ _ => t
  | .cancel t => t

def Report.names : Report τ → List τ
  | .accepted t => [t]
  | .dead t => [t]
  | .rejected t => [t]
  | .executed t _ => [t]
  | .canceled t _ => [t]
  | .replaced t₂ t _ => [t₂, t]

theorem Request.subject_mem_names (q : Request τ) : q.subject ∈ q.names := by
  cases q <;> simp [subject, names]

namespace View

/-- Some working order answers, or will answer, to token `k`. -/
def Owned (v : View τ) (k : τ) : Prop := ∃ t r, v t = some r ∧ r.HasToken t k

/-- No two orders share a token, and what is working has something open. -/
structure Sound (v : View τ) : Prop where
  unique : ∀ {s t r r' k}, v s = some r → v t = some r' → r.HasToken s k → r'.HasToken t k → s = t
  repl_ne : ∀ {t r k n}, v t = some r → r.repl = some (k, n) → k ≠ t
  leaves_pos : ∀ {t r}, v t = some r → 1 ≤ r.leaves
  repl_accepted : ∀ {t r}, v t = some r → r.repl.isSome → r.accepted = true
  cum_zero : ∀ {t r}, v t = some r → r.accepted = false → r.cum = 0

variable {v w : View τ} {t k : τ} {r : Row τ}

theorem owned_of_some (h : v t = some r) : v.Owned t := ⟨t, r, h, .inl rfl⟩

theorem none_of_not_owned (h : ¬v.Owned k) : v k = none := by
  cases hk : v k with
  | none => rfl
  | some r => exact absurd (owned_of_some hk) h

theorem owned_of_repl {n : Nat} (h : v t = some r) (hr : r.repl = some (k, n)) : v.Owned k :=
  ⟨t, r, h, .inr ⟨n, hr⟩⟩

theorem Sound.repl_fresh (hs : v.Sound) {n : Nat} (h : v t = some r) (hr : r.repl = some (k, n)) :
    v k = none := by
  cases hk : v k with
  | none => rfl
  | some r' =>
    have hkt := hs.unique hk h (.inl rfl) (.inr ⟨n, hr⟩)
    exact absurd hkt (hs.repl_ne h hr)

/-! ## Changing one row -/

/-- Row `r'` can stand where `r` stood. -/
structure Succeeds (r r' : Row τ) : Prop where
  repl : r'.repl = none ∨ r'.repl = r.repl
  leaves_pos : 1 ≤ r'.leaves
  repl_accepted : r'.repl.isSome → r'.accepted = true
  cum_zero : r'.accepted = false → r'.cum = 0

theorem Succeeds.hasToken {r' : Row τ} (h : Succeeds r r') (hk : r'.HasToken t k) : r.HasToken t k := by
  rcases hk with hk | ⟨n, hk⟩
  · exact .inl hk
  · rcases h.repl with h' | h'
    · rw [h'] at hk
      cases hk
    · exact .inr ⟨n, h' ▸ hk⟩

variable [DecidableEq τ]

/-- The row of token `t` becomes `r`, or goes when nothing is left open. -/
def settle (v : View τ) (t : τ) (r : Row τ) : View τ :=
  Function.update v t (if r.leaves = 0 then none else some r)

theorem update_some {x : Option (Row τ)} {s : τ} {r' : Row τ}
    (h : Function.update v t x s = some r') : (s = t ∧ x = some r') ∨ (s ≠ t ∧ v s = some r') := by
  by_cases hst : s = t
  · subst hst
    rw [Function.update_self] at h
    exact .inl ⟨rfl, h⟩
  · rw [Function.update_of_ne hst] at h
    exact .inr ⟨hst, h⟩

/-- One order goes, or changes without gaining tokens. -/
theorem Sound.update (hs : v.Sound) (h : v t = some r) {x : Option (Row τ)}
    (hx : ∀ r', x = some r' → Succeeds r r') : Sound (Function.update v t x) where
  unique := by
    intro a b ra rb k ha hb hka hkb
    rcases update_some ha with ⟨rfl, ha'⟩ | ⟨_, ha'⟩
    · rcases update_some hb with ⟨rfl, _⟩ | ⟨_, hb'⟩
      · rfl
      · exact hs.unique h hb' ((hx ra ha').hasToken hka) hkb
    · rcases update_some hb with ⟨rfl, hb'⟩ | ⟨_, hb'⟩
      · exact hs.unique ha' h hka ((hx rb hb').hasToken hkb)
      · exact hs.unique ha' hb' hka hkb
  repl_ne := by
    intro a ra k n ha hr
    rcases update_some ha with ⟨rfl, ha'⟩ | ⟨_, ha'⟩
    · rcases (hx ra ha').repl with h' | h'
      · rw [h'] at hr
        cases hr
      · exact hs.repl_ne h (h' ▸ hr)
    · exact hs.repl_ne ha' hr
  leaves_pos := by
    intro a ra ha
    rcases update_some ha with ⟨rfl, ha'⟩ | ⟨_, ha'⟩
    · exact (hx ra ha').leaves_pos
    · exact hs.leaves_pos ha'
  repl_accepted := by
    intro a ra ha
    rcases update_some ha with ⟨rfl, ha'⟩ | ⟨_, ha'⟩
    · exact (hx ra ha').repl_accepted
    · exact hs.repl_accepted ha'
  cum_zero := by
    intro a ra ha
    rcases update_some ha with ⟨rfl, ha'⟩ | ⟨_, ha'⟩
    · exact (hx ra ha').cum_zero
    · exact hs.cum_zero ha'

/-- A row under a token that no order has. -/
theorem Sound.insert (hs : v.Sound) (hk : ¬v.Owned k) (hr : r.repl = none) (hl : 1 ≤ r.leaves)
    (hc : r.accepted = false → r.cum = 0) : Sound (Function.update v k (some r)) := by
  have hnew : ∀ {a ra}, Function.update v k (some r) a = some ra →
      (a = k ∧ ra = r) ∨ (a ≠ k ∧ v a = some ra) := by
    intro a ra ha
    rcases update_some ha with ⟨h₁, h₂⟩ | h'
    · exact .inl ⟨h₁, (Option.some.inj h₂).symm⟩
    · exact .inr h'
  have htok : ∀ {j}, r.HasToken k j → j = k := by
    intro j hj
    rcases hj with hj | ⟨n, hj⟩
    · exact hj
    · rw [hr] at hj
      cases hj
  refine ⟨?_, ?_, ?_, ?_, ?_⟩
  · intro a b ra rb j ha hb hja hjb
    rcases hnew ha with ⟨rfl, rfl⟩ | ⟨_, ha'⟩
    · rcases hnew hb with ⟨rfl, _⟩ | ⟨_, hb'⟩
      · rfl
      · exact absurd ⟨b, rb, hb', htok hja ▸ hjb⟩ hk
    · rcases hnew hb with ⟨rfl, rfl⟩ | ⟨_, hb'⟩
      · exact absurd ⟨a, ra, ha', htok hjb ▸ hja⟩ hk
      · exact hs.unique ha' hb' hja hjb
  · intro a ra j n ha hj
    rcases hnew ha with ⟨rfl, rfl⟩ | ⟨_, ha⟩
    · rw [hr] at hj
      cases hj
    · exact hs.repl_ne ha hj
  · intro a ra ha
    rcases hnew ha with ⟨_, rfl⟩ | ⟨_, ha⟩
    · exact hl
    · exact hs.leaves_pos ha
  · intro a ra ha hsome
    rcases hnew ha with ⟨_, rfl⟩ | ⟨_, ha⟩
    · rw [hr] at hsome
      cases hsome
    · exact hs.repl_accepted ha hsome
  · intro a ra ha
    rcases hnew ha with ⟨_, rfl⟩ | ⟨_, ha⟩
    · exact hc
    · exact hs.cum_zero ha

theorem owned_update (h : v t = some r) {x : Option (Row τ)} (hx : ∀ r', x = some r' → Succeeds r r')
    (ho : Owned (Function.update v t x) k) : v.Owned k := by
  obtain ⟨a, ra, ha, hk⟩ := ho
  rcases update_some ha with ⟨rfl, ha'⟩ | ⟨_, ha'⟩
  · exact ⟨a, r, h, (hx ra ha').hasToken hk⟩
  · exact ⟨a, ra, ha', hk⟩

theorem Sound.not_owned_drop (hs : v.Sound) (h : v t = some r) (hk : r.HasToken t k) :
    ¬Owned (Function.update v t none) k := by
  rintro ⟨a, ra, ha, hka⟩
  rcases update_some ha with ⟨_, ha⟩ | ⟨hne, ha⟩
  · cases ha
  · exact hne (hs.unique ha h hka hk)

end View

/-! ## Legal reports -/

open View

section
variable [DecidableEq τ]

/-- The row after an execution. -/
def Row.execute (r : Row τ) (q : Nat) : Row τ := { r with leaves := r.leaves - q, cum := r.cum + q }

/-- The row after a partial or full cancel. -/
def Row.reduce (r : Row τ) (q : Nat) : Row τ := { r with leaves := r.leaves - q }

/-- The row after its replace was rejected; a cancel that was addressed to the replacement died with
it. -/
def Row.revert (r : Row τ) : Row τ := { r with repl := none, cancel := false }

/-- The row after its replace to a total of `total`. -/
def Row.swap (r : Row τ) (total : Nat) : Row τ := { r with leaves := total - r.cum, repl := none }

/-- The reports that make sense to a client, and what they do. -/
inductive Legal (v : View τ) : Report τ → View τ → Prop
  | accepted {t : τ} {r : Row τ} : v t = some r → r.accepted = false →
      Legal v (.accepted t) (Function.update v t (some { r with accepted := true }))
  | dead {t : τ} {r : Row τ} : v t = some r → r.accepted = false →
      Legal v (.dead t) (Function.update v t none)
  | refused {t : τ} {r : Row τ} : v t = some r → r.accepted = false →
      Legal v (.rejected t) (Function.update v t none)
  | reverted {t t₂ : τ} {r : Row τ} {total : Nat} : v t = some r → r.repl = some (t₂, total) →
      Legal v (.rejected t₂) (Function.update v t (some r.revert))
  /-- The order the replace was for is gone. -/
  | stale {t₂ : τ} : ¬v.Owned t₂ → Legal v (.rejected t₂) v
  | executed {t : τ} {r : Row τ} {q : Nat} : v t = some r → r.accepted = true → 1 ≤ q → q ≤ r.leaves →
      Legal v (.executed t q) (v.settle t (r.execute q))
  | canceled {t : τ} {r : Row τ} {q : Nat} : v t = some r → r.accepted = true → 1 ≤ q → q ≤ r.leaves →
      Legal v (.canceled t q) (v.settle t (r.reduce q))
  | replaced {t t₂ : τ} {r : Row τ} {total : Nat} : v t = some r → r.repl = some (t₂, total) → r.cum < total →
      Legal v (.replaced t₂ t (total - r.cum))
        (Function.update (Function.update v t none) t₂ (some (r.swap total)))

variable {v w : View τ} {ρ : Report τ}

omit [DecidableEq τ] in
theorem succeeds_settle {r : Row τ} (r' : Row τ) (ha : r.accepted = true)
    (hr : r'.repl = r.repl) (hacc : r'.accepted = r.accepted) :
    ∀ r'', (if r'.leaves = 0 then none else some r') = some r'' → Succeeds r r'' := by
  intro r'' h''
  by_cases hl : r'.leaves = 0
  · rw [if_pos hl] at h''
    cases h''
  · rw [if_neg hl] at h''
    obtain rfl := Option.some.inj h''
    refine ⟨.inr hr, by omega, fun _ => hacc.trans ha, fun h' => ?_⟩
    rw [hacc, ha] at h'
    cases h'

omit [DecidableEq τ] in
theorem succeeds_accept {t : τ} {r : Row τ} (hs : v.Sound) (h : v t = some r) :
    Succeeds r { r with accepted := true } := by
  have hl := hs.leaves_pos h
  exact ⟨.inr rfl, hl, fun _ => rfl, fun h' => by cases h'⟩

omit [DecidableEq τ] in
theorem succeeds_revert {t : τ} {r : Row τ} (hs : v.Sound) (h : v t = some r) : Succeeds r r.revert := by
  have hl := hs.leaves_pos h
  have hc := hs.cum_zero h
  exact ⟨.inl rfl, hl, fun h' => by simp [Row.revert] at h', hc⟩

theorem Legal.sound (hs : v.Sound) (h : Legal v ρ w) : w.Sound := by
  cases h with
  | accepted ht _ =>
    refine hs.update ht fun r' hr' => ?_
    obtain rfl := Option.some.inj hr'
    exact succeeds_accept hs ht
  | dead ht _ => exact hs.update ht fun r' hr' => by cases hr'
  | refused ht _ => exact hs.update ht fun r' hr' => by cases hr'
  | reverted ht _ =>
    refine hs.update ht fun r' hr' => ?_
    obtain rfl := Option.some.inj hr'
    exact succeeds_revert hs ht
  | stale _ => exact hs
  | executed ht ha _ _ => exact hs.update ht (succeeds_settle _ ha rfl rfl)
  | canceled ht ha _ _ => exact hs.update ht (succeeds_settle _ ha rfl rfl)
  | replaced ht hr hc =>
    have hacc := hs.repl_accepted ht (by rw [hr]; rfl)
    refine (hs.update ht fun r' hr' => by cases hr').insert (hs.not_owned_drop ht (.inr ⟨_, hr⟩)) rfl ?_ ?_
    · show 1 ≤ _ - _
      omega
    · intro h'
      rw [show (Row.swap _ _).accepted = _ from hacc] at h'
      cases h'

/-- A report gives no order a new token. -/
theorem Legal.owned (hs : v.Sound) (h : Legal v ρ w) {k : τ} (ho : w.Owned k) : v.Owned k := by
  cases h with
  | accepted ht _ =>
    refine owned_update ht (fun r' hr' => ?_) ho
    obtain rfl := Option.some.inj hr'
    exact succeeds_accept hs ht
  | dead ht _ => exact owned_update ht (fun r' hr' => by cases hr') ho
  | refused ht _ => exact owned_update ht (fun r' hr' => by cases hr') ho
  | reverted ht _ =>
    refine owned_update ht (fun r' hr' => ?_) ho
    obtain rfl := Option.some.inj hr'
    exact succeeds_revert hs ht
  | stale _ => exact ho
  | @executed _ r q ht ha _ _ => exact owned_update ht (succeeds_settle (r.execute q) ha rfl rfl) ho
  | @canceled _ r q ht ha _ _ => exact owned_update ht (succeeds_settle (r.reduce q) ha rfl rfl) ho
  | replaced ht hr _ =>
    obtain ⟨a, ra, ha, hk⟩ := ho
    rcases update_some ha with ⟨rfl, ha'⟩ | ⟨_, ha'⟩
    · obtain rfl := Option.some.inj ha'
      rcases hk with rfl | ⟨n, hk⟩
      · exact owned_of_repl ht hr
      · cases hk
    · rcases update_some ha' with ⟨_, ha'⟩ | ⟨_, ha'⟩
      · cases ha'
      · exact ⟨a, ra, ha', hk⟩

/-- Every order left by a report was there before, with all its tokens and at least its reserve. -/
theorem Legal.ancestor (h : Legal v ρ w) {t : τ} {r : Row τ} (ht : w t = some r) :
    ∃ s r₀, v s = some r₀ ∧ (∀ k, r.HasToken t k → r₀.HasToken s k) ∧ r.reserve ≤ r₀.reserve := by
  -- a row other than the one the report is about
  have hkeep : ∀ {s : τ} {x : Option (Row τ)}, Function.update v s x t = some r → t ≠ s →
      ∃ s r₀, v s = some r₀ ∧ (∀ k, r.HasToken t k → r₀.HasToken s k) ∧ r.reserve ≤ r₀.reserve := by
    intro s x hx hne
    rw [Function.update_of_ne hne] at hx
    exact ⟨t, r, hx, fun _ => id, le_refl _⟩
  have hsettle : ∀ {s : τ} {r₀ : Row τ} (r' : Row τ), v s = some r₀ → r'.repl = r₀.repl → r'.leaves ≤ r₀.leaves →
      r₀.cum ≤ r'.cum → v.settle s r' t = some r →
      ∃ s r₀, v s = some r₀ ∧ (∀ k, r.HasToken t k → r₀.HasToken s k) ∧ r.reserve ≤ r₀.reserve := by
    intro s r₀ r' hs hr hl hc hx
    rcases update_some hx with ⟨rfl, hx'⟩ | ⟨hne, hx⟩
    · by_cases hz : r'.leaves = 0
      · rw [if_pos hz] at hx'
        cases hx'
      · rw [if_neg hz] at hx'
        obtain rfl := Option.some.inj hx'
        refine ⟨t, r₀, hs, fun k hk => ?_, ?_⟩
        · rcases hk with hk | ⟨n, hk⟩
          · exact .inl hk
          · exact .inr ⟨n, hr ▸ hk⟩
        · unfold Row.reserve
          rw [hr]
          cases r₀.repl with
          | none => exact hl
          | some p =>
            dsimp only
            omega
    · exact ⟨t, r, hx, fun _ => id, le_refl _⟩
  cases h with
  | accepted hs _ =>
    rcases update_some ht with ⟨rfl, hx⟩ | ⟨hne, _⟩
    · obtain rfl := Option.some.inj hx
      exact ⟨t, _, hs, fun _ => id, le_refl _⟩
    · exact hkeep ht hne
  | dead hs _ =>
    rcases update_some ht with ⟨_, hx⟩ | ⟨hne, _⟩
    · cases hx
    · exact hkeep ht hne
  | refused hs _ =>
    rcases update_some ht with ⟨_, hx⟩ | ⟨hne, _⟩
    · cases hx
    · exact hkeep ht hne
  | @reverted _ _ r₀ _ hs hr =>
    rcases update_some ht with ⟨rfl, hx⟩ | ⟨hne, _⟩
    · obtain rfl := Option.some.inj hx
      refine ⟨t, r₀, hs, fun k hk => ?_, Row.leaves_le_reserve r₀⟩
      rcases hk with hk | ⟨n, hk⟩
      · exact .inl hk
      · cases hk
    · exact hkeep ht hne
  | stale _ => exact ⟨t, r, ht, fun _ => id, le_refl _⟩
  | @executed _ r₀ q hs _ _ _ =>
    exact hsettle (r₀.execute q) hs rfl (Nat.sub_le _ _) (Nat.le_add_right _ _) ht
  | @canceled _ r₀ q hs _ _ _ =>
    exact hsettle (r₀.reduce q) hs rfl (Nat.sub_le _ _) (le_refl _) ht
  | replaced hs hr _ =>
    rcases update_some ht with ⟨rfl, hx⟩ | ⟨hne, hx⟩
    · obtain rfl := Option.some.inj hx
      refine ⟨_, _, hs, fun k hk => ?_, ?_⟩
      · rcases hk with rfl | ⟨n, hk⟩
        · exact .inr ⟨_, hr⟩
        · cases hk
      · unfold Row.reserve
        rw [hr]
        exact le_max_right _ _
    · rcases update_some hx with ⟨_, hx⟩ | ⟨_, hx⟩
      · cases hx
      · exact ⟨t, r, hx, fun _ => id, le_refl _⟩

end
end OptiTrade.Protocol
