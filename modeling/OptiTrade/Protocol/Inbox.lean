import Mathlib.Tactic.Tauto
import OptiTrade.Protocol.View

/-! # The requests on their way

`Inboxed F inbox`: the requests still to be handled are, order by order, exactly those the view `F`
has no answer for yet, in the order they were sent; the rest name orders that are gone. -/

namespace OptiTrade.Protocol
set_option autoImplicit false

variable {τ : Type*} [DecidableEq τ]

instance (t : τ) (r : Row τ) (k : τ) : Decidable (r.HasToken t k) :=
  decidable_of_iff (k = t ∨ r.repl.map Prod.fst = some k) <| by
    unfold Row.HasToken
    simp

namespace Row

/-- The requests for this order that have no answer yet. -/
def pending (t : τ) (r : Row τ) : List (Request τ) :=
  (if r.accepted then [] else [.enter t r.leaves]) ++
    (match r.repl with
      | some (t₂, total) => [.replace t t₂ total]
      | none => []) ++
    (if r.cancel then [.cancel (r.target t)] else [])

omit [DecidableEq τ] in
theorem enter_mem_pending {t t' : τ} {r : Row τ} {n : Nat} :
    Request.enter t' n ∈ r.pending t → r.accepted = false ∧ t' = t ∧ n = r.leaves := by
  unfold pending
  cases r.accepted <;> cases r.repl <;> cases r.cancel <;> simp

omit [DecidableEq τ] in
theorem replace_mem_pending {t a b : τ} {r : Row τ} {n : Nat} :
    Request.replace a b n ∈ r.pending t → a = t ∧ r.repl = some (b, n) := by
  unfold pending
  rcases hr : r.repl with _ | ⟨t₂, total⟩ <;> cases r.accepted <;> cases r.cancel <;> simp <;> tauto

omit [DecidableEq τ] in
theorem cancel_mem_pending {t a : τ} {r : Row τ} :
    Request.cancel a ∈ r.pending t → a = r.target t ∧ r.cancel = true := by
  unfold pending
  cases r.accepted <;> cases r.repl <;> cases r.cancel <;> simp

end Row

/-- The requests in `inbox` about the order of row `r` under `t`. -/
def about (t : τ) (r : Row τ) (inbox : List (Request τ)) : List (Request τ) :=
  inbox.filter fun q => r.HasToken t q.subject

/-- The requests on their way are those that the client has pending. -/
structure Inboxed (F : View τ) (inbox : List (Request τ)) : Prop where
  pending : ∀ {t r}, F t = some r → about t r inbox = r.pending t
  stray : ∀ q ∈ inbox, ¬F.Owned q.subject →
    (∀ t n, q ≠ .enter t n) ∧ ∀ t t₂ n, q = .replace t t₂ n → ¬F.Owned t₂

variable {F : View τ} {inbox : List (Request τ)} {t : τ} {r : Row τ}

theorem mem_about {q : Request τ} : q ∈ about t r inbox ↔ q ∈ inbox ∧ r.HasToken t q.subject := by
  simp [about]

theorem about_append (xs ys : List (Request τ)) : about t r (xs ++ ys) = about t r xs ++ about t r ys := by
  simp [about]

theorem about_eq_nil (h : ∀ q ∈ inbox, ¬r.HasToken t q.subject) : about t r inbox = [] := by
  simpa [about, List.filter_eq_nil_iff] using h

theorem about_eq_self (h : ∀ q ∈ inbox, r.HasToken t q.subject) : about t r inbox = inbox := by
  simpa [about, List.filter_eq_self] using h

theorem about_cons_of_hasToken {q : Request τ} (h : r.HasToken t q.subject) :
    about t r (q :: inbox) = q :: about t r inbox := by
  simp [about, h]

theorem about_cons_of_not {q : Request τ} (h : ¬r.HasToken t q.subject) :
    about t r (q :: inbox) = about t r inbox := by
  simp [about, h]

theorem about_about {t' : τ} {r' : Row τ} (h : ∀ k, r'.HasToken t' k → r.HasToken t k) :
    about t' r' inbox = about t' r' (about t r inbox) := by
  unfold about
  rw [List.filter_filter]
  congr 1
  funext q
  by_cases hq : r'.HasToken t' q.subject
  · simp [hq, h _ hq]
  · simp [hq]

namespace Inboxed

/-! ## The request in front -/

variable {q : Request τ}

theorem front (h : Inboxed F (q :: inbox)) (ho : F.Owned q.subject) :
    ∃ t r, F t = some r ∧ r.HasToken t q.subject ∧ q :: about t r inbox = r.pending t := by
  obtain ⟨t, r, ht, hk⟩ := ho
  exact ⟨t, r, ht, hk, by rw [← h.pending ht, about_cons_of_hasToken hk]⟩

theorem front_enter {n : Nat} (h : Inboxed F (.enter t n :: inbox)) :
    ∃ r, F t = some r ∧ r.accepted = false ∧ r.leaves = n ∧ .enter t n :: about t r inbox = r.pending t := by
  by_cases ho : F.Owned t
  · obtain ⟨s, r, hs, _, hp⟩ := h.front ho
    have hmem : Request.enter t n ∈ r.pending s := by
      rw [← hp]
      exact List.mem_cons_self
    obtain ⟨h₁, rfl, h₂⟩ := Row.enter_mem_pending hmem
    exact ⟨r, hs, h₁, h₂.symm, hp⟩
  · exact absurd rfl ((h.stray _ List.mem_cons_self ho).1 t n)

theorem front_replace {t₂ : τ} {n : Nat} (hs : F.Sound) (h : Inboxed F (.replace t t₂ n :: inbox)) :
    (∃ r, F t = some r ∧ r.accepted = true ∧ r.repl = some (t₂, n) ∧
      .replace t t₂ n :: about t r inbox = r.pending t) ∨
    (¬F.Owned t ∧ ¬F.Owned t₂) := by
  by_cases ho : F.Owned t
  · left
    obtain ⟨s, r, hs', _, hp⟩ := h.front ho
    have hmem : Request.replace t t₂ n ∈ r.pending s := by
      rw [← hp]
      exact List.mem_cons_self
    obtain ⟨rfl, h₂⟩ := Row.replace_mem_pending hmem
    exact ⟨r, hs', hs.repl_accepted hs' (by rw [h₂]; rfl), h₂, hp⟩
  · exact .inr ⟨ho, (h.stray _ List.mem_cons_self ho).2 t t₂ n rfl⟩

theorem front_cancel (h : Inboxed F (.cancel t :: inbox)) :
    (∃ r, F t = some r ∧ r.accepted = true ∧ r.repl = none ∧ r.cancel = true ∧
      .cancel t :: about t r inbox = r.pending t) ∨ ¬F.Owned t := by
  by_cases ho : F.Owned t
  · left
    obtain ⟨s, r, hs', _, hp⟩ := h.front ho
    -- the cancel is the first of the pending requests, so nothing else is pending
    have hacc : r.accepted = true := by
      cases ha : r.accepted with
      | true => rfl
      | false => simp [Row.pending, ha] at hp
    have hrepl : r.repl = none := by
      cases hr : r.repl with
      | none => rfl
      | some p => simp [Row.pending, hacc, hr] at hp
    have hmem : Request.cancel t ∈ r.pending s := by
      rw [← hp]
      exact List.mem_cons_self
    obtain ⟨rfl, h₂⟩ := Row.cancel_mem_pending hmem
    have hst : r.target s = s := by simp [Row.target, hrepl]
    rw [hst] at hp ⊢
    exact ⟨r, hs', hacc, hrepl, h₂, hp⟩
  · exact .inr ho

/-! ## Changes of one order -/

theorem about_other (done : List (Request τ)) (hs : F.Sound) (ht : F t = some r) {s : τ} {r' : Row τ} (hs' : F s = some r') (hne : s ≠ t)
    (hd : ∀ q ∈ done, r.HasToken t q.subject) : about s r' (done ++ inbox) = about s r' inbox := by
  rw [about_append, about_eq_nil, List.nil_append]
  exact fun q hq hk => hne (hs.unique hs' ht hk (hd q hq))

/-- The order of row `r` is gone; the requests `done` for it were handled last. -/
theorem drop (done : List (Request τ)) (hs : F.Sound) (h : Inboxed F (done ++ inbox)) (ht : F t = some r)
    (hd : ∀ q ∈ done, r.HasToken t q.subject)
    (hne : ∀ a n, Request.enter a n ∈ inbox → ¬r.HasToken t a) :
    Inboxed (Function.update F t none) inbox where
  pending := by
    intro s r' hs'
    rcases View.update_some hs' with ⟨_, h'⟩ | ⟨hst, h'⟩
    · cases h'
    · rw [← about_other done hs ht h' hst hd, h.pending h']
  stray := by
    intro q hq ho
    by_cases hk : r.HasToken t q.subject
    · refine ⟨fun a n hqe => hne a n (hqe ▸ hq) (by rw [hqe] at hk; exact hk), fun a b n hqe => ?_⟩
      have hmem : q ∈ r.pending t := by
        rw [← h.pending ht, mem_about]
        exact ⟨List.mem_append_right _ hq, hk⟩
      rw [hqe] at hmem
      exact hs.not_owned_drop ht (.inr ⟨n, (Row.replace_mem_pending hmem).2⟩)
    · have ho' : ¬F.Owned q.subject := by
        rintro ⟨s, r', hs', hk'⟩
        refine ho ⟨s, r', ?_, hk'⟩
        rw [Function.update_of_ne]
        · exact hs'
        · rintro rfl
          rw [ht] at hs'
          exact hk (Option.some.inj hs' ▸ hk')
      obtain ⟨h₁, h₂⟩ := h.stray q (List.mem_append_right _ hq) ho'
      exact ⟨h₁, fun a b n hqe hb => h₂ a b n hqe
        (View.owned_update ht (fun r' hr' => by cases hr') hb)⟩

/-- The enter at the front was refused. -/
theorem entered_drop {n : Nat} (hs : F.Sound) (h : Inboxed F (.enter t n :: inbox)) (ht : F t = some r)
    (hacc : r.accepted = false) : Inboxed (Function.update F t none) inbox := by
  have hrepl : r.repl = none := by
    cases hr : r.repl with
    | none => rfl
    | some p =>
      have := hs.repl_accepted ht (by rw [hr]; rfl)
      rw [hacc] at this
      cases this
  have hk : r.HasToken t (Request.enter t n).subject := .inl rfl
  have hall := h.pending ht
  rw [about_cons_of_hasToken hk] at hall
  have hrest : about t r inbox = if r.cancel then [.cancel t] else [] := by
    simp only [Row.pending, hacc, hrepl, Row.target] at hall
    simpa using (List.cons.inj hall).2
  refine drop [.enter t n] hs h ht (fun q' hq' => ?_) fun a m hq' hk' => ?_
  · rw [List.mem_singleton] at hq'
    rw [hq']
    exact hk
  · have hmem : Request.enter a m ∈ about t r inbox := mem_about.mpr ⟨hq', hk'⟩
    rw [hrest] at hmem
    by_cases hc : r.cancel = true
    · rw [if_pos hc, List.mem_singleton] at hmem
      cases hmem
    · rw [if_neg hc] at hmem
      cases hmem

/-- The order of row `r` goes on as `r'` with the same tokens. -/
theorem amend (done : List (Request τ)) (hs : F.Sound) (h : Inboxed F (done ++ inbox)) (ht : F t = some r)
    (hd : ∀ q ∈ done, r.HasToken t q.subject) {r' : Row τ} (hr : r'.repl = r.repl)
    (hp : done ++ r'.pending t = r.pending t) : Inboxed (Function.update F t (some r')) inbox := by
  have htok : ∀ k, r'.HasToken t k ↔ r.HasToken t k := fun k => by unfold Row.HasToken; rw [hr]
  have howned : ∀ k, View.Owned (Function.update F t (some r')) k ↔ F.Owned k := by
    intro k
    constructor
    · rintro ⟨s, r₁, hs', hk⟩
      rcases View.update_some hs' with ⟨rfl, h'⟩ | ⟨_, h'⟩
      · obtain rfl := Option.some.inj h'
        exact ⟨s, r, ht, (htok k).mp hk⟩
      · exact ⟨s, r₁, h', hk⟩
    · rintro ⟨s, r₁, hs', hk⟩
      by_cases hst : s = t
      · subst hst
        obtain rfl := Option.some.inj (hs'.symm.trans ht)
        exact ⟨s, r', Function.update_self .., (htok k).mpr hk⟩
      · exact ⟨s, r₁, by rw [Function.update_of_ne hst]; exact hs', hk⟩
  constructor
  · intro s r₁ hs'
    rcases View.update_some hs' with ⟨rfl, h'⟩ | ⟨hst, h'⟩
    · obtain rfl := Option.some.inj h'
      have hall := h.pending ht
      rw [about_append, about_eq_self hd, ← hp] at hall
      rw [← List.append_cancel_left hall]
      unfold about
      congr 1
      funext q
      exact decide_eq_decide.mpr (htok _)
    · rw [← about_other done hs ht h' hst hd, h.pending h']
  · intro q hq ho
    rw [howned] at ho
    obtain ⟨h₁, h₂⟩ := h.stray q (List.mem_append_right _ hq) ho
    exact ⟨h₁, fun a b n hqe hb => h₂ a b n hqe ((howned b).mp hb)⟩

theorem behind_replace (hs : F.Sound) {t₂ : τ} {n : Nat} (h : Inboxed F (.replace t t₂ n :: inbox))
    (ht : F t = some r) (hr : r.repl = some (t₂, n)) :
    about t r inbox = if r.cancel then [.cancel t₂] else [] := by
  have hacc := hs.repl_accepted ht (by rw [hr]; rfl)
  have hk : r.HasToken t (Request.replace t t₂ n).subject := .inl rfl
  have hall := h.pending ht
  rw [about_cons_of_hasToken hk] at hall
  simpa [Row.pending, hacc, hr, Row.target] using hall

theorem behind_replace_stray (hs : F.Sound) {t₂ : τ} {n : Nat} (h : Inboxed F (.replace t t₂ n :: inbox))
    (ht : F t = some r) (hr : r.repl = some (t₂, n)) (hq : q ∈ inbox) (hk : r.HasToken t q.subject) :
    (∀ a m, q ≠ .enter a m) ∧ ∀ a b m, q ≠ .replace a b m := by
  have hmem : q ∈ about t r inbox := mem_about.mpr ⟨hq, hk⟩
  rw [h.behind_replace hs ht hr] at hmem
  by_cases hc : r.cancel = true
  · rw [if_pos hc, List.mem_singleton] at hmem
    rw [hmem]
    exact ⟨fun a m h' => (by cases h'), fun a b m h' => (by cases h')⟩
  · rw [if_neg hc] at hmem
    cases hmem

/-- The replace at the front was rejected. -/
theorem revert (hs : F.Sound) {t₂ : τ} {n : Nat} (h : Inboxed F (.replace t t₂ n :: inbox)) (ht : F t = some r)
    (hr : r.repl = some (t₂, n)) : Inboxed (Function.update F t (some r.revert)) inbox := by
  have hacc := hs.repl_accepted ht (by rw [hr]; rfl)
  have hne := hs.repl_ne ht hr
  have hrest := h.behind_replace hs ht hr
  have htok : ∀ {k}, r.revert.HasToken t k → k = t := by
    rintro k (hk | ⟨n', hk⟩)
    · exact hk
    · cases hk
  constructor
  · intro s r₁ hs'
    rcases View.update_some hs' with ⟨rfl, h'⟩ | ⟨hst, h'⟩
    · obtain rfl := Option.some.inj h'
      rw [about_about (r := r) (t := s) (fun k hk => .inl (htok hk)), hrest]
      have hempty : r.revert.pending s = [] := by simp [Row.pending, Row.revert, hacc]
      rw [hempty]
      refine about_eq_nil fun q hq hk => ?_
      have hk := htok hk
      by_cases hc : r.cancel = true
      · rw [if_pos hc, List.mem_singleton] at hq
        rw [hq] at hk
        exact hne hk
      · rw [if_neg hc] at hq
        cases hq
    · rw [← about_other [.replace t t₂ n] hs ht h' hst, List.singleton_append, h.pending h']
      intro q hq
      rw [List.mem_singleton] at hq
      rw [hq]
      exact .inl rfl
  · intro q hq ho
    by_cases hk : r.HasToken t q.subject
    · obtain ⟨h₁, h₂⟩ := h.behind_replace_stray hs ht hr hq hk
      exact ⟨h₁, fun a b m h' => absurd h' (h₂ a b m)⟩
    · have ho' : ¬F.Owned q.subject := by
        rintro ⟨s, r', hs', hk'⟩
        refine ho ⟨s, r', ?_, hk'⟩
        rw [Function.update_of_ne]
        · exact hs'
        · rintro rfl
          rw [ht] at hs'
          exact hk (Option.some.inj hs' ▸ hk')
      obtain ⟨h₁, h₂⟩ := h.stray q (List.mem_cons_of_mem _ hq) ho'
      refine ⟨h₁, fun a b m hqe hb => h₂ a b m hqe (View.owned_update ht (fun r' hr' => ?_) hb)⟩
      obtain rfl := Option.some.inj hr'
      exact succeeds_revert hs ht

/-- The replace at the front went through. -/
theorem swap (hs : F.Sound) {t₂ : τ} {n : Nat} (h : Inboxed F (.replace t t₂ n :: inbox)) (ht : F t = some r)
    (hr : r.repl = some (t₂, n)) :
    Inboxed (Function.update (Function.update F t none) t₂ (some (r.swap n))) inbox := by
  have hacc := hs.repl_accepted ht (by rw [hr]; rfl)
  have hne := hs.repl_ne ht hr
  have hrest := h.behind_replace hs ht hr
  have htok : ∀ {k}, (r.swap n).HasToken t₂ k → k = t₂ := by
    rintro k (hk | ⟨n', hk⟩)
    · exact hk
    · cases hk
  have hold : ∀ {s : τ} {r' : Row τ}, Function.update (Function.update F t none) t₂ (some (r.swap n)) s = some r' →
      (s = t₂ ∧ r' = r.swap n) ∨ (s ≠ t ∧ F s = some r') := by
    intro s r' hs'
    rcases View.update_some hs' with ⟨h₁, h₂⟩ | ⟨_, h'⟩
    · exact .inl ⟨h₁, (Option.some.inj h₂).symm⟩
    · rcases View.update_some h' with ⟨_, h'⟩ | h'
      · cases h'
      · exact .inr h'
  constructor
  · intro s r₁ hs'
    rcases hold hs' with ⟨rfl, rfl⟩ | ⟨hst, h'⟩
    · rw [about_about (r := r) (t := t) (fun k hk => .inr ⟨n, by rw [hr, htok hk]⟩), hrest, about_eq_self]
      · simp [Row.pending, Row.swap, hacc, Row.target]
      · intro q hq
        by_cases hc : r.cancel = true
        · rw [if_pos hc, List.mem_singleton] at hq
          rw [hq]
          exact .inl rfl
        · rw [if_neg hc] at hq
          cases hq
    · rw [← about_other [.replace t t₂ n] hs ht h' hst, List.singleton_append, h.pending h']
      intro q hq
      rw [List.mem_singleton] at hq
      rw [hq]
      exact .inl rfl
  · intro q hq ho
    by_cases hk : r.HasToken t q.subject
    · obtain ⟨h₁, h₂⟩ := h.behind_replace_stray hs ht hr hq hk
      exact ⟨h₁, fun a b m h' => absurd h' (h₂ a b m)⟩
    · have hgain : ∀ k, View.Owned (Function.update (Function.update F t none) t₂ (some (r.swap n))) k →
          F.Owned k := by
        rintro k ⟨s, r', hs', hk'⟩
        rcases hold hs' with ⟨rfl, rfl⟩ | ⟨_, h'⟩
        · rw [htok hk']
          exact View.owned_of_repl ht hr
        · exact ⟨s, r', h', hk'⟩
      have ho' : ¬F.Owned q.subject := by
        rintro ⟨s, r', hs', hk'⟩
        have hst : s ≠ t := by
          rintro rfl
          rw [ht] at hs'
          exact hk (Option.some.inj hs' ▸ hk')
        have hst₂ : s ≠ t₂ := by
          rintro rfl
          rw [hs.repl_fresh ht hr] at hs'
          cases hs'
        refine ho ⟨s, r', ?_, hk'⟩
        rw [Function.update_of_ne hst₂, Function.update_of_ne hst]
        exact hs'
      obtain ⟨h₁, h₂⟩ := h.stray q (List.mem_cons_of_mem _ hq) ho'
      exact ⟨h₁, fun a b m hqe hb => h₂ a b m hqe (hgain b hb)⟩

theorem ignore (h : Inboxed F (q :: inbox)) (ho : ¬F.Owned q.subject) : Inboxed F inbox where
  pending := fun {s r'} hs' => by
    rw [← h.pending hs', about_cons_of_not fun hk => ho ⟨s, r', hs', hk⟩]
  stray := fun q' hq' => h.stray q' (List.mem_cons_of_mem _ hq')

/-! ## New requests -/

/-- An order is entered under a token that nothing names. -/
theorem push_enter {k : τ} {n : Nat} (h : Inboxed F inbox) (hk : ¬F.Owned k)
    (hin : ∀ q ∈ inbox, k ∉ q.names) :
    Inboxed (Function.update F k (some ⟨n, 0, false, none, false⟩)) (inbox ++ [.enter k n]) := by
  have hsub : ∀ q ∈ inbox, q.subject ≠ k := fun q hq hqk => hin q hq (hqk ▸ q.subject_mem_names)
  constructor
  · intro s r' hs'
    rcases View.update_some hs' with ⟨rfl, h'⟩ | ⟨hst, h'⟩
    · obtain rfl := Option.some.inj h'
      rw [about_append, about_eq_nil, about_eq_self]
      · rfl
      · intro q hq
        rw [List.mem_singleton] at hq
        rw [hq]
        exact .inl rfl
      · rintro q hq (hqk | ⟨m, hqk⟩)
        · exact hsub q hq hqk
        · cases hqk
    · rw [about_append, h.pending h', about_eq_nil, List.append_nil]
      intro q hq hqk
      rw [List.mem_singleton] at hq
      rw [hq] at hqk
      exact hk ⟨s, r', h', hqk⟩
  · intro q hq ho
    have hgain : ∀ j, View.Owned (Function.update F k (some ⟨n, 0, false, none, false⟩)) j → F.Owned j ∨ j = k := by
      rintro j ⟨s, r', hs', hj⟩
      rcases View.update_some hs' with ⟨rfl, h'⟩ | ⟨_, h'⟩
      · obtain rfl := Option.some.inj h'
        rcases hj with hj | ⟨m, hj⟩
        · exact .inr hj
        · cases hj
      · exact .inl ⟨s, r', h', hj⟩
    rcases List.mem_append.mp hq with hq' | hq'
    · have ho' : ¬F.Owned q.subject := by
        rintro ⟨s, r', hs', hj⟩
        refine ho ⟨s, r', ?_, hj⟩
        rw [Function.update_of_ne]
        · exact hs'
        · rintro rfl
          exact hk (View.owned_of_some hs')
      obtain ⟨h₁, h₂⟩ := h.stray q hq' ho'
      refine ⟨h₁, fun a b m hqe hb => ?_⟩
      rcases hgain b hb with hb | rfl
      · exact h₂ a b m hqe hb
      · exact hin q hq' (by rw [hqe]; simp [Request.names])
    · rw [List.mem_singleton] at hq'
      rw [hq'] at ho
      exact absurd (View.owned_of_some (Function.update_self ..)) ho

/-- A replace goes out for the order under `t`, if it is still there. -/
theorem push_replace {k : τ} {n : Nat} (h : Inboxed F inbox) (hk : ¬F.Owned k)
    (hin : ∀ q ∈ inbox, k ∉ q.names)
    (ht : ∀ r, F t = some r → r.accepted = true ∧ r.repl = none ∧ r.cancel = false)
    (hrep : ∀ s r m, F s = some r → r.repl ≠ some (t, m)) :
    Inboxed (Function.update F t ((F t).map fun r => { r with repl := some (k, n) }))
      (inbox ++ [.replace t k n]) := by
  have hsub : ∀ q ∈ inbox, q.subject ≠ k := fun q hq hqk => hin q hq (hqk ▸ q.subject_mem_names)
  have hrow : ∀ {s r'}, Function.update F t ((F t).map fun r => { r with repl := some (k, n) }) s = some r' →
      (s = t ∧ ∃ r, F t = some r ∧ r' = { r with repl := some (k, n) }) ∨ (s ≠ t ∧ F s = some r') := by
    intro s r' hs'
    rcases View.update_some hs' with ⟨h₁, h₂⟩ | h'
    · obtain ⟨r, hr, rfl⟩ := Option.map_eq_some_iff.mp h₂
      exact .inl ⟨h₁, r, hr, rfl⟩
    · exact .inr h'
  constructor
  · intro s r' hs'
    rcases hrow hs' with ⟨rfl, r, hr, rfl⟩ | ⟨hst, h'⟩
    · obtain ⟨hacc, hnone, hcan⟩ := ht r hr
      -- nothing was pending for the order before
      have hold : about s r inbox = [] := by
        rw [h.pending hr]
        simp [Row.pending, hacc, hnone, hcan]
      have hnew : about s { r with repl := some (k, n) } inbox = [] := by
        refine about_eq_nil fun q hq hqk => ?_
        rcases hqk with hqk | ⟨m, hqk⟩
        · have : q ∈ about s r inbox := mem_about.mpr ⟨hq, .inl hqk⟩
          rw [hold] at this
          cases this
        · have hqk := (Prod.mk.inj (Option.some.inj hqk)).1
          exact hsub q hq hqk.symm
      rw [about_append, hnew, about_eq_self]
      · simp [Row.pending, hacc, hcan]
      · intro q hq
        rw [List.mem_singleton] at hq
        rw [hq]
        exact .inl rfl
    · rw [about_append, h.pending h', about_eq_nil, List.append_nil]
      intro q hq hqk
      rw [List.mem_singleton] at hq
      rw [hq] at hqk
      rcases hqk with hqk | ⟨m, hqk⟩
      · exact hst hqk.symm
      · exact hrep s r' m h' hqk
  · intro q hq ho
    have hgain : ∀ j, View.Owned (Function.update F t ((F t).map fun r => { r with repl := some (k, n) })) j →
        F.Owned j ∨ (j = k ∧ F t ≠ none) := by
      rintro j ⟨s, r', hs', hj⟩
      rcases hrow hs' with ⟨rfl, r, hr, rfl⟩ | ⟨_, h'⟩
      · rcases hj with hj | ⟨m, hj⟩
        · exact .inl ⟨s, r, hr, .inl hj⟩
        · have hj := (Prod.mk.inj (Option.some.inj hj)).1
          exact .inr ⟨hj.symm, by rw [hr]; simp⟩
      · exact .inl ⟨s, r', h', hj⟩
    have hlose : ∀ j, F.Owned j → View.Owned (Function.update F t ((F t).map fun r => { r with repl := some (k, n) })) j := by
      rintro j ⟨s, r', hs', hj⟩
      by_cases hst : s = t
      · subst hst
        refine ⟨s, { r' with repl := some (k, n) }, by rw [Function.update_self, hs']; rfl, ?_⟩
        rcases hj with hj | ⟨m, hj⟩
        · exact .inl hj
        · rw [(ht r' hs').2.1] at hj
          cases hj
      · exact ⟨s, r', by rw [Function.update_of_ne hst]; exact hs', hj⟩
    rcases List.mem_append.mp hq with hq' | hq'
    · obtain ⟨h₁, h₂⟩ := h.stray q hq' (fun h' => ho (hlose _ h'))
      refine ⟨h₁, fun a b m hqe hb => ?_⟩
      rcases hgain b hb with hb | ⟨rfl, _⟩
      · exact h₂ a b m hqe hb
      · exact hin q hq' (by rw [hqe]; simp [Request.names])
    · rw [List.mem_singleton] at hq'
      rw [hq'] at ho ⊢
      refine ⟨fun a m h' => (by cases h'), fun a b m h' hb => ?_⟩
      cases h'
      rcases hgain k hb with hb | ⟨_, hb⟩
      · exact hk hb
      · cases hF : F t with
        | none => exact hb hF
        | some r => exact ho (hlose t (View.owned_of_some hF))

/-- A cancel goes out for the order whose target is `k`. -/
theorem push_cancel {k : τ} (hs : F.Sound) (h : Inboxed F inbox) (ht : F t = some r) (hk : r.target t = k)
    (hc : r.cancel = false) :
    Inboxed (Function.update F t (some { r with cancel := true })) (inbox ++ [.cancel k]) := by
  have hown : r.HasToken t k := hk ▸ r.target_hasToken t
  have hlose : ∀ j, F.Owned j → View.Owned (Function.update F t (some { r with cancel := true })) j := by
    rintro j ⟨s, r', hs', hj⟩
    by_cases hst : s = t
    · subst hst
      obtain rfl := Option.some.inj (hs'.symm.trans ht)
      exact ⟨s, { r' with cancel := true }, Function.update_self .., hj⟩
    · exact ⟨s, r', by rw [Function.update_of_ne hst]; exact hs', hj⟩
  constructor
  · intro s r' hs'
    rcases View.update_some hs' with ⟨rfl, h'⟩ | ⟨hst, h'⟩
    · obtain rfl := Option.some.inj h'
      have hold : about s { r with cancel := true } inbox = r.pending s := h.pending ht
      rw [about_append, hold, about_eq_self]
      · subst hk
        simp [Row.pending, hc, Row.target]
      · intro q hq
        rw [List.mem_singleton] at hq
        rw [hq]
        exact hown
    · rw [about_append, h.pending h', about_eq_nil, List.append_nil]
      intro q hq hqk
      rw [List.mem_singleton] at hq
      rw [hq] at hqk
      exact hst (hs.unique h' ht hqk hown)
  · intro q hq ho
    rcases List.mem_append.mp hq with hq | hq
    · obtain ⟨h₁, h₂⟩ := h.stray q hq (fun h' => ho (hlose _ h'))
      refine ⟨h₁, fun a b m hqe hb => h₂ a b m hqe ?_⟩
      obtain ⟨s, r', hs', hj⟩ := hb
      rcases View.update_some hs' with ⟨rfl, h'⟩ | ⟨_, h'⟩
      · obtain rfl := Option.some.inj h'
        exact ⟨s, r, ht, hj⟩
      · exact ⟨s, r', h', hj⟩
    · rw [List.mem_singleton] at hq
      rw [hq] at ho
      exact absurd (hlose k ⟨t, r, ht, hown⟩) ho

theorem push_cancel_stray {k : τ} (h : Inboxed F inbox) (hk : ¬F.Owned k) : Inboxed F (inbox ++ [.cancel k]) where
  pending := fun {s r'} hs' => by
    rw [about_append, h.pending hs', about_eq_nil, List.append_nil]
    intro q hq hqk
    rw [List.mem_singleton] at hq
    rw [hq] at hqk
    exact hk ⟨s, r', hs', hqk⟩
  stray := fun q hq ho => by
    rcases List.mem_append.mp hq with hq | hq
    · exact h.stray q hq ho
    · rw [List.mem_singleton] at hq
      rw [hq]
      exact ⟨fun a m h' => (by cases h'), fun a b m h' => (by cases h')⟩

end Inboxed
end OptiTrade.Protocol
