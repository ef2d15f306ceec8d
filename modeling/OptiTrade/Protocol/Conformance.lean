import Mathlib.Data.Set.Insert
import OptiTrade.Foundations.Runs
import OptiTrade.Protocol.Inbox

/-! # A client and a conforming exchange with two queues between them

`Answers` and `Acts` say what a conforming exchange does with the oldest request and on its own. The
client lags behind by the reports that are on their way, the exchange by the requests. `Conforms` ties
the two ends together: replaying the reports from the client's view legally ends in a view that agrees
with the exchange's book and with the requests it has not handled. Each rule below keeps it. -/

namespace OptiTrade.Protocol
set_option autoImplicit false

open Runs

variable {τ : Type*} [DecidableEq τ]

/-- An order in the exchange's book. -/
structure Open where
  leaves : Nat
  executed : Nat
  deriving DecidableEq

/-- The orders alive at the exchange by the token each is known by. -/
abbrev Book (τ : Type*) := τ → Option Open

/-- The order under `t` becomes `o`, or dies when nothing is left open. -/
def Book.settle (b : Book τ) (t : τ) (o : Open) : Book τ :=
  Function.update b t (if o.leaves = 0 then none else some o)

/-- How the oldest request may be answered. A replace of an order that is not alive is rejected or
ignored. -/
inductive Answers (b : Book τ) : Request τ → Option (Report τ) → Book τ → Prop
  | refused (t : τ) (n : Nat) : Answers b (.enter t n) (some (.rejected t)) b
  | dead (t : τ) (n : Nat) : Answers b (.enter t n) (some (.dead t)) b
  | accepted (t : τ) (n : Nat) : Answers b (.enter t n) (some (.accepted t)) (Function.update b t (some ⟨n, 0⟩))
  | replaced {t t₂ : τ} {n : Nat} {o : Open} : b t = some o → o.executed < n →
      Answers b (.replace t t₂ n) (some (.replaced t₂ t (n - o.executed)))
        (Function.update (Function.update b t none) t₂ (some ⟨n - o.executed, o.executed⟩))
  | reverted (t t₂ : τ) (n : Nat) : Answers b (.replace t t₂ n) (some (.rejected t₂)) b
  | unreplaced {t : τ} (t₂ : τ) (n : Nat) : b t = none → Answers b (.replace t t₂ n) none b
  | canceled {t : τ} {o : Open} : b t = some o →
      Answers b (.cancel t) (some (.canceled t o.leaves)) (Function.update b t none)
  | uncanceled {t : τ} : b t = none → Answers b (.cancel t) none b

/-- What the exchange may do of its own accord. -/
inductive Acts (b : Book τ) : Report τ → Book τ → Prop
  | executed {t : τ} {o : Open} {q : Nat} : b t = some o → 1 ≤ q → q ≤ o.leaves →
      Acts b (.executed t q) (b.settle t ⟨o.leaves - q, o.executed + q⟩)
  | canceled {t : τ} {o : Open} {q : Nat} : b t = some o → 1 ≤ q → q ≤ o.leaves →
      Acts b (.canceled t q) (b.settle t ⟨o.leaves - q, o.executed⟩)

/-! ## The book a view stands for -/

/-- The order of a row in the exchange's book. -/
def Row.toOpen (r : Row τ) : Option Open := if r.accepted then some ⟨r.leaves, r.cum⟩ else none

/-- The accepted orders of a view. -/
def View.book (F : View τ) : Book τ := fun t => (F t).bind Row.toOpen

omit [DecidableEq τ] in
theorem book_some {F : View τ} {t : τ} {o : Open} :
    F.book t = some o ↔ ∃ r, F t = some r ∧ r.accepted = true ∧ o = ⟨r.leaves, r.cum⟩ := by
  unfold View.book Row.toOpen
  rw [Option.bind_eq_some_iff]
  constructor
  · rintro ⟨r, hr, ho⟩
    by_cases ha : r.accepted = true
    · rw [if_pos ha] at ho
      exact ⟨r, hr, ha, (Option.some.inj ho).symm⟩
    · rw [if_neg ha] at ho
      cases ho
  · rintro ⟨r, hr, ha, rfl⟩
    exact ⟨r, hr, if_pos ha⟩

theorem book_update (F : View τ) (t : τ) (x : Option (Row τ)) :
    View.book (Function.update F t x) = Function.update F.book t (x.bind Row.toOpen) := by
  funext s
  by_cases hst : s = t
  · subst hst
    simp [View.book]
  · simp [View.book, hst]

theorem book_settle {F : View τ} {t : τ} {r : Row τ} (ha : r.accepted = true) :
    (F.settle t r).book = F.book.settle t ⟨r.leaves, r.cum⟩ := by
  unfold View.settle Book.settle
  rw [book_update]
  by_cases hl : r.leaves = 0
  · simp [hl]
  · simp [hl, Row.toOpen, ha]

omit [DecidableEq τ] in
theorem book_none_of_not_owned {F : View τ} {t : τ} (h : ¬F.Owned t) : F.book t = none := by
  unfold View.book
  rw [View.none_of_not_owned h]
  rfl

theorem Book.update_none {b : Book τ} {t : τ} (h : b t = none) : Function.update b t none = b := by
  rw [← h, Function.update_eq_self]

/-! ## Conformance -/

/-- `S` is the set of tokens ever used. -/
structure Conforms (S : Set τ) (v : View τ) (outbox : List (Report τ)) (b : Book τ) (inbox : List (Request τ)) :
    Prop where
  sound : v.Sound
  tokens : ∀ k, v.Owned k → k ∈ S
  reports : ∀ ρ ∈ outbox, ∀ k ∈ ρ.names, k ∈ S
  requests : ∀ q ∈ inbox, ∀ k ∈ q.names, k ∈ S
  replay : ∃ F, Follows Legal v outbox F ∧ b = F.book ∧ Inboxed F inbox

variable {S : Set τ} {v : View τ} {outbox : List (Report τ)} {b : Book τ} {inbox : List (Request τ)}

theorem sound_follows {F : View τ} (hs : v.Sound) (h : Follows Legal v outbox F) : F.Sound :=
  h.invariant (fun _ _ _ hs' hl => hl.sound hs') hs

theorem owned_follows {F : View τ} (hs : v.Sound) (h : Follows Legal v outbox F) {k : τ} (hk : F.Owned k) :
    v.Owned k := by
  have hinv := h.invariant (P := fun w => w.Sound ∧ (w.Owned k → v.Owned k))
    (fun w _ _ hw hl => ⟨hl.sound hw.1, fun h' => hw.2 (hl.owned hw.1 h')⟩) ⟨hs, id⟩
  exact hinv.2 hk

theorem ancestor_follows {F : View τ} (h : Follows Legal v outbox F) {t : τ} {r : Row τ} (ht : F t = some r) :
    ∃ s r₀, v s = some r₀ ∧ (∀ k, r.HasToken t k → r₀.HasToken s k) ∧ r.reserve ≤ r₀.reserve := by
  induction h with
  | nil v => exact ⟨t, r, ht, fun _ => id, le_refl _⟩
  | cons hl _ ih =>
    obtain ⟨s, r₁, hs, htok, hres⟩ := ih ht
    obtain ⟨s', r₀, hs', htok', hres'⟩ := hl.ancestor hs
    exact ⟨s', r₀, hs', fun k hk => htok' k (htok k hk), hres.trans hres'⟩

namespace Conforms

theorem init (S : Set τ) : Conforms S (fun _ => none) [] (fun _ => none) ([] : List (Request τ)) where
  sound := by constructor <;> simp
  tokens := by
    rintro k ⟨t, r, h, _⟩
    cases h
  reports := fun _ h => by cases h
  requests := fun _ h => by cases h
  replay := ⟨fun _ => none, .nil _, rfl, by simp, by simp⟩

/-! ### The client receives a report -/

theorem deliver {ρ : Report τ} (h : Conforms S v (ρ :: outbox) b inbox) :
    ∃ w, Legal v ρ w ∧ Conforms S w outbox b inbox := by
  obtain ⟨F, hF, hb, hin⟩ := h.replay
  cases hF with
  | @cons _ w _ _ _ hl hrest =>
    exact ⟨w, hl, hl.sound h.sound, fun k hk => h.tokens k (hl.owned h.sound hk),
      fun ρ' hρ' => h.reports ρ' (List.mem_cons_of_mem _ hρ'), h.requests, F, hrest, hb, hin⟩

/-! ### The exchange moves -/

theorem report {F w : View τ} {ρ : Report τ} {inbox' : List (Request τ)} (h : Conforms S v outbox b inbox)
    (hF : Follows Legal v outbox F) (hl : Legal F ρ w) (hnames : ∀ k ∈ ρ.names, k ∈ S)
    (hsub : ∀ q ∈ inbox', q ∈ inbox) (hin : Inboxed w inbox') : Conforms S v (outbox ++ [ρ]) w.book inbox' where
  sound := h.sound
  tokens := h.tokens
  reports := by
    intro ρ' hρ'
    rcases List.mem_append.mp hρ' with hρ' | hρ'
    · exact h.reports ρ' hρ'
    · rw [List.mem_singleton] at hρ'
      rw [hρ']
      exact hnames
  requests := fun q hq => h.requests q (hsub q hq)
  replay := ⟨w, hF.snoc hl, rfl, hin⟩

theorem act {ρ : Report τ} {b' : Book τ} (h : Conforms S v outbox b inbox) (ha : Acts b ρ b') :
    Conforms S v (outbox ++ [ρ]) b' inbox := by
  obtain ⟨F, hF, rfl, hin⟩ := h.replay
  have hs := sound_follows h.sound hF
  -- the order's row goes on, or goes: either way its requests stay as they are
  have key : ∀ {t : τ} {r r' : Row τ}, F t = some r → r.accepted = true → r'.accepted = r.accepted →
      r'.repl = r.repl → r'.cancel = r.cancel → Inboxed (F.settle t r') inbox := by
    intro t r r' ht hacc h₁ h₂ h₃
    unfold View.settle
    by_cases hl : r'.leaves = 0
    · rw [if_pos hl]
      refine Inboxed.drop [] hs hin ht (fun _ hq => by cases hq) fun a n ha' hk => ?_
      have hmem : Request.enter a n ∈ r.pending t := by
        rw [← hin.pending ht, mem_about]
        exact ⟨ha', hk⟩
      have := (Row.enter_mem_pending hmem).1
      rw [hacc] at this
      cases this
    · rw [if_neg hl]
      refine Inboxed.amend [] hs hin ht (fun _ hq => by cases hq) h₂ ?_
      simp [Row.pending, Row.target, h₁, h₂, h₃, hacc]
  have hmine : ∀ {t : τ} {r : Row τ}, F t = some r → t ∈ S := fun ht =>
    h.tokens _ (owned_follows h.sound hF (View.owned_of_some ht))
  cases ha with
  | executed hb hq₁ hq₂ =>
    obtain ⟨r, ht, hacc, rfl⟩ := book_some.mp hb
    have hrep := h.report hF (.executed ht hacc hq₁ hq₂) (by simpa [Report.names] using hmine ht)
      (fun _ => id) (key ht hacc rfl rfl rfl)
    rwa [book_settle (r := r.execute _) hacc] at hrep
  | canceled hb hq₁ hq₂ =>
    obtain ⟨r, ht, hacc, rfl⟩ := book_some.mp hb
    have hrep := h.report hF (.canceled ht hacc hq₁ hq₂) (by simpa [Report.names] using hmine ht)
      (fun _ => id) (key ht hacc rfl rfl rfl)
    rwa [book_settle (r := r.reduce _) hacc] at hrep

theorem skip {q : Request τ} (h : Conforms S v outbox b (q :: inbox)) {F : View τ} (hF : Follows Legal v outbox F)
    (hb : b = F.book) (hin : Inboxed F inbox) : Conforms S v outbox b inbox where
  sound := h.sound
  tokens := h.tokens
  reports := h.reports
  requests := fun q' hq' => h.requests q' (List.mem_cons_of_mem _ hq')
  replay := ⟨F, hF, hb, hin⟩

theorem answer {q : Request τ} {ρ : Option (Report τ)} {b' : Book τ} (h : Conforms S v outbox b (q :: inbox))
    (ha : Answers b q ρ b') : Conforms S v (outbox ++ ρ.toList) b' inbox := by
  obtain ⟨F, hF, rfl, hin⟩ := h.replay
  have hs := sound_follows h.sound hF
  have hS : ∀ k ∈ q.names, k ∈ S := h.requests q List.mem_cons_self
  have hsub : ∀ q' ∈ inbox, q' ∈ q :: inbox := fun q' => List.mem_cons_of_mem _
  cases ha with
  | refused t n =>
    obtain ⟨r, ht, hacc, _, hp⟩ := hin.front_enter
    have hno : F.book t = none := by simp [View.book, ht, Row.toOpen, hacc]
    have hrep := h.report hF (.refused ht hacc) (by simpa [Report.names] using hS t (by simp [Request.names]))
      hsub (hin.entered_drop hs ht hacc)
    rwa [book_update, Option.bind_none, Book.update_none hno] at hrep
  | dead t n =>
    obtain ⟨r, ht, hacc, _, hp⟩ := hin.front_enter
    have hno : F.book t = none := by simp [View.book, ht, Row.toOpen, hacc]
    have hrep := h.report hF (.dead ht hacc) (by simpa [Report.names] using hS t (by simp [Request.names]))
      hsub (hin.entered_drop hs ht hacc)
    rwa [book_update, Option.bind_none, Book.update_none hno] at hrep
  | accepted t n =>
    obtain ⟨r, ht, hacc, hn, hp⟩ := hin.front_enter
    have hin' : Inboxed (Function.update F t (some { r with accepted := true })) inbox := by
      refine Inboxed.amend [.enter t n] hs hin ht (fun q' hq' => ?_) rfl ?_
      · rw [List.mem_singleton] at hq'
        rw [hq']
        exact .inl rfl
      · simp [Row.pending, Row.target, hacc, hn]
    have hrep := h.report hF (.accepted ht hacc) (by simpa [Report.names] using hS t (by simp [Request.names]))
      hsub hin'
    have hopen : (some { r with accepted := true }).bind Row.toOpen = some ⟨n, 0⟩ := by
      simp [Row.toOpen, hn, hs.cum_zero ht hacc]
    rwa [book_update, hopen] at hrep
  | @replaced t t₂ n o hb hlt =>
    obtain ⟨r, ht, hacc, rfl⟩ := book_some.mp hb
    rcases hin.front_replace hs with ⟨r', ht', _, hr, _⟩ | ⟨hno, _⟩
    · obtain rfl := Option.some.inj (ht.symm.trans ht')
      have hrep := h.report hF (.replaced ht hr hlt) (by simpa [Report.names, Request.names, and_comm] using hS)
        hsub (hin.swap hs ht hr)
      have hopen : (some (r.swap n)).bind Row.toOpen = some ⟨n - r.cum, r.cum⟩ := by
        simp [Row.toOpen, Row.swap, hacc]
      rwa [book_update, book_update, Option.bind_none, hopen] at hrep
    · exact absurd (View.owned_of_some ht) hno
  | reverted t t₂ n =>
    have hname : ∀ k ∈ (Report.rejected t₂).names, k ∈ S := by
      simpa [Report.names] using hS t₂ (by simp [Request.names])
    rcases hin.front_replace hs with ⟨r, ht, hacc, hr, _⟩ | ⟨hno, hno₂⟩
    · have hrep := h.report hF (.reverted ht hr) hname hsub (hin.revert hs ht hr)
      have hopen : (some r.revert).bind Row.toOpen = F.book t := by
        simp [Row.toOpen, Row.revert, hacc, View.book, ht]
      rwa [book_update, hopen, Function.update_eq_self] at hrep
    · exact h.report hF (.stale hno₂) hname hsub (hin.ignore hno)
  | @unreplaced t t₂ n hb =>
    rw [Option.toList_none, List.append_nil]
    rcases hin.front_replace hs with ⟨r, ht, hacc, _, _⟩ | ⟨hno, _⟩
    · simp [View.book, ht, Row.toOpen, hacc] at hb
    · exact h.skip hF rfl (hin.ignore hno)
  | @canceled t o hb =>
    obtain ⟨r, ht, hacc, rfl⟩ := book_some.mp hb
    rcases hin.front_cancel with ⟨r', ht', _, hr, _, hp⟩ | hno
    · obtain rfl := Option.some.inj (ht.symm.trans ht')
      have hin' : Inboxed (Function.update F t none) inbox := by
        refine Inboxed.drop [.cancel t] hs hin ht (fun q' hq' => ?_) fun a m hq' hk => ?_
        · rw [List.mem_singleton] at hq'
          rw [hq']
          exact .inl rfl
        · have hmem : Request.enter a m ∈ r.pending t := by
            rw [← hp]
            exact List.mem_cons_of_mem _ (mem_about.mpr ⟨hq', hk⟩)
          have := (Row.enter_mem_pending hmem).1
          rw [hacc] at this
          cases this
      have hset : F.settle t (r.reduce r.leaves) = Function.update F t none := by
        unfold View.settle
        rw [if_pos (by simp [Row.reduce])]
      have hl : Legal F (.canceled t r.leaves) (Function.update F t none) :=
        hset ▸ Legal.canceled ht hacc (hs.leaves_pos ht) (le_refl _)
      have hrep := h.report hF hl
        (by simpa [Report.names] using hS t (by simp [Request.names])) hsub hin'
      rwa [book_update] at hrep
    · exact absurd (View.owned_of_some ht) hno
  | @uncanceled t hb =>
    rw [Option.toList_none, List.append_nil]
    rcases hin.front_cancel with ⟨r, ht, hacc, _, _, _⟩ | hno
    · simp [View.book, ht, Row.toOpen, hacc] at hb
    · exact h.skip hF rfl (hin.ignore hno)

/-! ### The client sends a request -/

/-- A new row commutes with a report that does not name its token. -/
theorem legal_insert {v w : View τ} {ρ : Report τ} {k : τ} {row : Row τ} (hk : ¬v.Owned k)
    (hρ : k ∉ ρ.names) (hrow : row.repl = none) (hl : Legal v ρ w) :
    Legal (Function.update v k (some row)) ρ (Function.update w k (some row)) := by
  have hne : ∀ {t : τ} {r : Row τ}, v t = some r → t ≠ k := by
    rintro t r ht rfl
    exact hk (View.owned_of_some ht)
  have hkeep : ∀ {t : τ} {r : Row τ}, v t = some r → Function.update v k (some row) t = some r := by
    intro t r ht
    rw [Function.update_of_ne (hne ht)]
    exact ht
  cases hl with
  | accepted ht hacc =>
    rw [Function.update_comm (hne ht)]
    exact .accepted (hkeep ht) hacc
  | dead ht hacc =>
    rw [Function.update_comm (hne ht)]
    exact .dead (hkeep ht) hacc
  | refused ht hacc =>
    rw [Function.update_comm (hne ht)]
    exact .refused (hkeep ht) hacc
  | reverted ht hr =>
    rw [Function.update_comm (hne ht)]
    exact .reverted (hkeep ht) hr
  | @stale t₂ hno =>
    refine .stale ?_
    rintro ⟨s, r, hs', hj⟩
    rcases View.update_some hs' with ⟨rfl, h'⟩ | ⟨_, h'⟩
    · obtain rfl := Option.some.inj h'
      rcases hj with rfl | ⟨n, hj⟩
      · exact hρ (by simp [Report.names])
      · rw [hrow] at hj
        cases hj
    · exact hno ⟨s, r, h', hj⟩
  | executed ht hacc hq₁ hq₂ =>
    unfold View.settle
    rw [Function.update_comm (hne ht)]
    exact .executed (hkeep ht) hacc hq₁ hq₂
  | canceled ht hacc hq₁ hq₂ =>
    unfold View.settle
    rw [Function.update_comm (hne ht)]
    exact .canceled (hkeep ht) hacc hq₁ hq₂
  | @replaced t t₂ r n ht hr hlt =>
    have hne₂ : t₂ ≠ k := by
      rintro rfl
      exact hk (View.owned_of_repl ht hr)
    rw [Function.update_comm hne₂, Function.update_comm (hne ht)]
    exact .replaced (hkeep ht) hr hlt

/-- The client enters an order under a token it has not used. -/
theorem enter {k : τ} {n : Nat} (h : Conforms S v outbox b inbox) (hk : k ∉ S) (hn : 1 ≤ n) :
    Conforms (insert k S) (Function.update v k (some ⟨n, 0, false, none, false⟩)) outbox b
      (inbox ++ [.enter k n]) := by
  obtain ⟨F, hF, rfl, hin⟩ := h.replay
  have hno : ¬v.Owned k := fun h' => hk (h.tokens k h')
  have hnoF : ¬F.Owned k := fun h' => hno (owned_follows h.sound hF h')
  obtain ⟨F', hF', rfl, _⟩ := hF.simulate
    (S := fun v v' : View τ => v' = Function.update v k (some ⟨n, 0, false, none, false⟩) ∧ v.Sound ∧ ¬v.Owned k)
    (P := fun ρ => k ∉ ρ.names)
    (fun v ρ w v' hρ hl ⟨hv', hsound, hown⟩ =>
      ⟨_, hv' ▸ legal_insert hown hρ rfl hl, rfl, hl.sound hsound, fun h' => hown (hl.owned hsound h')⟩)
    (fun ρ hρ hk' => hk (h.reports ρ hρ k hk')) ⟨rfl, h.sound, hno⟩
  refine ⟨h.sound.insert hno rfl hn fun _ => rfl, ?_, ?_, ?_, _, hF', ?_, ?_⟩
  · rintro j ⟨s, r, hs', hj⟩
    rcases View.update_some hs' with ⟨rfl, h'⟩ | ⟨_, h'⟩
    · obtain rfl := Option.some.inj h'
      rcases hj with rfl | ⟨m, hj⟩
      · exact Set.mem_insert _ _
      · cases hj
    · exact Set.mem_insert_of_mem _ (h.tokens j ⟨s, r, h', hj⟩)
  · exact fun ρ hρ j hj => Set.mem_insert_of_mem _ (h.reports ρ hρ j hj)
  · intro q hq j hj
    rcases List.mem_append.mp hq with hq | hq
    · exact Set.mem_insert_of_mem _ (h.requests q hq j hj)
    · rw [List.mem_singleton] at hq
      rw [hq] at hj
      simp only [Request.names, List.mem_singleton] at hj
      exact hj ▸ Set.mem_insert _ _
  · rw [book_update]
    exact (Book.update_none (book_none_of_not_owned hnoF)).symm
  · exact hin.push_enter hnoF fun q hq hk' => hk (h.requests q hq k hk')

/-- `v'` is `v` with a replace of the order under `t` on its way, if that order is there. -/
structure Offered (t k : τ) (n : Nat) (v v' : View τ) : Prop where
  eq : v' = Function.update v t ((v t).map fun r => { r with repl := some (k, n) })
  sound : v.Sound
  fresh : ¬v.Owned k
  idle : ∀ r, v t = some r → r.accepted = true ∧ r.repl = none ∧ r.cancel = false
  unnamed : ∀ s r m, v s = some r → r.repl ≠ some (t, m)

theorem Offered.legal {t k : τ} {n : Nat} {v v' w : View τ} {ρ : Report τ} (h : Offered t k n v v')
    (hρ : k ∉ ρ.names) (hl : Legal v ρ w) : ∃ w', Legal v' ρ w' ∧ Offered t k n w w' := by
  -- what stays true of the order under `t` in `w` is the same for every report
  have hend : (∀ r, w t = some r → r.accepted = true ∧ r.repl = none ∧ r.cancel = false) →
      Legal v' ρ (Function.update w t ((w t).map fun r => { r with repl := some (k, n) })) →
      ∃ w', Legal v' ρ w' ∧ Offered t k n w w' := by
    intro hidle hleg
    refine ⟨_, hleg, rfl, hl.sound h.sound, fun h' => h.fresh (hl.owned h.sound h'), hidle, fun s r m hs hr => ?_⟩
    obtain ⟨s₀, r₀, hs₀, htok, _⟩ := hl.ancestor hs
    rcases htok t (.inr ⟨m, hr⟩) with rfl | ⟨m', hr₀⟩
    · rcases htok s (.inl rfl) with rfl | ⟨m', hr₀⟩
      · exact (hl.sound h.sound).repl_ne hs hr rfl
      · rw [(h.idle r₀ hs₀).2.1] at hr₀
        cases hr₀
    · exact h.unnamed s₀ r₀ m' hs₀ hr₀
  have hkeep : ∀ {a : τ} {r : Row τ}, a ≠ t → v a = some r → v' a = some r := by
    intro a r hat ha
    rw [h.eq, Function.update_of_ne hat]
    exact ha
  have hother : ∀ {a : τ} (x : Option (Row τ)), a ≠ t → w = Function.update v a x →
      Function.update w t ((w t).map fun r => { r with repl := some (k, n) }) = Function.update v' a x ∧
      ∀ r, w t = some r → r.accepted = true ∧ r.repl = none ∧ r.cancel = false := by
    intro a x hat hw
    have hwt : w t = v t := by rw [hw, Function.update_of_ne (Ne.symm hat)]
    rw [hwt, hw, h.eq, Function.update_comm hat]
    exact ⟨rfl, h.idle⟩
  have hrow : ∀ {r : Row τ}, v t = some r → v' t = some { r with repl := some (k, n) } := by
    intro r hr
    rw [h.eq, Function.update_self, hr]
    rfl
  have hsettle : ∀ {r : Row τ} (r' : Row τ), v t = some r → r'.accepted = r.accepted → r'.repl = r.repl →
      r'.cancel = r.cancel → w = v.settle t r' →
      Function.update w t ((w t).map fun r => { r with repl := some (k, n) }) =
        v'.settle t { r' with repl := some (k, n) } ∧
      ∀ r, w t = some r → r.accepted = true ∧ r.repl = none ∧ r.cancel = false := by
    intro r r' hr h₁ h₂ h₃ hw
    obtain ⟨i₁, i₂, i₃⟩ := h.idle r hr
    subst hw
    unfold View.settle
    rw [Function.update_self, Function.update_idem, h.eq, Function.update_idem]
    by_cases hz : r'.leaves = 0
    · simp [hz]
    · simp only [hz, if_false, Option.map_some, Option.some.injEq, forall_eq', true_and]
      exact ⟨h₁.trans i₁, h₂.trans i₂, h₃.trans i₃⟩
  cases hl with
  | @accepted a r ha hacc =>
    have hat : a ≠ t := by
      rintro rfl
      rw [(h.idle r ha).1] at hacc
      cases hacc
    obtain ⟨h₁, h₂⟩ := hother _ hat rfl
    exact hend h₂ (h₁ ▸ .accepted (hkeep hat ha) hacc)
  | @dead a r ha hacc =>
    have hat : a ≠ t := by
      rintro rfl
      rw [(h.idle r ha).1] at hacc
      cases hacc
    obtain ⟨h₁, h₂⟩ := hother _ hat rfl
    exact hend h₂ (h₁ ▸ .dead (hkeep hat ha) hacc)
  | @refused a r ha hacc =>
    have hat : a ≠ t := by
      rintro rfl
      rw [(h.idle r ha).1] at hacc
      cases hacc
    obtain ⟨h₁, h₂⟩ := hother _ hat rfl
    exact hend h₂ (h₁ ▸ .refused (hkeep hat ha) hacc)
  | @reverted a t₂ r m ha hr =>
    have hat : a ≠ t := by
      rintro rfl
      rw [(h.idle r ha).2.1] at hr
      cases hr
    obtain ⟨h₁, h₂⟩ := hother _ hat rfl
    exact hend h₂ (h₁ ▸ .reverted (hkeep hat ha) hr)
  | @stale t₂ hno =>
    refine hend h.idle ?_
    rw [← h.eq]
    refine .stale ?_
    rintro ⟨s, r', hs', hj⟩
    rw [h.eq] at hs'
    rcases View.update_some hs' with ⟨rfl, h'⟩ | ⟨_, h'⟩
    · obtain ⟨r, hr, rfl⟩ := Option.map_eq_some_iff.mp h'
      rcases hj with hj | ⟨m, hj⟩
      · exact hno ⟨s, r, hr, .inl hj⟩
      · have hj := (Prod.mk.inj (Option.some.inj hj)).1
        exact hρ (by simp [Report.names, hj])
    · exact hno ⟨s, r', h', hj⟩
  | @executed a r q ha hacc hq₁ hq₂ =>
    by_cases hat : a = t
    · subst hat
      obtain ⟨h₁, h₂⟩ := hsettle (r.execute q) ha rfl rfl rfl rfl
      exact hend h₂ (h₁ ▸ .executed (hrow ha) hacc hq₁ hq₂)
    · obtain ⟨h₁, h₂⟩ := hother _ hat rfl
      exact hend h₂ (h₁ ▸ .executed (hkeep hat ha) hacc hq₁ hq₂)
  | @canceled a r q ha hacc hq₁ hq₂ =>
    by_cases hat : a = t
    · subst hat
      obtain ⟨h₁, h₂⟩ := hsettle (r.reduce q) ha rfl rfl rfl rfl
      exact hend h₂ (h₁ ▸ .canceled (hrow ha) hacc hq₁ hq₂)
    · obtain ⟨h₁, h₂⟩ := hother _ hat rfl
      exact hend h₂ (h₁ ▸ .canceled (hkeep hat ha) hacc hq₁ hq₂)
  | @replaced a t₂ r m ha hr hlt =>
    have hat : a ≠ t := by
      rintro rfl
      rw [(h.idle r ha).2.1] at hr
      cases hr
    have hat₂ : t₂ ≠ t := by
      rintro rfl
      exact h.unnamed a r m ha hr
    have hwt : Function.update (Function.update v a none) t₂ (some (r.swap m)) t = v t := by
      rw [Function.update_of_ne (Ne.symm hat₂), Function.update_of_ne (Ne.symm hat)]
    refine hend (fun r' hr' => h.idle r' (by rw [← hr', hwt])) ?_
    rw [hwt, Function.update_comm hat₂, Function.update_comm hat, ← h.eq]
    exact .replaced (hkeep hat ha) hr hlt

/-- The client asks for a working order to be replaced under a token it has not used. -/
theorem replace {t k : τ} {r : Row τ} {n : Nat} (h : Conforms S v outbox b inbox) (hk : k ∉ S) (ht : v t = some r)
    (hacc : r.accepted = true) (hnone : r.repl = none) (hc : r.cancel = false) :
    Conforms (insert k S) (Function.update v t (some { r with repl := some (k, n) })) outbox b
      (inbox ++ [.replace t k n]) := by
  obtain ⟨F, hF, rfl, hin⟩ := h.replay
  have hno : ¬v.Owned k := fun h' => hk (h.tokens k h')
  have htS : t ∈ S := h.tokens t (View.owned_of_some ht)
  have hkt : k ≠ t := by
    rintro rfl
    exact hk htS
  have hidle : ∀ r', v t = some r' → r'.accepted = true ∧ r'.repl = none ∧ r'.cancel = false := by
    intro r' hr'
    obtain rfl := Option.some.inj (ht.symm.trans hr')
    exact ⟨hacc, hnone, hc⟩
  have hun : ∀ s r' m, v s = some r' → r'.repl ≠ some (t, m) := by
    intro s r' m hs' hr'
    rw [h.sound.repl_fresh hs' hr'] at ht
    cases ht
  have hoff : Offered t k n v (Function.update v t (some { r with repl := some (k, n) })) :=
    ⟨by rw [ht]; rfl, h.sound, hno, hidle, hun⟩
  obtain ⟨F', hF', hoffF⟩ := hF.simulate (S := Offered t k n) (P := fun ρ => k ∉ ρ.names)
    (fun _ ρ _ _ (hρ : k ∉ ρ.names) (hl : Legal _ ρ _) hoff => hoff.legal hρ hl) (fun ρ hρ hk' => hk (h.reports ρ hρ k hk')) hoff
  refine ⟨?_, ?_, ?_, ?_, F', hF', ?_, ?_⟩
  · have hs := h.sound
    constructor
    · intro a c ra rc j ha hb' hja hjb
      rcases View.update_some ha with ⟨rfl, ha'⟩ | ⟨hat, ha'⟩
      · rcases View.update_some hb' with ⟨rfl, _⟩ | ⟨_, hb''⟩
        · rfl
        · obtain rfl := Option.some.inj ha'
          rcases hja with hja | ⟨m, hja⟩
          · exact hs.unique ht hb'' (.inl hja) hjb
          · have hja := (Prod.mk.inj (Option.some.inj hja)).1
            exact absurd ⟨c, rc, hb'', hja ▸ hjb⟩ hno
      · rcases View.update_some hb' with ⟨rfl, hb''⟩ | ⟨_, hb''⟩
        · obtain rfl := Option.some.inj hb''
          rcases hjb with hjb | ⟨m, hjb⟩
          · exact hs.unique ha' ht hja (.inl hjb)
          · have hjb := (Prod.mk.inj (Option.some.inj hjb)).1
            exact absurd ⟨a, ra, ha', hjb ▸ hja⟩ hno
        · exact hs.unique ha' hb'' hja hjb
    · intro a ra j m ha hj
      rcases View.update_some ha with ⟨rfl, ha'⟩ | ⟨_, ha'⟩
      · obtain rfl := Option.some.inj ha'
        have hj := (Prod.mk.inj (Option.some.inj hj)).1
        exact hj ▸ hkt
      · exact hs.repl_ne ha' hj
    · intro a ra ha
      rcases View.update_some ha with ⟨rfl, ha'⟩ | ⟨_, ha'⟩
      · have hpos := hs.leaves_pos ht
        obtain rfl := Option.some.inj ha'
        exact hpos
      · exact hs.leaves_pos ha'
    · intro a ra ha hsome
      rcases View.update_some ha with ⟨rfl, ha'⟩ | ⟨_, ha'⟩
      · obtain rfl := Option.some.inj ha'
        exact hacc
      · exact hs.repl_accepted ha' hsome
    · intro a ra ha hf
      rcases View.update_some ha with ⟨rfl, ha'⟩ | ⟨_, ha'⟩
      · obtain rfl := Option.some.inj ha'
        rw [show _ = true from hacc] at hf
        cases hf
      · exact hs.cum_zero ha' hf
  · rintro j ⟨s, r', hs', hj⟩
    rcases View.update_some hs' with ⟨rfl, h'⟩ | ⟨_, h'⟩
    · obtain rfl := Option.some.inj h'
      rcases hj with rfl | ⟨m, hj⟩
      · exact Set.mem_insert_of_mem _ htS
      · have hj := (Prod.mk.inj (Option.some.inj hj)).1
        exact hj ▸ Set.mem_insert _ _
    · exact Set.mem_insert_of_mem _ (h.tokens j ⟨s, r', h', hj⟩)
  · exact fun ρ hρ j hj => Set.mem_insert_of_mem _ (h.reports ρ hρ j hj)
  · intro q hq j hj
    rcases List.mem_append.mp hq with hq | hq
    · exact Set.mem_insert_of_mem _ (h.requests q hq j hj)
    · rw [List.mem_singleton] at hq
      rw [hq] at hj
      simp only [Request.names, List.mem_cons, List.not_mem_nil, or_false] at hj
      rcases hj with rfl | rfl
      · exact Set.mem_insert_of_mem _ htS
      · exact Set.mem_insert _ _
  · rw [hoffF.eq, book_update]
    have : ((F t).map fun r => { r with repl := some (k, n) }).bind Row.toOpen = F.book t := by
      unfold View.book
      cases F t <;> rfl
    rw [this, Function.update_eq_self]
  · rw [hoffF.eq]
    exact hin.push_replace hoffF.fresh (fun q hq hk' => hk (h.requests q hq k hk')) hoffF.idle hoffF.unnamed

/-- `v'` is `v` with a cancel addressed to `k` on its way, if some order will answer to it. -/
structure Marked (k : τ) (v v' : View τ) : Prop where
  sound : v.Sound
  cases : (∃ t r, v t = some r ∧ r.target t = k ∧ r.cancel = false ∧
      v' = Function.update v t (some { r with cancel := true })) ∨ (¬v.Owned k ∧ v' = v)

theorem Marked.legal {k : τ} {v v' w : View τ} {ρ : Report τ} (h : Marked k v v') (hl : Legal v ρ w) :
    ∃ w', Legal v' ρ w' ∧ Marked k w w' := by
  have hs := h.sound
  have hsw := hl.sound hs
  rcases h.cases with ⟨t, r, ht, hk, hc, rfl⟩ | ⟨hno, rfl⟩
  swap
  · exact ⟨w, hl, hsw, .inr ⟨fun h' => hno (hl.owned hs h'), rfl⟩⟩
  have hown : r.HasToken t k := hk ▸ r.target_hasToken t
  have hself : Function.update v t (some { r with cancel := true }) t = some { r with cancel := true } :=
    Function.update_self ..
  have hkeep : ∀ {a : τ} {ra : Row τ}, a ≠ t → v a = some ra →
      Function.update v t (some { r with cancel := true }) a = some ra := by
    intro a ra hat ha
    rw [Function.update_of_ne hat]
    exact ha
  -- the report is about another order
  have hother : ∀ {a : τ} (x : Option (Row τ)), a ≠ t → w = Function.update v a x →
      Legal (Function.update v t (some { r with cancel := true })) ρ
        (Function.update (Function.update v t (some { r with cancel := true })) a x) →
      ∃ w', Legal (Function.update v t (some { r with cancel := true })) ρ w' ∧ Marked k w w' := by
    intro a x hat hw hleg
    refine ⟨_, hleg, hsw, .inl ⟨t, r, ?_, hk, hc, ?_⟩⟩
    · rw [hw, Function.update_of_ne (Ne.symm hat)]
      exact ht
    · rw [hw, Function.update_comm hat]
  -- the report ends the order
  have hgone : w = Function.update v t none → Marked k w w := fun hw =>
    ⟨hsw, .inr ⟨by rw [hw]; exact hs.not_owned_drop ht hown, rfl⟩⟩
  have hsettle : ∀ r' : Row τ, r'.repl = r.repl → r'.cancel = r.cancel → w = v.settle t r' →
      Marked k w (View.settle (Function.update v t (some { r with cancel := true })) t { r' with cancel := true }) := by
    intro r' h₁ h₂ hw
    unfold View.settle at hw ⊢
    rw [Function.update_idem]
    by_cases hz : r'.leaves = 0
    · rw [if_pos hz] at hw
      rw [if_pos (show ({ r' with cancel := true } : Row τ).leaves = 0 from hz), ← hw]
      exact hgone hw
    · rw [if_neg hz] at hw
      rw [if_neg (show ¬({ r' with cancel := true } : Row τ).leaves = 0 from hz)]
      refine ⟨hsw, .inl ⟨t, r', ?_, ?_, h₂.trans hc, ?_⟩⟩
      · rw [hw, Function.update_self]
      · rw [← hk]
        unfold Row.target
        rw [h₁]
      · rw [hw, Function.update_idem]
  cases hl with
  | @accepted a ra ha hacc =>
    by_cases hat : a = t
    · subst hat
      obtain rfl := Option.some.inj (ht.symm.trans ha)
      refine ⟨_, .accepted hself hacc, hsw, .inl ⟨a, { r with accepted := true }, Function.update_self .., hk, hc, ?_⟩⟩
      rw [Function.update_idem, Function.update_idem]
    · exact hother _ hat rfl (.accepted (hkeep hat ha) hacc)
  | @dead a ra ha hacc =>
    by_cases hat : a = t
    · subst hat
      obtain rfl := Option.some.inj (ht.symm.trans ha)
      refine ⟨_, .dead hself hacc, ?_⟩
      rw [Function.update_idem]
      exact hgone rfl
    · exact hother _ hat rfl (.dead (hkeep hat ha) hacc)
  | @refused a ra ha hacc =>
    by_cases hat : a = t
    · subst hat
      obtain rfl := Option.some.inj (ht.symm.trans ha)
      refine ⟨_, .refused hself hacc, ?_⟩
      rw [Function.update_idem]
      exact hgone rfl
    · exact hother _ hat rfl (.refused (hkeep hat ha) hacc)
  | @reverted a t₂ ra m ha hr =>
    by_cases hat : a = t
    · subst hat
      obtain rfl := Option.some.inj (ht.symm.trans ha)
      -- the cancel was addressed to the replacement, which nobody answers to any more
      have hkt₂ : k = t₂ := by
        rw [← hk]
        simp [Row.target, hr]
      refine ⟨_, .reverted hself hr, hsw, .inr ⟨?_, ?_⟩⟩
      · rintro ⟨s, r', hs', hj⟩
        rcases View.update_some hs' with ⟨rfl, h'⟩ | ⟨hne, h'⟩
        · obtain rfl := Option.some.inj h'
          rcases hj with hj | ⟨m', hj⟩
          · exact hs.repl_ne ha hr (hkt₂ ▸ hj)
          · cases hj
        · exact hne (hs.unique h' ha hj hown)
      · rw [Function.update_idem]
        rfl
    · exact hother _ hat rfl (.reverted (hkeep hat ha) hr)
  | @stale t₂ hno =>
    refine ⟨_, .stale ?_, hs, .inl ⟨t, r, ht, hk, hc, rfl⟩⟩
    rintro ⟨s, r', hs', hj⟩
    rcases View.update_some hs' with ⟨rfl, h'⟩ | ⟨_, h'⟩
    · obtain rfl := Option.some.inj h'
      exact hno ⟨s, r, ht, hj⟩
    · exact hno ⟨s, r', h', hj⟩
  | @executed a ra q ha hacc hq₁ hq₂ =>
    by_cases hat : a = t
    · subst hat
      obtain rfl := Option.some.inj (ht.symm.trans ha)
      exact ⟨_, .executed hself hacc hq₁ hq₂, hsettle (r.execute q) rfl rfl rfl⟩
    · exact hother _ hat rfl (.executed (hkeep hat ha) hacc hq₁ hq₂)
  | @canceled a ra q ha hacc hq₁ hq₂ =>
    by_cases hat : a = t
    · subst hat
      obtain rfl := Option.some.inj (ht.symm.trans ha)
      exact ⟨_, .canceled hself hacc hq₁ hq₂, hsettle (r.reduce q) rfl rfl rfl⟩
    · exact hother _ hat rfl (.canceled (hkeep hat ha) hacc hq₁ hq₂)
  | @replaced a t₂ ra m ha hr hlt =>
    by_cases hat : a = t
    · subst hat
      obtain rfl := Option.some.inj (ht.symm.trans ha)
      have hkt₂ : t₂ = k := by
        rw [← hk]
        simp [Row.target, hr]
      have hleg : Legal _ (.replaced t₂ a (m - ({ r with cancel := true } : Row τ).cum)) _ := .replaced hself hr hlt
      refine ⟨_, hleg, hsw, .inl ⟨t₂, r.swap m, Function.update_self .., hkt₂, hc, ?_⟩⟩
      rw [Function.update_idem, Function.update_idem]
      rfl
    · have hat₂ : t₂ ≠ t := by
        rintro rfl
        rw [hs.repl_fresh ha hr] at ht
        cases ht
      refine ⟨_, .replaced (hkeep hat ha) hr hlt, hsw, .inl ⟨t, r, ?_, hk, hc, ?_⟩⟩
      · rw [Function.update_of_ne (Ne.symm hat₂), Function.update_of_ne (Ne.symm hat)]
        exact ht
      · rw [Function.update_comm hat₂, Function.update_comm hat]

/-- The client asks for a working order to be canceled. -/
theorem cancel {t : τ} {r : Row τ} (h : Conforms S v outbox b inbox) (ht : v t = some r) (hc : r.cancel = false) :
    Conforms S (Function.update v t (some { r with cancel := true })) outbox b
      (inbox ++ [.cancel (r.target t)]) := by
  obtain ⟨F, hF, rfl, hin⟩ := h.replay
  have hmark : Marked (r.target t) v (Function.update v t (some { r with cancel := true })) :=
    ⟨h.sound, .inl ⟨t, r, ht, rfl, hc, rfl⟩⟩
  obtain ⟨F', hF', hmarkF⟩ := hF.simulate (S := Marked (r.target t)) (P := fun _ => True)
    (fun _ ρ _ _ _ (hl : Legal _ ρ _) hm => hm.legal hl) (fun _ _ => trivial) hmark
  have htok : r.target t ∈ S := h.tokens _ ⟨t, r, ht, r.target_hasToken t⟩
  refine ⟨?_, ?_, h.reports, ?_, F', hF', ?_, ?_⟩
  · have hpos := h.sound.leaves_pos ht
    have hacc := h.sound.repl_accepted ht
    have hcum := h.sound.cum_zero ht
    refine h.sound.update ht fun r' hr' => ?_
    obtain rfl := Option.some.inj hr'
    exact ⟨.inr rfl, hpos, hacc, hcum⟩
  · rintro j ⟨s, r', hs', hj⟩
    rcases View.update_some hs' with ⟨rfl, h'⟩ | ⟨_, h'⟩
    · obtain rfl := Option.some.inj h'
      exact h.tokens j ⟨s, r, ht, hj⟩
    · exact h.tokens j ⟨s, r', h', hj⟩
  · intro q hq j hj
    rcases List.mem_append.mp hq with hq | hq
    · exact h.requests q hq j hj
    · rw [List.mem_singleton] at hq
      rw [hq] at hj
      simp only [Request.names, List.mem_singleton] at hj
      exact hj ▸ htok
  · rcases hmarkF.cases with ⟨s, r', hs', _, _, rfl⟩ | ⟨_, rfl⟩
    · rw [book_update]
      have : (some { r' with cancel := true }).bind Row.toOpen = F.book s := by
        unfold View.book
        rw [hs']
        rfl
      rw [this, Function.update_eq_self]
    · rfl
  · rcases hmarkF.cases with ⟨s, r', hs', hk, hc', rfl⟩ | ⟨hno, rfl⟩
    · exact hin.push_cancel hmarkF.sound hs' hk hc'
    · exact hin.push_cancel_stray hno

/-! ### What the two ends know of each other -/

theorem reserved {t : τ} {o : Open} (h : Conforms S v outbox b inbox) (ho : b t = some o) :
    ∃ s r, v s = some r ∧ r.HasToken s t ∧ o.leaves ≤ r.reserve := by
  obtain ⟨F, hF, rfl, _⟩ := h.replay
  obtain ⟨r, hr, _, rfl⟩ := book_some.mp ho
  obtain ⟨s, r₀, hs, htok, hres⟩ := ancestor_follows hF hr
  exact ⟨s, r₀, hs, htok t (.inl rfl), r.leaves_le_reserve.trans hres⟩

theorem settled (h : Conforms S v [] b []) :
    b = v.book ∧ ∀ t r, v t = some r → r.accepted = true ∧ r.repl = none ∧ r.cancel = false := by
  obtain ⟨F, hF, rfl, hin⟩ := h.replay
  cases hF
  refine ⟨rfl, fun t r ht => ?_⟩
  have hp : r.pending t = [] := (hin.pending ht).symm
  unfold Row.pending at hp
  cases ha : r.accepted <;> cases hr : r.repl <;> cases hc : r.cancel <;> simp_all

end Conforms
end OptiTrade.Protocol
