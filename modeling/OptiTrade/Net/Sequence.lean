import OptiTrade.Net.Mold64

/-! # The accounts of the sequence tracker

Every number from the first packet on is delivered, reported as missing, or still ahead. -/

namespace OptiTrade.Net
set_option autoImplicit false

/-- One past the last message of a packet. -/
def Header.last (h : Header) : Nat := h.sequence + SequenceTracker.advance h

/-- The sequence numbers of the messages of a packet. -/
def Header.numbers (h : Header) : List Nat := List.range' h.sequence (SequenceTracker.advance h)

namespace SequenceTracker
variable {t : SequenceTracker} {h : Header}

/-- The messages that are new to a receiver that shows every packet to the tracker. -/
def fresh (t : SequenceTracker) (h : Header) : List Nat := h.numbers.filter fun n => t.expected ≤ n

/-- The tracker and the numbers delivered so far, after some more packets. -/
def watch (s : SequenceTracker × List Nat) (hs : List Header) : SequenceTracker × List Nat :=
  hs.foldl (fun s h => ((s.1.onPacket h).1, s.2 ++ s.1.fresh h)) s

/-- What a later packet of the session does. -/
structure Follows (t : SequenceTracker) (h : Header) : Prop where
  synced : (t.onPacket h).1.synced = true
  session : (t.onPacket h).1.session = t.session
  expected : (t.onPacket h).1.expected = max h.last t.expected
  missing : (t.onPacket h).1.missing = saturatingAdd t.missing (h.sequence - t.expected)
  result : (t.onPacket h).2.result =
    if t.expected < h.sequence then .gap else if h.sequence = t.expected then .inOrder else .duplicate
  skipped : (t.onPacket h).2.missing = h.sequence - t.expected

theorem saturatingAdd_zero {n : Nat} (h : n < 2 ^ 64) : saturatingAdd n 0 = n := by
  unfold saturatingAdd u64Max
  rw [if_neg (by omega)]
  rfl

theorem onPacket_follows (hsync : t.synced = true) (hs : h.session = t.session) (hfits : h.last < 2 ^ 64)
    (hmissing : t.missing < 2 ^ 64) : t.Follows h := by
  have hlast : add64 h.sequence (advance h) = h.last := add64_eq (by unfold Header.last at hfits; unfold u64Max; omega)
  have hle : h.sequence ≤ h.last := Nat.le_add_right _ _
  by_cases h₁ : h.sequence = t.expected
  · have heq : t.onPacket h = ({ t with expected := h.last }, { expected := t.expected, received := h.sequence }) := by
      unfold onPacket
      rw [hlast, hsync, hs]
      simp [h₁]
    have hzero : h.sequence - t.expected = 0 := by omega
    constructor
    · rw [heq]
      exact hsync
    · rw [heq]
    · rw [heq]
      show h.last = _
      omega
    · rw [heq, hzero, saturatingAdd_zero hmissing]
    · rw [heq, if_neg (by omega), if_pos h₁]
    · rw [heq, hzero]
  · by_cases h₂ : t.expected < h.sequence
    · have heq : t.onPacket h =
          ({ t with
              expected := h.last
              gaps := t.gaps + 1
              missing := saturatingAdd t.missing (h.sequence - t.expected) },
            { result := .gap, expected := t.expected, received := h.sequence, missing := h.sequence - t.expected }) := by
        unfold onPacket
        rw [hlast, hsync, hs]
        simp [h₁, h₂]
      constructor
      · rw [heq]
        exact hsync
      · rw [heq]
      · rw [heq]
        show h.last = _
        omega
      · rw [heq]
      · rw [heq, if_pos h₂]
      · rw [heq]
    · have heq : t.onPacket h =
          ({ t with
              expected := if t.expected < h.last then h.last else t.expected
              duplicates := t.duplicates + 1 },
            { result := .duplicate, expected := t.expected, received := h.sequence }) := by
        unfold onPacket
        rw [hlast, hsync, hs]
        simp [h₁, h₂]
      have hzero : h.sequence - t.expected = 0 := by omega
      constructor
      · rw [heq]
        exact hsync
      · rw [heq]
      · rw [heq]
        show (if t.expected < h.last then h.last else t.expected) = _
        split_ifs <;> omega
      · rw [heq, hzero, saturatingAdd_zero hmissing]
      · rw [heq, if_neg h₂, if_neg h₁]
      · rw [heq, hzero]

theorem onPacket_first (h : Header) (hfits : h.last < 2 ^ 64) : ({} : SequenceTracker).onPacket h =
    ({ synced := true, session := h.session, expected := h.last }, { expected := h.sequence, received := h.sequence }) := by
  have hlast : add64 h.sequence (advance h) = h.last := add64_eq (by unfold Header.last at hfits; unfold u64Max; omega)
  unfold onPacket
  rw [hlast]
  rfl

/-! ## The accounts -/

theorem filter_range' (s n e : Nat) : (List.range' s n).filter (fun x => e ≤ x) = List.range' (max s e) (s + n - max s e) := by
  induction n generalizing s with
  | zero =>
    rw [show s + 0 - max s e = 0 by omega]
    rfl
  | succ n ih =>
    rw [List.range'_succ]
    by_cases he : e ≤ s
    · rw [List.filter_cons_of_pos (by simpa using he), ih, Nat.max_eq_left he, Nat.max_eq_left (by omega),
        show s + (n + 1) - s = n + 1 by omega, show s + 1 + n - (s + 1) = n by omega, List.range'_succ]
    · rw [List.filter_cons_of_neg (by simpa using he), ih, Nat.max_eq_right (by omega), Nat.max_eq_right (by omega),
        show s + 1 + n - e = s + (n + 1) - e by omega]

theorem fresh_eq (t : SequenceTracker) (h : Header) :
    t.fresh h = List.range' (max h.sequence t.expected) (h.last - max h.sequence t.expected) :=
  filter_range' h.sequence (advance h) t.expected

/-- The accounts of a session that began with number `first`, after the packets `seen`. -/
structure Accounts (session : List Byte) (first : Nat) (seen : List Header) (t : SequenceTracker) (ds : List Nat) : Prop where
  synced : t.synced = true
  session : t.session = session
  small : t.expected < 2 ^ 64
  bound : ∀ h ∈ seen, h.last ≤ t.expected
  attained : ∃ h ∈ seen, h.last = t.expected
  below : ∀ n ∈ ds, n < t.expected
  increasing : ds.Pairwise (· < ·)
  total : first + ds.length + t.missing = t.expected

namespace Accounts
variable {session : List Byte} {first : Nat} {seen : List Header} {ds : List Nat}

theorem start {h₀ : Header} (hfits : h₀.last < 2 ^ 64) :
    Accounts h₀.session h₀.sequence [h₀] (({} : SequenceTracker).onPacket h₀).1 (({} : SequenceTracker).fresh h₀) := by
  have hfresh : ({} : SequenceTracker).fresh h₀ = List.range' h₀.sequence (advance h₀) := by
    rw [fresh_eq]
    show List.range' (max h₀.sequence 0) (h₀.last - max h₀.sequence 0) = _
    rw [Nat.max_zero, Header.last, Nat.add_sub_cancel_left]
  rw [onPacket_first h₀ hfits, hfresh]
  refine ⟨rfl, rfl, hfits, by simp, ⟨h₀, List.mem_cons_self, rfl⟩, fun n hn => ?_, ?_, ?_⟩
  · exact (List.mem_range'_1.mp hn).2
  · exact List.pairwise_lt_range'
  · rw [List.length_range']
    rfl

theorem step {h : Header} (ha : Accounts session first seen t ds) (hs : h.session = session) (hfits : h.last < 2 ^ 64) :
    t.Follows h ∧ Accounts session first (seen ++ [h]) (t.onPacket h).1 (ds ++ t.fresh h) := by
  have htotal := ha.total
  have hsmall := ha.small
  have hf := onPacket_follows ha.synced (hs.trans ha.session.symm) hfits (by omega)
  have hle : h.sequence ≤ h.last := Nat.le_add_right _ _
  have hmissing : (t.onPacket h).1.missing = t.missing + (h.sequence - t.expected) := by
    rw [hf.missing]
    unfold saturatingAdd u64Max
    rw [if_neg (by omega)]
  refine ⟨hf, hf.synced, hf.session.trans ha.session, ?_, fun x hx => ?_, ?_, fun n hn => ?_, ?_, ?_⟩
  · rw [hf.expected]
    omega
  · rw [hf.expected]
    rcases List.mem_append.mp hx with hx | hx
    · exact (ha.bound x hx).trans (Nat.le_max_right _ _)
    · rw [List.mem_singleton.mp hx]
      exact Nat.le_max_left _ _
  · rw [hf.expected]
    by_cases hmax : h.last ≤ t.expected
    · obtain ⟨x, hx, hlast⟩ := ha.attained
      exact ⟨x, List.mem_append_left _ hx, by rw [hlast]; omega⟩
    · exact ⟨h, List.mem_append_right _ List.mem_cons_self, by omega⟩
  · rw [hf.expected]
    rcases List.mem_append.mp hn with hn | hn
    · have := ha.below n hn
      omega
    · rw [fresh_eq] at hn
      have := (List.mem_range'_1.mp hn).2
      omega
  · rw [fresh_eq]
    refine List.pairwise_append.mpr ⟨ha.increasing, List.pairwise_lt_range', fun a ha' b hb => ?_⟩
    have h₁ := ha.below a ha'
    have h₂ := (List.mem_range'_1.mp hb).1
    omega
  · rw [hf.expected, hmissing, List.length_append, fresh_eq, List.length_range']
    omega

/-- **Run rule.** -/
theorem run (ha : Accounts session first seen t ds) (hs : List Header) (hone : ∀ h ∈ hs, h.session = session)
    (hfits : ∀ h ∈ hs, h.last < 2 ^ 64) :
    Accounts session first (seen ++ hs) (watch (t, ds) hs).1 (watch (t, ds) hs).2 := by
  induction hs generalizing t ds seen with
  | nil =>
    rw [List.append_nil]
    exact ha
  | cons h hs ih =>
    have hnext := (ha.step (hone h List.mem_cons_self) (hfits h List.mem_cons_self)).2
    have hrest := ih hnext (fun x hx => hone x (List.mem_cons_of_mem _ hx)) (fun x hx => hfits x (List.mem_cons_of_mem _ hx))
    rw [List.append_assoc] at hrest
    exact hrest

end Accounts

/-- **The accounts are exact.** Over any packets of one session, in any order: `expected` is the greatest end
of a packet seen; what is delivered is strictly increasing, and the first number, the messages delivered and
the messages missing add up to `expected`. The first packet is in order; each later one is a gap if and only
if it starts above `expected`, and then reports the numbers it skips. -/
theorem tracker_accounts_exact (h₀ : Header) (hs : List Header) (hone : ∀ h ∈ hs, h.session = h₀.session)
    (hfits : ∀ h ∈ h₀ :: hs, h.last < 2 ^ 64) :
    (∀ h ∈ h₀ :: hs, h.last ≤ (watch ({}, []) (h₀ :: hs)).1.expected) ∧
    (∃ h ∈ h₀ :: hs, h.last = (watch ({}, []) (h₀ :: hs)).1.expected) ∧
    (watch ({}, []) (h₀ :: hs)).2.Pairwise (· < ·) ∧
    h₀.sequence + (watch ({}, []) (h₀ :: hs)).2.length + (watch ({}, []) (h₀ :: hs)).1.missing =
      (watch ({}, []) (h₀ :: hs)).1.expected ∧
    ((({} : SequenceTracker).onPacket h₀).2.result = .inOrder ∧ (({} : SequenceTracker).onPacket h₀).2.missing = 0) ∧
    ∀ pre h post, hs = pre ++ h :: post → let t := (watch ({}, []) (h₀ :: pre)).1
      ((t.onPacket h).2.result = .gap ↔ t.expected < h.sequence) ∧ (t.onPacket h).2.missing = h.sequence - t.expected := by
  have hstart := Accounts.start (hfits h₀ List.mem_cons_self)
  have hrest : ∀ h ∈ hs, h.last < 2 ^ 64 := fun h hh => hfits h (List.mem_cons_of_mem _ hh)
  have hall : Accounts h₀.session h₀.sequence (h₀ :: hs) (watch ({}, []) (h₀ :: hs)).1 (watch ({}, []) (h₀ :: hs)).2 :=
    hstart.run hs hone hrest
  refine ⟨hall.bound, hall.attained, hall.increasing, hall.total, ?_, ?_⟩
  · rw [onPacket_first h₀ (hfits h₀ List.mem_cons_self)]
    exact ⟨rfl, rfl⟩
  · rintro pre h post rfl
    have hpre : Accounts h₀.session h₀.sequence (h₀ :: pre) (watch ({}, []) (h₀ :: pre)).1 (watch ({}, []) (h₀ :: pre)).2 :=
      hstart.run pre (fun x hx => hone x (List.mem_append_left _ hx)) (fun x hx => hrest x (List.mem_append_left _ hx))
    have hmem : h ∈ pre ++ h :: post := List.mem_append_right _ List.mem_cons_self
    have hf := (hpre.step (hone h hmem) (hrest h hmem)).1
    refine ⟨?_, hf.skipped⟩
    rw [hf.result]
    split_ifs with h₁ h₂
    · simp [h₁]
    · simp [h₁]
    · simp [h₁]

/-- A packet, a gap, and a retransmission that reaches beyond what was expected. -/
theorem tracker_accounts_exact_overlap :
    ∃ r, r = watch ({}, []) [⟨[], 5, 2⟩, ⟨[], 9, 1⟩, ⟨[], 8, 4⟩] ∧ r.1.expected = 12 ∧ r.2 = [5, 6, 9, 10, 11] ∧
      5 + r.2.length + r.1.missing = r.1.expected := by
  obtain ⟨-, -, -, htotal, -⟩ := tracker_accounts_exact ⟨[], 5, 2⟩ [⟨[], 9, 1⟩, ⟨[], 8, 4⟩] (by simp) (by decide)
  exact ⟨_, rfl, by decide, by decide, htotal⟩

/-- The first packet starts above the 0 that is expected before it, and is no gap. -/
theorem first_packet_is_no_gap :
    ∃ h : Header, h.last < 2 ^ 64 ∧ ({} : SequenceTracker).expected < h.sequence ∧
      (({} : SequenceTracker).onPacket h).2.result ≠ .gap :=
  ⟨⟨[], 5, 2⟩, by decide, by decide, by decide⟩

end SequenceTracker
end OptiTrade.Net
