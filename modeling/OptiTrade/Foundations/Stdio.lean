import Mathlib.Tactic.Common

/-! # Reading a file record by record

A file opened for reading is the bytes not read yet and the end-of-file flag; a read that asks for more
than there is gets what is left and sets the flag. A reader is pulled until it has nothing more to give. -/

namespace OptiTrade.Stdio
set_option autoImplicit false

section
variable {β : Type}

/-- A file opened for reading. -/
structure InFile (β : Type) where
  rest : List β
  eof : Bool := false
  deriving DecidableEq

/-- What `fread` puts into its buffer when asked for `n` bytes; its length is the count it returns. -/
def InFile.fread (f : InFile β) (n : Nat) : List β × InFile β :=
  if n ≤ f.rest.length then (f.rest.take n, { f with rest := f.rest.drop n }) else (f.rest, ⟨[], true⟩)

theorem fread_append {n : Nat} {front more : List β} (h : front.length = n) (eof : Bool) :
    (InFile.mk (front ++ more) eof).fread n = (front, ⟨more, eof⟩) := by
  unfold InFile.fread
  rw [if_pos (by simp [← h]), List.take_left' h, List.drop_left' h]

theorem fread_short {n : Nat} {left : List β} (h : left.length < n) (eof : Bool) :
    (InFile.mk left eof).fread n = (left, ⟨[], true⟩) := by
  unfold InFile.fread
  rw [if_neg (Nat.not_le.mpr h)]

theorem fread_cases (f : InFile β) (n : Nat) :
    (∃ front, front.length = n ∧ f.rest = front ++ (f.fread n).2.rest ∧ f.fread n = (front, ⟨(f.fread n).2.rest, f.eof⟩)) ∨
      (f.rest.length < n ∧ f.fread n = (f.rest, ⟨[], true⟩)) := by
  unfold InFile.fread
  by_cases h : n ≤ f.rest.length
  · rw [if_pos h]
    exact .inl ⟨f.rest.take n, by simp [h], (List.take_append_drop n f.rest).symm, rfl⟩
  · rw [if_neg h]
    exact .inr ⟨Nat.not_le.mp h, rfl⟩

theorem fread_shrinks {f : InFile β} {n : Nat} (hn : 0 < n) (h : (f.fread n).1.length = n) :
    (f.fread n).2.rest.length < f.rest.length := by
  rcases fread_cases f n with ⟨front, hlen, hrest, _⟩ | ⟨hshort, hread⟩
  · have := congrArg List.length hrest
    rw [List.length_append] at this
    omega
  · rw [hread] at h
    exact absurd h (Nat.ne_of_lt hshort)

/-- What `fwrite` makes of the bytes a stream was given so far, and the count it returns. -/
def fwrite (file bs : List β) : List β × Nat := (file ++ bs, bs.length)

end

section
variable {σ ρ : Type} {next : σ → Option ρ × σ}

/-- Pulls until there is nothing more; `none` only when the fuel runs out. -/
def pullAll (next : σ → Option ρ × σ) : Nat → σ → Option (List ρ × σ)
  | 0, _ => none
  | fuel + 1, s =>
    match next s with
    | (none, s') => some ([], s')
    | (some x, s') => (pullAll next fuel s').map fun out => (x :: out.1, out.2)

/-- `n` pulls or fewer give the records `xs` and leave the reader at `t`, where it has no more. -/
def Pulls (next : σ → Option ρ × σ) (n : Nat) (s : σ) (xs : List ρ) (t : σ) : Prop :=
  ∀ fuel > n, pullAll next fuel s = some (xs, t)

theorem Pulls.done {n : Nat} {s t : σ} (h : next s = (none, t)) : Pulls next n s [] t := by
  intro fuel hf
  cases fuel with
  | zero => cases hf
  | succ fuel => rw [pullAll, h]

theorem Pulls.more {n : Nat} {s s' t : σ} {x : ρ} {xs : List ρ} (h : next s = (some x, s'))
    (hp : Pulls next n s' xs t) : Pulls next (n + 1) s (x :: xs) t := by
  intro fuel hf
  cases fuel with
  | zero => cases hf
  | succ fuel =>
    rw [pullAll, h]
    dsimp only
    rw [hp fuel (by omega)]
    rfl

theorem Pulls.congr {n : Nat} {s s' t : σ} {xs : List ρ} (h : next s = next s') (hp : Pulls next n s' xs t) :
    Pulls next n s xs t := by
  intro fuel hf
  rw [← hp fuel hf]
  cases fuel with
  | zero => rfl
  | succ fuel => rw [pullAll, pullAll, h]

theorem Pulls.mono {n m : Nat} {s t : σ} {xs : List ρ} (h : Pulls next n s xs t) (hm : n ≤ m) : Pulls next m s xs t :=
  fun fuel hf => h fuel (Nat.lt_of_le_of_lt hm hf)

/-- **Termination rule.** A reader that uses up a measure with every record comes to its end, and its
records have what each pull guarantees. -/
theorem exists_pulls {P : ρ → Prop} {μ : σ → Nat} (hdec : ∀ s x s', next s = (some x, s') → P x ∧ μ s' < μ s) (s : σ) :
    ∃ xs t, Pulls next (μ s) s xs t ∧ ∀ x ∈ xs, P x := by
  induction hn : μ s using Nat.strongRecOn generalizing s with
  | ind n ih =>
    cases hs : next s with
    | mk o s' =>
      cases o with
      | none => exact ⟨[], s', .done hs, by simp⟩
      | some x =>
        obtain ⟨hx, hlt⟩ := hdec s x s' hs
        obtain ⟨xs, t, hp, hall⟩ := ih (μ s') (hn ▸ hlt) s' rfl
        refine ⟨x :: xs, t, (Pulls.more hs hp).mono (by omega), ?_⟩
        simpa using ⟨hx, hall⟩

end
end OptiTrade.Stdio
