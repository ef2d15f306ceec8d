import OptiTrade.Book.Homes
import OptiTrade.Foundations.GreedyFill
import OptiTrade.Foundations.StableSort
import OptiTrade.Replay.Generated
import OptiTrade.Replay.ItchFile

/-! # Inspecting a file

The inspector streams a file through the decoder and the books and reports what it has seen. The array of the type
histogram, that of the statuses and those of the sink are functions; `none` is the status ok. -/

namespace OptiTrade.Replay
set_option autoImplicit false

open Book (MarketBooks Applied)
open Itch (Message decode)
open Stdio
open StableSort (byKey Ahead)

/-! ## The tool -/

/-- One more at a place of an array of counters. -/
def bump {α : Type} [DecidableEq α] (f : α → Nat) (a : α) : α → Nat := Function.update f a (f a + 1)

/-- Applies each decoded message to the books and tallies the outcome. -/
structure Sink where
  books : MarketBooks
  applied : Applied → Nat := fun _ => 0
  directoryEntries : Nat := 0
  activity : Nat → Nat := fun _ => 0

def Sink.on (s : Sink) (m : Message) : Sink :=
  let out := s.books.on m
  let s := { s with books := out.1, applied := bump s.applied out.2 }
  match m with
  | .stockDirectory _ => if out.2 = .ok then { s with directoryEntries := s.directoryEntries + 1 } else s
  | .trade _ => s
  | .systemEvent _ => s
  | m => if out.2 = .ok then { s with activity := bump s.activity m.header.locate } else s

/-- What the tool has counted. -/
structure Inspection where
  sink : Sink
  histogram : Byte → Nat := fun _ => 0
  decodeStatus : Option DecodeError → Nat := fun _ => 0
  unmodelled : Nat := 0
  frames : Nat := 0
  firstTs : Nat := 0
  lastTs : Nat := 0
  minTs : Nat := 0
  maxTs : Nat := 0

namespace Inspection

/-- The body of the loop of `main`. -/
def frame (s : Inspection) (rec : Record) : Inspection :=
  let s := if s.frames = 0 then { s with firstTs := rec.ts, minTs := rec.ts, maxTs := rec.ts } else s
  let s := { s with
    lastTs := rec.ts
    minTs := min s.minTs rec.ts
    maxTs := max s.maxTs rec.ts
    frames := s.frames + 1
    histogram := bump s.histogram (Be.byteAt rec.payload 0) }
  match decode rec.payload with
  | .ok m => { s with sink := s.sink.on m, decodeStatus := bump s.decodeStatus none }
  | .error .unknownType => { s with unmodelled := s.unmodelled + 1 }
  | .error e => { s with decodeStatus := bump s.decodeStatus (some e) }

/-- The loop of `main`; `none` only when the fuel runs out. -/
def loop : Nat → ItchFileReader → Inspection → Option (Inspection × ItchFileReader)
  | 0, _, _ => none
  | fuel + 1, r, s =>
    match r.next with
    | (none, r) => some (s, r)
    | (some rec, r) => loop fuel r (s.frame rec)

/-- What there is to report on a file. -/
def inspect (fuel : Nat) (config : MarketBooks.Config) (contents : List Byte) : Option (Inspection × ItchFileReader) :=
  loop fuel (.new (some contents)) { sink := { books := .new config } }

/-- The types of the histogram in the order they are printed. -/
def types (s : Inspection) : List Byte :=
  (byKey s.histogram ((List.range 256).map UInt8.ofNat)).takeWhile fun t => s.histogram t ≠ 0

/-- The locates of the most active instruments. -/
def ranked (s : Inspection) (topN : Nat) : List Nat :=
  (byKey s.sink.activity ((List.range 65536).filter fun l => s.sink.activity l ≠ 0)).take topN

/-- The tops of book the table shows; `none` when a book is read that is not there. -/
def tops (s : Inspection) (topN : Nat) : Option (List (Option Book.Level × Option Book.Level)) :=
  (s.ranked topN).mapM fun l => (s.sink.books.book l).map fun b => (b.best .buy, b.best .sell)

/-- What is wrong with the file: frames that are malformed, and messages that the books refused. -/
def anomalies (s : Inspection) : Nat :=
  s.decodeStatus (some .truncated) + s.decodeStatus (some .badLength) + s.decodeStatus (some .badField) +
    (s.sink.applied .unknownOrder + s.sink.applied .duplicateOrder + s.sink.applied .unknownSymbol +
      s.sink.applied .capacity + s.sink.applied .invalid)

end Inspection

/-! ## What a frame changes -/

/-- The status a record is decoded with. -/
def status (x : Record) : Option DecodeError :=
  match decode x.payload with
  | .ok _ => none
  | .error e => some e

/-- An entry of the stock directory that the books took. -/
def isListing (x : Message × Applied) : Bool :=
  (match x.1 with
    | .stockDirectory _ => true
    | _ => false) && x.2 = .ok

theorem bump_eq {α : Type} [DecidableEq α] (f : α → Nat) (a b : α) : bump f a b = f b + if a = b then 1 else 0 := by
  unfold bump
  by_cases h : a = b
  · subst h
    rw [Function.update_self, if_pos rfl]
  · rw [Function.update_of_ne (Ne.symm h), if_neg h]
    rfl

theorem countP_snoc {α : Type} (p : α → Bool) (xs : List α) (x : α) :
    (xs ++ [x]).countP p = xs.countP p + if p x = true then 1 else 0 := by
  rw [List.countP_append, List.countP_singleton]

/-- The sink has been told what `told` says, from new books on. -/
structure Sink.Heard (told : MarketBooks × List (Message × Applied)) (s : Sink) : Prop where
  books : s.books = told.1
  applied : ∀ a, s.applied a = told.2.countP fun x => x.2 = a
  directory : s.directoryEntries = told.2.countP isListing
  activity : ∀ l, s.activity l = told.2.countP fun x => Engine.isUpdate x && x.1.header.locate = l

theorem Sink.Heard.on {told : MarketBooks × List (Message × Applied)} {s : Sink} (h : Heard told s) (m : Message) :
    Heard (Engine.hear told (some m)) (s.on m) := by
  obtain ⟨hbooks, happlied, hdirectory, hactivity⟩ := h
  have hrest : ∀ t : Sink, t.books = (s.books.on m).1 → t.applied = bump s.applied (s.books.on m).2 →
      t.directoryEntries = s.directoryEntries + (if isListing (m, (s.books.on m).2) = true then 1 else 0) →
      (∀ l, t.activity l = s.activity l +
        if (Engine.isUpdate (m, (s.books.on m).2) && m.header.locate = l) = true then 1 else 0) →
      Heard (Engine.hear told (some m)) t := by
    intro t h₁ h₂ h₃ h₄
    refine ⟨?_, fun a => ?_, ?_, fun l => ?_⟩
    · rw [h₁, hbooks]
      rfl
    · rw [h₂, bump_eq, happlied, hbooks]
      show _ = (told.2 ++ [_]).countP _
      rw [countP_snoc]
      simp only [decide_eq_true_eq]
    · rw [h₃, hdirectory, hbooks]
      exact (countP_snoc _ _ _).symm
    · rw [h₄, hactivity, hbooks]
      exact (countP_snoc _ _ _).symm
  have hflow : isListing (m, (s.books.on m).2) = false → Engine.orderFlow m = true → Heard (Engine.hear told (some m))
      (if (s.books.on m).2 = .ok then
        { s with books := (s.books.on m).1, applied := bump s.applied (s.books.on m).2,
                 activity := bump s.activity m.header.locate }
      else { s with books := (s.books.on m).1, applied := bump s.applied (s.books.on m).2 }) := by
    intro hl hf
    by_cases hok : (s.books.on m).2 = .ok
    · rw [if_pos hok]
      refine hrest _ rfl rfl (by rw [hl]; rfl) fun l => ?_
      rw [Engine.isUpdate, hf, Bool.true_and]
      simp [bump_eq, hok]
    · rw [if_neg hok]
      refine hrest _ rfl rfl (by rw [hl]; rfl) fun l => ?_
      rw [Engine.isUpdate, hf, Bool.true_and]
      simp [hok]
  have hother : ∀ t : Sink, t.books = (s.books.on m).1 → t.applied = bump s.applied (s.books.on m).2 →
      t.directoryEntries = s.directoryEntries + (if isListing (m, (s.books.on m).2) = true then 1 else 0) →
      Engine.orderFlow m = false → t.activity = s.activity → Heard (Engine.hear told (some m)) t := by
    intro t h₁ h₂ h₃ hf h₄
    refine hrest t h₁ h₂ h₃ fun l => ?_
    rw [h₄, Engine.isUpdate, hf]
    rfl
  unfold Sink.on
  dsimp only
  cases m with
  | stockDirectory m =>
    dsimp only
    by_cases hok : (s.books.on (.stockDirectory m)).2 = .ok
    · rw [if_pos hok]
      exact hother _ rfl rfl (by simp [isListing, hok]) rfl rfl
    · rw [if_neg hok]
      exact hother _ rfl rfl (by simp [isListing, hok]) rfl rfl
  | trade m => exact hother _ rfl rfl rfl rfl rfl
  | systemEvent m => exact hother _ rfl rfl rfl rfl rfl
  | addOrder m => exact hflow rfl rfl
  | orderExecuted m => exact hflow rfl rfl
  | orderExecutedPrice m => exact hflow rfl rfl
  | orderCancel m => exact hflow rfl rfl
  | orderDelete m => exact hflow rfl rfl
  | orderReplace m => exact hflow rfl rfl

namespace Inspection

/-- The inspection has seen the records `xs`. -/
structure Told (config : MarketBooks.Config) (xs : List Record) (s : Inspection) : Prop where
  frames : s.frames = xs.length
  histogram : ∀ t, s.histogram t = xs.countP fun x => Be.byteAt x.payload 0 = t
  decodeStatus : ∀ st, st ≠ some .unknownType → s.decodeStatus st = xs.countP fun x => status x = st
  unmodelled : s.unmodelled = xs.countP fun x => status x = some .unknownType
  sink : s.sink.Heard (Engine.replay (.new config) (messages xs))
  last : xs.getLast?.map Record.ts = if xs = [] then none else some s.lastTs
  within : ∀ x ∈ xs, s.minTs ≤ x.ts ∧ x.ts ≤ s.maxTs
  reached : xs ≠ [] → xs.head?.map Record.ts = some s.firstTs ∧ (∃ x ∈ xs, x.ts = s.minTs) ∧ ∃ x ∈ xs, x.ts = s.maxTs

/-- What the body of the loop leaves, field by field. -/
theorem frame_fields (s : Inspection) (x : Record) :
    (s.frame x).frames = s.frames + 1 ∧ (s.frame x).histogram = bump s.histogram (Be.byteAt x.payload 0) ∧
      (s.frame x).lastTs = x.ts ∧ (s.frame x).firstTs = (if s.frames = 0 then x.ts else s.firstTs) ∧
      (s.frame x).minTs = (if s.frames = 0 then x.ts else min s.minTs x.ts) ∧
      (s.frame x).maxTs = (if s.frames = 0 then x.ts else max s.maxTs x.ts) := by
  unfold frame
  dsimp only
  by_cases h : s.frames = 0
  · simp only [if_pos h]
    split
    · exact ⟨rfl, rfl, rfl, rfl, min_self _, max_self _⟩
    · exact ⟨rfl, rfl, rfl, rfl, min_self _, max_self _⟩
    · exact ⟨rfl, rfl, rfl, rfl, min_self _, max_self _⟩
  · simp only [if_neg h]
    split
    · exact ⟨rfl, rfl, rfl, rfl, rfl, rfl⟩
    · exact ⟨rfl, rfl, rfl, rfl, rfl, rfl⟩
    · exact ⟨rfl, rfl, rfl, rfl, rfl, rfl⟩

theorem frame_decoding (s : Inspection) (x : Record) :
    (∀ st, st ≠ some .unknownType → (s.frame x).decodeStatus st = s.decodeStatus st + if status x = st then 1 else 0) ∧
      (s.frame x).unmodelled = s.unmodelled + (if status x = some .unknownType then 1 else 0) ∧
      (∀ m, decode x.payload = .ok m → (s.frame x).sink = s.sink.on m) ∧
      (∀ e, decode x.payload = .error e → (s.frame x).sink = s.sink) := by
  have hbefore : ∀ t : Inspection, t = (if s.frames = 0 then { s with firstTs := x.ts, minTs := x.ts, maxTs := x.ts } else s) →
      t.decodeStatus = s.decodeStatus ∧ t.unmodelled = s.unmodelled ∧ t.sink = s.sink := by
    rintro t rfl
    split_ifs
    · exact ⟨rfl, rfl, rfl⟩
    · exact ⟨rfl, rfl, rfl⟩
  obtain ⟨hstatus, hun, hsink⟩ := hbefore _ rfl
  unfold frame status
  dsimp only
  cases decode x.payload with
  | ok m =>
    dsimp only
    rw [hstatus, hun, hsink]
    refine ⟨fun st _ => bump_eq _ _ _, by simp, fun m' hm => ?_, fun e he => by cases he⟩
    obtain rfl : m = m' := Except.ok.inj hm
    rfl
  | error e =>
    cases e with
    | unknownType =>
      dsimp only
      rw [hstatus, hun, hsink]
      exact ⟨fun st hst => by simp [hst.symm], by simp, fun m hm => (by cases hm), fun e _ => rfl⟩
    | truncated =>
      dsimp only
      rw [hstatus, hun, hsink]
      exact ⟨fun st _ => bump_eq _ _ _, by simp, fun m hm => (by cases hm), fun e _ => rfl⟩
    | badLength =>
      dsimp only
      rw [hstatus, hun, hsink]
      exact ⟨fun st _ => bump_eq _ _ _, by simp, fun m hm => (by cases hm), fun e _ => rfl⟩
    | badField =>
      dsimp only
      rw [hstatus, hun, hsink]
      exact ⟨fun st _ => bump_eq _ _ _, by simp, fun m hm => (by cases hm), fun e _ => rfl⟩

theorem Told.new (config : MarketBooks.Config) : Told config [] { sink := { books := .new config } } where
  frames := rfl
  histogram := fun _ => rfl
  decodeStatus := fun _ _ => rfl
  unmodelled := rfl
  sink := ⟨rfl, fun _ => rfl, rfl, fun _ => rfl⟩
  last := rfl
  within := fun _ hx => absurd hx List.not_mem_nil
  reached := fun h => absurd rfl h

/-- **One frame.** -/
theorem Told.frame {config : MarketBooks.Config} {xs : List Record} {s : Inspection} (h : Told config xs s) (x : Record) :
    Told config (xs ++ [x]) (s.frame x) := by
  obtain ⟨hframes, hhist, hlast, hfirst, hmin, hmax⟩ := s.frame_fields x
  obtain ⟨hstatus, hun, hok, herr⟩ := s.frame_decoding x
  have hzero : s.frames = 0 ↔ xs = [] := by rw [h.frames, List.length_eq_zero_iff]
  refine ⟨?_, fun t => ?_, fun st hst => ?_, ?_, ?_, ?_, ?_, fun _ => ?_⟩
  · rw [hframes, h.frames, List.length_append, List.length_singleton]
  · rw [hhist, bump_eq, h.histogram, countP_snoc]
    simp only [decide_eq_true_eq]
  · rw [hstatus st hst, h.decodeStatus st hst, countP_snoc]
    simp only [decide_eq_true_eq]
  · rw [hun, h.unmodelled, countP_snoc]
    simp only [decide_eq_true_eq]
  · rw [show messages (xs ++ [x]) = messages xs ++ [(decode x.payload).toOption] from List.map_append, Engine.replay_snoc]
    cases hd : decode x.payload with
    | ok m =>
      rw [hok m hd]
      exact h.sink.on m
    | error e =>
      rw [herr e hd]
      exact h.sink
  · rw [List.getLast?_append_of_ne_nil _ (by simp), if_neg (by simp), hlast]
    rfl
  · -- the span covers the frames before, if there are any, and this one
    rw [hmin, hmax]
    intro y hy
    rcases List.mem_append.mp hy with hy | hy
    · rw [if_neg (fun h0 => List.ne_nil_of_mem hy (hzero.mp h0)), if_neg (fun h0 => List.ne_nil_of_mem hy (hzero.mp h0))]
      have := h.within y hy
      omega
    · obtain rfl := List.mem_singleton.mp hy
      split_ifs <;> omega
  · rw [hfirst, hmin, hmax]
    by_cases hxs : xs = []
    · subst hxs
      rw [if_pos (hzero.mpr rfl), if_pos (hzero.mpr rfl), if_pos (hzero.mpr rfl)]
      exact ⟨rfl, ⟨x, by simp, rfl⟩, x, by simp, rfl⟩
    · have hne : s.frames ≠ 0 := fun h0 => hxs (hzero.mp h0)
      rw [if_neg hne, if_neg hne, if_neg hne]
      obtain ⟨h₁, ⟨y, hy, hlow⟩, z, hz, hhigh⟩ := h.reached hxs
      refine ⟨?_, ?_, ?_⟩
      · rw [List.head?_append_of_ne_nil _ hxs]
        exact h₁
      · rcases Nat.le_total s.minTs x.ts with hle | hle
        · exact ⟨y, List.mem_append_left _ hy, by rw [hlow, Nat.min_eq_left hle]⟩
        · exact ⟨x, by simp, (Nat.min_eq_right hle).symm⟩
      · rcases Nat.le_total s.maxTs x.ts with hle | hle
        · exact ⟨x, by simp, (Nat.max_eq_right hle).symm⟩
        · exact ⟨z, List.mem_append_left _ hz, by rw [hhigh, Nat.max_eq_left hle]⟩

theorem told (config : MarketBooks.Config) (xs : List Record) :
    Told config xs (xs.foldl frame { sink := { books := .new config } }) := by
  induction xs using List.reverseRecOn with
  | nil => exact .new config
  | append_singleton xs x ih =>
    rw [List.foldl_append]
    exact ih.frame x

theorem loop_eq (fuel : Nat) (r : ItchFileReader) (s : Inspection) :
    loop fuel r s = (pullAll ItchFileReader.next fuel r).map fun out => (out.1.foldl frame s, out.2) := by
  induction fuel generalizing r s with
  | zero => rfl
  | succ fuel ih =>
    rw [loop, pullAll]
    cases hnext : r.next with
    | mk o r' =>
      cases o with
      | none => rfl
      | some x =>
        dsimp only
        rw [ih, Option.map_map]
        rfl

/-! ## What the counters add up to -/

/-- A record of a type that is modelled, and that is not one of its messages. -/
def malformed (x : Record) : Bool := status x ≠ none && status x ≠ some .unknownType

theorem status_partition (xs : List Record) :
    xs.countP (fun x => status x = none) + xs.countP malformed + xs.countP (fun x => status x = some .unknownType) = xs.length ∧
    xs.countP malformed = xs.countP (fun x => status x = some .truncated) + xs.countP (fun x => status x = some .badLength) +
      xs.countP fun x => status x = some .badField := by
  induction xs with
  | nil => exact ⟨rfl, rfl⟩
  | cons x xs ih =>
    have hm : malformed x = (decide (status x ≠ none) && decide (status x ≠ some .unknownType)) := rfl
    simp only [List.countP_cons, List.length_cons, hm]
    cases status x with
    | none => simp; omega
    | some e =>
      cases e with
      | truncated => simp; omega
      | unknownType => simp; omega
      | badLength => simp; omega
      | badField => simp; omega

theorem isNone_eq (x : Record) : (decode x.payload).toOption.isNone = !decide (status x = none) := by
  unfold status
  cases decode x.payload <;> rfl

theorem length_told (mb : MarketBooks) (xs : List Record) :
    (Engine.replay mb (messages xs)).2.length = xs.countP fun x => status x = none := by
  have hall := Engine.length_answers mb (messages xs)
  have hskipped : (messages xs).countP Option.isNone + xs.countP (fun x => status x = none) = xs.length := by
    clear hall
    induction xs with
    | nil => rfl
    | cons x xs ih =>
      rw [show messages (x :: xs) = (decode x.payload).toOption :: messages xs from rfl, List.countP_cons, List.countP_cons,
        List.length_cons, isNone_eq]
      by_cases h : status x = none
      · simp [h]
        omega
      · simp [h]
        omega
  rw [show (messages xs).length = xs.length from List.length_map ..] at hall
  omega

theorem errors_eq (as : List (Message × Applied)) :
    as.countP Engine.isError = as.countP (fun x => x.2 = .unknownOrder) + as.countP (fun x => x.2 = .duplicateOrder) +
      as.countP (fun x => x.2 = .unknownSymbol) + as.countP (fun x => x.2 = .capacity) +
      as.countP fun x => x.2 = .invalid := by
  induction as with
  | nil => rfl
  | cons a as ih =>
    obtain ⟨m, r⟩ := a
    have he : Engine.isError (m, r) = (decide (r ≠ .ok) && decide (r ≠ .ignored)) := rfl
    simp only [List.countP_cons, ih, he]
    cases r with
    | ok => simp
    | ignored => simp
    | unknownOrder => simp; omega
    | duplicateOrder => simp; omega
    | unknownSymbol => simp; omega
    | capacity => simp; omega
    | invalid => simp; omega

theorem sum_counts {α β : Type} [DecidableEq β] (f : α → β) {ts : List β} (hn : ts.Nodup) (hall : ∀ t, t ∈ ts) (xs : List α) :
    (ts.map fun t => xs.countP fun x => f x = t).sum = xs.length := by
  induction xs with
  | nil => simp
  | cons x xs ih =>
    have hgen : ∀ us : List β, (us.map fun t => if f x = t then 1 else 0).sum = us.count (f x) := by
      intro us
      induction us with
      | nil => rfl
      | cons t us ih =>
        rw [List.map_cons, List.sum_cons, ih, List.count_cons, Nat.add_comm]
        by_cases h : t = f x
        · simp [h]
        · simp [h, Ne.symm h]
    have hone := (hgen ts).trans (List.count_eq_one_of_mem hn (hall _))
    simp only [List.countP_cons, decide_eq_true_eq, List.length_cons]
    rw [List.sum_map_add, ih, hone]

theorem sum_filter_ne_zero {α : Type} (f : α → Nat) (l : List α) : ((l.filter fun a => f a ≠ 0).map f).sum = (l.map f).sum := by
  induction l with
  | nil => rfl
  | cons a l ih =>
    by_cases h : f a = 0
    · rw [List.filter_cons_of_neg (by simpa using h), ih, List.map_cons, List.sum_cons, h, Nat.zero_add]
    · rw [List.filter_cons_of_pos (by simpa using h), List.map_cons, List.sum_cons, ih, List.map_cons, List.sum_cons]

theorem all_types : ((List.range 256).map UInt8.ofNat).Nodup ∧ ∀ t : Byte, t ∈ (List.range 256).map UInt8.ofNat := by
  constructor
  · refine List.Nodup.map_on (fun a ha b hb hab => ?_) List.nodup_range
    have := congrArg UInt8.toNat hab
    rw [UInt8.toNat_ofNat', UInt8.toNat_ofNat'] at this
    rw [List.mem_range] at ha hb
    omega
  · intro t
    exact List.mem_map.mpr ⟨t.toNat, List.mem_range.mpr t.toNat_lt, UInt8.ofNat_toNat⟩

theorem types_sum {config : MarketBooks.Config} {xs : List Record} {s : Inspection} (h : Told config xs s) :
    (s.types.map s.histogram).sum = xs.length := by
  have hsorted : (byKey s.histogram ((List.range 256).map UInt8.ofNat)).Pairwise (Ahead s.histogram fun _ _ => True) :=
    StableSort.byKey_ahead (List.pairwise_of_forall fun _ _ => trivial)
  have htail : s.types = (byKey s.histogram ((List.range 256).map UInt8.ofNat)).filter fun t => s.histogram t ≠ 0 := by
    refine GreedyFill.takeWhile_eq_filter (hsorted.imp fun {a b} hab hb => ?_)
    rw [decide_eq_true_eq] at hb ⊢
    rcases hab with hlt | ⟨heq, -⟩
    · omega
    · omega
  have hcounts : ((List.range 256).map UInt8.ofNat).map s.histogram =
      ((List.range 256).map UInt8.ofNat).map fun t => xs.countP fun x => Be.byteAt x.payload 0 = t :=
    List.map_congr_left fun t _ => h.histogram t
  rw [htail, sum_filter_ne_zero, ((StableSort.perm_byKey _).map _).sum_eq, hcounts]
  exact sum_counts _ all_types.1 all_types.2 xs

theorem anomalies_eq {config : MarketBooks.Config} {xs : List Record} {s : Inspection} (h : Told config xs s) :
    s.anomalies = xs.countP malformed + (Engine.replay (.new config) (messages xs)).2.countP Engine.isError := by
  unfold anomalies
  rw [h.decodeStatus _ (by decide), h.decodeStatus _ (by decide), h.decodeStatus _ (by decide), h.sink.applied,
    h.sink.applied, h.sink.applied, h.sink.applied, h.sink.applied, (status_partition xs).2, errors_eq]

/-! ## The table of the most active -/

theorem mapM_isSome {α β : Type} {f : α → Option β} {l : List α} (h : ∀ a ∈ l, (f a).isSome) : (l.mapM f).isSome := by
  induction l with
  | nil => rfl
  | cons a l ih =>
    obtain ⟨b, hb⟩ := Option.isSome_iff_exists.mp (h a List.mem_cons_self)
    obtain ⟨bs, hbs⟩ := Option.isSome_iff_exists.mp (ih fun a ha => h a (List.mem_cons_of_mem _ ha))
    rw [List.mapM_cons, hb, hbs]
    rfl

/-- Every message of the order flow that is applied has, in its header, the locate of the order it is about. -/
def Named (mb : MarketBooks) (ms : List (Option Message)) : Prop :=
  ∀ before m after, ms = before ++ some m :: after → Engine.orderFlow m = true →
    ((Engine.replay mb before).1.on m).2 = .ok → m.header.locate = (Engine.replay mb before).1.touches m

/-- **A message that is applied leaves a book to show**, under the locate in its header. -/
theorem Named.booked {mb : MarketBooks} {ms : List (Option Message)} (hn : Named mb ms) (h : mb.Housed) :
    (Engine.replay mb ms).1.Housed ∧ ∀ a ∈ (Engine.replay mb ms).2, Engine.isUpdate a = true →
      ((Engine.replay mb ms).1.book a.1.header.locate).isSome := by
  induction ms using List.reverseRecOn with
  | nil => exact ⟨h, fun a ha => absurd ha List.not_mem_nil⟩
  | append_singleton ms m ih =>
    obtain ⟨hh, hall⟩ := ih fun before m' after he => hn before m' (after ++ [m]) (by rw [he, List.append_assoc]; rfl)
    rw [Engine.replay_snoc]
    cases m with
    | none => exact ⟨hh, hall⟩
    | some m =>
      obtain ⟨hk, hh'⟩ := hh.on m
      refine ⟨hh', fun a ha hup => ?_⟩
      rcases List.mem_append.mp ha with ha | ha
      · exact hk _ (hall a ha hup)
      · obtain rfl := List.mem_singleton.mp ha
        simp only [Engine.isUpdate, Bool.and_eq_true, decide_eq_true_eq] at hup
        show (((Engine.replay mb ms).1.on m).1.book m.header.locate).isSome
        rw [hn ms m [] rfl hup.1 hup.2]
        exact hh.applied hup.2

theorem ranked_active {s : Inspection} {topN l : Nat} (h : l ∈ s.ranked topN) : s.sink.activity l ≠ 0 := by
  have hmem := StableSort.mem_byKey.mp (List.mem_of_mem_take h)
  exact of_decide_eq_true (List.mem_filter.mp hmem).2

theorem Told.tops {config : MarketBooks.Config} {xs : List Record} {s : Inspection} (h : Told config xs s)
    (hn : Named (.new config) (messages xs)) (topN : Nat) : (s.tops topN).isSome := by
  have hnew : (MarketBooks.new config).Housed := fun ref rec hf => by
    rw [show (MarketBooks.new config).orders.find ref = none from BoundedMap.find_empty _ _] at hf
    cases hf
  refine mapM_isSome fun l hl => ?_
  have hpos := Nat.pos_of_ne_zero (ranked_active hl)
  rw [h.sink.activity, List.countP_pos_iff] at hpos
  obtain ⟨a, ha, hup⟩ := hpos
  rw [Bool.and_eq_true, decide_eq_true_eq] at hup
  have hbook := (hn.booked hnew).2 a ha hup.1
  rw [hup.2, ← h.sink.books] at hbook
  rw [Option.isSome_map]
  exact hbook

end Inspection

/-- **An inspection accounts for the file.** Whatever the bytes, the reading comes to its end; every frame is in the
histogram, under a type that is printed, and is decoded, malformed or not modelled; the books, the entries of the directory
and the activity are those of the messages decoded, the anomalies are the malformed frames and the messages the books
refused, and the span is that of the timestamps. The ranking has the most active instruments, ties in the order of the
locates, and every other instrument is behind all of them. Their table is printed when the headers name the orders' locates:
every book it reads is there. -/
theorem inspection_accounts_for_the_file (config : MarketBooks.Config) (contents : List Byte) :
    ∃ xs r' s, (∀ fuel > contents.length, ItchFileReader.readAll fuel contents = some (xs, r') ∧
        Inspection.inspect fuel config contents = some (s, r')) ∧
      s.frames = xs.length ∧ (s.types.map s.histogram).sum = s.frames ∧
      s.decodeStatus none + xs.countP Inspection.malformed + s.unmodelled = s.frames ∧
      (let told := Engine.replay (.new config) (messages xs);
        s.decodeStatus none = told.2.length ∧ s.sink.books = told.1 ∧ s.sink.directoryEntries = told.2.countP isListing ∧
        s.anomalies = xs.countP Inspection.malformed + told.2.countP Engine.isError ∧
        ∀ l, s.sink.activity l = told.2.countP fun x => Engine.isUpdate x && x.1.header.locate = l) ∧
      (xs ≠ [] → xs.head?.map Record.ts = some s.firstTs ∧ xs.getLast?.map Record.ts = some s.lastTs ∧
        (∃ x ∈ xs, x.ts = s.minTs) ∧ (∃ x ∈ xs, x.ts = s.maxTs) ∧ ∀ x ∈ xs, s.minTs ≤ x.ts ∧ x.ts ≤ s.maxTs) ∧
      (∀ topN, (s.ranked topN).Pairwise (Ahead s.sink.activity (· < ·)) ∧
        (∀ l ∈ s.ranked topN, s.sink.activity l ≠ 0) ∧
        ∀ l < 65536, s.sink.activity l ≠ 0 → l ∉ s.ranked topN →
          (s.ranked topN).length = topN ∧ ∀ a ∈ s.ranked topN, Ahead s.sink.activity (· < ·) a l) ∧
      (Inspection.Named (.new config) (messages xs) → ∀ topN, (s.tops topN).isSome) := by
  obtain ⟨payloads, rest, h⟩ := Framing.exists_framed contents
  obtain ⟨r', hpulls, -⟩ := ItchFileReader.pulls_frames (r := .new (some contents)) payloads h.fits ⟨rfl, rfl, h.split⟩
    h.unfinished
  have hread := hpulls.mono (h.length_payloads.trans (Nat.div_le_self _ _))
  generalize ItchFileReader.stamped _ _ = xs at hread
  have htold := Inspection.told config xs
  have hloop : ∀ fuel > contents.length, Inspection.inspect fuel config contents =
      some (xs.foldl Inspection.frame { sink := { books := .new config } }, r') := by
    intro fuel hf
    unfold Inspection.inspect
    rw [Inspection.loop_eq, hread fuel hf]
    rfl
  generalize xs.foldl Inspection.frame { sink := { books := .new config } } = s at htold hloop
  obtain ⟨hparts, -⟩ := Inspection.status_partition xs
  have hdecoded := htold.decodeStatus none (by decide)
  refine ⟨xs, r', s, fun fuel hf => ⟨hread fuel hf, hloop fuel hf⟩, htold.frames, ?_, ?_, ⟨?_, htold.sink.books,
    htold.sink.directory, Inspection.anomalies_eq htold, htold.sink.activity⟩, fun hxs => ?_, fun topN => ⟨?_, ?_, ?_⟩,
    htold.tops⟩
  · rw [Inspection.types_sum htold, htold.frames]
  · rw [hdecoded, htold.unmodelled, htold.frames]
    exact hparts
  · rw [hdecoded, Inspection.length_told]
  · obtain ⟨hfirst, hmin, hmax⟩ := htold.reached hxs
    have hlast := htold.last
    rw [if_neg hxs] at hlast
    exact ⟨hfirst, hlast, hmin, hmax, htold.within⟩
  · exact (StableSort.byKey_ahead (List.pairwise_lt_range.filter _)).sublist (List.take_sublist _ _)
  · exact fun l hl => Inspection.ranked_active hl
  · intro l hl hact hout
    exact StableSort.take_byKey (List.pairwise_lt_range.filter _) topN
      (List.mem_filter.mpr ⟨List.mem_range.mpr hl, decide_eq_true hact⟩) hout

/-! ## A header that names another locate -/

/-- An order of locate 1, and its delete under `locate`. -/
def bidAndDelete (locate : Nat) : List Message :=
  [.addOrder
      { h := ⟨1, 0, 5⟩, ref := 1, side := .buy, shares := 100, symbol := Symbol.blank, price := 10000, hasAttribution := false,
        mpid := List.replicate 4 0 },
    .orderDelete ⟨⟨locate, 0, 6⟩, 1⟩]

/-- What is between the lengths in a file of these messages. -/
def payloads (ms : List Message) : List (List Byte) :=
  ms.map fun m => (Itch.encode m (List.replicate 44 0)).1.take (Itch.encode m (List.replicate 44 0)).2

/-- With the delete under the order's own locate, the table is printed. -/
theorem inspection_accounts_for_a_bid_and_its_delete : ∃ s r',
    Inspection.inspect 60 {} ((payloads (bidAndDelete 1)).flatMap Framing.frame) = some (s, r') ∧ s.frames = 2 ∧
      (s.tops 5).isSome := by
  obtain ⟨xs, r', s, hrun, hframes, -, -, -, -, -, htops⟩ :=
    inspection_accounts_for_the_file {} ((payloads (bidAndDelete 1)).flatMap Framing.frame)
  obtain ⟨hread, hinspect⟩ := hrun 60 (by decide +kernel)
  have hready : ItchFileReader.Ready (.new (some ((payloads (bidAndDelete 1)).flatMap Framing.frame)))
      ((payloads (bidAndDelete 1)).flatMap Framing.frame ++ []) := ⟨rfl, rfl, (List.append_nil _).symm⟩
  obtain ⟨r'', hpulls, -⟩ := ItchFileReader.pulls_frames (payloads (bidAndDelete 1)) (by decide) hready (Or.inl (by decide))
  have hxs : ItchFileReader.stamped 0 ((payloads (bidAndDelete 1)).filter (· ≠ [])) = xs :=
    congrArg Prod.fst (Option.some.inj ((hpulls 60 (by decide)).symm.trans hread))
  have hmessages : messages xs = (bidAndDelete 1).map some := by
    rw [← hxs]
    decide +kernel
  refine ⟨s, r', hinspect, ?_, htops ?_ 5⟩
  · rw [hframes, ← hxs]
    decide +kernel
  · rw [hmessages]
    intro before m after he _ _
    match before, he with
    | [], he =>
      cases he
      rfl
    | [x], he =>
      cases he
      decide +kernel
    | _ :: _ :: _, he =>
      have hlen := congrArg List.length he
      simp [bidAndDelete] at hlen

theorem mapM_none {α β : Type} {f : α → Option β} {l : List α} {a : α} (ha : a ∈ l) (hf : f a = none) : l.mapM f = none := by
  induction l with
  | nil => cases ha
  | cons b l ih =>
    rw [List.mapM_cons]
    rcases List.mem_cons.mp ha with rfl | ha
    · rw [hf]
      rfl
    · rw [ih ha]
      cases f b <;> rfl

/-- The table reads a book that is not there: it ranks locate 7, which has none. -/
theorem table_reads_a_missing_book : ∃ s r',
    Inspection.inspect 3 {} ((payloads (bidAndDelete 7)).flatMap Framing.frame) = some (s, r') ∧ 7 ∈ s.ranked 5 ∧ s.sink.books.book 7 = none ∧
      s.tops 5 = none := by
  have hready : ItchFileReader.Ready (.new (some ((payloads (bidAndDelete 7)).flatMap Framing.frame)))
      ((payloads (bidAndDelete 7)).flatMap Framing.frame ++ []) :=
    ⟨rfl, rfl, (List.append_nil _).symm⟩
  obtain ⟨r', hpulls, -⟩ := ItchFileReader.pulls_frames (payloads (bidAndDelete 7)) (by decide) hready (Or.inl (by decide))
  let xs : List Record := ItchFileReader.stamped 0 ((payloads (bidAndDelete 7)).filter (· ≠ []))
  let s : Inspection := xs.foldl Inspection.frame { sink := { books := .new {} } }
  have hrun : Inspection.inspect 3 {} ((payloads (bidAndDelete 7)).flatMap Framing.frame) = some (s, r') := by
    unfold Inspection.inspect
    rw [Inspection.loop_eq, hpulls 3 (by decide)]
    rfl
  have htold : Inspection.Told {} xs s := Inspection.told {} xs
  have hseen : (Engine.replay (.new {}) (messages xs)).2.map (fun x => (Engine.isUpdate x, x.1.header.locate)) =
      [(true, 1), (true, 7)] := by decide +kernel
  have hbook : ((Engine.replay (.new {}) (messages xs)).1.book 7).isNone = true := by decide +kernel
  rw [Option.isNone_iff_eq_none, ← htold.sink.books] at hbook
  have hact : ∀ l, s.sink.activity l = [1, 7].count l := by
    intro l
    have hmap := congrArg (List.countP fun q : Bool × Nat => q.1 && q.2 = l) hseen
    rw [List.countP_map] at hmap
    rw [htold.sink.activity]
    exact hmap.trans (by simp [List.count, List.countP_cons, beq_iff_eq])
  have hin : ((List.range 65536).filter fun l => s.sink.activity l ≠ 0) ⊆ [1, 7] := by
    intro l hl
    have hne := of_decide_eq_true (List.mem_filter.mp hl).2
    rw [hact] at hne
    exact List.count_pos_iff.mp (Nat.pos_of_ne_zero hne)
  have hfew : ((List.range 65536).filter fun l => s.sink.activity l ≠ 0).length ≤ 2 :=
    ((List.nodup_range.filter _).subperm hin).length_le
  have hrank : 7 ∈ s.ranked 5 := by
    unfold Inspection.ranked
    rw [List.take_of_length_le (by rw [(StableSort.perm_byKey _).length_eq]; omega), StableSort.mem_byKey]
    refine List.mem_filter.mpr ⟨by simp, ?_⟩
    rw [hact]
    decide
  refine ⟨s, r', hrun, hrank, hbook, mapM_none hrank ?_⟩
  rw [hbook]
  rfl

end OptiTrade.Replay
