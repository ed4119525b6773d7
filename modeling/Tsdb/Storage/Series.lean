/-
One series in memory (`storage/series.rs`): the samples not yet flushed,
the newest timestamp ever accepted, and the generation in which the log
last saw the series' definition.

# The history behind the memory

The newest timestamp outlives `takeSamples`, so a series decides what to
accept as if it still held everything it was ever given. `Holds` says
that: memory is the tail of a full history whose last timestamp is
`newest`. The history is not in the state; it is named by the lemmas, as
`disk ++ samples`, and each operation has one about what it does to the
pair:

- `Holds.append`: one append is one step of the greedy run on the whole
  history, because the only thing `accepts` asks about is its last
  timestamp;
- `Holds.appendAll`: so appending a list to memory is the greedy run on
  the whole, by induction on the list;
- `Holds.takeSamples`: memory moves to the front part and nothing else
  changes;
- `Holds.restoreNewest`: with the last timestamp of what is on disk and
  no samples, a fresh series has the history that is on disk.

The index invariant of `Tsdb.Db.Invariant` has `Holds` for each series,
with the samples of the live segments in front.

# The range

`range` searches twice for a partition point. `partition_point` is
documented for a slice that is partitioned by the predicate; ascending
samples are, by `timestamp < from` and by `timestamp <= to`, so the slice
between the two points is the filter for the inclusive range
(`range_eq_filter`). A reversed range, which the source cuts with
`max`, gives the empty slice, as the filter does.
-/
import Tsdb.Model

namespace Tsdb

open Lib (Ascending above extend)

-- ============================================================ the series

structure SeriesState where
  samples : List Sample := []
  newest : Option UInt64 := none
  loggedGen : Nat := 0
deriving DecidableEq, Repr

/-- A series. The source shares it between the two maps of the index
through an `Arc`; here the id plays the pointer and the forward map owns
the state. -/
structure Series where
  id : SeriesId
  labels : LabelSet
  state : SeriesState := {}
deriving DecidableEq, Repr

namespace SeriesState

def accepts (st : SeriesState) (timestamp : UInt64) : Bool :=
  st.newest.all (· < timestamp)

/-- `SeriesState::append`: the new state and whether the sample was
taken. -/
def append (st : SeriesState) (s : Sample) : SeriesState × Bool :=
  if st.accepts s.timestamp then
    ({ st with samples := st.samples ++ [s], newest := some s.timestamp },
      true)
  else (st, false)

/-- `slice::partition_point`, as documented for a partitioned slice. -/
def partitionPoint (p : Sample → Bool) (samples : List Sample) : Nat :=
  (samples.takeWhile p).length

def range (st : SeriesState) (range : TimeRange) : List Sample :=
  let lo := partitionPoint (fun s => s.timestamp < range.start) st.samples
  let hi := partitionPoint (fun s => s.timestamp ≤ range.end_) st.samples
  (st.samples.take (max hi lo)).drop lo

def isLogged (st : SeriesState) (generation : Nat) : Bool :=
  st.loggedGen == generation

def markLogged (st : SeriesState) (generation : Nat) : SeriesState :=
  { st with loggedGen := generation }

/-- `std::mem::take` of the samples. -/
def takeSamples (st : SeriesState) : List Sample × SeriesState :=
  (st.samples, { st with samples := [] })

def restoreNewest (st : SeriesState) (newest : UInt64) : SeriesState :=
  match st.newest with
  | some n => { st with newest := some (max n newest) }
  | none => { st with newest := some newest }

/-- The loop both callers of `append` run: append each sample and count
what was taken. -/
def appendAll (st : SeriesState) : List Sample → SeriesState × Nat
  | [] => (st, 0)
  | s :: rest =>
      let (st', ok) := st.append s
      let (st'', n) := st'.appendAll rest
      (st'', n + if ok then 1 else 0)

-- ============================================================== the range

/-- On ascending samples the binary-searched slice is the filter for the
inclusive range, reversed ranges included. -/
theorem range_eq_filter {st : SeriesState}
    (h : Ascending Sample.timestamp st.samples) (r : TimeRange) :
    st.range r = st.samples.filter (·.inTimerange r) := by
  have hwin := h.window_eq_filter
    (p := fun s => decide (s.timestamp ≤ r.end_))
    (q := fun s => decide (s.timestamp < r.start))
    (fun a b hab hb => by simpa using le_trans (le_of_lt hab) (by simpa using hb))
    (fun a b hab hb => by simpa using lt_trans hab (by simpa using hb))
  rw [range, partitionPoint, partitionPoint, hwin]
  refine List.filter_congr fun s _ => ?_
  by_cases hs : s.timestamp < r.start
  · simp [Sample.inTimerange, hs, not_le.mpr hs]
  · simp [Sample.inTimerange, hs, not_lt.mp hs]

-- ================================================= the hidden full history

/-- The state's memory is the tail of the history `disk ++ samples`, and
`newest` is the last timestamp of the whole. -/
structure Holds (st : SeriesState) (disk : List Sample) : Prop where
  asc : Ascending Sample.timestamp (disk ++ st.samples)
  newest_eq : st.newest = Lib.newest Sample.timestamp (disk ++ st.samples)

theorem Holds.nil {st : SeriesState} (hs : st.samples = [])
    (hn : st.newest = none) : st.Holds [] :=
  ⟨by rw [hs]; exact List.Pairwise.nil, by rw [hs, hn]; rfl⟩

/-- One append is one greedy step on the full history. -/
theorem Holds.append {st : SeriesState} {disk : List Sample}
    (h : st.Holds disk) (s : Sample) :
    (st.append s).1.Holds disk
      ∧ disk ++ (st.append s).1.samples
        = Lib.push Sample.timestamp (disk ++ st.samples) s
      ∧ (st.append s).1.samples.length
        = st.samples.length + (if (st.append s).2 then 1 else 0) := by
  have hacc : st.accepts s.timestamp
      = above Sample.timestamp
          (Lib.newest Sample.timestamp (disk ++ st.samples)) s := by
    rw [← h.newest_eq]
    rfl
  unfold SeriesState.append Lib.push
  by_cases ha : st.accepts s.timestamp = true
  · rw [if_pos ha, if_pos (hacc ▸ ha)]
    refine ⟨⟨?_, ?_⟩, ?_, ?_⟩
    · rw [← List.append_assoc]
      exact h.asc.concat (hacc ▸ ha)
    · simp [← List.append_assoc]
    · simp
    · simp
  · rw [if_neg ha, if_neg (hacc ▸ ha)]
    exact ⟨h, rfl, by simp⟩

/-- Appending a list is the greedy run on the full history, and the count
returned is how much memory grew. -/
theorem Holds.appendAll {st : SeriesState} {disk : List Sample}
    (h : st.Holds disk) (xs : List Sample) :
    (st.appendAll xs).1.Holds disk
      ∧ disk ++ (st.appendAll xs).1.samples
        = extend Sample.timestamp (disk ++ st.samples) xs
      ∧ (st.appendAll xs).1.samples.length
        = st.samples.length + (st.appendAll xs).2 := by
  induction xs generalizing st with
  | nil => exact ⟨h, rfl, rfl⟩
  | cons s rest ih =>
      obtain ⟨h₁, heq₁, hlen₁⟩ := h.append s
      obtain ⟨h₂, heq₂, hlen₂⟩ := ih h₁
      refine ⟨h₂, ?_, ?_⟩
      · rw [Lib.extend_cons, ← heq₁]
        exact heq₂
      · rw [SeriesState.appendAll]
        show (((st.append s).1.appendAll rest).1).samples.length = _
        rw [hlen₂, hlen₁]
        simp only
        omega

@[simp] theorem append_loggedGen (st : SeriesState) (s : Sample) :
    (st.append s).1.loggedGen = st.loggedGen := by
  unfold SeriesState.append
  split <;> rfl

@[simp] theorem appendAll_loggedGen (st : SeriesState) (xs : List Sample) :
    (st.appendAll xs).1.loggedGen = st.loggedGen := by
  induction xs generalizing st with
  | nil => rfl
  | cons s rest ih =>
      rw [SeriesState.appendAll]
      show ((st.append s).1.appendAll rest).1.loggedGen = _
      rw [ih, append_loggedGen]

/-- Moving memory to disk keeps the history. -/
theorem Holds.takeSamples {st : SeriesState} {disk : List Sample}
    (h : st.Holds disk) :
    st.takeSamples.2.Holds (disk ++ st.samples) := by
  refine ⟨?_, ?_⟩
  · simpa [SeriesState.takeSamples] using h.asc
  · simpa [SeriesState.takeSamples] using h.newest_eq

/-- Restoring the last timestamp of what is on disk restores the
history. -/
theorem Holds.restoreNewest {st : SeriesState} {disk : List Sample}
    {n : UInt64} (hs : st.samples = []) (hn : st.newest = none)
    (hasc : Ascending Sample.timestamp disk)
    (hlast : Lib.newest Sample.timestamp disk = some n) :
    (st.restoreNewest n).Holds disk := by
  unfold SeriesState.restoreNewest
  rw [hn]
  exact ⟨by simpa [hs] using hasc, by simpa [hs] using hlast.symm⟩

end SeriesState

end Tsdb
