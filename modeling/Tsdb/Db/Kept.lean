/-
What the log keeps, as the segments take over (`Kept`).

Behind segments that hold `base`, the log is a number of inert records and
then those of the writes since. Four things happen to it: a write appends
its record (`Kept.append`, `Kept.skip`); a new segment makes all of it inert
(`Kept.settle`); files are removed, and with them inert records
(`Kept.removed`); a crash takes records off its end, and with them the
writes they were for (`Kept.torn`).

# Records and writes

A write of nothing makes no record, and any other makes one
(`recordCount`). So a number of records at the end of a log corresponds to
some last writes, though not to one number of them: writes of nothing may
be counted or not, and they add nothing to any history. `Logs.take` cuts
the writes where the records are cut.

# Why a record becomes inert

When the segments hold all that was written, each history on disk contains
what the record's samples came to. A sample of the record was either
taken, and is in the history, or rejected, because the history had gone
past it; either way its timestamp is at or below the last one of the
history, and that only grows (`RecordOf.inert`). The definitions are of
label sets whose histories are not empty, as a write with nothing for a
label set does not define it.

# Any order of removal

Inert records change nothing, wherever they stand, so any of them may be
gone. A removal that stops in the middle, after some of its files, leaves
a log of the same kind with a smaller number of them.
-/
import Tsdb.Db.Recovery

namespace Tsdb

open Lib (extend Stale newest)
open Wal (Resolver SeriesEntry SamplesEntry WalRecord)

variable {index : Index} {lnames lnames' defined : List LabelSet}
  {base base' : View} {writes : List WriteBatch} {batch : WriteBatch}
  {n : Nat} {recs : List WalRecord} {rec : WalRecord}

/-- How many records writes make. -/
def recordCount (writes : List WriteBatch) : Nat :=
  (writes.filter (·.nonempty ≠ [])).length

theorem recordCount_append (ws ws' : List WriteBatch) :
    recordCount (ws ++ ws') = recordCount ws + recordCount ws' := by
  simp [recordCount]

theorem recordCount_singleton (batch : WriteBatch) :
    recordCount [batch] = if batch.nonempty = [] then 0 else 1 := by
  by_cases h : batch.nonempty = []
  · simp [recordCount, h]
  · simp [recordCount, h]

theorem recordCount_take_le (ws : List WriteBatch) (i : Nat) :
    recordCount (ws.take i) ≤ recordCount ws := by
  conv_rhs => rw [← List.take_append_drop i ws, recordCount_append]
  exact Nat.le_add_right _ _

/-- Every number of records up to all of them is that of some first
writes. -/
theorem exists_recordCount {ws : List WriteBatch} {j : Nat}
    (hj : j ≤ recordCount ws) :
    ∃ i ≤ ws.length, recordCount (ws.take i) = j := by
  induction ws using List.reverseRecOn with
  | nil => exact ⟨0, Nat.le_refl 0, (Nat.le_zero.mp hj).symm⟩
  | append_singleton ws batch ih =>
      by_cases hle : j ≤ recordCount ws
      · obtain ⟨i, hi, hcount⟩ := ih hle
        refine ⟨i, ?_, ?_⟩
        · rw [List.length_append]
          omega
        · rw [List.take_append_of_le_length hi, hcount]
      · refine ⟨(ws ++ [batch]).length, Nat.le_refl _, ?_⟩
        rw [List.take_length]
        rw [recordCount_append, recordCount_singleton] at hj ⊢
        by_cases hne : batch.nonempty = []
        · rw [if_pos hne] at hj
          omega
        · rw [if_neg hne] at hj ⊢
          omega

namespace Logs

theorem length_eq (h : Logs lnames defined writes recs) :
    recs.length = recordCount writes := by
  induction h with
  | nil => rfl
  | write _ _ hne ih =>
      rw [recordCount_append, recordCount_singleton, if_neg hne,
        List.length_append, ih]
      rfl
  | skip _ hnone ih =>
      rw [recordCount_append, recordCount_singleton, if_pos hnone, ih]
      rfl

/-- The first records are those of the first writes. -/
theorem take (h : Logs lnames defined writes recs) (i : Nat) :
    ∃ defined', Logs lnames defined' (writes.take i)
      (recs.take (recordCount (writes.take i))) := by
  induction h with
  | nil => exact ⟨[], by simpa using .nil⟩
  | @write defined writes recs batch rec hlogs hrec hne ih =>
      rcases Nat.lt_or_ge writes.length i with hlt | hge
      · have hall := Logs.write hlogs hrec hne
        rw [List.take_of_length_le (by rw [List.length_append]; exact hlt),
          ← hall.length_eq, List.take_length]
        exact ⟨_, hall⟩
      · have := recordCount_take_le writes i
        rw [List.take_append_of_le_length hge,
          List.take_append_of_le_length (by rw [hlogs.length_eq]; exact this)]
        exact ih
  | @skip defined writes recs batch hlogs hnone ih =>
      rcases Nat.lt_or_ge writes.length i with hlt | hge
      · have hall := Logs.skip hlogs hnone
        rw [List.take_of_length_le (by rw [List.length_append]; exact hlt),
          ← hall.length_eq, List.take_length]
        exact ⟨_, hall⟩
      · rw [List.take_append_of_le_length hge]
        exact ih

end Logs

-- ===================================================== what becomes inert

/-- Behind a write, and whatever follows it, its record is inert: a sample
of it is in the history, or was too old for it, and has grown older since. -/
theorem RecordOf.inert {v : View} {disk : LabelSet → List Sample}
    (h : RecordOf lnames defined batch.nonempty rec)
    (hgrown : ∀ ls, ∃ ys,
      disk ls = extend Sample.timestamp ((v.write batch).hist ls) ys) :
    Inert lnames disk rec where
  series e he := by
    refine ⟨h.series e he, ?_⟩
    obtain ⟨ys, hys⟩ := hgrown e.labels
    -- a label set that is defined is written to
    have hin : e.labels ∈ rec.series.map SeriesEntry.labels :=
      List.mem_map_of_mem he
    rw [h.labels, mem_touchAll] at hin
    rcases hin with hin | hin
    · cases hin
    · obtain ⟨b, hb, hls⟩ := List.mem_map.mp (List.mem_of_mem_filter hin)
      have hmem : b ∈ batch.nonempty.filter (·.1 = e.labels) :=
        List.mem_filter.mpr ⟨hb, by simpa using hls⟩
      have hsome : (batch.nonempty.filter (·.1 = e.labels)).flatMap Prod.snd
          ≠ [] := by
        intro hnil
        rw [List.flatMap_eq_nil_iff] at hnil
        exact WriteBatch.ne_nil_of_nonempty hb (hnil b hmem)
      rw [hys, View.write, View.hist_addAll, ← Lib.extend_append]
      exact Lib.extend_ne_nil Sample.timestamp _ (by simp [hsome])
  samples e he := by
    obtain ⟨b, hb, hid, hsamples⟩ := exists_of_forall₂ h.samples.flip he
    refine ⟨b.1, hid, ?_⟩
    obtain ⟨ys, hys⟩ := hgrown b.1
    obtain ⟨l, r, hsplit⟩ := List.append_of_mem hb
    rw [hsamples, hys, View.write, View.hist_addAll, hsplit,
      List.filter_append, List.filter_cons_of_pos (by simp),
      List.flatMap_append, List.flatMap_cons, Lib.extend_append,
      Lib.extend_append]
    exact ((Lib.stale_extend_self _ b.2).extend _).extend ys

theorem Logs.inert (h : Logs lnames defined writes recs) {v : View}
    {disk : LabelSet → List Sample}
    (hgrown : ∀ ls, ∃ ys,
      disk ls = extend Sample.timestamp ((v.writeAll writes).hist ls) ys) :
    ∀ rec ∈ recs, Inert lnames disk rec := by
  have hback : ∀ (ws : List WriteBatch) (batch : WriteBatch),
      (∀ ls, ∃ ys, disk ls = extend Sample.timestamp
        ((v.writeAll (ws ++ [batch])).hist ls) ys) →
      ∀ ls, ∃ ys, disk ls
        = extend Sample.timestamp ((v.writeAll ws).hist ls) ys := by
    intro ws batch hgrown ls
    obtain ⟨ys, hys⟩ := hgrown ls
    rw [View.writeAll_concat, View.hist_write, ← Lib.extend_append] at hys
    exact ⟨_, hys⟩
  induction h with
  | nil => simp
  | @write defined writes recs batch rec _ hrec _ ih =>
      intro r hr
      rcases List.mem_append.mp hr with hr | hr
      · exact ih (hback writes batch hgrown) r hr
      · rw [List.mem_singleton.mp hr]
        rw [View.writeAll_concat] at hgrown
        exact hrec.inert hgrown
  | @skip defined writes recs batch _ _ ih =>
      exact ih (hback writes batch hgrown)

-- ========================================================= what a log keeps

/-- The records of a log behind segments that hold `base`: `n` that are
inert, then those of `writes`. -/
structure Kept (lnames : List LabelSet) (base : View)
    (writes : List WriteBatch) (defined : List LabelSet) (n : Nat)
    (recs : List WalRecord) : Prop where
  nodup : lnames.Nodup
  le : n ≤ recs.length
  inert : ∀ rec ∈ recs.take n, Inert lnames base.hist rec
  logs : Logs lnames defined writes (recs.drop n)

namespace Kept

theorem empty (hnd : lnames.Nodup) (base : View) :
    Kept lnames base [] [] 0 [] where
  nodup := hnd
  le := Nat.le_refl 0
  inert := by simp
  logs := .nil

/-- Replaying a log is making its writes. -/
theorem replays (h : Kept lnames base writes defined n recs)
    (hshows : index.Shows base.sets base.hist base)
    (hfresh : ∀ id, (index.state id).loggedGen = 0)
    (hnone : index.inMemory = 0) :
    ∃ R replay, Resolver.applyAll Replay.sink ({}, ⟨index, 0⟩) recs
        = (R, replay)
      ∧ replay.index.Shows (base.writeAll writes).sets base.hist
        (base.writeAll writes)
      ∧ (∀ id, (replay.index.state id).loggedGen = 0)
      ∧ replay.bufferedSamples = replay.index.inMemory := by
  have hstart : Recovering lnames base.hist [] base.sets base
      ({}, ⟨index, 0⟩) :=
    ⟨⟨hshows, hfresh, hnone.symm⟩, fun ls => ⟨[], rfl⟩, by simp, by simp,
      by simp⟩
  obtain ⟨hall, -⟩ := (hstart.inert_all h.nodup _ h.inert).logs h.nodup h.logs
  rw [← Resolver.applyAll_append, List.take_append_drop] at hall
  exact ⟨_, _, rfl, hall.shows, hall.fresh, hall.counted⟩

theorem mono (h : Kept lnames base writes defined n recs)
    (hnd : lnames'.Nodup) (hpre : lnames <+: lnames') :
    Kept lnames' base writes defined n recs where
  nodup := hnd
  le := h.le
  inert rec hrec := (h.inert rec hrec).mono hpre
  logs := h.logs.mono hpre

/-- A write appends its record. -/
theorem append (h : Kept lnames base writes defined n recs)
    (hrec : RecordOf lnames defined batch.nonempty rec)
    (hne : batch.nonempty ≠ []) :
    Kept lnames base (writes ++ [batch])
      (defined ++ rec.series.map SeriesEntry.labels) n (recs ++ [rec]) where
  nodup := h.nodup
  le := by
    rw [List.length_append]
    exact Nat.le_add_right_of_le h.le
  inert := by
    rw [List.take_append_of_le_length h.le]
    exact h.inert
  logs := by
    rw [List.drop_append_of_le_length h.le]
    exact .write h.logs hrec hne

/-- A write of nothing has none. -/
theorem skip (h : Kept lnames base writes defined n recs)
    (hnone : batch.nonempty = []) :
    Kept lnames base (writes ++ [batch]) defined n recs :=
  { h with logs := .skip h.logs hnone }

/-- Once the segments hold all that was written, every record is inert. -/
theorem settle (h : Kept lnames base writes defined n recs)
    (hbase : base'.hist = (base.writeAll writes).hist) :
    Kept lnames base' [] [] recs.length recs where
  nodup := h.nodup
  le := Nat.le_refl _
  inert rec hrec := by
    rw [List.take_length, ← List.take_append_drop n recs,
      List.mem_append] at hrec
    rcases hrec with hrec | hrec
    · refine (h.inert rec hrec).extend fun ls => ⟨written writes ls, ?_⟩
      rw [hbase, View.hist_writeAll]
    · exact h.logs.inert (v := base) (fun ls => ⟨[], by rw [hbase]; rfl⟩)
        rec hrec
  logs := by
    rw [List.drop_length]
    exact .nil

/-- Inert records may go. -/
theorem removed (h : Kept lnames base writes defined n recs)
    {front : List WalRecord} (hfront : ∀ rec ∈ front, rec ∈ recs.take n) :
    Kept lnames base writes defined front.length (front ++ recs.drop n) where
  nodup := h.nodup
  le := by
    rw [List.length_append]
    exact Nat.le_add_right _ _
  inert rec hrec := by
    rw [List.take_left] at hrec
    exact h.inert rec (hfront rec hrec)
  logs := by
    rw [List.drop_left]
    exact h.logs

/-- With records off its end the log is that of the first writes. -/
theorem torn (h : Kept lnames base writes defined n recs) {k i : Nat}
    (hn : n ≤ k) (hk : k ≤ recs.length)
    (hi : recordCount (writes.take i) = k - n) :
    ∃ defined', Kept lnames base (writes.take i) defined' n
      (recs.take k) := by
  obtain ⟨defined', hlogs⟩ := h.logs.take i
  refine ⟨defined', h.nodup, ?_, ?_, ?_⟩
  · rw [List.length_take]
    omega
  · rw [List.take_take, Nat.min_eq_left hn]
    exact h.inert
  · rw [List.drop_take, ← hi]
    exact hlogs

end Kept

end Tsdb
