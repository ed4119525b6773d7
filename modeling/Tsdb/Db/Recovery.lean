/-
What `open_with` makes of a directory: the segments, and the log on top.

# The log on top of the segments

The ids of a log are those of the process that wrote it, whose label sets
were `lnames`. Its records are of two kinds. A record that was in the log
when its samples were flushed to a segment is `Inert`: everything in it is
at or below the last timestamp the segments have for its label set, so it
is rejected, whenever it is delivered, and whether or not the definition
it goes by has been removed with another file. Behind those come the
records of the writes since (`Logs`), each of which defines what it uses
unless one of the others has. Replaying both on top of the segments is
making the same writes to their view (`replay_ok`).

# The invariant of the replay

`Recovering` is what is known between two records. The index shows the
view so far, on top of the segments. The ids of the log never meet the ids
of the index but through the label set they stand for: that is all the
resolver's map is asked to keep (`Recovering.ids`). What has been parked
is stale, so it does not matter when it is delivered, or whether it is.

Its rules are the calls of the resolver. A definition takes a label set
in, which shows nothing, and delivers what was parked for it, which is
stale (`define`). A delivery under a known id goes where its label set is
(`deliver`), and one of stale samples changes nothing wherever it goes
(`deliver_stale`). With these an inert record changes nothing that shows
(`inert`), and the record of a write repeats it (`write`): its definitions
first, so that all of its samples are delivered.

`inert_all` and `logs` are the inductions over the two parts of the log.
-/
import Tsdb.Db.Query

namespace Tsdb

open Lib (Ascending HashMap Stale extend newest)
open Wal (Resolver SeriesEntry SamplesEntry WalRecord)

-- ================================================================= the log

/-- A record whose samples the segments have gone past. -/
structure Inert (lnames : List LabelSet) (disk : LabelSet → List Sample)
    (rec : WalRecord) : Prop where
  series : ∀ e ∈ rec.series,
    lnames[e.id]? = some e.labels ∧ disk e.labels ≠ []
  samples : ∀ e ∈ rec.samples, ∃ ls, lnames[e.id]? = some ls
    ∧ Stale Sample.timestamp (newest Sample.timestamp (disk ls)) e.samples

/-- The records of writes, and the label sets they have defined. -/
inductive Logs (lnames : List LabelSet) :
    List LabelSet → List WriteBatch → List WalRecord → Prop
  | nil : Logs lnames [] [] []
  | write {defined : List LabelSet} {writes : List WriteBatch}
      {recs : List WalRecord} {batch : WriteBatch} {rec : WalRecord} :
      Logs lnames defined writes recs →
      RecordOf lnames defined batch.nonempty rec → batch.nonempty ≠ [] →
      Logs lnames (defined ++ rec.series.map SeriesEntry.labels)
        (writes ++ [batch]) (recs ++ [rec])
  | skip {defined : List LabelSet} {writes : List WriteBatch}
      {recs : List WalRecord} {batch : WriteBatch} :
      Logs lnames defined writes recs → batch.nonempty = [] →
      Logs lnames defined (writes ++ [batch]) recs

theorem RecordOf.mono {names names' defined : List LabelSet}
    {es : List (LabelSet × List Sample)} {rec : WalRecord}
    (h : RecordOf names defined es rec) (hpre : names <+: names') :
    RecordOf names' defined es rec where
  labels := h.labels
  series e he := getElem?_mono hpre (h.series e he)
  samples := h.samples.imp fun _ _ hb =>
    ⟨getElem?_mono hpre hb.1, hb.2⟩

theorem Logs.mono {lnames lnames' defined : List LabelSet}
    {writes : List WriteBatch} {recs : List WalRecord}
    (h : Logs lnames defined writes recs) (hpre : lnames <+: lnames') :
    Logs lnames' defined writes recs := by
  induction h with
  | nil => exact .nil
  | write _ hrec hne ih => exact .write ih (hrec.mono hpre) hne
  | skip _ hnone ih => exact .skip ih hnone

theorem Inert.mono {lnames lnames' : List LabelSet}
    {disk : LabelSet → List Sample} {rec : WalRecord}
    (h : Inert lnames disk rec) (hpre : lnames <+: lnames') :
    Inert lnames' disk rec where
  series e he := ⟨getElem?_mono hpre (h.series e he).1,
    (h.series e he).2⟩
  samples e he := by
    obtain ⟨ls, hls, hstale⟩ := h.samples e he
    exact ⟨ls, getElem?_mono hpre hls, hstale⟩

/-- What is inert stays so while the histories grow. -/
theorem Inert.extend {lnames : List LabelSet}
    {disk disk' : LabelSet → List Sample} {rec : WalRecord}
    (h : Inert lnames disk rec)
    (hgrown : ∀ ls, ∃ ys, disk' ls = extend Sample.timestamp (disk ls) ys) :
    Inert lnames disk' rec where
  series e he := by
    obtain ⟨hid, hne⟩ := h.series e he
    obtain ⟨ys, hys⟩ := hgrown e.labels
    refine ⟨hid, fun hnil => hne ?_⟩
    rw [hys, Lib.extend_eq_append] at hnil
    exact (List.append_eq_nil_iff.mp hnil).1
  samples e he := by
    obtain ⟨ls, hls, hstale⟩ := h.samples e he
    obtain ⟨ys, hys⟩ := hgrown ls
    exact ⟨ls, hls, by
      rw [hys]
      exact hstale.extend ys⟩

-- ================================================================ the sink

/-- What the sink has: the index shows `v`, nothing has been logged, and the
samples are counted. -/
structure Replay.Shows (replay : Replay) (names : List LabelSet)
    (disk : LabelSet → List Sample) (v : View) : Prop where
  shows : replay.index.Shows names disk v
  fresh : ∀ id, (replay.index.state id).loggedGen = 0
  counted : replay.bufferedSamples = replay.index.inMemory

namespace Replay.Shows

variable {replay : Replay} {names : List LabelSet}
  {disk : LabelSet → List Sample} {v : View}

theorem series (h : replay.Shows names disk v) (ls : LabelSet) :
    (Replay.sink.series ls replay).2.Shows (touch names ls) disk v where
  shows := h.shows.encode ls
  fresh id := by
    show ((replay.index.encode ls).2.state id).loggedGen = 0
    rw [h.shows.named.state_encode]
    exact h.fresh id
  counted := h.counted.trans (h.shows.named.inMemory_encode ls).symm

/-- Samples delivered under an id go where its label set is. -/
theorem samples (h : replay.Shows names disk v) {id : SeriesId}
    {ls : LabelSet} (hid : names[id]? = some ls) (xs : List Sample) :
    (Replay.sink.samples id xs replay).Shows names disk (v.add ls xs) := by
  obtain ⟨hlt, -⟩ := List.getElem?_eq_some_iff.mp hid
  have hsink : Replay.sink.samples id xs replay
      = ⟨(replay.index.appendSamples id xs).1,
        replay.bufferedSamples + (replay.index.appendSamples id xs).2⟩ := by
    simp only [Replay.sink, h.shows.named.get hid]
  rw [hsink]
  refine ⟨h.shows.append hid xs, fun j => ?_, ?_⟩
  · show ((replay.index.modify id fun st => (st.appendAll xs).1).state
      j).loggedGen = 0
    rw [h.shows.named.state_modify hlt]
    split
    · rw [SeriesState.appendAll_loggedGen]
      exact h.fresh id
    · exact h.fresh j
  · rw [h.counted]
    exact (h.shows.inMemory_append hid xs).symm

/-- An id that is not assigned delivers nothing. -/
theorem samples_unknown (h : replay.Shows names disk v) {id : SeriesId}
    (hid : names[id]? = none) (xs : List Sample) :
    Replay.sink.samples id xs replay = replay := by
  simp only [Replay.sink, h.shows.named.get_none hid]

end Replay.Shows

-- ============================================================== the replay

/-- A replay under way, on top of segments that hold `disk`: the index
shows `v`, the resolver knows the ids of `defined`, and what it has parked
is stale. -/
structure Recovering (lnames : List LabelSet)
    (disk : LabelSet → List Sample) (defined names : List LabelSet)
    (v : View) (acc : Resolver × Replay) : Prop
    extends acc.2.Shows names disk v where
  grown : ∀ ls, ∃ ys, v.hist ls = extend Sample.timestamp (disk ls) ys
  ids : ∀ i j, acc.1.ids.lookup i = some j →
    ∃ ls, lnames[i]? = some ls ∧ names[j]? = some ls
  parked : ∀ i parked, acc.1.pending.lookup i = some parked →
    ∃ ls, lnames[i]? = some ls ∧ ∀ xs ∈ parked,
      Stale Sample.timestamp (newest Sample.timestamp (disk ls)) xs
  known : ∀ i ls, lnames[i]? = some ls → ls ∈ defined →
    ∃ j, acc.1.ids.lookup i = some j

namespace Recovering

variable {lnames defined names : List LabelSet}
  {disk : LabelSet → List Sample} {v : View} {acc : Resolver × Replay}

/-- Only the histories matter. -/
theorem congr (h : Recovering lnames disk defined names v acc) {v' : View}
    (hhist : v'.hist = v.hist) :
    Recovering lnames disk defined names v' acc where
  shows := ⟨h.shows.named, h.shows.holds, hhist ▸ h.shows.hist,
    hhist ▸ h.shows.other⟩
  fresh := h.fresh
  counted := h.counted
  grown := hhist ▸ h.grown
  ids := h.ids
  parked := h.parked
  known := h.known

/-- Samples delivered under an id go where its label set is. -/
theorem deliver (h : Recovering lnames disk defined names v acc)
    {j : SeriesId} {ls : LabelSet} (hj : names[j]? = some ls)
    (xs : List Sample) :
    Recovering lnames disk defined names (v.add ls xs)
      (acc.1, Replay.sink.samples j xs acc.2) := by
  refine ⟨h.toShows.samples hj xs, fun l => ?_, h.ids, h.parked, h.known⟩
  obtain ⟨ys, hys⟩ := h.grown l
  show ∃ ys, (v.add ls xs).hist l = _
  rw [View.hist_add]
  split
  · exact ⟨ys ++ xs, by rw [hys, Lib.extend_append]⟩
  · exact ⟨ys, hys⟩

/-- Stale samples change nothing, wherever they come from. -/
theorem deliver_stale (h : Recovering lnames disk defined names v acc)
    {j : SeriesId} {ls : LabelSet} (hj : names[j]? = some ls)
    {xs : List Sample}
    (hstale : Stale Sample.timestamp (newest Sample.timestamp (disk ls)) xs) :
    Recovering lnames disk defined names v
      (acc.1, Replay.sink.samples j xs acc.2) := by
  obtain ⟨ys, hys⟩ := h.grown ls
  have hlate := hstale.extend ys
  rw [← hys] at hlate
  refine (h.deliver hj xs).congr (funext fun l => ?_)
  rw [View.hist_add]
  split
  · rename_i he
    rw [he, Lib.extend_stale Sample.timestamp hlate]
  · rfl

/-- A definition takes its label set in, and what was parked for it is
stale. The first part is about the map of ids alone; the second delivers
what was parked, one entry after the other, and each is older than the
newest the series has on disk. -/
theorem define (h : Recovering lnames disk defined names v acc)
    (hnd : lnames.Nodup) {e : SeriesEntry} (he : lnames[e.id]? = some e.labels) :
    Recovering lnames disk (defined ++ [e.labels]) (touch names e.labels) v
      (Resolver.applySeries Replay.sink acc e) := by
  obtain ⟨R, index, buffered⟩ := acc
  obtain ⟨hid, -⟩ := h.shows.named.encode e.labels
  have hpre := prefix_touch names e.labels
  have hat : (touch names e.labels)[(index.encode e.labels).1]?
      = some e.labels := by
    rw [hid]
    exact getElem?_touch_idxOf _ _
  -- the index and the map of ids, before anything parked is delivered
  have hdefined : ∀ pending stats,
      (∀ i parked, pending.lookup i = some parked →
        R.pending.lookup i = some parked) →
      Recovering lnames disk (defined ++ [e.labels]) (touch names e.labels) v
        ({ ids := R.ids.insert e.id (index.encode e.labels).1
           pending, stats }, ⟨(index.encode e.labels).2, buffered⟩) := by
    intro pending stats hpending
    refine ⟨h.toShows.series e.labels, h.grown, fun i j hij => ?_,
      fun i parked hi => h.parked i parked (hpending i parked hi),
      fun i ls hi hin => ?_⟩
    · rw [HashMap.lookup_insert_if] at hij
      by_cases hi : i = e.id
      · rw [if_pos hi, Option.some.injEq] at hij
        rw [hi, ← hij]
        exact ⟨e.labels, he, hat⟩
      · rw [if_neg hi] at hij
        obtain ⟨ls, hi, hj⟩ := h.ids i j hij
        exact ⟨ls, hi, getElem?_mono hpre hj⟩
    · rw [HashMap.lookup_insert_if]
      by_cases heq : i = e.id
      · exact ⟨_, if_pos heq⟩
      · rw [if_neg heq]
        rcases List.mem_append.mp hin with hin | hin
        · exact h.known i ls hi hin
        · rw [List.mem_singleton.mp hin] at hi
          exact absurd (id_unique hnd hi he) heq
  have hsink : Replay.sink.series e.labels ⟨index, buffered⟩
      = ((index.encode e.labels).1,
        ⟨(index.encode e.labels).2, buffered⟩) := rfl
  unfold Resolver.applySeries
  simp only [hsink]
  cases hp : R.pending.lookup e.id with
  | none => exact hdefined R.pending R.stats fun _ _ hi => hi
  | some parked =>
      obtain ⟨ls, hls, hstale⟩ := h.parked e.id parked hp
      rw [he, Option.some.injEq] at hls
      subst hls
      have hrec := hdefined (R.pending.erase e.id)
        { R.stats with lateSeries := R.stats.lateSeries + 1 }
        fun i parked hi => by
          rw [HashMap.lookup_erase_if] at hi
          split at hi
          · cases hi
          · exact hi
      -- each of them is a stale delivery
      clear hdefined
      simp only
      revert hrec
      generalize (⟨(index.encode e.labels).2, buffered⟩ : Replay) = sink
      clear hp
      induction parked generalizing sink with
      | nil => exact id
      | cons xs parked ih =>
          intro hrec
          exact ih (fun xs hxs => hstale xs (List.mem_cons_of_mem _ hxs)) _
            (hrec.deliver_stale hat (hstale xs List.mem_cons_self))

theorem define_all (hnd : lnames.Nodup) (es : List SeriesEntry)
    (hes : ∀ e ∈ es, lnames[e.id]? = some e.labels)
    (h : Recovering lnames disk defined names v acc) :
    Recovering lnames disk (defined ++ es.map SeriesEntry.labels)
      (touchAll names (es.map SeriesEntry.labels)) v
      (es.foldl (Resolver.applySeries Replay.sink) acc) := by
  induction es generalizing defined names acc with
  | nil =>
      rw [List.map_nil, List.append_nil]
      exact h
  | cons e es ih =>
      have hrest := ih (fun e he => hes e (List.mem_cons_of_mem _ he))
        (h.define hnd (hes e List.mem_cons_self))
      rw [List.append_assoc] at hrest
      exact hrest

/-- The samples of a record whose label sets are all defined. -/
theorem samples_all (entries : List SamplesEntry)
    {es : List (LabelSet × List Sample)}
    (hes : List.Forall₂ (fun (e : SamplesEntry) b =>
      lnames[e.id]? = some b.1 ∧ e.samples = b.2) entries es)
    (hdef : ∀ b ∈ es, b.1 ∈ defined)
    (h : Recovering lnames disk defined names v acc) :
    Recovering lnames disk defined names (v.addAll es)
      (entries.foldl (Resolver.applySamples Replay.sink) acc) := by
  induction hes generalizing v acc with
  | nil => exact h
  | @cons e b entries es hb _ ih =>
      obtain ⟨j, hj⟩ := h.known e.id b.1 hb.1 (hdef b List.mem_cons_self)
      obtain ⟨ls, hls, hjls⟩ := h.ids e.id j hj
      rw [hb.1, Option.some.injEq] at hls
      subst hls
      have hstep : Resolver.applySamples Replay.sink acc e
          = (acc.1, Replay.sink.samples j e.samples acc.2) := by
        simp only [Resolver.applySamples, hj]
      have hone := h.deliver hjls e.samples
      rw [← hstep, hb.2] at hone
      exact ih (fun b hb => hdef b (List.mem_cons_of_mem _ hb)) hone

/-- Stale samples are delivered or parked, and change nothing. The induction
is on the entries of a record: one with a target is delivered and dropped by
the series, one without is parked, to be stale later. -/
theorem stale_all (entries : List SamplesEntry)
    (hes : ∀ e ∈ entries, ∃ ls, lnames[e.id]? = some ls ∧ Stale
      Sample.timestamp (newest Sample.timestamp (disk ls)) e.samples)
    (h : Recovering lnames disk defined names v acc) :
    Recovering lnames disk defined names v
      (entries.foldl (Resolver.applySamples Replay.sink) acc) := by
  induction entries generalizing acc with
  | nil => exact h
  | cons e entries ih =>
      refine ih (fun e he => hes e (List.mem_cons_of_mem _ he)) ?_
      obtain ⟨ls, hls, hstale⟩ := hes e List.mem_cons_self
      cases hid : acc.1.ids.lookup e.id with
      | some j =>
          obtain ⟨l, hl, hj⟩ := h.ids e.id j hid
          rw [hls, Option.some.injEq] at hl
          subst hl
          have hstep : Resolver.applySamples Replay.sink acc e
              = (acc.1, Replay.sink.samples j e.samples acc.2) := by
            simp only [Resolver.applySamples, hid]
          rw [hstep]
          exact h.deliver_stale hj hstale
      | none =>
          simp only [Resolver.applySamples, hid]
          refine { h with parked := fun i parked hi => ?_ }
          rw [HashMap.lookup_insert_if] at hi
          by_cases he : i = e.id
          · rw [if_pos he, Option.some.injEq] at hi
            subst hi
            rw [he]
            refine ⟨ls, hls, fun xs hxs => ?_⟩
            rcases List.mem_append.mp hxs with hxs | hxs
            · cases hp : acc.1.pending.lookup e.id with
              | none =>
                  rw [hp] at hxs
                  cases hxs
              | some old =>
                  obtain ⟨l, hl, hold⟩ := h.parked e.id old hp
                  rw [hls, Option.some.injEq] at hl
                  subst hl
                  rw [hp] at hxs
                  exact hold xs hxs
            · rw [List.mem_singleton.mp hxs]
              exact hstale
          · rw [if_neg he] at hi
            exact h.parked i parked hi

/-- Fewer definitions may be counted on. -/
theorem forget (h : Recovering lnames disk defined names v acc) :
    Recovering lnames disk [] names v acc :=
  { h with known := by simp }

/-- An inert record changes nothing that shows. -/
theorem inert (hnd : lnames.Nodup)
    (h : Recovering lnames disk [] names v acc) {rec : WalRecord}
    (hrec : Inert lnames disk rec) :
    Recovering lnames disk [] names v
      (Resolver.apply Replay.sink acc rec) := by
  have hin : ∀ ls ∈ rec.series.map SeriesEntry.labels, ls ∈ names := by
    intro ls hls
    obtain ⟨e, he, rfl⟩ := List.mem_map.mp hls
    by_contra hnot
    exact (hrec.series e he).2 (h.shows.other e.labels hnot).1
  have hdef := define_all hnd rec.series
    (fun e he => (hrec.series e he).1) h
  rw [touchAll_known hin] at hdef
  exact (stale_all rec.samples hrec.samples hdef).forget

theorem inert_all (hnd : lnames.Nodup)
    (recs : List WalRecord) (hrecs : ∀ rec ∈ recs, Inert lnames disk rec)
    (h : Recovering lnames disk [] names v acc) :
    Recovering lnames disk [] names v
      (Resolver.applyAll Replay.sink acc recs) := by
  induction recs generalizing acc with
  | nil => exact h
  | cons rec recs ih =>
      exact ih (fun r hr => hrecs r (List.mem_cons_of_mem _ hr))
        (h.inert hnd (hrecs rec List.mem_cons_self))

/-- The record of a write repeats it. -/
theorem write (hnd : lnames.Nodup)
    (h : Recovering lnames disk defined v.sets v acc)
    (hknown : ∀ ls ∈ defined, ls ∈ v.sets) {batch : WriteBatch}
    {rec : WalRecord} (hrec : RecordOf lnames defined batch.nonempty rec) :
    Recovering lnames disk (defined ++ rec.series.map SeriesEntry.labels)
      (v.write batch).sets (v.write batch)
      (Resolver.apply Replay.sink acc rec) := by
  have hnames : touchAll v.sets (rec.series.map SeriesEntry.labels)
      = (v.write batch).sets := by
    rw [hrec.labels, touchAll_touchAll, List.nil_append, touchAll_filter,
      View.sets_write]
    intro ls _ hls
    exact hknown ls (by simpa using hls)
  have hdef := define_all hnd rec.series hrec.series h
  rw [hnames] at hdef
  refine samples_all rec.samples hrec.samples (fun b hb => ?_) hdef
  by_cases hin : b.1 ∈ defined
  · exact List.mem_append_left _ hin
  · refine List.mem_append_right _ ?_
    rw [hrec.labels, mem_touchAll]
    exact .inr (List.mem_filter.mpr
      ⟨List.mem_map_of_mem hb, by simpa using hin⟩)

/-- The records of writes repeat them. -/
theorem logs (hnd : lnames.Nodup)
    {writes : List WriteBatch} {recs : List WalRecord}
    (hlogs : Logs lnames defined writes recs)
    (h : Recovering lnames disk [] v.sets v acc) :
    Recovering lnames disk defined (v.writeAll writes).sets
        (v.writeAll writes) (Resolver.applyAll Replay.sink acc recs)
      ∧ ∀ ls ∈ defined, ls ∈ (v.writeAll writes).sets := by
  induction hlogs with
  | nil => exact ⟨h, by simp⟩
  | @write defined writes recs batch rec _ hrec _ ih =>
      obtain ⟨hrep, hknown⟩ := ih
      rw [View.writeAll_concat, Resolver.applyAll_append]
      refine ⟨hrep.write hnd hknown hrec, fun ls hls => ?_⟩
      rw [View.sets_write, mem_touchAll]
      rcases List.mem_append.mp hls with hls | hls
      · exact .inl (hknown ls hls)
      · rw [hrec.labels, mem_touchAll] at hls
        rcases hls with hls | hls
        · cases hls
        · exact .inr (List.mem_of_mem_filter hls)
  | @skip defined writes recs batch _ hnone ih =>
      have hsame : (v.writeAll writes).write batch = v.writeAll writes := by
        rw [View.write, hnone]
        rfl
      rw [View.writeAll_concat, hsame]
      exact ih

end Recovering

end Tsdb
