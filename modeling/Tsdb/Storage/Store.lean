/-
The store on the directory it is for: `open` succeeds exactly if the
segments it finds are valid, and `read` answers from the histories.

# One series of a segment

In each loop of the source a view is carried along. `Indexed` is the one of
`index_segment`: the ids are those of the view's label sets, `latest` is
the newest timestamp of each history, and `ranges` those of the series of
the segment so far. Against it, what the loop body checks of the next
series is that it fits (`indexSeries_ok`, `indexSeries_error`): its own
neighbours in order, its first timestamp above the one on record, which
is the end of its history (`latest_lookup`), and no range on record yet,
which is that the segment has not had it (`ranges_lookup`). What is on
record afterwards is the invariant again, with the series put behind the
view.

# The loops

The same induction runs three times, on the series of a segment
(`indexSeries_loop`), on the segments (`indexFile_loop`), and on the names
of the directory (`segmentNumbers_ok`). Each says both ways: it goes
through if what is to come fits, and fails otherwise. `open_ok` and
`open_inv` put them together, with `DataDir.numbers` for the order in
which the files are visited: ascending by number, whatever `read_dir`
does.

# The reads

`read` is a loop over the files in front of a result map. `Answers` is
the result so far, for the histories of the files so far: under each id
asked for the samples of its label set in the range, and nothing under an
id without any. A file that is read extends it (`Answers.load`), and a
file that is passed over leaves it right, since none of its series meets
the range (`Answers.skip`). `readWhere_ok` leaves open which files are
passed over as long as they are of that kind, so that the one proof
serves the read that skips and the read of every file.
-/
import Tsdb.Storage.Contents

namespace Tsdb

open Lib (Ascending Bytes HashMap)

-- ============================================================ one series in

theorem unordered_eq_false {samples : List (UInt64 × UInt64)} :
    unordered samples = false ↔ Ascending Prod.fst samples := by
  induction samples with
  | nil => exact ⟨fun _ => List.Pairwise.nil, fun _ => rfl⟩
  | cons a rest ih =>
      cases rest with
      | nil => exact ⟨fun _ => List.pairwise_singleton _ _, fun _ => rfl⟩
      | cons b rest =>
          have hcons : unordered (a :: b :: rest)
              = (decide (a.1 ≥ b.1) || unordered (b :: rest)) := rfl
          rw [hcons, Bool.or_eq_false_iff, ih, decide_eq_false_iff_not,
            not_le]
          constructor
          · intro h
            refine List.pairwise_cons.mpr ⟨fun c hc => ?_, h.2⟩
            rcases List.mem_cons.mp hc with rfl | hc
            · exact h.1
            · exact lt_trans h.1 ((List.pairwise_cons.mp h.2).1 c hc)
          · intro h
            obtain ⟨hfirst, hrest⟩ := List.pairwise_cons.mp h
            exact ⟨hfirst b List.mem_cons_self, hrest⟩

theorem asc_toSamples (s : DiskSeries) :
    Ascending Sample.timestamp s.toSamples
      ↔ Ascending Prod.fst s.samples :=
  List.pairwise_map

/-- The id of a label set in a list it is, or is put, in. -/
theorem getElem?_touch_idxOf (sets : List LabelSet) (ls : LabelSet) :
    (touch sets ls)[(touch sets ls).idxOf ls]? = some ls :=
  List.getElem?_idxOf (mem_touch.mpr (.inr rfl))

/-- Other ids do not change hands. -/
theorem getElem?_touch {sets : List LabelSet} {ls : LabelSet} {id : Nat}
    (h : id ≠ (touch sets ls).idxOf ls) :
    (touch sets ls)[id]? = sets[id]? := by
  by_cases hls : ls ∈ sets
  · rw [touch_of_mem hls]
  · have htouch : touch sets ls = sets ++ [ls] := if_neg hls
    rw [htouch, List.idxOf_append_of_notMem hls] at h
    rw [htouch]
    rcases Nat.lt_or_ge id sets.length with hlt | hge
    · exact List.getElem?_append_left hlt
    · have hne : id ≠ sets.length := by simpa using h
      rw [List.getElem?_append_right hge, List.getElem?_eq_none (l := sets) hge,
        List.getElem?_eq_none]
      simp
      omega

/-- What a series must be to go behind an ascending history, in the terms of
the source: its own samples in order, and the first above the last. That the
whole list ascends is then said by its two parts and by the one comparison
between them. -/
theorem DiskSeries.fits_iff {s : DiskSeries} {v : View}
    (hasc : Ascending Sample.timestamp (v.hist s.labels)) :
    s.Fits v ↔ ∃ a rest, s.samples = a :: rest
      ∧ Ascending Prod.fst (a :: rest)
      ∧ (Lib.newest Sample.timestamp (v.hist s.labels)).all (· < a.1) := by
  constructor
  · intro h
    obtain ⟨a, rest, hs⟩ := List.exists_cons_of_ne_nil h.nonempty
    obtain ⟨-, hown, hlater⟩ := List.pairwise_append.mp h.asc
    refine ⟨a, rest, hs, hs ▸ (asc_toSamples s).mp hown, ?_⟩
    cases hn : Lib.newest Sample.timestamp (v.hist s.labels) with
    | none => rfl
    | some n =>
        rw [Lib.newest, Option.map_eq_some_iff] at hn
        obtain ⟨x, hx, rfl⟩ := hn
        have hlt := hlater x (List.mem_of_getLast? hx) ⟨a.1, a.2⟩
          (by rw [DiskSeries.toSamples, hs]; exact List.mem_cons_self)
        simpa using hlt
  · intro h
    obtain ⟨a, rest, hs, hown, hfirst⟩ := h
    refine ⟨by rw [hs]; exact List.cons_ne_nil _ _,
      List.pairwise_append.mpr ⟨hasc, (asc_toSamples s).mpr (hs ▸ hown),
        fun x hx y hy => ?_⟩⟩
    obtain ⟨n, hn, hle⟩ := hasc.le_newest x hx
    rw [hn, Option.all_some, decide_eq_true_eq] at hfirst
    rw [DiskSeries.toSamples, hs, List.map_cons] at hy
    have hxa : x.timestamp < a.1 := lt_of_le_of_lt hle hfirst
    rcases List.mem_cons.mp hy with rfl | hy
    · exact hxa
    · obtain ⟨b, hb, rfl⟩ := List.mem_map.mp hy
      exact lt_trans hxa ((List.pairwise_cons.mp hown).1 b hb)

/-- The loop of `index_segment` between two series. -/
structure Indexed (v : View) (done : List DiskSeries)
    (acc : Index × HashMap SeriesId UInt64 × Ranges) : Prop where
  names : acc.1.Names v.sets
  latest : LatestOf acc.2.1 v
  ranges : RangesFor v.sets acc.2.2 done
  named : ∀ s ∈ done, s.labels ∈ v.sets
  nonempty : ∀ s ∈ done, s.samples ≠ []
  unknown : ∀ ls, ls ∉ v.sets → v.hist ls = []
  asc : ∀ ls, Ascending Sample.timestamp (v.hist ls)

namespace Indexed

variable {v : View} {done : List DiskSeries}
  {acc : Index × HashMap SeriesId UInt64 × Ranges}

/-- The id a series gets or has. -/
theorem encode_fst (h : Indexed v done acc) (ls : LabelSet) :
    (touch v.sets ls)[(acc.1.encode ls).1]? = some ls := by
  rw [(h.names.encode ls).1]
  exact getElem?_touch_idxOf v.sets ls

/-- What is on record under that id is the end of its history. -/
theorem latest_lookup (h : Indexed v done acc) (ls : LabelSet) :
    acc.2.1.lookup (acc.1.encode ls).1
      = Lib.newest Sample.timestamp (v.hist ls) := by
  rw [h.latest]
  by_cases hls : ls ∈ v.sets
  · have hat := h.encode_fst ls
    rw [touch_of_mem hls] at hat
    rw [hat, Option.bind_some]
  · have hnone : v.sets[(acc.1.encode ls).1]? = none := by
      cases hget : v.sets[(acc.1.encode ls).1]? with
      | none => rfl
      | some ls' =>
          have := getElem?_mono (prefix_touch v.sets ls) hget
          rw [h.encode_fst] at this
          cases this
          exact absurd (List.mem_of_getElem? hget) hls
    rw [hnone, h.unknown ls hls]
    rfl

/-- There is a range under it if the label set has been seen in the
segment. -/
theorem ranges_lookup (h : Indexed v done acc) (ls : LabelSet) :
    (acc.2.2.lookup (acc.1.encode ls).1).isSome
      ↔ ls ∈ done.map DiskSeries.labels := by
  rw [Option.isSome_iff_exists, List.mem_map]
  constructor
  · intro hsome
    obtain ⟨e, he⟩ := hsome
    obtain ⟨s, hs, hid, -⟩ := (h.ranges _ e).mp he
    have := getElem?_mono (prefix_touch v.sets ls) hid
    rw [h.encode_fst] at this
    exact ⟨s, hs, (Option.some.inj this).symm⟩
  · intro hin
    obtain ⟨s, hs, rfl⟩ := hin
    obtain ⟨e, he⟩ := DiskSeries.exists_spans (h.nonempty s hs)
    refine ⟨e, (h.ranges _ e).mpr ⟨s, hs, ?_, he⟩⟩
    have hat := h.encode_fst s.labels
    rwa [touch_of_mem (h.named s hs)] at hat

/-- What is in place behind a series that fits: the label set has an id, the
newest timestamp of that id and its range are those of the series, and the
other ids have what they had. Each of the three maps has one insertion, and
each lookup asks whether the id is the one inserted. -/
private theorem put (h : Indexed v done acc) {s : DiskSeries}
    (hfits : s.Fits v) (hnew : s.labels ∉ done.map DiskSeries.labels)
    {e : UInt64 × UInt64} (he : s.Spans e) :
    Indexed (v.put s) (done ++ [s]) ((acc.1.encode s.labels).2,
      acc.2.1.insert (acc.1.encode s.labels).1 e.2,
      acc.2.2.insert (acc.1.encode s.labels).1 e) := by
  have hat := h.encode_fst s.labels
  have hnames := (h.names.encode s.labels).2
  have hidx := (h.names.encode s.labels).1
  have hpre := prefix_touch v.sets s.labels
  have hown : ∀ id, (touch v.sets s.labels)[id]? = some s.labels ↔
      id = (acc.1.encode s.labels).1 := by
    intro id
    constructor
    · intro hid
      exact id_unique hnames.nodup hid hat
    · rintro rfl
      exact hat
  constructor
  · exact hnames
  · -- the end of the history that has grown is the end of the series
    have hnewest : Lib.newest Sample.timestamp
        (v.hist s.labels ++ s.toSamples) = some e.2 := by
      have hlast : s.toSamples.getLast?.map Sample.timestamp = some e.2 := by
        rw [DiskSeries.toSamples, List.getLast?_map, Option.map_map]
        exact he.2
      have hne : s.toSamples ≠ [] := by
        simpa [DiskSeries.toSamples] using hfits.nonempty
      rw [Lib.newest, List.getLast?_append_of_ne_nil _ hne]
      exact hlast
    intro id
    rw [HashMap.lookup_insert_if]
    show _ = (touch v.sets s.labels)[id]?.bind _
    by_cases hid : id = (acc.1.encode s.labels).1
    · rw [if_pos hid, (hown id).mpr hid, Option.bind_some, View.hist_put,
        if_pos rfl, hnewest]
    · rw [if_neg hid, getElem?_touch (hidx ▸ hid), h.latest id]
      cases hls : v.sets[id]? with
      | none => rfl
      | some ls =>
          have hne : ls ≠ s.labels := by
            intro heq
            exact hid ((hown id).mp
              (getElem?_mono hpre (heq ▸ hls)))
          rw [Option.bind_some, Option.bind_some, View.hist_put, if_neg hne]
  · exact (h.ranges.mono h.named hpre hnames.nodup).insert hnames.nodup hat
      hnew he
  · intro s' hs'
    show s'.labels ∈ touch v.sets s.labels
    rcases List.mem_append.mp hs' with hs' | hs'
    · exact mem_touch.mpr (.inl (h.named s' hs'))
    · rw [List.mem_singleton.mp hs']
      exact mem_touch.mpr (.inr rfl)
  · intro s' hs'
    rcases List.mem_append.mp hs' with hs' | hs'
    · exact h.nonempty s' hs'
    · rw [List.mem_singleton.mp hs']
      exact hfits.nonempty
  · intro ls hls
    have hls : ls ∉ touch v.sets s.labels := hls
    rw [mem_touch, not_or] at hls
    rw [View.hist_put, if_neg hls.2]
    exact h.unknown ls hls.1
  · intro ls
    rw [View.hist_put]
    split
    · rename_i hls
      rw [hls]
      exact hfits.asc
    · exact h.asc ls

/-- A series that fits and is new to its segment goes in: it is not empty,
it ascends, it starts after what is known of its id, and the segment has no
range of it yet. These are the four tests of the loop. -/
theorem indexSeries_ok (h : Indexed v done acc) (path : DataName)
    {s : DiskSeries} (hfits : s.Fits v)
    (hnew : s.labels ∉ done.map DiskSeries.labels) :
    ∃ latest ranges,
      indexSeries path acc s
        = .ok ((acc.1.encode s.labels).2, latest, ranges)
      ∧ Indexed (v.put s) (done ++ [s])
        ((acc.1.encode s.labels).2, latest, ranges) := by
  obtain ⟨a, rest, hs, hown, hfirst⟩ :=
    (DiskSeries.fits_iff (h.asc s.labels)).mp hfits
  have hlast := List.getLast?_eq_some_getLast (List.cons_ne_nil a rest)
  have hspans : s.Spans (a.1,
      ((a :: rest).getLast (List.cons_ne_nil a rest)).1) := by
    constructor
    · rw [hs]
      rfl
    · rw [hs, hlast]
      rfl
  refine ⟨_, _, ?_, h.put hfits hnew hspans⟩
  have hlater : (acc.2.1.lookup (acc.1.encode s.labels).1).any
      (fun previous => a.1 ≤ previous) = false := by
    rw [h.latest_lookup]
    cases hn : Lib.newest Sample.timestamp (v.hist s.labels) with
    | none => rfl
    | some n =>
        rw [hn, Option.all_some, decide_eq_true_eq] at hfirst
        simpa using hfirst
  have hrange : (acc.2.2.lookup (acc.1.encode s.labels).1).isSome
      = false := by
    rw [Bool.eq_false_iff]
    exact fun hsome => hnew ((h.ranges_lookup s.labels).mp hsome)
  simp only [indexSeries, hs, unordered_eq_false.mpr hown]
  rw [if_neg (by simp), hlater, hrange]
  rfl

/-- Any other is refused. -/
theorem indexSeries_error (h : Indexed v done acc) (path : DataName)
    {s : DiskSeries}
    (hbad : ¬ (s.Fits v ∧ s.labels ∉ done.map DiskSeries.labels)) :
    indexSeries path acc s = .error (.corruptSegment path) := by
  rcases hs : s.samples with _ | ⟨a, rest⟩
  · simp only [indexSeries, hs]
  · simp only [indexSeries, hs]
    by_cases hown : unordered (a :: rest) = true
    · rw [if_pos hown]
    · rw [if_neg hown, if_pos]
      rw [Bool.or_eq_true, h.latest_lookup, h.ranges_lookup]
      by_contra hnot
      rw [not_or] at hnot
      refine hbad ⟨(DiskSeries.fits_iff (h.asc s.labels)).mpr
        ⟨a, rest, hs, unordered_eq_false.mp (by simpa using hown), ?_⟩,
        hnot.2⟩
      cases hn : Lib.newest Sample.timestamp (v.hist s.labels) with
      | none => rfl
      | some n =>
          have := hnot.1
          rw [hn, Option.any_some, decide_eq_true_eq, not_le] at this
          rw [Option.all_some, decide_eq_true_eq]
          exact this

end Indexed

-- =========================================================== a whole segment

/-- The series of a segment still to come fit behind a view and the series
of the segment in front of them. -/
structure FitsFrom (v : View) (done ss : List DiskSeries) : Prop where
  nonempty : ∀ s ∈ ss, s.samples ≠ []
  nodup : ((done ++ ss).map DiskSeries.labels).Nodup
  asc : ∀ ls, Ascending Sample.timestamp ((ss.foldl View.put v).hist ls)

theorem fitsFrom_cons {v : View} {done ss : List DiskSeries} {s : DiskSeries} :
    FitsFrom v done (s :: ss)
      ↔ (s.Fits v ∧ s.labels ∉ done.map DiskSeries.labels)
        ∧ FitsFrom (v.put s) (done ++ [s]) ss := by
  have happend : done ++ [s] ++ ss = done ++ s :: ss :=
    List.append_assoc _ _ _
  constructor
  · intro h
    refine ⟨⟨⟨h.nonempty s List.mem_cons_self, ?_⟩, fun hin => ?_⟩,
      fun s' hs' => h.nonempty s' (List.mem_cons_of_mem _ hs'),
      happend ▸ h.nodup, h.asc⟩
    · have := h.asc s.labels
      rw [List.foldl_cons, View.hist_foldl_put, View.hist_put, if_pos rfl]
        at this
      exact (List.pairwise_append.mp this).1
    · have := h.nodup
      rw [List.map_append, List.map_cons] at this
      exact (List.nodup_append.mp this).2.2 _ hin _ List.mem_cons_self rfl
  · intro h
    obtain ⟨⟨hfits, -⟩, hrest⟩ := h
    refine ⟨fun s' hs' => ?_, happend ▸ hrest.nodup, hrest.asc⟩
    rcases List.mem_cons.mp hs' with rfl | hs'
    · exact hfits.nonempty
    · exact hrest.nonempty s' hs'

/-- `encode` of one label set after the other. -/
def Index.encodeAll (index : Index) (sets : List LabelSet) : Index :=
  sets.foldl (fun index ls => (index.encode ls).2) index

/-- The loop of `index_segment` goes through if the series fit, and fails
otherwise. The induction is on the series that are left: the first of them
fits and is new, and the loop goes on behind it with one more done, or it
does not, and the segment is corrupt. -/
private theorem indexSeries_loop (path : DataName) (ss : List DiskSeries)
    {v : View} {done : List DiskSeries}
    {acc : Index × HashMap SeriesId UInt64 × Ranges} (h : Indexed v done acc)
    (hnd : (done.map DiskSeries.labels).Nodup) :
    (FitsFrom v done ss → ∃ latest ranges,
      ss.foldlM (indexSeries path) acc
        = .ok (acc.1.encodeAll (ss.map DiskSeries.labels), latest, ranges)
      ∧ Indexed (ss.foldl View.put v) (done ++ ss)
        (acc.1.encodeAll (ss.map DiskSeries.labels), latest, ranges))
    ∧ (¬ FitsFrom v done ss →
      ss.foldlM (indexSeries path) acc = .error (.corruptSegment path)) := by
  induction ss generalizing v done acc with
  | nil =>
      refine ⟨fun _ => ⟨acc.2.1, acc.2.2, rfl, ?_⟩, fun hbad => ?_⟩
      · rw [List.append_nil]
        exact h
      · refine absurd ⟨nofun, ?_, h.asc⟩ hbad
        rwa [List.append_nil]
  | cons s ss ih =>
      rw [fitsFrom_cons, List.foldlM_cons]
      by_cases hs : s.Fits v ∧ s.labels ∉ done.map DiskSeries.labels
      · obtain ⟨latest, ranges, hstep, hnext⟩ :=
          h.indexSeries_ok path hs.1 hs.2
        have hnd' : ((done ++ [s]).map DiskSeries.labels).Nodup := by
          rw [List.map_append, List.map_singleton, List.nodup_append]
          refine ⟨hnd, List.nodup_singleton _, fun a ha b hb hab => ?_⟩
          rw [hab, List.mem_singleton.mp hb] at ha
          exact hs.2 ha
        have happend : done ++ [s] ++ ss = done ++ s :: ss :=
          List.append_assoc _ _ _
        obtain ⟨hok, herror⟩ := ih hnext hnd'
        rw [hstep]
        refine ⟨fun hfits => ?_, fun hbad => herror fun hrest =>
          hbad ⟨hs, hrest⟩⟩
        obtain ⟨latest', ranges', hloop, hlast⟩ := hok hfits.2
        rw [happend] at hlast
        exact ⟨latest', ranges', hloop, hlast⟩
      · rw [h.indexSeries_error path hs]
        exact ⟨fun hfits => absurd hfits.1 hs, fun _ => rfl⟩

/-- `open` between two segments. -/
structure Loaded (v : View) (index : Index)
    (latest : HashMap SeriesId UInt64) : Prop where
  names : index.Names v.sets
  latest : LatestOf latest v
  unknown : ∀ ls, ls ∉ v.sets → v.hist ls = []
  asc : ∀ ls, Ascending Sample.timestamp (v.hist ls)

section Segments

variable {v : View} {index : Index} {latest : HashMap SeriesId UInt64}
  {seg : Segment}

theorem Loaded.empty (h : index.Names v.sets) (hv : ∀ ls, v.hist ls = []) :
    Loaded v index ∅ where
  names := h
  latest id := by
    cases v.sets[id]? with
    | none => rfl
    | some ls =>
        rw [Option.bind_some, hv]
        rfl
  unknown ls _ := hv ls
  asc ls := by
    rw [hv]
    exact List.Pairwise.nil

private theorem Loaded.indexed (h : Loaded v index latest) :
    Indexed v [] (index, latest, ∅) where
  names := h.names
  latest := h.latest
  ranges id e := by simp
  named := nofun
  nonempty := nofun
  unknown := h.unknown
  asc := h.asc

private theorem fitsFrom_nil : FitsFrom v [] seg.series ↔ seg.Fits v := by
  constructor
  · intro h
    refine ⟨h.nonempty, h.nodup, fun ls => ?_⟩
    rw [← View.hist_load]
    exact h.asc ls
  · intro h
    refine ⟨h.nonempty, h.nodup, fun ls => ?_⟩
    have := h.asc ls
    rwa [← View.hist_load] at this

theorem Loaded.indexSegment_ok (h : Loaded v index latest)
    (hfits : seg.Fits v) (path : DataName) :
    ∃ latest' ranges, indexSegment seg index latest path
        = .ok (index.encodeAll (seg.series.map DiskSeries.labels), latest',
          ranges)
      ∧ Loaded (v.load seg)
        (index.encodeAll (seg.series.map DiskSeries.labels)) latest'
      ∧ RangesFor (v.load seg).sets ranges seg.series
      ∧ ∀ s ∈ seg.series, s.labels ∈ (v.load seg).sets := by
  obtain ⟨latest', ranges, hloop, hlast⟩ :=
    (indexSeries_loop path seg.series h.indexed List.nodup_nil).1
      (fitsFrom_nil.mpr hfits)
  exact ⟨latest', ranges, hloop,
    ⟨hlast.names, hlast.latest, hlast.unknown, hlast.asc⟩, hlast.ranges,
    hlast.named⟩

theorem Loaded.indexSegment_error (h : Loaded v index latest)
    (hbad : ¬ seg.Fits v) (path : DataName) :
    indexSegment seg index latest path = .error (.corruptSegment path) :=
  (indexSeries_loop path seg.series h.indexed List.nodup_nil).2
    fun hfits => hbad (fitsFrom_nil.mp hfits)

end Segments

-- ============================================================= all segments

namespace SegmentStore

/-- The loop body of `open` behind `read_segment`. -/
def indexFile (acc : List SegmentMeta × Index × HashMap SeriesId UInt64)
    (file : Nat × Segment) :
    Except StorageError
      (List SegmentMeta × Index × HashMap SeriesId UInt64) := do
  let (segments, index, latest) := acc
  let (index, latest, ranges) ←
    indexSegment file.2 index latest (.segment file.1)
  return (segments ++ [{ number := file.1, ranges }], index, latest)

/-- The loop of `open` goes through if the segments are valid, and fails
otherwise. The induction takes the files from the back, as the list of
segments known grows: what is in front is valid or the loop has failed
there, and the last fits behind it or fails itself. -/
theorem indexFile_loop {v : View} (hv : ∀ ls, v.hist ls = [])
    {index : Index} (h : index.Names v.sets) (files : List (Nat × Segment)) :
    (Valid (files.map Prod.snd) → ∃ segments latest,
      files.foldlM indexFile ([], index, ∅)
        = .ok (segments, index.encodeAll (labelsOf files), latest)
      ∧ Loaded (v.loadAll (files.map Prod.snd))
        (index.encodeAll (labelsOf files)) latest
      ∧ Knows (v.loadAll (files.map Prod.snd)).sets segments files)
    ∧ (¬ Valid (files.map Prod.snd) → ∃ f ∈ files,
      files.foldlM indexFile ([], index, ∅)
        = .error (.corruptSegment (.segment f.1))) := by
  induction files using List.reverseRecOn with
  | nil =>
      exact ⟨fun _ => ⟨[], ∅, rfl, .empty h hv, .nil⟩,
        fun hbad => absurd .nil hbad⟩
  | append_singleton files f ih =>
      obtain ⟨hok, herror⟩ := ih
      have hmap : (files ++ [f]).map Prod.snd = files.map Prod.snd ++ [f.2] :=
        List.map_append
      have hall : index.encodeAll (labelsOf (files ++ [f]))
          = (index.encodeAll (labelsOf files)).encodeAll
            (f.2.series.map DiskSeries.labels) := by
        simp [labelsOf, Index.encodeAll]
      rw [hmap, valid_concat hv, View.loadAll_concat, List.foldlM_append, hall]
      by_cases hvalid : Valid (files.map Prod.snd)
      · obtain ⟨segments, latest, hloop, hloaded, hknows⟩ := hok hvalid
        rw [hloop]
        refine ⟨fun hboth => ?_, fun hbad => ⟨f, by simp, ?_⟩⟩
        · obtain ⟨latest', ranges, hindex, hloaded', hranges, -⟩ :=
            hloaded.indexSegment_ok hboth.2 (.segment f.1)
          refine ⟨segments ++ [⟨f.1, ranges⟩], latest', ?_, hloaded', ?_⟩
          · simp only [List.foldlM_cons, List.foldlM_nil, indexFile, hindex,
              bind, Except.bind, pure, Except.pure]
          · refine Knows.concat ?_ hranges
            refine hknows.mono (fun ls hls => ?_) ?_ hloaded'.names.nodup
            · rw [View.sets_loadAll, List.flatMap_map]
              exact mem_touchAll.mpr (.inr hls)
            · rw [View.sets_load]
              exact prefix_touchAll _ _
        · have hseg : ¬ f.2.Fits (v.loadAll (files.map Prod.snd)) :=
            fun hfits => hbad ⟨hvalid, hfits⟩
          simp only [List.foldlM_cons, indexFile,
            hloaded.indexSegment_error hseg, bind, Except.bind]
      · obtain ⟨g, hg, hloop⟩ := herror hvalid
        rw [hloop]
        exact ⟨fun hboth => absurd hboth.1 hvalid,
          fun _ => ⟨g, List.mem_append_left _ hg, rfl⟩⟩

end SegmentStore

-- ================================================================ the files

theorem segmentNumbers_ok {names : List DataName}
    (h : ∀ raw, .misnamed raw ∉ names) (hnd : names.Nodup) :
    ∃ numbers, segmentNumbers names = .ok numbers
      ∧ numbers.Nodup ∧ ∀ n, n ∈ numbers ↔ .segment n ∈ names := by
  induction names with
  | nil => exact ⟨[], rfl, List.nodup_nil, by simp⟩
  | cons name names ih =>
      obtain ⟨hnot, hnd⟩ := List.nodup_cons.mp hnd
      obtain ⟨numbers, hrest, hndn, hmem⟩ := ih
        (fun raw hin => h raw (List.mem_cons_of_mem _ hin)) hnd
      cases name with
      | segment n =>
          refine ⟨n :: numbers, ?_, List.nodup_cons.mpr ⟨?_, hndn⟩, ?_⟩
          · rw [segmentNumbers, hrest]
            rfl
          · rwa [hmem]
          · intro k
            simp [hmem]
      | misnamed raw => exact absurd List.mem_cons_self (h raw)
      | temporary n => exact ⟨numbers, hrest, hndn, by simp [hmem]⟩
      | other name => exact ⟨numbers, hrest, hndn, by simp [hmem]⟩

theorem segmentNumbers_error {names : List DataName} {raw : String}
    (h : .misnamed raw ∈ names) (numbers : List Nat) :
    segmentNumbers names ≠ .ok numbers := by
  induction names generalizing numbers with
  | nil => cases h
  | cons name names ih =>
      cases name with
      | misnamed raw' => nofun
      | segment n =>
          have hrest := ih ((List.mem_cons.mp h).resolve_left nofun)
          rw [segmentNumbers]
          cases hnum : segmentNumbers names with
          | error e => nofun
          | ok more => exact absurd hnum (hrest more)
      | temporary n => exact ih ((List.mem_cons.mp h).resolve_left nofun) _
      | other name => exact ih ((List.mem_cons.mp h).resolve_left nofun) _

/-- The numbers `open` goes through are those of the segments the directory
holds, in their order. -/
theorem DataDir.numbers {data : DataDir}
    (h : ∀ raw, data.lookup (.misnamed raw) = none) :
    ∃ numbers, segmentNumbers data.keys = .ok numbers
      ∧ Ascending id (numbers.mergeSort (· ≤ ·))
      ∧ ∀ n, n ∈ numbers.mergeSort (· ≤ ·)
        ↔ (data.lookup (.segment n)).isSome := by
  have hmis : ∀ raw, DataName.misnamed raw ∉ data.keys := by
    intro raw hin
    exact AList.lookup_eq_none.mp (h raw) (AList.mem_keys.mpr hin)
  obtain ⟨numbers, hnum, hnd, hmem⟩ := segmentNumbers_ok hmis data.keys_nodup
  have hperm := List.mergeSort_perm numbers (· ≤ ·)
  refine ⟨numbers, hnum,
    Lib.ascending_mergeSort (by simpa using hnd), fun n => ?_⟩
  rw [hperm.mem_iff, hmem, AList.lookup_isSome, AList.mem_keys]

theorem DataDir.Holds.numbers {json : Json} {data : DataDir}
    {files : List (Nat × Segment)} (h : data.Holds json files) :
    ∃ numbers, segmentNumbers data.keys = .ok numbers
      ∧ numbers.mergeSort (· ≤ ·) = files.map Prod.fst := by
  obtain ⟨numbers, hnum, hasc, hmem⟩ := DataDir.numbers h.named
  refine ⟨numbers, hnum, hasc.ext (List.pairwise_map.mpr h.asc) fun n => ?_⟩
  rw [hmem, h.found n]

namespace SegmentStore

/-- Where the files can be read, `open` loops over what they hold. -/
private theorem openFile_reads {json : Json} {data : DataDir}
    (files : List (Nat × Segment))
    (hreads : ∀ f ∈ files, readSegment json data (.segment f.1) = .ok f.2)
    (acc : List SegmentMeta × Index × HashMap SeriesId UInt64) :
    (files.map Prod.fst).foldlM (openFile json data) acc
      = files.foldlM indexFile acc := by
  induction files generalizing acc with
  | nil => rfl
  | cons f files ih =>
      have hstep : openFile json data acc f.1 = indexFile acc f := by
        simp only [openFile, hreads f List.mem_cons_self, indexFile, bind,
          Except.bind]
      have hrest := fun acc =>
        ih (fun g hg => hreads g (List.mem_cons_of_mem _ hg)) acc
      rw [List.map_cons, List.foldlM_cons, List.foldlM_cons, hstep]
      simp only [hrest]

/-- Where `open` goes through, the files can be read. -/
private theorem reads_of_openFile {json : Json} {data : DataDir}
    (numbers : List Nat)
    {acc r : List SegmentMeta × Index × HashMap SeriesId UInt64}
    (h : numbers.foldlM (openFile json data) acc = .ok r) :
    ∃ files : List (Nat × Segment), files.map Prod.fst = numbers
      ∧ ∀ f ∈ files, readSegment json data (.segment f.1) = .ok f.2 := by
  induction numbers generalizing acc with
  | nil => exact ⟨[], rfl, nofun⟩
  | cons n numbers ih =>
      rw [List.foldlM_cons] at h
      cases hstep : openFile json data acc n with
      | error e =>
          rw [hstep] at h
          cases h
      | ok acc' =>
          rw [hstep] at h
          obtain ⟨files, hnumbers, hreads⟩ := ih h
          cases hread : readSegment json data (.segment n) with
          | error e =>
              simp only [openFile, hread, bind, Except.bind] at hstep
              cases hstep
          | ok seg =>
              refine ⟨(n, seg) :: files, by rw [List.map_cons, hnumbers],
                fun f hf => ?_⟩
              rcases List.mem_cons.mp hf with rfl | hf
              · exact hread
              · exact hreads f hf

/-- The store opens if what it finds is valid, with the index and the last
timestamps of what the segments hold. -/
theorem open_ok {json : Json} {data : DataDir}
    {files : List (Nat × Segment)} (h : data.Holds json files)
    (hvalid : Valid (files.map Prod.snd)) {v : View}
    (hv : ∀ ls, v.hist ls = []) {index : Index} (hnames : index.Names v.sets) :
    ∃ store latest,
      open_ json data index
        = .ok (store, index.encodeAll (labelsOf files), latest)
      ∧ Loaded (v.loadAll (files.map Prod.snd))
        (index.encodeAll (labelsOf files)) latest
      ∧ store.StoreFor (v.loadAll (files.map Prod.snd)).sets files := by
  obtain ⟨numbers, hnum, hsort⟩ := h.numbers
  obtain ⟨segments, latest, hloop, hloaded, hknows⟩ :=
    (indexFile_loop hv hnames files).1 hvalid
  refine ⟨{ segments, nextNumber :=
      ((files.map Prod.fst).getLast?).elim 0 (· + 1) }, latest, ?_, hloaded,
    hknows, ?_, ?_⟩
  · simp only [open_, hnum, hsort, openFile_reads files h.reads, hloop, bind,
      Except.bind, pure, Except.pure]
    cases (files.map Prod.fst).getLast? <;> rfl
  · intro ls hls
    rw [View.sets_loadAll, List.flatMap_map]
    exact mem_touchAll.mpr (.inr hls)
  · show ((files.map Prod.fst).getLast?).elim 0 (· + 1) = _
    cases (files.map Prod.fst).getLast? <;> rfl

/-- A store that has opened found valid segments. No file is misnamed, for
the scan would have failed; every numbered file is a segment that can be
read, for else the reading would have failed; and the segments are valid,
for else the indexing would. -/
theorem open_inv {json : Json} {data : DataDir} {v : View}
    (hv : ∀ ls, v.hist ls = []) {index : Index} (hnames : index.Names v.sets)
    {store : SegmentStore} {index' : Index}
    {latest : HashMap SeriesId UInt64}
    (h : open_ json data index = .ok (store, index', latest)) :
    ∃ files, data.Holds json files ∧ Valid (files.map Prod.snd)
      ∧ Loaded (v.loadAll (files.map Prod.snd)) index' latest
      ∧ store.StoreFor (v.loadAll (files.map Prod.snd)).sets files := by
  have hnamed : ∀ raw, data.lookup (.misnamed raw) = none := by
    intro raw
    cases hl : data.lookup (.misnamed raw) with
    | none => rfl
    | some bytes =>
        have hin : DataName.misnamed raw ∈ data.keys :=
          AList.mem_keys.mp (AList.lookup_isSome.mp (by rw [hl]; rfl))
        cases hnum : segmentNumbers data.keys with
        | error e =>
            simp only [open_, hnum, bind, Except.bind] at h
            cases h
        | ok numbers => exact absurd hnum (segmentNumbers_error hin numbers)
  obtain ⟨numbers, hnum, hasc, hmem⟩ := DataDir.numbers hnamed
  cases hloop : (numbers.mergeSort (· ≤ ·)).foldlM (openFile json data)
      ([], index, ∅) with
  | error e =>
      simp only [open_, hnum, hloop, bind, Except.bind] at h
      cases h
  | ok r =>
      obtain ⟨files, hfiles, hreads⟩ := reads_of_openFile _ hloop
      have hholds : data.Holds json files := by
        refine ⟨List.pairwise_map.mp (hfiles ▸ hasc), hnamed, fun n => ?_,
          hreads⟩
        rw [hfiles, hmem]
      have hvalid : Valid (files.map Prod.snd) := by
        by_contra hbad
        obtain ⟨f, -, herror⟩ := (indexFile_loop hv hnames files).2 hbad
        rw [← hfiles, openFile_reads files hreads, herror] at hloop
        cases hloop
      obtain ⟨store', latest', hopen, hloaded, hstore⟩ :=
        open_ok hholds hvalid hv hnames
      rw [hopen] at h
      cases h
      exact ⟨files, hholds, hvalid, hloaded, hstore⟩

-- ============================================================== the counter

/-- What `open` makes of its last number. -/
theorem openChecked_eq (json : Json) (data : DataDir) (index : Index) :
    openChecked json data index = (open_ json data index).bind fun r =>
      if r.1.nextNumber < 2 ^ 64 then .ok r else .error .numberOverflow := by
  unfold openChecked open_
  simp only [bind, Except.bind, pure, Except.pure]
  cases segmentNumbers data.keys with
  | error e => rfl
  | ok numbers =>
      simp only
      cases (numbers.mergeSort (· ≤ ·)).foldlM (openFile json data)
          ([], index, ∅) with
      | error e => rfl
      | ok r =>
          simp only
          cases (numbers.mergeSort (· ≤ ·)).getLast? with
          | none => rfl
          | some number =>
              by_cases hlt : number + 1 < 2 ^ 64
              · simp only [checkedNumber, if_pos hlt]
              · simp only [checkedNumber, if_neg hlt]

/-- What the last call of a flush makes of it. -/
theorem flushStepChecked_eq (json : Json) (n : Nat) (index : Index)
    (data : DataDir) (store : SegmentStore) (job : FlushJob) :
    store.flushStepChecked json n index data job
      = (store.flushStep json n index data job).map fun
        | (data, .inl store) => (data, if store.nextNumber < 2 ^ 64
            then .ok (.inl store) else .error .numberOverflow)
        | (data, .inr job) => (data, .ok (.inr job)) := by
  obtain ⟨segment, stage⟩ := job
  cases stage with
  | syncDir =>
      simp only [flushStepChecked, flushStep, Option.map_map]
      refine Option.map_congr fun ranges _ => ?_
      simp only [Function.comp, checkedNumber]
      split <;> rfl
  | write bytes done =>
      simp only [flushStepChecked, flushStep]
      split <;> rfl
  | toVec | open_ | syncAll | rename =>
      simp only [flushStepChecked, flushStep, Option.map_map]
      rfl

-- ================================================================ the reads

/-- `read`, where `wanted` says which files to read. -/
def readWhere (json : Json) (data : DataDir) (store : SegmentStore)
    (wanted : SegmentMeta → Bool) (ids : List SeriesId)
    (labels : HashMap LabelSet SeriesId) (range : TimeRange) :
    Except StorageError (HashMap SeriesId (List Sample)) :=
  store.segments.foldlM (fun result segment =>
    if wanted segment then do
      let file ← readSegment json data (.segment segment.number)
      return file.series.foldl (readSeries ids labels range) result
    else return result) ∅

section Reads

variable {names : List LabelSet} {ids : List SeriesId}
  {labels : HashMap LabelSet SeriesId} {range : TimeRange}

/-- What is to be found for an id. -/
def answer (names : List LabelSet) (ids : List SeriesId)
    (range : TimeRange) (v : View) (id : SeriesId) : List Sample :=
  if id ∈ ids then
    ((names[id]?.map v.hist).getD []).filter (·.inTimerange range)
  else []

/-- The result so far, for histories so far. -/
def Answers (names : List LabelSet) (ids : List SeriesId)
    (range : TimeRange) (result : HashMap SeriesId (List Sample))
    (v : View) : Prop :=
  ∀ id, (result.lookup id).getD [] = answer names ids range v id

theorem answer_of_getElem? {v : View} {id : SeriesId} {ls : LabelSet}
    (hid : id ∈ ids) (hls : names[id]? = some ls) :
    answer names ids range v id = (v.hist ls).filter (·.inTimerange range) := by
  rw [answer, if_pos hid, hls]
  rfl

/-- An answer depends on the history of its own label set. -/
theorem answer_congr {v v' : View} {id : SeriesId}
    (h : ∀ ls, id ∈ ids → names[id]? = some ls →
      (v'.hist ls).filter (·.inTimerange range)
        = (v.hist ls).filter (·.inTimerange range)) :
    answer names ids range v' id = answer names ids range v id := by
  unfold answer
  by_cases hid : id ∈ ids
  · rw [if_pos hid, if_pos hid]
    cases hls : names[id]? with
    | none => rfl
    | some ls => exact h ls hid hls
  · rw [if_neg hid, if_neg hid]

/-- The samples `read` filters are those in the range. -/
theorem filter_toSamples (s : DiskSeries) (range : TimeRange) :
    (s.samples.filter fun x =>
        decide (x.1 ≥ range.start) && decide (x.1 ≤ range.end_)).map
      (fun x => (⟨x.1, x.2⟩ : Sample))
      = s.toSamples.filter (·.inTimerange range) := by
  rw [DiskSeries.toSamples, List.filter_map]
  rfl

/-- A series of a segment adds its samples in the range to the answer for
its id, if the id is asked for. Whether the series is the one of the id
decides both sides. -/
private theorem Answers.series {result : HashMap SeriesId (List Sample)}
    {v : View} (h : Answers names ids range result v)
    (hlabels : ∀ ls id, labels.lookup ls = some id
      ↔ id ∈ ids ∧ names[id]? = some ls) (s : DiskSeries) :
    Answers names ids range (readSeries ids labels range result s)
      (v.put s) := by
  intro id
  have hold := h id
  by_cases hown : id ∈ ids ∧ names[id]? = some s.labels
  · rw [readSeries, (hlabels s.labels id).mpr hown]
    simp only [if_pos hown.1, HashMap.lookup_insert_if, if_true]
    rw [answer_of_getElem? hown.1 hown.2] at hold ⊢
    rw [Option.getD_some, hold, filter_toSamples, View.hist_put, if_pos rfl,
      List.filter_append]
  · have hrest : answer names ids range (v.put s) id
        = answer names ids range v id := by
      refine answer_congr fun ls hid hls => ?_
      rw [View.hist_put, if_neg]
      rintro rfl
      exact hown ⟨hid, hls⟩
    rw [hrest, ← hold]
    cases hl : labels.lookup s.labels with
    | none =>
        rw [readSeries, hl]
    | some id' =>
        have hid' := (hlabels s.labels id').mp hl
        have hne : id ≠ id' := by
          rintro rfl
          exact hown hid'
        rw [readSeries, hl]
        simp only [if_pos hid'.1, HashMap.lookup_insert_if, if_neg hne]

private theorem Answers.load {result : HashMap SeriesId (List Sample)}
    {v : View} (h : Answers names ids range result v)
    (hlabels : ∀ ls id, labels.lookup ls = some id
      ↔ id ∈ ids ∧ names[id]? = some ls) (seg : Segment) :
    Answers names ids range
      (seg.series.foldl (readSeries ids labels range) result)
      (v.load seg) := by
  rw [View.load]
  induction seg.series generalizing result v with
  | nil => exact h
  | cons s ss ih => exact ih (h.series hlabels s)

/-- A segment that is passed over has nothing in the range: for a sample of
a series asked for that lies in the range, the range of its series would
have met the range asked for, and the segment would have been read. -/
private theorem Answers.skip {result : HashMap SeriesId (List Sample)}
    {v : View} (h : Answers names ids range result v)
    {known : SegmentMeta} {seg : Segment}
    (hranges : RangesFor names known.ranges seg.series)
    (hseries : ∀ s ∈ seg.series, s.samples ≠ []
      ∧ Ascending Sample.timestamp s.toSamples)
    (hskip : known.concerns ids range = false) :
    Answers names ids range result (v.load seg) := by
  intro id
  rw [h id]
  refine (answer_congr fun ls hid hls => ?_).symm
  rw [View.hist_load, List.filter_append]
  have hnone : (seg.samplesOf ls).filter (·.inTimerange range) = [] := by
    refine List.filter_eq_nil_iff.mpr fun x hx hin => ?_
    rw [Segment.samplesOf, List.mem_flatMap] at hx
    obtain ⟨s, hs, hx⟩ := hx
    obtain ⟨hs, hsl⟩ := List.mem_filter.mp hs
    have hsl : s.labels = ls := of_decide_eq_true hsl
    obtain ⟨hne, hasc⟩ := hseries s hs
    obtain ⟨e, he⟩ := DiskSeries.exists_spans hne
    have hrange := (hranges id e).mpr ⟨s, hs, hsl ▸ hls, he⟩
    obtain ⟨hfirst, hlast⟩ := he.bounds hasc hx
    rw [Sample.inTimerange, Bool.and_eq_true, decide_eq_true_eq,
      decide_eq_true_eq] at hin
    -- the range of the series would have met the range asked for
    rw [SegmentMeta.concerns, List.any_eq_false] at hskip
    refine hskip (id, e) (HashMap.mem_toPairs.mpr hrange) ?_
    simp only [Bool.and_eq_true, decide_eq_true_eq]
    exact ⟨⟨hid, le_trans hfirst hin.2⟩, le_trans hin.1 hlast⟩
  rw [hnone, List.append_nil]

/-- Reading answers from the histories of the segments, whatever is passed
over without being concerned. The induction is along the segments and what
is known of them: one that is wanted is read, and its series are added; one
that is not adds nothing to any answer. -/
theorem readWhere_ok {json : Json} {data : DataDir} {store : SegmentStore}
    {files : List (Nat × Segment)} (h : data.Holds json files)
    (hvalid : Valid (files.map Prod.snd))
    (hstore : store.StoreFor names files)
    (hlabels : ∀ ls id, labels.lookup ls = some id
      ↔ id ∈ ids ∧ names[id]? = some ls) {wanted : SegmentMeta → Bool}
    (hwanted : ∀ known, wanted known = false →
      known.concerns ids range = false)
    {v : View} (hv : ∀ ls, v.hist ls = []) :
    ∃ result, readWhere json data store wanted ids labels range = .ok result
      ∧ Answers names ids range result
        (v.loadAll (files.map Prod.snd)) := by
  have hloop : ∀ (known : List SegmentMeta) (files : List (Nat × Segment)),
      Knows names known files →
      (∀ f ∈ files, readSegment json data (.segment f.1) = .ok f.2) →
      (∀ f ∈ files, ∀ s ∈ f.2.series, s.samples ≠ []
        ∧ Ascending Sample.timestamp s.toSamples) →
      ∀ result v, Answers names ids range result v →
      ∃ result', known.foldlM (fun result segment =>
          if wanted segment then do
            let file ← readSegment json data (.segment segment.number)
            return file.series.foldl (readSeries ids labels range) result
          else return result) result = .ok result'
        ∧ Answers names ids range result'
          (v.loadAll (files.map Prod.snd)) := by
    intro known files hknows
    induction hknows with
    | nil => exact fun _ _ result v hv => ⟨result, rfl, hv⟩
    | @cons known f knowns files hm _ ih =>
        intro hreads hseries result v hv
        have hread := hreads f List.mem_cons_self
        rw [← hm.1] at hread
        have hrest := ih (fun g hg => hreads g (List.mem_cons_of_mem _ hg))
          fun g hg => hseries g (List.mem_cons_of_mem _ hg)
        rw [List.foldlM_cons]
        cases hw : wanted known with
        | false =>
            simp only [Bool.false_eq_true, if_false, pure_bind]
            exact hrest result _ (hv.skip hm.2
              (hseries f List.mem_cons_self) (hwanted known hw))
        | true =>
            simp only [if_true, hread, bind, Except.bind, pure, Except.pure]
            exact hrest _ _ (hv.load hlabels f.2)
  refine hloop store.segments files hstore.segments h.reads
    (fun f hf s hs => ⟨?_, ?_⟩) ∅ v (fun id => ?_)
  · exact hvalid.nonempty f.2 (List.mem_map_of_mem hf) s hs
  · exact hvalid.series (List.mem_map_of_mem hf) hs
  · unfold answer
    cases names[id]? <;> simp [hv]

/-- `read` answers from the histories of the segments. -/
theorem read_ok {json : Json} {data : DataDir} {store : SegmentStore}
    {files : List (Nat × Segment)} (h : data.Holds json files)
    (hvalid : Valid (files.map Prod.snd))
    (hstore : store.StoreFor names files)
    (hlabels : ∀ ls id, labels.lookup ls = some id
      ↔ id ∈ ids ∧ names[id]? = some ls)
    {v : View} (hv : ∀ ls, v.hist ls = []) :
    ∃ result, read json data store ids labels range = .ok result
      ∧ Answers names ids range result
        (v.loadAll (files.map Prod.snd)) :=
  readWhere_ok h hvalid hstore hlabels (fun _ hskip => hskip) hv

end Reads

end SegmentStore

end Tsdb
