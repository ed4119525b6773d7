/-
A flush of the store, call by call (`SegmentStore::flush` once more).

# What is written

`TableOf` says that the series of the segment are those of the flush's
table, entry by entry and in the order of the ids, under the label sets
the ids stand for. An id that is known has one label set and no other id
has it, so a table without an id twice makes a segment without a series
twice (`nodup`), and what the segment holds for a label set is what the
table has for its id (`samplesOf`). A table whose samples continue the
histories (`Continues`) then makes a segment that fits behind the ones
there are (`TableOf.fits`), which is all that `valid_concat` asks for.

# The calls

Until the rename the directory holds what it held, for a temporary name
counts for nothing; behind it, it holds one segment more
(`FlushJob.Ok.step`). `FlushJob.Ok` is the invariant between two calls:
at each stage, what the temporary name has. Before the file is created it
says nothing of it, for another flush may have left something there; then
it is a prefix of the file while it is written, and the whole file from
the last `write` on; behind the rename nothing is said again. The step has
one case per call.

A flush that fails, or a process that stops, leaves the one or the other.
So the invariant of the database needs no word about flushes that did not
end: the directory holds a valid list at every step of every flush, and
the new segment is one of it from the rename on.

The last call changes no file. It puts the segment into the store, with
its ranges, and counts on (`FlushJob.register`).
-/
import Tsdb.Storage.Store

namespace Tsdb

open Lib (Ascending Bytes HashMap)

theorem exists_of_forall₂ {α β : Type} {R : α → β → Prop}
    {l : List α} {l' : List β} (h : List.Forall₂ R l l') {b : β}
    (hb : b ∈ l') : ∃ a ∈ l, R a b := by
  induction h with
  | nil => cases hb
  | @cons a b' l l' hr _ ih =>
      rcases List.mem_cons.mp hb with rfl | hb
      · exact ⟨a, List.mem_cons_self, hr⟩
      · obtain ⟨a', ha', hr'⟩ := ih hb
        exact ⟨a', List.mem_cons_of_mem _ ha', hr'⟩

namespace SegmentStore

variable {names : List LabelSet} {index : Index}

-- ========================================================= what is written

/-- The table of a flush in the order of the ids. -/
def sorted (table : List (SeriesId × List Sample)) :
    List (SeriesId × List Sample) :=
  table.mergeSort fun a b => a.1 ≤ b.1

theorem sorted_perm (table : List (SeriesId × List Sample)) :
    (sorted table).Perm table :=
  List.mergeSort_perm _ _

theorem sorted_of_ascending {table : List (SeriesId × List Sample)}
    (h : Ascending Prod.fst table) : sorted table = table :=
  List.mergeSort_of_pairwise
    (h.imp fun hab => by simpa using Nat.le_of_lt hab)

/-- The series of the segment are those of the entries, in their order,
under their label sets. -/
def TableOf (names : List LabelSet) (entries : List (SeriesId × List Sample))
    (series : List DiskSeries) : Prop :=
  List.Forall₂ (fun e (s : DiskSeries) =>
    names[e.1]? = some s.labels ∧ s.toSamples = e.2) entries series

/-- The series of an entry. -/
private theorem entry_toSamples (labels : LabelSet) (samples : List Sample) :
    DiskSeries.toSamples
        ⟨labels, samples.map fun s => (s.timestamp, s.value)⟩ = samples := by
  rw [DiskSeries.toSamples, List.map_map]
  exact List.map_id samples

theorem segmentOf_ok (hnames : index.Names names)
    {table : List (SeriesId × List Sample)}
    (hids : ∀ e ∈ table, e.1 < names.length) :
    ∃ seg, segmentOf table index = some seg := by
  have hloop : ∀ entries : List (SeriesId × List Sample),
      (∀ e ∈ entries, e.1 < names.length) →
      ∃ series, (entries.mapM fun e =>
        (index.labelsFor e.1).map fun labels =>
          ({ labels, samples := e.2.map fun s => (s.timestamp, s.value) }
            : DiskSeries)) = some series := by
    intro entries
    induction entries with
    | nil => exact fun _ => ⟨[], rfl⟩
    | cons e entries ih =>
        intro hids
        obtain ⟨series, hmap⟩ :=
          ih fun e he => hids e (List.mem_cons_of_mem _ he)
        have hlab := hnames.forward e.1
        rw [List.getElem?_eq_getElem (hids e List.mem_cons_self)] at hlab
        exact ⟨_, by rw [List.mapM_cons, hlab, hmap]; rfl⟩
  obtain ⟨series, hmap⟩ := hloop (sorted table)
    fun e he => hids e ((sorted_perm table).mem_iff.mp he)
  rw [sorted] at hmap
  exact ⟨⟨series⟩, by simp only [segmentOf, hmap, Option.map_some]⟩

theorem segmentOf_table (hnames : index.Names names)
    {table : List (SeriesId × List Sample)} {seg : Segment}
    (h : segmentOf table index = some seg) :
    TableOf names (sorted table) seg.series := by
  have hloop : ∀ (entries : List (SeriesId × List Sample)) series,
      (entries.mapM fun e =>
        (index.labelsFor e.1).map fun labels =>
          ({ labels, samples := e.2.map fun s => (s.timestamp, s.value) }
            : DiskSeries)) = some series →
      TableOf names entries series := by
    intro entries
    induction entries with
    | nil =>
        intro series h
        cases h
        exact .nil
    | cons e entries ih =>
        intro series h
        rw [List.mapM_cons] at h
        obtain ⟨s, hs, h⟩ := Option.bind_eq_some_iff.mp h
        obtain ⟨rest, hrest, h⟩ := Option.bind_eq_some_iff.mp h
        cases h
        obtain ⟨labels, hlabels, rfl⟩ := Option.map_eq_some_iff.mp hs
        rw [hnames.forward] at hlabels
        exact .cons ⟨hlabels, entry_toSamples _ _⟩ (ih rest hrest)
  unfold segmentOf at h
  obtain ⟨series, hseries, rfl⟩ := Option.map_eq_some_iff.mp h
  exact hloop (sorted table) series hseries

namespace TableOf

variable {entries : List (SeriesId × List Sample)} {series : List DiskSeries}

/-- Where a series of the segment comes from. -/
theorem exists_entry (h : TableOf names entries series) {s : DiskSeries}
    (hs : s ∈ series) :
    ∃ e ∈ entries, names[e.1]? = some s.labels ∧ s.toSamples = e.2 :=
  exists_of_forall₂ h hs

theorem named (h : TableOf names entries series) {s : DiskSeries}
    (hs : s ∈ series) : s.labels ∈ names := by
  obtain ⟨e, -, hid, -⟩ := h.exists_entry hs
  exact List.mem_of_getElem? hid

/-- The label sets are those of the ids. -/
theorem labels_eq (h : TableOf names entries series) :
    series.map DiskSeries.labels
      = entries.filterMap fun e => names[e.1]? := by
  induction h with
  | nil => rfl
  | @cons e s entries series he _ ih =>
      rw [List.map_cons, ih, List.filterMap_cons, he.1]

/-- Series of their own have label sets of their own. -/
theorem nodup (h : TableOf names entries series) (hnd : names.Nodup)
    (hids : (entries.map Prod.fst).Nodup) :
    (series.map DiskSeries.labels).Nodup := by
  induction h with
  | nil => exact List.nodup_nil
  | @cons e s entries series he hrest ih =>
      obtain ⟨hnot, hids⟩ := List.nodup_cons.mp hids
      refine List.nodup_cons.mpr ⟨fun hin => hnot ?_, ih hids⟩
      obtain ⟨s', hs', hsame⟩ := List.mem_map.mp hin
      obtain ⟨e', he', hid, -⟩ := exists_of_forall₂ hrest hs'
      rw [id_unique hnd he.1 (hsame ▸ hid)]
      exact List.mem_map_of_mem he'

/-- The segment holds for a label set what the table has for its id. -/
theorem samplesOf (h : TableOf names entries series) (hnd : names.Nodup)
    {id : SeriesId} {ls : LabelSet} (hid : names[id]? = some ls) :
    Segment.samplesOf ⟨series⟩ ls
      = (entries.filter (·.1 = id)).flatMap Prod.snd := by
  show (series.filter _).flatMap _ = _
  induction h with
  | nil => rfl
  | @cons e s entries series he _ ih =>
      by_cases hls : s.labels = ls
      · have hsame : e.1 = id := id_unique hnd (hls ▸ he.1) hid
        rw [List.filter_cons_of_pos (by simp [hls]),
          List.filter_cons_of_pos (by simp [hsame]), List.flatMap_cons,
          List.flatMap_cons, ih, he.2]
      · have hne : e.1 ≠ id := by
          rintro rfl
          rw [hid, Option.some.injEq] at he
          exact hls he.1.symm
        rw [List.filter_cons_of_neg (by simp [hls]),
          List.filter_cons_of_neg (by simp [hne]), ih]

end TableOf

/-- In a segment without a series twice, a label set has one series or
none. -/
theorem samplesOf_cases {series : List DiskSeries}
    (hnd : (series.map DiskSeries.labels).Nodup) (ls : LabelSet) :
    Segment.samplesOf ⟨series⟩ ls = []
      ∨ ∃ s ∈ series, s.labels = ls
        ∧ Segment.samplesOf ⟨series⟩ ls = s.toSamples := by
  show (series.filter _).flatMap _ = []
    ∨ ∃ s ∈ series, s.labels = ls ∧ (series.filter _).flatMap _ = _
  induction series with
  | nil => exact .inl rfl
  | cons s series ih =>
      obtain ⟨hnot, hnd⟩ := List.nodup_cons.mp hnd
      by_cases hls : s.labels = ls
      · have hnone : series.filter (·.labels = ls) = [] := by
          refine List.filter_eq_nil_iff.mpr fun s' hs' heq => hnot ?_
          rw [hls, ← of_decide_eq_true heq]
          exact List.mem_map_of_mem hs'
        refine .inr ⟨s, List.mem_cons_self, hls, ?_⟩
        rw [List.filter_cons_of_pos (by simp [hls]), hnone]
        simp
      · rw [List.filter_cons_of_neg (by simp [hls])]
        rcases ih hnd with hnil | ⟨s', hs', hrest⟩
        · exact .inl hnil
        · exact .inr ⟨s', List.mem_cons_of_mem _ hs', hrest⟩

/-- A table that goes behind what has been flushed: an id occurs once, has
samples, and they continue its history. -/
structure Continues (names : List LabelSet)
    (table : List (SeriesId × List Sample)) (v : View) : Prop where
  nodup : (table.map Prod.fst).Nodup
  nonempty : ∀ e ∈ table, e.2 ≠ []
  asc : ∀ e ∈ table, ∀ ls, names[e.1]? = some ls →
    Ascending Sample.timestamp (v.hist ls ++ e.2)

/-- The segment of such a table fits. -/
theorem TableOf.fits {table : List (SeriesId × List Sample)} {seg : Segment}
    (h : TableOf names (sorted table) seg.series) (hnd : names.Nodup)
    {v : View} (hv : ∀ ls, Ascending Sample.timestamp (v.hist ls))
    (htable : Continues names table v) : seg.Fits v := by
  obtain ⟨series⟩ := seg
  replace h : TableOf names (sorted table) series := h
  have hmem : ∀ {e}, e ∈ sorted table → e ∈ table :=
    fun he => (sorted_perm table).mem_iff.mp he
  have hids : ((sorted table).map Prod.fst).Nodup :=
    (((sorted_perm table).map _).nodup_iff).mpr htable.nodup
  have hlabels := h.nodup hnd hids
  refine ⟨fun s hs hnil => ?_, hlabels, fun ls => ?_⟩
  · obtain ⟨e, he, -, hes⟩ := h.exists_entry hs
    refine htable.nonempty e (hmem he) ?_
    rw [← hes, DiskSeries.toSamples, hnil]
    rfl
  · rcases samplesOf_cases hlabels ls with hnil | ⟨s, hs, rfl, heq⟩
    · rw [hnil, List.append_nil]
      exact hv ls
    · obtain ⟨e, he, hid, hes⟩ := h.exists_entry hs
      rw [heq, hes]
      exact htable.asc e (hmem he) s.labels hid

/-- The ranges of a segment that fits. None of the series is empty and each
has an id, so the loop finds first and last timestamp of each, and each is
new to the segment, so nothing is inserted over. -/
theorem rangesOf_ok (hnames : index.Names names) {seg : Segment} {v : View}
    (hfits : seg.Fits v) (hin : ∀ s ∈ seg.series, s.labels ∈ names) :
    ∃ ranges, rangesOf seg index = some ranges
      ∧ RangesFor names ranges seg.series := by
  have hloop : ∀ (ss done : List DiskSeries) (ranges : Ranges),
      RangesFor names ranges done →
      ((done ++ ss).map DiskSeries.labels).Nodup →
      (∀ s ∈ ss, s.samples ≠ []) → (∀ s ∈ ss, s.labels ∈ names) →
      ∃ ranges', ss.foldlM (fun (ranges : Ranges) series => do
          let id ← index.idFor series.labels
          let first ← series.samples.head?
          let last ← series.samples.getLast?
          return ranges.insert id (first.1, last.1)) ranges = some ranges'
        ∧ RangesFor names ranges' (done ++ ss) := by
    intro ss
    induction ss with
    | nil =>
        intro done ranges h _ _ _
        exact ⟨ranges, rfl, by rwa [List.append_nil]⟩
    | cons s ss ih =>
        intro done ranges h hnd hne hin
        have happend : done ++ [s] ++ ss = done ++ s :: ss :=
          List.append_assoc _ _ _
        have hmem := hin s List.mem_cons_self
        have hid : index.idFor s.labels = some (names.idxOf s.labels) := by
          rw [hnames.inverted, if_pos hmem]
        have hnew : s.labels ∉ done.map DiskSeries.labels := by
          intro hold
          rw [List.map_append, List.map_cons] at hnd
          exact (List.nodup_append.mp hnd).2.2 _ hold _ List.mem_cons_self rfl
        obtain ⟨⟨first, last⟩, hspans⟩ :=
          DiskSeries.exists_spans (hne s List.mem_cons_self)
        obtain ⟨x, hx, rfl⟩ := Option.map_eq_some_iff.mp hspans.1
        obtain ⟨y, hy, rfl⟩ := Option.map_eq_some_iff.mp hspans.2
        obtain ⟨ranges', hrest, hranges⟩ := ih (done ++ [s])
          (ranges.insert (names.idxOf s.labels) (x.1, y.1))
          (h.insert hnames.nodup (List.getElem?_idxOf hmem) hnew hspans)
          (happend ▸ hnd) (fun s hs => hne s (List.mem_cons_of_mem _ hs))
          fun s hs => hin s (List.mem_cons_of_mem _ hs)
        refine ⟨ranges', ?_, happend ▸ hranges⟩
        rw [List.foldlM_cons]
        simp only [hid, hx, hy, Option.bind_eq_bind, Option.bind_some, pure]
        exact hrest
  exact hloop seg.series [] ∅ (by intro id e; simp) hfits.nodup
    hfits.nonempty hin

end SegmentStore

-- ============================================================ call by call

variable {json : Json} {data data' : DataDir} {store : SegmentStore}
  {files : List (Nat × Segment)} {job : FlushJob} {index : Index} {n : Nat}

/-- What the calls so far have left under the temporary name. -/
def FlushJob.Ok (json : Json) (data : DataDir) (number : Nat)
    (job : FlushJob) : Prop :=
  match job.stage with
  | .toVec => True
  | .open_ bytes => ∃ payload, json.toVec job.segment = some payload
      ∧ bytes = segmentFile payload
  | .write bytes done => ∃ payload, json.toVec job.segment = some payload
      ∧ bytes = segmentFile payload
      ∧ data.lookup (.temporary number) = some (bytes.take done)
  | .syncAll => ∃ payload, json.toVec job.segment = some payload
      ∧ data.lookup (.temporary number) = some (segmentFile payload)
  | .rename => ∃ payload, json.toVec job.segment = some payload
      ∧ data.lookup (.temporary number) = some (segmentFile payload)
  | .syncDir => True

/-- The last call of a flush is the one that ends it. -/
theorem SegmentStore.flushStep_last {json : Json} {store : SegmentStore}
    {index : Index} {job : FlushJob} {n : Nat}
    {next : SegmentStore ⊕ FlushJob}
    (hs : store.flushStep json n index data job = some (data', next)) :
    job.stage = .syncDir ↔ next.isLeft = true := by
  obtain ⟨segment, stage⟩ := job
  cases stage with
  | write bytes done =>
      simp only [flushStep] at hs
      split at hs
      all_goals
        cases hs
        simp
  | open_ bytes | syncAll =>
      simp only [flushStep] at hs
      cases hs
      simp
  | toVec | rename | syncDir =>
      simp only [flushStep, Option.map_eq_some_iff] at hs
      obtain ⟨_, -, heq⟩ := hs
      cases heq
      simp

/-- A call of a flush: on the temporary file, the rename, or the last. -/
inductive FlushJob.Call (json : Json) (data : DataDir)
    (store : SegmentStore) (files : List (Nat × Segment)) (job : FlushJob)
    (index : Index) : DataDir → SegmentStore ⊕ FlushJob → Prop
  | temporary {data' : DataDir} {stage : FlushStage}
      (held : data'.Holds json files)
      (ok : FlushJob.Ok json data' store.nextNumber ⟨job.segment, stage⟩)
      (before : stage ≠ .syncDir) :
      Call json data store files job index data'
        (.inr ⟨job.segment, stage⟩)
  | rename {data' : DataDir}
      (held : data'.Holds json
        (files ++ [(store.nextNumber, job.segment)])) :
      Call json data store files job index data'
        (.inr ⟨job.segment, .syncDir⟩)

/-- The calls before the last. Those on the temporary file change no
segment; the rename puts what is in the temporary file under the number,
which is above all others, and what is there was written whole. -/
theorem FlushJob.Ok.step (hjson : json.Lawful) (h : data.Holds json files)
    (hnext : ∀ f ∈ files, f.1 < store.nextNumber)
    (hok : job.Ok json data store.nextNumber) (hstage : job.stage ≠ .syncDir)
    {r : SegmentStore ⊕ FlushJob}
    (hs : store.flushStep json n index data job = some (data', r)) :
    FlushJob.Call json data store files job index data' r := by
  obtain ⟨segment, stage⟩ := job
  have htmp : ∀ bytes, DataDir.Holds json
      (data.insert (.temporary store.nextNumber) bytes) files := by
    intro bytes
    refine h.congr (fun k => ?_) (fun raw => ?_)
    · rw [HashMap.lookup_insert_if, if_neg (by simp)]
    · rw [HashMap.lookup_insert_if, if_neg (by simp)]
  cases stage with
  | toVec =>
      simp only [SegmentStore.flushStep, Option.map_eq_some_iff] at hs
      obtain ⟨payload, hvec, heq⟩ := hs
      cases heq
      exact .temporary h ⟨payload, hvec, rfl⟩ (by simp)
  | open_ bytes =>
      obtain ⟨payload, hvec, rfl⟩ := hok
      cases hs
      refine .temporary (htmp _) ⟨payload, hvec, rfl, ?_⟩ (by simp)
      rw [HashMap.lookup_insert_if, if_pos rfl, List.take_zero]
  | write bytes done =>
      obtain ⟨payload, hvec, rfl, hfile⟩ := hok
      simp only [SegmentStore.flushStep] at hs
      split at hs
      · rename_i hmore
        cases hs
        refine .temporary (htmp _) ⟨payload, hvec, rfl, ?_⟩ (by simp)
        rw [HashMap.lookup_insert_if, if_pos rfl, hfile, Option.getD_some,
          List.take_add,
          ← List.prefix_iff_eq_take.mp (List.take_prefix (max n 1) _)]
      · rename_i hall
        cases hs
        refine .temporary h ⟨payload, hvec, ?_⟩ (by simp)
        rw [hfile, List.take_of_length_le (Nat.le_of_not_lt hall)]
  | syncAll =>
      cases hs
      exact .temporary h hok (by simp)
  | rename =>
      obtain ⟨payload, hvec, hfile⟩ := hok
      simp only [SegmentStore.flushStep, hfile, Option.map_some] at hs
      cases hs
      refine .rename (h.concat hnext (fun k hk => ?_) (fun raw => ?_) ?_)
      · rw [HashMap.lookup_insert_if, if_neg (by simpa using hk),
          HashMap.lookup_erase_if, if_neg (by simp)]
      · rw [HashMap.lookup_insert_if, if_neg (by simp),
          HashMap.lookup_erase_if, if_neg (by simp)]
      · refine readSegment_file hjson hvec ?_
        rw [HashMap.lookup_insert_if, if_pos rfl]
  | syncDir => exact absurd rfl hstage

/-- The last call adds the segment to the store. -/
theorem FlushJob.register {names : List LabelSet}
    (hnames : index.Names names) (hstore : store.StoreFor names files)
    {v : View} (hfits : job.segment.Fits v)
    (hin : ∀ s ∈ job.segment.series, s.labels ∈ names)
    (hstage : job.stage = .syncDir) :
    ∃ store', store.flushStep json n index data job = some (data, .inl store')
      ∧ store'.StoreFor names
        (files ++ [(store.nextNumber, job.segment)]) := by
  obtain ⟨ranges, hranges, hfor⟩ :=
    SegmentStore.rangesOf_ok hnames hfits hin
  refine ⟨_, by simp only [SegmentStore.flushStep, hstage, hranges]; rfl,
    hstore.segments.concat hfor, ?_, ?_⟩
  · intro ls hls
    obtain ⟨f, hf, s, hs, rfl⟩ := SegmentStore.mem_labelsOf.mp hls
    rcases List.mem_append.mp hf with hf | hf
    · exact hstore.named _
        (SegmentStore.mem_labelsOf.mpr ⟨f, hf, s, hs, rfl⟩)
    · rw [List.mem_singleton.mp hf] at hs
      exact hin s hs
  · rw [List.map_append, List.map_singleton, List.getLast?_concat]
    rfl

/-- Every known file has a number below the next. -/
theorem SegmentStore.StoreFor.below {names : List LabelSet}
    (hstore : store.StoreFor names files) (h : data.Holds json files) :
    ∀ f ∈ files, f.1 < store.nextNumber := by
  intro f hf
  obtain ⟨front, last, rfl⟩ : ∃ front last, files = front ++ [last] :=
    ⟨_, _, (List.dropLast_concat_getLast (by rintro rfl; cases hf)).symm⟩
  rw [hstore.next, List.map_append, List.map_singleton,
    List.getLast?_concat]
  show f.1 < last.1 + 1
  rcases List.mem_append.mp hf with hf | hf
  · exact Nat.lt_succ_of_lt ((List.pairwise_append.mp h.asc).2.2 f hf last
      List.mem_cons_self)
  · rw [List.mem_singleton.mp hf]
    exact Nat.lt_succ_self _

end Tsdb
