/-
The store in use (`SegmentStore`): opened on whatever directory opens, and
flushed to.

# Runs

`Live` is the runs: `open`, then flushes that go through, between them an
index that grows and series whose states change. A table is one that
`DbState::flush` builds (`Table`): an id occurs once, with samples in
order, later than what the files hold for it. The directory `open` finds
may be anyone's, as long as `open` goes through.

# The invariant

`Backed` relates the directory, the store and the index to a list of valid
segments. It is what `open` has checked (`open_inv`), and each flush adds
a segment that fits: the table continues the histories
(`Backed.continues`, by what `Table` says of the files), so the calls of
the flush end with the list one longer (`Backed.run`), and an empty table
writes no file (`Backed.flush`). Label sets that join the index, and
samples that join or leave a series, change neither directory nor store.
`Live.backed` is the induction over the run.

# What a query may pass over

A file's ranges say first and last timestamp of each of its series. A
file is passed over if no series asked for has a range that meets the
query's; all samples of such a series are outside the query's range, since
they are within their own. `read_skips` compares with the read of every
file, through `readWhere_ok` of `Tsdb.Storage.Store` used twice: with the
files `read` chooses, and with all of them.

The example has two segments and a range that meets the second
(`live_flushed`, `read_skips_flushed`).
-/
import Tsdb.Storage.Flush
import Tsdb.Storage.Format
import Tsdb.Storage.Validation

namespace Tsdb

open Lib (Ascending Bytes HashMap)

variable {json : Json}

-- ================================================================ flushing

/-- The calls of a flush, from one on to the last. -/
inductive FlushRun (json : Json) (index : Index) :
    DataDir → SegmentStore → FlushJob → DataDir → SegmentStore → Prop
  | last {n : Nat} {data data' : DataDir} {store store' : SegmentStore}
      {job : FlushJob}
      (h : store.flushStep json n index data job
        = some (data', .inl store')) :
      FlushRun json index data store job data' store'
  | step {n : Nat} {data data' data'' : DataDir}
      {store store' : SegmentStore} {job job' : FlushJob}
      (h : store.flushStep json n index data job = some (data', .inr job'))
      (rest : FlushRun json index data' store job' data'' store') :
      FlushRun json index data store job data'' store'

/-- `flush`, gone through. -/
inductive SegmentStore.Flush (json : Json) (index : Index)
    (data : DataDir) (store : SegmentStore) :
    List (SeriesId × List Sample) → DataDir → SegmentStore → Prop
  | nothing : Flush json index data store [] data store
  | run {table : List (SeriesId × List Sample)} {seg : Segment}
      {data' : DataDir} {store' : SegmentStore} (hne : table ≠ [])
      (hseg : segmentOf table index = some seg)
      (hrun : FlushRun json index data store ⟨seg, .toVec⟩ data' store') :
      Flush json index data store table data' store'

/-- The calls of a flush that goes through, its `write` call writing all.
Each `have` is one call, and the run is put together from them. -/
theorem FlushRun.through {index : Index} {data : DataDir}
    {store : SegmentStore} {seg : Segment} {payload : Bytes} {ranges : Ranges}
    (hvec : json.toVec seg = some payload)
    (hranges : SegmentStore.rangesOf seg index = some ranges) :
    let file := segmentFile payload
    let opened := data.insert (DataName.temporary store.nextNumber) []
    let written := opened.insert (DataName.temporary store.nextNumber) file
    FlushRun json index data store { segment := seg }
      ((written.erase (DataName.temporary store.nextNumber)).insert
        (DataName.segment store.nextNumber) file)
      { segments := store.segments ++ [{ number := store.nextNumber, ranges }]
        nextNumber := store.nextNumber + 1 } := by
  intro file opened written
  have hstart : store.flushStep json 0 index data ⟨seg, .toVec⟩
      = some (data, .inr ⟨seg, .open_ file⟩) := by
    simp only [SegmentStore.flushStep, hvec, Option.map_some]
    rfl
  have hopen : store.flushStep json 0 index data ⟨seg, .open_ file⟩
      = some (opened, .inr ⟨seg, .write file 0⟩) := rfl
  have hwrite : store.flushStep json file.length index opened
      ⟨seg, .write file 0⟩
      = some (written, .inr ⟨seg, .write file file.length⟩) := by
    have hpos : 0 < file.length := by simp [file, segmentFile, magic]
    have hall : file.take (max file.length 1) = file :=
      List.take_of_length_le (Nat.le_max_left _ _)
    simp only [SegmentStore.flushStep]
    rw [if_pos hpos, List.drop_zero, hall, AList.lookup_insert]
    simp [written]
  have hwritten : store.flushStep json 0 index written
      ⟨seg, .write file file.length⟩ = some (written, .inr ⟨seg, .syncAll⟩) :=
    if_neg (Nat.lt_irrefl _)
  have hrename : store.flushStep json 0 index written ⟨seg, .rename⟩
      = some ((written.erase (DataName.temporary store.nextNumber)).insert
        (DataName.segment store.nextNumber) file, .inr ⟨seg, .syncDir⟩) := by
    simp only [SegmentStore.flushStep, written]
    rw [AList.lookup_insert]
    rfl
  refine .step hstart (.step hopen (.step hwrite (.step hwritten
    (.step (n := 0) rfl (.step hrename (.last (n := 0) ?_))))))
  simp only [SegmentStore.flushStep, hranges]
  rfl

/-- What the files of the store hold for a label set. -/
def SegmentStore.stored (json : Json) (data : DataDir)
    (store : SegmentStore) (ls : LabelSet) : List Sample :=
  store.segments.flatMap fun known =>
    match readSegment json data (.segment known.number) with
    | .ok seg => seg.samplesOf ls
    | .error _ => []

/-- A table as `DbState::flush` builds it. -/
structure Table (json : Json) (data : DataDir) (store : SegmentStore)
    (index : Index) (table : List (SeriesId × List Sample)) : Prop where
  nodup : (table.map Prod.fst).Nodup
  nonempty : ∀ e ∈ table, e.2 ≠ []
  asc : ∀ e ∈ table, Ascending Sample.timestamp e.2
  later : ∀ e ∈ table, ∀ ls, index.labelsFor e.1 = some ls →
    ∀ old ∈ store.stored json data ls, ∀ first ∈ e.2.head?,
      old.timestamp < first.timestamp

/-- A store in use, with its directory and its index. -/
inductive Live (json : Json) : DataDir → SegmentStore → Index → Prop
  | opened {data : DataDir} {store : SegmentStore} {index : Index}
      {latest : HashMap SeriesId UInt64} (sets : List LabelSet)
      (h : SegmentStore.open_ json data (Index.new.encodeAll sets)
        = .ok (store, index, latest)) : Live json data store index
  | encode {data : DataDir} {store : SegmentStore} {index : Index}
      (h : Live json data store index) (ls : LabelSet) :
      Live json data store (index.encode ls).2
  | modify {data : DataDir} {store : SegmentStore} {index : Index}
      (h : Live json data store index) (id : SeriesId)
      (f : SeriesState → SeriesState) :
      Live json data store (index.modify id f)
  | flush {data data' : DataDir} {store store' : SegmentStore}
      {index : Index} {table : List (SeriesId × List Sample)}
      (h : Live json data store index)
      (htable : Table json data store index table)
      (hflush : store.Flush json index data table data' store') :
      Live json data' store' index

-- =========================================================== the invariant

/-- The segments behind the store. -/
structure Backed (json : Json) (data : DataDir) (store : SegmentStore)
    (index : Index) (names : List LabelSet) (files : List (Nat × Segment)) :
    Prop where
  named : index.Names names
  held : data.Holds json files
  valid : Valid (files.map Prod.snd)
  known : store.StoreFor names files

/-- The history of a label set through a list of files. -/
def histOf (files : List (Nat × Segment)) (ls : LabelSet) : List Sample :=
  files.flatMap fun f => f.2.samplesOf ls

theorem hist_files (v : View) (hv : ∀ ls, v.hist ls = [])
    (files : List (Nat × Segment)) (ls : LabelSet) :
    (v.loadAll (files.map Prod.snd)).hist ls = histOf files ls := by
  rw [View.hist_loadAll, hv, List.nil_append, List.flatMap_map]
  rfl

namespace Backed

variable {data data' : DataDir} {store store' : SegmentStore} {index : Index}
  {names : List LabelSet} {files : List (Nat × Segment)}

/-- What the files hold is the history. -/
theorem stored_eq (h : Backed json data store index names files)
    (ls : LabelSet) : store.stored json data ls = histOf files ls := by
  have hloop : ∀ (known : List SegmentMeta) (files : List (Nat × Segment)),
      SegmentStore.Knows names known files →
      (∀ f ∈ files, readSegment json data (.segment f.1) = .ok f.2) →
      (known.flatMap fun known =>
        match readSegment json data (.segment known.number) with
        | .ok seg => seg.samplesOf ls
        | .error _ => []) = histOf files ls := by
    intro known files hknows
    induction hknows with
    | nil => exact fun _ => rfl
    | @cons known f knowns files hm _ ih =>
        intro hreads
        have hread := hreads f List.mem_cons_self
        rw [List.flatMap_cons,
          ih fun g hg => hreads g (List.mem_cons_of_mem _ hg), hm.1, hread]
        rfl
  exact hloop store.segments files h.known.segments h.held.reads

theorem asc (h : Backed json data store index names files) (ls : LabelSet) :
    Ascending Sample.timestamp (histOf files ls) := by
  have := h.valid.asc ls
  rwa [List.flatMap_map] at this

/-- A table as `DbState::flush` builds it continues the histories. -/
theorem continues (h : Backed json data store index names files)
    {table : List (SeriesId × List Sample)}
    (htable : Table json data store index table) :
    SegmentStore.Continues names table
      (View.loadAll {} (files.map Prod.snd)) where
  nodup := htable.nodup
  nonempty := htable.nonempty
  asc e he ls hls := by
    rw [hist_files {} fun _ => rfl]
    have hown := htable.asc e he
    refine List.pairwise_append.mpr ⟨h.asc ls, hown, fun x hx y hy => ?_⟩
    obtain ⟨first, rest, hcons⟩ :=
      List.exists_cons_of_ne_nil (htable.nonempty e he)
    have hxf : x.timestamp < first.timestamp := by
      refine htable.later e he ls ?_ x ?_ first (by rw [hcons]; rfl)
      · rw [h.named.forward]
        exact hls
      · rw [h.stored_eq]
        exact hx
    rw [hcons] at hown hy
    rcases List.mem_cons.mp hy with rfl | hy
    · exact hxf
    · exact lt_trans hxf ((List.pairwise_cons.mp hown).1 y hy)

/-- The calls of a flush: the files are as they were up to the rename, and
there is one more behind it. The induction is on the run, with the two
halves as the cases of its hypothesis; only the rename goes from one to the
other. -/
private theorem run (hjson : json.Lawful)
    (h : Backed json data store index names files) {job : FlushJob}
    (hfits : job.segment.Fits (View.loadAll {} (files.map Prod.snd)))
    (hin : ∀ s ∈ job.segment.series, s.labels ∈ names) {start : DataDir}
    (hjob : (job.stage ≠ .syncDir ∧ job.Ok json start store.nextNumber
        ∧ start.Holds json files)
      ∨ (job.stage = .syncDir ∧ start.Holds json
        (files ++ [(store.nextNumber, job.segment)])))
    (hrun : FlushRun json index start store job data' store') :
    Backed json data' store' index names
      (files ++ [(store.nextNumber, job.segment)]) := by
  induction hrun with
  | @last n start data' store store' job hlast =>
      rcases hjob with ⟨hstage, hok, hheld⟩ | ⟨hstage, hheld⟩
      · cases hok.step hjson hheld (h.known.below h.held) hstage hlast
      · obtain ⟨store₁, hregister, hknown⟩ : ∃ store₁,
            store.flushStep json n index start job = some (start, .inl store₁)
            ∧ store₁.StoreFor names
              (files ++ [(store.nextNumber, job.segment)]) :=
          FlushJob.register h.named h.known hfits hin hstage
        rw [hregister] at hlast
        cases hlast
        refine ⟨h.named, hheld, ?_, hknown⟩
        rw [List.map_append, List.map_singleton]
        exact (valid_concat fun _ => rfl).mpr ⟨h.valid, hfits⟩
  | @step n start next data'' store store' job job' hstep hrest ih =>
      rcases hjob with ⟨hstage, hok, hheld⟩ | ⟨hstage, hheld⟩
      · cases hok.step hjson hheld (h.known.below h.held) hstage hstep with
        | temporary hheld' hok' hbefore =>
            exact ih h hfits hin (.inl ⟨hbefore, hok', hheld'⟩)
        | rename hheld' => exact ih h hfits hin (.inr ⟨rfl, hheld'⟩)
      · obtain ⟨store₁, hregister, -⟩ : ∃ store₁,
            store.flushStep json n index start job = some (start, .inl store₁)
            ∧ store₁.StoreFor names
              (files ++ [(store.nextNumber, job.segment)]) :=
          FlushJob.register h.named h.known hfits hin hstage
        rw [hregister] at hstep
        cases hstep

/-- A flush adds its segment, or nothing. -/
theorem flush (hjson : json.Lawful)
    (h : Backed json data store index names files)
    {table : List (SeriesId × List Sample)}
    (htable : Table json data store index table)
    (hflush : store.Flush json index data table data' store') :
    ∃ files', Backed json data' store' index names files' := by
  cases hflush with
  | nothing => exact ⟨files, h⟩
  | @run _ seg _ _ hne hseg hrun =>
      have hentries := SegmentStore.segmentOf_table h.named hseg
      have hfits := hentries.fits h.named.nodup
        (h.valid.asc_loadAll fun _ => rfl) (h.continues htable)
      refine ⟨_, h.run hjson hfits (fun s hs => hentries.named hs)
        (.inl ⟨?_, ?_, h.held⟩) hrun⟩
      · nofun
      · trivial

end Backed

theorem Index.Names.encodeAll {index : Index} {names : List LabelSet}
    (h : index.Names names) (sets : List LabelSet) :
    (index.encodeAll sets).Names (touchAll names sets) := by
  induction sets generalizing index names with
  | nil => exact h
  | cons ls sets ih => exact ih (h.encode ls).2

/-- A store in use has its segments behind it. -/
theorem Live.backed (hjson : json.Lawful) {data : DataDir}
    {store : SegmentStore} {index : Index} (h : Live json data store index) :
    ∃ names files, Backed json data store index names files := by
  induction h with
  | opened sets h =>
      let v : View := { sets := touchAll [] sets }
      obtain ⟨files, hheld, hvalid, hloaded, hstore⟩ :=
        SegmentStore.open_inv (v := v) (fun _ => rfl)
          (Index.Names.new.encodeAll sets) h
      exact ⟨_, files, hloaded.names, hheld, hvalid, hstore⟩
  | encode h ls ih =>
      obtain ⟨names, files, hback⟩ := ih
      have hnames := (hback.named.encode ls).2
      exact ⟨_, files, hnames, hback.held, hback.valid,
        hback.known.mono (prefix_touch names ls) hnames.nodup⟩
  | modify h id f ih =>
      obtain ⟨names, files, hback⟩ := ih
      exact ⟨names, files, hback.named.modify id f, hback.held, hback.valid,
        hback.known⟩
  | flush h htable hflush ih =>
      obtain ⟨names, files, hback⟩ := ih
      obtain ⟨files', hback'⟩ := hback.flush hjson htable hflush
      exact ⟨names, files', hback'⟩

-- =============================================================== the reads

/-- A query that passes over the segments it is not concerned with finds
what one does that reads every file: of each id asked for, what is stored
for its label set, cut to the range, in the order of the timestamps.

Both readings are `readWhere_ok`, at two choices of what is wanted, and what
it says of the answer does not depend on the choice. -/
theorem read_skips (hjson : json.Lawful) {data : DataDir}
    {store : SegmentStore} {index : Index} (h : Live json data store index)
    {ids : List SeriesId} {labels : HashMap LabelSet SeriesId}
    (hlabels : ∀ ls id, labels.lookup ls = some id
      ↔ id ∈ ids ∧ index.labelsFor id = some ls) (range : TimeRange) :
    ∃ result every,
      SegmentStore.read json data store ids labels range = .ok result
      ∧ SegmentStore.readWhere json data store (fun _ => true) ids labels
        range = .ok every
      ∧ (∀ id, (result.lookup id).getD [] = (every.lookup id).getD [])
      ∧ (∀ id, (result.lookup id).getD [] = if id ∈ ids then
          (((index.labelsFor id).map (store.stored json data)).getD
            []).filter (·.inTimerange range) else [])
      ∧ ∀ id, Ascending Sample.timestamp ((result.lookup id).getD []) := by
  obtain ⟨names, files, hback⟩ := h.backed hjson
  have hlabels' : ∀ ls id, labels.lookup ls = some id
      ↔ id ∈ ids ∧ names[id]? = some ls := by
    intro ls id
    rw [hlabels, hback.named.forward]
  have hnil : ∀ ls, ({} : View).hist ls = [] := fun _ => rfl
  have hwhere : ∀ wanted : SegmentMeta → Bool,
      (∀ known, wanted known = false → known.concerns ids range = false) →
      ∃ result, SegmentStore.readWhere json data store wanted ids labels range
          = .ok result
        ∧ SegmentStore.Answers names ids range result
          (View.loadAll {} (files.map Prod.snd)) := fun wanted hwanted =>
    SegmentStore.readWhere_ok hback.held hback.valid hback.known hlabels'
      hwanted hnil
  obtain ⟨result, hread, hresult⟩ := hwhere _ fun _ hskip => hskip
  obtain ⟨every, hall, hevery⟩ := hwhere (fun _ => true) nofun
  have hanswer : ∀ id, (result.lookup id).getD [] = if id ∈ ids then
      (((index.labelsFor id).map (store.stored json data)).getD
        []).filter (·.inTimerange range) else [] := by
    intro id
    rw [hresult id, SegmentStore.answer, hback.named.forward]
    cases names[id]? with
    | none => rfl
    | some ls =>
        simp only [Option.map_some, Option.getD_some, hback.stored_eq,
          hist_files {} hnil]
  refine ⟨result, every, hread, hall,
    fun id => (hresult id).trans (hevery id).symm, hanswer, fun id => ?_⟩
  rw [hanswer]
  split
  · cases index.labelsFor id with
    | none => exact List.Pairwise.nil
    | some ls =>
        rw [Option.map_some, Option.getD_some, hback.stored_eq]
        exact (hback.asc ls).sublist List.filter_sublist
  · exact List.Pairwise.nil

/-- The series of the example segments. -/
def host : LabelSet := ⟨[⟨"host", "a"⟩]⟩

/-- A store that has been flushed to twice. A query from 7 on needs only the
second of its segments. Each flush is `FlushRun.through`, of a table with
one sample whose text the format knows. -/
theorem live_flushed : ∃ (data : DataDir) (store : SegmentStore)
    (index : Index), Live Json.sample data store index
      ∧ store.segments.map (fun segment =>
          (segment.number, segment.concerns [0] ⟨7, 9⟩))
        = [(0, false), (1, true)]
      ∧ ∀ id, index.labelsFor id = if id = 0 then some host else none := by
  let index := Index.new.encodeAll [host]
  have hopen : SegmentStore.open_ Json.sample ∅ index
      = .ok ({}, index, ∅) := by
    have hkeys : (∅ : DataDir).keys = [] := rfl
    simp only [SegmentStore.open_, hkeys, segmentNumbers, bind, Except.bind,
      List.mergeSort_nil]
    rfl
  have hfive : Json.sample.toVec (.sample 5)
      = some (Segment.sampleText "5") := rfl
  have height : Json.sample.toVec (.sample 8)
      = some (Segment.sampleText "8") := rfl
  have hseg : ∀ t, SegmentStore.segmentOf [(0, [⟨t, 7⟩])] index
      = some (.sample t) := by
    intro t
    simp only [SegmentStore.segmentOf, List.mergeSort_singleton]
    rfl
  have hlabels : ∀ id, index.labelsFor id
      = if id = 0 then some host else none := by
    intro id
    by_cases hid : id = 0
    · rw [hid]
      rfl
    · rw [(Index.Names.new.encodeAll [host]).forward, if_neg hid]
      obtain ⟨k, rfl⟩ := Nat.exists_eq_succ_of_ne_zero hid
      rfl
  have hfirst : Table Json.sample ∅ {} index [(0, [⟨5, 7⟩])] := by
    refine ⟨by decide, by decide, by decide, fun e he ls hls old hold => ?_⟩
    cases hold
  obtain ⟨data, store, hlive, hread, hstore⟩ : ∃ (data : DataDir)
      (store : SegmentStore), Live Json.sample data store index
        ∧ readSegment Json.sample data (.segment 0) = .ok (.sample 5)
        ∧ store = ⟨[{ number := 0, ranges := AList.insert 0 (5, 5) ∅ }], 1⟩ :=
    ⟨_, _, .flush (.opened [host] hopen) hfirst
      (.run (List.cons_ne_nil _ _) (hseg 5)
        (.through hfive rfl)),
      readSegment_file Json.sample_lawful rfl (AList.lookup_insert _), rfl⟩
  subst hstore
  -- the second comes after what the first has for the series
  have hsecond : Table Json.sample data
      ⟨[{ number := 0, ranges := AList.insert 0 (5, 5) ∅ }], 1⟩ index
      [(0, [⟨8, 7⟩])] := by
    refine ⟨by decide, by decide, by decide, fun e he ls hls => ?_⟩
    obtain rfl := List.mem_singleton.mp he
    obtain rfl : host = ls := by simpa [hlabels] using hls
    simp only [SegmentStore.stored, List.flatMap_cons, List.flatMap_nil, hread]
    decide +kernel
  exact ⟨_, _, index, hlive.flush hsecond
    (.run (List.cons_ne_nil _ _) (hseg 8)
      (.through height rfl)), rfl, hlabels⟩

/-- The labels of its one series. -/
theorem live_labels {index : Index}
    (h : ∀ id, index.labelsFor id = if id = 0 then some host else none)
    (ls : LabelSet) (id : SeriesId) :
    ((∅ : HashMap LabelSet SeriesId).insert host 0).lookup ls = some id
      ↔ id ∈ [0] ∧ index.labelsFor id = some ls := by
  rw [HashMap.lookup_insert_if, h, List.mem_singleton]
  by_cases hls : ls = host
  · subst hls
    rw [if_pos rfl, Option.some.injEq]
    constructor
    · rintro rfl
      exact ⟨rfl, rfl⟩
    · intro hid
      exact hid.1.symm
  · rw [if_neg hls]
    constructor
    · nofun
    · intro hid
      rw [if_pos hid.1, Option.some.injEq] at hid
      exact absurd hid.2.symm hls

/-- With two segments, of which the range meets the second. -/
theorem read_skips_flushed :
    ∃ (data : DataDir) (store : SegmentStore)
      (result every : HashMap SeriesId (List Sample)),
      store.segments.map (fun segment =>
          (segment.number, segment.concerns [0] ⟨7, 9⟩))
        = [(0, false), (1, true)]
      ∧ SegmentStore.read Json.sample data store [0]
        ((∅ : HashMap LabelSet SeriesId).insert host 0) ⟨7, 9⟩ = .ok result
      ∧ SegmentStore.readWhere Json.sample data store (fun _ => true) [0]
        ((∅ : HashMap LabelSet SeriesId).insert host 0) ⟨7, 9⟩ = .ok every
      ∧ (∀ id, (result.lookup id).getD [] = (every.lookup id).getD []) := by
  obtain ⟨data, store, index, hlive, hsegments, hlabels⟩ := live_flushed
  obtain ⟨result, every, hread, hall, hsame, -⟩ :=
    read_skips Json.sample_lawful hlive (live_labels hlabels) ⟨7, 9⟩
  exact ⟨data, store, result, every, hsegments, hread, hall, hsame⟩

end Tsdb
