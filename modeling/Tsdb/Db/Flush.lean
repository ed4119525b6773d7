/-
A flush of the database, from the cut to the segment (`DbState::flush`).

# The ledger

`Ledger` is what is known of a database beside its state: the label sets by
id, the segments, the view, and the label sets the log has been told of.
`Settled` relates a state to it between two operations: memory shows the
view on top of the segments, the directory holds the segments, they are
valid, and the store is for them.

# What moves

`takeTable` takes the samples of every series out of memory, so that the
index shows all of a history as flushed (`Index.Shows.takeTable`) before any
of it is on disk. What is on disk until the rename, and what behind it, is
in `Flushing`; when the store has its segment the two agree again
(`Flushing.step`).

`takeTable` is a loop over the ids, and the lemma an induction on them: an
id with samples makes an entry and leaves none, an id without makes none,
and no state is looked at twice. The table then has what was in memory of
every series, in the order of the ids, and what it has of one goes on
where the segments end, because memory is the end of the history
(`Settled.continues`). By the lemmas of `Tsdb.Storage.Flush` the segment
made of it fits.

# Within the flush

`Flushing` has the invariant of the job (`FlushJob.Stands`): before the
rename the directory holds the old segments, behind it one more. The state
in memory says nothing about the samples any more, which is why a flush
that fails leaves the database failed; what is true of it then is left to
`Tsdb.Db.Invariant`. With an empty table there was nothing in memory, and
the flush writes no segment (`startFlush`).
-/
import Tsdb.Db.System
import Tsdb.Db.Query
import Tsdb.Storage.Live

namespace Tsdb

open Lib (Ascending HashMap)

structure Ledger where
  names : List LabelSet := []
  files : List (Nat × Segment) := []
  view : View := {}
  defined : List LabelSet := []

/-- What the segments hold. -/
def Ledger.base (g : Ledger) : View :=
  View.loadAll {} (g.files.map Prod.snd)

theorem Ledger.hist_base (g : Ledger) (ls : LabelSet) :
    g.base.hist ls = histOf g.files ls :=
  hist_files {} (fun _ => rfl) g.files ls

/-- A label set that is in no segment has nothing there. -/
theorem Ledger.hist_unknown (g : Ledger) {ls : LabelSet}
    (h : ls ∉ g.base.sets) : g.base.hist ls = [] := by
  unfold base at h ⊢
  rw [View.sets_loadAll, mem_touchAll, not_or] at h
  rw [View.hist_loadAll]
  show List.flatMap _ _ = []
  rw [List.flatMap_eq_nil_iff]
  intro seg hseg
  refine List.eq_nil_iff_forall_not_mem.mpr fun x hx => h.2 ?_
  obtain ⟨s, hs, rfl, -⟩ := Segment.mem_samplesOf.mp hx
  exact List.mem_flatMap.mpr ⟨seg, hseg, List.mem_map_of_mem hs⟩

-- ============================================================= the samples

variable {index : Index} {names : List LabelSet}
  {disk : LabelSet → List Sample} {v : View}

/-- The entries of a table: the series that have samples. -/
def Index.entries (index : Index) (ids : List SeriesId) :
    List (SeriesId × List Sample) :=
  (ids.filter fun id => (index.state id).samples ≠ []).map fun id =>
    (id, (index.state id).samples)

private theorem entries_cons (index : Index) (id : SeriesId)
    (ids : List SeriesId) :
    index.entries (id :: ids)
      = if (index.state id).samples = [] then index.entries ids
        else (id, (index.state id).samples) :: index.entries ids := by
  unfold Index.entries
  by_cases hs : (index.state id).samples = []
  · rw [List.filter_cons_of_neg (by simp [hs]), if_pos hs]
  · rw [List.filter_cons_of_pos (by simp [hs]), List.map_cons, if_neg hs]

/-- Other states do not matter to the entries. -/
private theorem entries_congr {index' : Index} {ids : List SeriesId}
    (h : ∀ id ∈ ids, index'.state id = index.state id) :
    index'.entries ids = index.entries ids := by
  induction ids with
  | nil => rfl
  | cons id ids ih =>
      rw [entries_cons, entries_cons, h id List.mem_cons_self,
        ih fun j hj => h j (List.mem_cons_of_mem _ hj)]

/-- An id has one entry, or none if it has no samples. -/
private theorem entries_of {ids : List SeriesId} (hnd : ids.Nodup)
    (id : SeriesId) :
    ((index.entries ids).filter (·.1 = id)).flatMap Prod.snd
      = if id ∈ ids then (index.state id).samples else [] := by
  induction ids with
  | nil => rfl
  | cons j ids ih =>
      obtain ⟨hnot, hnd⟩ := List.nodup_cons.mp hnd
      have hrest := ih hnd
      rw [entries_cons]
      by_cases he : j = id
      · subst he
        rw [if_neg hnot] at hrest
        rw [if_pos List.mem_cons_self]
        by_cases hs : (index.state j).samples = []
        · rw [if_pos hs, hrest, hs]
        · rw [if_neg hs, List.filter_cons_of_pos (by simp),
            List.flatMap_cons, hrest, List.append_nil]
      · have hmem : id ∈ j :: ids ↔ id ∈ ids := by
          simp [Ne.symm he]
        rw [← hrest.trans (if_congr hmem.symm rfl rfl)]
        split
        · rfl
        · rw [List.filter_cons_of_neg (by simp [he])]

/-- They come in the order of the ids. -/
theorem Index.sorted_entries (index : Index) (n : Nat) :
    SegmentStore.sorted (index.entries (List.range n))
      = index.entries (List.range n) := by
  refine SegmentStore.sorted_of_ascending ?_
  unfold Index.entries Ascending
  rw [List.pairwise_map]
  exact List.pairwise_lt_range.sublist List.filter_sublist

/-- The loop takes the entries out, and all of them are then flushed. The
induction is on the ids: what the first has in memory goes to the part on
disk, and the others are as they were, since no id comes twice. -/
theorem Index.Shows.takeTable (h : index.Shows names disk v)
    {ids : List SeriesId} (hnd : ids.Nodup)
    (hids : ∀ id ∈ ids, ∃ ls, names[id]? = some ls) :
    (index.takeTable ids).1 = index.entries ids
      ∧ ∃ disk', (index.takeTable ids).2.Shows names disk' v
        ∧ (∀ ls, disk ls = v.hist ls → disk' ls = v.hist ls)
        ∧ (∀ id ∈ ids, ∀ ls, names[id]? = some ls → disk' ls = v.hist ls)
        ∧ ∀ generation defined, index.Logged names generation defined →
          (index.takeTable ids).2.Logged names generation defined := by
  induction ids generalizing index disk with
  | nil =>
      exact ⟨rfl, disk, h, fun _ hls => hls, by simp, fun _ _ hl => hl⟩
  | cons id ids ih =>
      obtain ⟨hnot, hnd⟩ := List.nodup_cons.mp hnd
      obtain ⟨ls, hls⟩ := hids id List.mem_cons_self
      obtain ⟨hlt, -⟩ := List.getElem?_eq_some_iff.mp hls
      have hget := h.named.get hls
      -- the samples of this series go to the part that is flushed
      have hmoved : (index.modify id fun st => st.takeSamples.2).Shows names
          (Function.update disk ls (v.hist ls)) v := by
        refine h.modify hls ?_ ?_ fun l hl => ⟨?_, rfl⟩
        · rw [Function.update_self, h.hist id ls hls]
          exact (h.holds id ls hls).takeSamples
        · rw [Function.update_self]
          exact (List.append_nil _).symm
        · exact Function.update_of_ne hl _ _
      have hothers : ∀ j ∈ ids,
          (index.modify id fun st => st.takeSamples.2).state j
            = index.state j := by
        intro j hj
        rw [h.named.state_modify hlt, if_neg]
        rintro rfl
        exact hnot hj
      obtain ⟨htable, disk', hshows, hkeep, hall, hlog⟩ :=
        ih hmoved hnd fun j hj => hids j (List.mem_cons_of_mem _ hj)
      rw [entries_congr hothers] at htable
      have hstep : index.takeTable (id :: ids)
          = ((if (index.state id).samples = []
              then ((index.modify id fun st => st.takeSamples.2).takeTable
                ids).1
              else (id, (index.state id).samples)
                :: ((index.modify id fun st => st.takeSamples.2).takeTable
                  ids).1),
            ((index.modify id fun st => st.takeSamples.2).takeTable ids).2) := by
        simp only [Index.takeTable, hget]
        rfl
      rw [hstep]
      refine ⟨?_, disk', hshows, fun l hl => hkeep l ?_, fun j hj l hl => ?_,
        fun generation defined hl => hlog generation defined ?_⟩
      · rw [entries_cons, ← htable]
      · by_cases he : l = ls
        · rw [he, Function.update_self]
        · rw [Function.update_of_ne he, hl]
      · rcases List.mem_cons.mp hj with rfl | hj
        · rw [hls, Option.some.injEq] at hl
          subst hl
          exact hkeep ls (Function.update_self _ _ _)
        · exact hall j hj l hl
      · exact hl.modify h.named hls fun _ => rfl

/-- What `flush` takes: all there is in memory. -/
theorem Index.Shows.takeAll (h : index.Shows names disk v) :
    (index.takeTable (index.resolve [])).1
        = index.entries (List.range names.length)
      ∧ (index.takeTable (index.resolve [])).2.Shows names v.hist v
      ∧ ∀ generation defined, index.Logged names generation defined →
        (index.takeTable (index.resolve [])).2.Logged names generation
          defined := by
  have hall : index.resolve [] = List.range names.length := h.named.all
  rw [hall]
  obtain ⟨htable, disk', hshows, -, hmoved, hlog⟩ :=
    h.takeTable List.nodup_range fun id hid =>
      ⟨_, List.getElem?_eq_getElem (List.mem_range.mp hid)⟩
  refine ⟨htable, ?_, hlog⟩
  have heq : disk' = v.hist := by
    funext ls
    by_cases hls : ls ∈ names
    · obtain ⟨id, hlt, hid⟩ := List.mem_iff_getElem.mp hls
      exact hmoved id (List.mem_range.mpr hlt) ls
        (by rw [List.getElem?_eq_getElem hlt, hid])
    · rw [(hshows.other ls hls).1, (hshows.other ls hls).2]
  rwa [heq] at hshows

/-- With all of a history flushed there is nothing in memory. -/
theorem Index.Shows.inMemory_eq_zero (h : index.Shows names v.hist v) :
    index.inMemory = 0 := by
  rw [Index.inMemory, h.named.all, List.sum_eq_zero_iff_forall_eq_nat]
  intro n hn
  obtain ⟨id, hid, rfl⟩ := List.mem_map.mp hn
  have hls := List.getElem?_eq_getElem (List.mem_range.mp hid)
  have := h.hist id _ hls
  exact List.length_eq_zero_iff.mpr (List.self_eq_append_right.mp this)

-- ================================================== settled, and under way

/-- The state between two operations. -/
structure Settled (json : Json) (data : DataDir) (state : DbState)
    (g : Ledger) : Prop where
  memory : state.Memory g.names g.base.hist g.view g.defined
  held : data.Holds json g.files
  valid : Valid (g.files.map Prod.snd)
  store : ∃ store, state.store = some store ∧ store.StoreFor g.names g.files

/-- What the directory holds while a segment is written. -/
def FlushJob.Stands (json : Json) (data : DataDir) (number : Nat)
    (files : List (Nat × Segment)) (job : FlushJob) : Prop :=
  (job.stage ≠ .syncDir ∧ job.Ok json data number ∧ data.Holds json files)
  ∨ (job.stage = .syncDir
    ∧ data.Holds json (files ++ [(number, job.segment)]))

/-- The state within the flush of the store: memory has nothing, and the
segments and the job have all. -/
structure Flushing (json : Json) (data : DataDir) (state : DbState)
    (job : FlushJob) (g : Ledger) : Prop where
  shows : state.index.Shows g.names g.view.hist g.view
  logged : state.index.Logged g.names state.generation g.defined
  valid : Valid (g.files.map Prod.snd)
  store : ∃ store, state.store = some store ∧ store.StoreFor g.names g.files
    ∧ job.Stands json data store.nextNumber g.files
  fits : job.segment.Fits g.base
  named : ∀ s ∈ job.segment.series, s.labels ∈ g.names
  moved : ∀ ls, g.base.hist ls ++ job.segment.samplesOf ls = g.view.hist ls

variable {json : Json} {data data' : DataDir} {state : DbState} {g : Ledger}

namespace Settled

/-- What is taken goes on where the segments end. -/
private theorem continues (h : Settled json data state g) :
    SegmentStore.Continues g.names
      (state.index.entries (List.range g.names.length)) g.base where
  nodup := by
    unfold Index.entries
    rw [List.map_map]
    show (List.map id _).Nodup
    rw [List.map_id]
    exact List.nodup_range.filter _
  nonempty e he := by
    obtain ⟨id, hid, rfl⟩ := List.mem_map.mp he
    simpa using (List.mem_filter.mp hid).2
  asc e he ls hls := by
    obtain ⟨id, -, rfl⟩ := List.mem_map.mp he
    exact (h.memory.shows.holds id ls hls).asc

/-- Its segment has, for each label set, what was in memory. -/
private theorem moved (h : Settled json data state g) {seg : Segment}
    (hseg : SegmentStore.TableOf g.names
      (state.index.entries (List.range g.names.length)) seg.series)
    (ls : LabelSet) :
    g.base.hist ls ++ seg.samplesOf ls = g.view.hist ls := by
  have hnd := h.memory.shows.named.nodup
  by_cases hls : ls ∈ g.names
  · obtain ⟨id, hlt, hat⟩ := List.mem_iff_getElem.mp hls
    have hid : g.names[id]? = some ls := by
      rw [List.getElem?_eq_getElem hlt, hat]
    rw [h.memory.shows.hist id ls hid, hseg.samplesOf hnd hid,
      entries_of List.nodup_range, if_pos (List.mem_range.mpr hlt)]
  · have hnone : seg.samplesOf ls = [] := by
      refine List.eq_nil_iff_forall_not_mem.mpr fun x hx => hls ?_
      obtain ⟨s, hs, rfl, -⟩ := Segment.mem_samplesOf.mp hx
      exact hseg.named hs
    rw [hnone, List.append_nil, (h.memory.shows.other ls hls).1,
      (h.memory.shows.other ls hls).2]

/-- With an empty table there was nothing to flush. -/
private theorem nothing (h : Settled json data state g)
    (hnil : state.index.entries (List.range g.names.length) = []) :
    state.bufferedSamples = 0 := by
  rw [h.memory.counted, Index.inMemory, h.memory.shows.named.all,
    List.sum_eq_zero_iff_forall_eq_nat]
  intro n hn
  obtain ⟨id, hid, rfl⟩ := List.mem_map.mp hn
  unfold Index.entries at hnil
  rw [List.map_eq_nil_iff, List.filter_eq_nil_iff] at hnil
  have := hnil id hid
  simpa using this

/-- The cut has returned: there is nothing to flush, or the flush of the
store begins. In the first case what is in memory is on disk already, by the
count of the buffer; in the second the segment fits behind those that are
there, since the table has, for each series, what its history has behind
them. -/
theorem startFlush {db : Db} (h : Settled json data db.state g)
    (who : Caller) (cut : Nat) :
    ∃ index pc, (db.startFlush who cut = some
          { db with state := { db.state with index }, pc }
        ∧ ∃ job, pc = .flush who cut job
          ∧ Flushing json data { db.state with index } job g)
      ∨ (db.startFlush who cut = some
          (Db.flushed { db with state := { db.state with index } } who cut)
        ∧ db.state.bufferedSamples = 0
        ∧ Settled json data
          { db.state with
            index, bufferedSamples := 0, generation := db.state.generation + 1 }
          { g with defined := [] }) := by
  obtain ⟨htable, hshows, hlog⟩ := h.memory.shows.takeAll
  have hlogged := hlog _ _ h.memory.logged
  unfold Db.startFlush
  rcases htake : db.state.index.takeTable (db.state.index.resolve [])
    with ⟨table, index⟩
  rw [htake] at htable hshows hlogged
  replace htable : table = db.state.index.entries _ := htable
  refine ⟨index, ?_⟩
  simp only
  by_cases hnil : table = []
  · have hnone := h.nothing (htable ▸ hnil)
    have hbase : g.view.hist = g.base.hist :=
      h.memory.shows.hist_of_inMemory (h.memory.counted ▸ hnone)
    rw [if_pos hnil]
    refine ⟨.idle, .inr ⟨rfl, hnone, ⟨?_, hlogged.next, ?_⟩, h.held, h.valid,
      h.store⟩⟩
    · show index.Shows g.names g.base.hist g.view
      rw [← hbase]
      exact hshows
    · exact hshows.inMemory_eq_zero.symm
  · rw [if_neg hnil]
    have hcont := h.continues
    rw [← htable] at hcont
    have hids : ∀ e ∈ table, e.1 < g.names.length := by
      intro e he
      rw [htable] at he
      obtain ⟨id, hid, rfl⟩ := List.mem_map.mp he
      exact List.mem_range.mp (List.mem_filter.mp hid).1
    obtain ⟨seg, hseg⟩ := SegmentStore.segmentOf_ok hshows.named hids
    have hof := SegmentStore.segmentOf_table hshows.named hseg
    obtain ⟨store, hsome, hknown⟩ := h.store
    rw [hseg]
    refine ⟨_, .inl ⟨rfl, _, rfl, hshows, hlogged, h.valid,
      ⟨store, hsome, hknown, .inl ⟨nofun, trivial, h.held⟩⟩,
      hof.fits hshows.named.nodup (h.valid.asc_loadAll fun _ => rfl) hcont,
      fun s hs => hof.named hs, h.moved ?_⟩⟩
    rw [htable, Index.sorted_entries] at hof
    exact hof

/-- If every label set has samples, the segment puts the new ones behind
those of the segments before it, in their order. The ids of the table
ascend, and the ids stand for the label sets in the order of the names; a
new one has all its samples in memory, so it has an entry. -/
theorem startFlush_order {db db' : Db} (h : Settled json data db.state g)
    {who : Caller} {cut : Nat} {job : FlushJob}
    (hs : db.startFlush who cut = some db') (hpc : db'.pc = .flush who cut job)
    (hpre : g.base.sets <+: g.names)
    (hall : ∀ ls ∈ g.names, g.view.hist ls ≠ []) :
    touchAll g.base.sets (job.segment.series.map DiskSeries.labels)
      = g.names := by
  obtain ⟨htable, hshows, -⟩ := h.memory.shows.takeAll
  have hnd := hshows.named.nodup
  unfold Db.startFlush at hs
  rcases htake : db.state.index.takeTable (db.state.index.resolve [])
    with ⟨table, index⟩
  rw [htake] at htable hshows hs
  replace htable : table = db.state.index.entries _ := htable
  simp only at hs
  split at hs
  · cases hs
    cases hpc
  · obtain ⟨seg, hseg, rfl⟩ := Option.map_eq_some_iff.mp hs
    cases hpc
    have hof := SegmentStore.segmentOf_table hshows.named hseg
    rw [htable, Index.sorted_entries] at hof
    have hlabels := hof.labels_eq
    refine touchAll_sublist hpre ?_ hnd fun ls hls hnot => ?_
    · -- entries are some of the ids, in order
      have hnames := filterMap_idsWhere g.names fun _ => true
      rw [List.filter_true, idsWhere_eq_range] at hnames
      conv_rhs => rw [← hnames]
      rw [hlabels]
      unfold Index.entries
      rw [List.filterMap_map]
      exact List.filter_sublist.filterMap _
    · obtain ⟨id, hlt, hat⟩ := List.mem_iff_getElem.mp hls
      have hid : g.names[id]? = some ls := by
        rw [List.getElem?_eq_getElem hlt, hat]
      have hsome : (db.state.index.state id).samples ≠ [] := by
        intro hnil
        refine hall ls hls ?_
        rw [h.memory.shows.hist id ls hid, g.hist_unknown hnot, hnil]
        rfl
      rw [hlabels, List.mem_filterMap]
      refine ⟨(id, (db.state.index.state id).samples), ?_, hid⟩
      unfold Index.entries
      exact List.mem_map.mpr ⟨id, List.mem_filter.mpr
        ⟨List.mem_range.mpr hlt, by simpa using hsome⟩, rfl⟩

end Settled

namespace Flushing

/-- A call of the store: the flush goes on, or it is done and the segments
have all there is. Up to the rename the files are those the flush began
with, and from the rename on there is one more; the last call only tells the
store of it. -/
theorem step (hjson : json.Lawful) {db db' : Db} {who : Caller} {cut n : Nat}
    {job : FlushJob} (h : Flushing json data db.state job g)
    (hpc : db.pc = .flush who cut job)
    (hs : db.storeStep json n data = some (data', db')) :
    (∃ job', db' = { db with pc := .flush who cut job' }
        ∧ Flushing json data' db.state job' g)
      ∨ ∃ store number,
        db' = Db.flushed { db with state := { db.state with store } } who cut
        ∧ Settled json data'
          { db.state with
            store, bufferedSamples := 0, generation := db.state.generation + 1 }
          { g with
            files := g.files ++ [(number, job.segment)], defined := [] } := by
  obtain ⟨store, hsome, hknown, hstands⟩ := h.store
  simp only [Db.storeStep, hpc, hsome] at hs
  obtain ⟨⟨data₁, r⟩, hcall, heq⟩ := Option.map_eq_some_iff.mp hs
  clear hs
  rcases hstands with ⟨hstage, hok, hheld⟩ | ⟨hstage, hheld⟩
  · -- a call in front of the last
    cases hok.step hjson hheld (hknown.below hheld) hstage hcall with
    | temporary hheld' hok' hbefore =>
        cases heq
        exact .inl ⟨_, rfl, h.shows, h.logged, h.valid,
          ⟨store, hsome, hknown, .inl ⟨hbefore, hok', hheld'⟩⟩, h.fits,
          h.named, h.moved⟩
    | rename hheld' =>
        cases heq
        exact .inl ⟨_, rfl, h.shows, h.logged, h.valid,
          ⟨store, hsome, hknown, .inr ⟨rfl, hheld'⟩⟩, h.fits, h.named,
          h.moved⟩
  · obtain ⟨store', hregister, hknown'⟩ : ∃ store',
        store.flushStep json n db.state.index data job
          = some (data, .inl store')
        ∧ store'.StoreFor g.names
          (g.files ++ [(store.nextNumber, job.segment)]) :=
      FlushJob.register h.shows.named hknown h.fits h.named hstage
    rw [hregister] at hcall
    cases hcall
    cases heq
    have hbase : ∀ number, (Ledger.base { g with
        files := g.files ++ [(number, job.segment)], defined := [] }).hist
        = g.view.hist := by
      intro number
      funext ls
      rw [← h.moved ls, Ledger.hist_base, Ledger.hist_base, histOf, histOf,
        List.flatMap_append, List.flatMap_singleton]
    refine .inr ⟨some store', store.nextNumber, rfl, ⟨?_, h.logged.next, ?_⟩,
      hheld, ?_, ⟨store', rfl, hknown'⟩⟩
    · rw [hbase]
      exact h.shows
    · exact h.shows.inMemory_eq_zero.symm
    · rw [List.map_append, List.map_singleton]
      exact (valid_concat fun _ => rfl).mpr ⟨h.valid, h.fits⟩

end Flushing

end Tsdb
