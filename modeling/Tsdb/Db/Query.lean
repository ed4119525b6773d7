/-
A query answers from the view (`Db::query`), and the database in memory is
the view it shows (`Db::new`).

# The answer

The part of an answer read from the segments and the part read from memory
are the two halves of one history, each cut to the range. The steps of
`query` are resolved one after the other:

- the ids found are those of the label sets that satisfy the matchers, in
  order (`Reps.resolve`);
- `labels` inverts the index on these ids, since no two have one label set
  (`Names.labelIds`);
- the store answers, under each of these ids, with what its segments have
  of the label set in the range (`read_ok` in `Tsdb.Storage.Store`);
- the loop at the end takes the one and appends what memory has in the
  range; a series with neither is answered with no samples (`collect_ok`).

What segments and memory hold of a series is its history
(`Index.Shows`), and cutting to a range goes through an append, so the
result is `View.query`. Matchers work on canonical label sets. The one
thing that needs labels to be canonical is that ids are found by
their postings, so `query_found` leaves out how the ids were found, for
databases into which other label sets were replayed.

# In memory

`Db::new()` has no store and no log. `inMemory` is the fold of its writes,
and `writes_in_memory` the induction on them, with `Memory` as the
invariant and nothing on disk.
-/
import Tsdb.Db.Memory

namespace Tsdb

open Lib (Ascending HashMap)

variable {index : Index} {names : List LabelSet}
  {disk : LabelSet → List Sample} {v : View} {range : TimeRange}

-- ============================================================ ids and labels

/-- The label sets of the ids that satisfy a predicate, in order, are the
label sets that do. -/
theorem filterMap_idsWhere (names : List LabelSet) (p : LabelSet → Bool) :
    (idsWhere names p).filterMap (fun id => names[id]?) = names.filter p := by
  induction names using List.reverseRecOn with
  | nil => rfl
  | append_singleton names ls ih =>
      have hold : (idsWhere names p).filterMap
          (fun id => (names ++ [ls])[id]?)
          = (idsWhere names p).filterMap (fun id => names[id]?) := by
        refine List.filterMap_congr fun id hid => ?_
        obtain ⟨l, hl, -⟩ := mem_idsWhere.mp hid
        obtain ⟨hlt, -⟩ := List.getElem?_eq_some_iff.mp hl
        exact List.getElem?_append_left hlt
      rw [idsWhere_concat, List.filterMap_append, hold, ih,
        List.filter_append]
      congr 1
      by_cases hp : p ls = true <;> simp [hp]

/-- `labels` of a query inverts the index on the ids asked for. The
induction puts the ids in from the back, and a label set inserted twice has
one id. -/
theorem Index.Names.labelIds (h : index.Names names) (ids : List SeriesId)
    (ls : LabelSet) (id : SeriesId) :
    (index.labelIds ids).lookup ls = some id
      ↔ id ∈ ids ∧ names[id]? = some ls := by
  unfold Index.labelIds
  induction ids using List.reverseRecOn generalizing ls id with
  | nil => simp
  | append_singleton ids i ih =>
      rw [List.foldl_append, List.foldl_cons, List.foldl_nil,
        List.mem_append, List.mem_singleton]
      have hlab := h.forward i
      cases hi : names[i]? with
      | none =>
          rw [hi] at hlab
          simp only [hlab, ih]
          constructor
          · intro hid
            exact ⟨.inl hid.1, hid.2⟩
          · intro hid
            obtain ⟨hid | rfl, hls⟩ := hid
            · exact ⟨hid, hls⟩
            · rw [hi] at hls
              cases hls
      | some l =>
          rw [hi] at hlab
          simp only [hlab, HashMap.lookup_insert_if]
          by_cases he : ls = l
          · subst he
            rw [if_pos rfl, Option.some.injEq]
            constructor
            · intro hid
              subst hid
              exact ⟨.inr rfl, hi⟩
            · intro hid
              exact id_unique h.nodup hi hid.2
          · rw [if_neg he, ih]
            constructor
            · intro hid
              exact ⟨.inl hid.1, hid.2⟩
            · intro hid
              obtain ⟨hid | rfl, hls⟩ := hid
              · exact ⟨hid, hls⟩
              · rw [hi, Option.some.injEq] at hls
                exact absurd hls.symm he

-- ============================================================== the answer

/-- The loop over the ids puts the two halves of each history together. No
id comes twice, so what it takes out of the map for one id is not missed by
another. -/
private theorem collect_ok (h : index.Shows names disk v)
    (ids : List SeriesId) (hnd : ids.Nodup)
    {found : HashMap SeriesId (List Sample)}
    (hfound : ∀ id ls, id ∈ ids → names[id]? = some ls →
      (found.lookup id).getD [] = (disk ls).filter (·.inTimerange range)) :
    index.collect range ids found
      = (ids.filterMap fun id => names[id]?).map fun ls =>
          ⟨ls, (v.hist ls).filter (·.inTimerange range)⟩ := by
  induction ids generalizing found with
  | nil => rfl
  | cons id ids ih =>
      obtain ⟨hnot, hnd⟩ := List.nodup_cons.mp hnd
      have hfound' : ∀ id' ls, id' ∈ ids → names[id']? = some ls →
          ((found.erase id).lookup id').getD []
            = (disk ls).filter (·.inTimerange range) := by
        intro id' ls hid' hls
        have hne : id' ≠ id := fun he => hnot (he ▸ hid')
        rw [HashMap.lookup_erase_if, if_neg hne]
        exact hfound id' ls (List.mem_cons_of_mem _ hid') hls
      have hrest := ih hnd hfound'
      rw [Index.collect]
      cases hls : names[id]? with
      | none =>
          rw [h.named.get_none hls, List.filterMap_cons_none hls]
          exact hrest
      | some ls =>
          have hasc : Ascending Sample.timestamp (index.state id).samples :=
            (List.pairwise_append.mp (h.holds id ls hls).asc).2.1
          rw [h.named.get hls, List.filterMap_cons_some hls, List.map_cons]
          simp only [hrest, hfound id ls List.mem_cons_self hls,
            SeriesState.range_eq_filter hasc, h.hist id ls hls,
            List.filter_append]

/-- A query of a database answers from the histories, once the index has
found the ids. -/
theorem DbState.query_found {json : Json} {data : DataDir} {db : DbState}
    {files : List (Nat × Segment)} {store : SegmentStore}
    (h : db.index.Shows names
      (View.loadAll {} (files.map Prod.snd)).hist v)
    (hdata : data.Holds json files) (hvalid : Valid (files.map Prod.snd))
    (hstore : store.StoreFor names files)
    (hsome : db.store = some store) (hfailed : db.failed = false)
    {matchers : List Matcher} (hresolve : db.index.resolve matchers
      = idsWhere names (satisfiesAll matchers))
    (hrange : range.start ≤ range.end_) :
    db.query json data matchers range
      = .ok (View.query ⟨names, v.hist⟩ matchers range) := by
  have hnil : ∀ ls, ({} : View).hist ls = [] := fun _ => rfl
  obtain ⟨found, hread, hfound⟩ : ∃ found,
      store.read json data (db.index.resolve matchers)
        (db.index.labelIds (db.index.resolve matchers)) range = .ok found
      ∧ SegmentStore.Answers names (db.index.resolve matchers) range found
        (View.loadAll {} (files.map Prod.snd)) :=
    SegmentStore.read_ok hdata hvalid hstore
      (h.named.labelIds (db.index.resolve matchers)) hnil
  have hnd : (idsWhere names (satisfiesAll matchers)).Nodup :=
    (idsWhere_ascending _ _).imp Nat.ne_of_lt
  rw [hresolve] at hread hfound
  simp only [DbState.query, if_neg (not_lt.mpr hrange), hfailed, hsome,
    hresolve, hread, Bool.false_eq_true, if_false]
  rw [collect_ok h _ hnd fun id ls hid hls => ?_, filterMap_idsWhere,
    View.query]
  rw [hfound id, SegmentStore.answer_of_getElem? hid hls]

/-- So it is with canonical label sets, whatever the matchers. -/
theorem DbState.query_ok {json : Json} {data : DataDir} {db : DbState}
    {files : List (Nat × Segment)} {store : SegmentStore}
    (h : db.index.Shows names
      (View.loadAll {} (files.map Prod.snd)).hist v)
    (hcanon : ∀ ls ∈ names, ls.Canonical)
    (hdata : data.Holds json files) (hvalid : Valid (files.map Prod.snd))
    (hstore : store.StoreFor names files)
    (hsome : db.store = some store) (hfailed : db.failed = false)
    (matchers : List Matcher) (hrange : range.start ≤ range.end_) :
    db.query json data matchers range
      = .ok (View.query ⟨names, v.hist⟩ matchers range) :=
  DbState.query_found h hdata hvalid hstore hsome hfailed
    ((h.named.reps hcanon).resolve matchers) hrange

-- =============================================================== in memory

namespace DbState

/-- `Db::new()` and writes to it. -/
def inMemory (writes : List WriteBatch) : DbState :=
  writes.foldl writeInMemory .new

private theorem commit_store (db : DbState) (p : Prepared) :
    (db.commit p).store = db.store ∧ (db.commit p).failed = db.failed
      ∧ (db.commit p).generation = db.generation
      ∧ (db.commit p).maxBufferSamples = db.maxBufferSamples := by
  have hloop : ∀ (entries : List Wal.SamplesEntry) (db : DbState),
      (entries.foldl appendEntry db).store = db.store
      ∧ (entries.foldl appendEntry db).failed = db.failed
      ∧ (entries.foldl appendEntry db).generation = db.generation
      ∧ (entries.foldl appendEntry db).maxBufferSamples
        = db.maxBufferSamples := by
    intro entries
    induction entries with
    | nil => exact fun _ => ⟨rfl, rfl, rfl, rfl⟩
    | cons e entries ih => exact fun db => ih (db.appendEntry e)
  exact hloop p.entries _

@[simp] theorem store_commit (db : DbState) (p : Prepared) :
    (db.commit p).store = db.store := (commit_store db p).1

@[simp] theorem failed_commit (db : DbState) (p : Prepared) :
    (db.commit p).failed = db.failed := (commit_store db p).2.1

@[simp] theorem maxBufferSamples_commit (db : DbState) (p : Prepared) :
    (db.commit p).maxBufferSamples = db.maxBufferSamples :=
  (commit_store db p).2.2.2

theorem Memory.new (max : Nat) :
    (⟨Index.new, none, 0, max, false, 1⟩ : DbState).Memory [] (fun _ => [])
      {} [] := by
  refine ⟨⟨.new, by simp, by simp, fun _ _ => ⟨rfl, rfl⟩⟩,
    ⟨Nat.one_pos, by simp, fun id => ?_, by simp⟩, rfl⟩
  rw [Index.Names.state_fresh .new (by simp)]
  exact Nat.zero_le _

/-- In memory, the database is the view of what was written to it. -/
theorem writes_in_memory (writes : List WriteBatch) :
    (inMemory writes).store = none ∧ (inMemory writes).failed = false
      ∧ ∃ defined, (inMemory writes).Memory (View.writeAll {} writes).sets
        (fun _ => []) (View.writeAll {} writes) defined := by
  induction writes using List.reverseRecOn with
  | nil => exact ⟨rfl, rfl, [], .new _⟩
  | append_singleton writes batch ih =>
      obtain ⟨hstore, hfailed, defined, hmem⟩ := ih
      have hstep : inMemory (writes ++ [batch])
          = (inMemory writes).writeInMemory batch := by
        simp [inMemory]
      rw [hstep, View.writeAll_concat, View.sets_write, writeInMemory,
        store_commit, failed_commit]
      exact ⟨hstore, hfailed, _, hmem.commit batch⟩

/-- And so are its answers. -/
theorem query_in_memory (json : Json) (data : DataDir)
    (writes : List WriteBatch) (matchers : List Matcher)
    (hrange : range.start ≤ range.end_) :
    (inMemory writes).query json data matchers range
      = .ok ((View.writeAll {} writes).query matchers range) := by
  obtain ⟨hstore, hfailed, defined, hmem⟩ := writes_in_memory writes
  have hresolve := (hmem.shows.named.reps
    (View.canonical_writeAll writes)).resolve matchers
  have hnd : (idsWhere (View.writeAll {} writes).sets
      (satisfiesAll matchers)).Nodup :=
    (idsWhere_ascending _ _).imp Nat.ne_of_lt
  simp only [DbState.query, if_neg (not_lt.mpr hrange), hfailed, hstore,
    hresolve, Bool.false_eq_true, if_false]
  rw [collect_ok hmem.shows _ hnd (fun id ls _ _ => by simp),
    filterMap_idsWhere, View.query]

end DbState

end Tsdb
