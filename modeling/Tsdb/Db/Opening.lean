/-
What `open_with` has in memory behind the segments, and behind the log.

The segments give each series its last timestamp and no sample, which is
all of its history being flushed (`Loaded.restored`). Whatever the log then
holds, replaying it only takes label sets in and appends samples
(`Replay.Shows`), so a database that has opened is in order
(`System.openWith_cases`), on any directories that open at all.

# Behind the segments

`open_ok` of `Tsdb.Storage.Store` gives a fresh index with the label sets
of the segments, and the last timestamp of each history. The loop of
`open_with` over these visits each series once, as it is in a map by id
(`Names.restore`), and sets what a series that was just created has not.
By `Holds.restoreNewest` each series then has the history that the
segments hold, with nothing of it in memory.

# Behind the log

A replay that succeeds has told the sink something; what it was does not
matter here. A label set may be any list the decoder accepts, and the log
may have been written by anybody. What the two calls of the sink keep, the
replay keeps (`replay_keeps`), and they keep `Replay.Shows`: some view is
shown on top of the segments, and what is buffered is counted. So the
invariant of an open database holds from its first step on, with no
assumption on the directories (`Opening.Good`). Which view it is, if the
directories are those of earlier processes, is the subject of
`Tsdb.Db.Recovery` and of the modules on restarts.
-/
import Tsdb.Db.Flush
import Tsdb.Db.Recovery

namespace Tsdb

open Lib (Ascending HashMap)

variable {index : Index} {names : List LabelSet} {v : View}

-- =========================================================== the timestamps

private theorem state_modify_ne {id j : SeriesId} (hj : j ≠ id)
    (f : SeriesState → SeriesState) :
    (index.modify id f).state j = index.state j := by
  unfold Index.modify
  split
  · simp only [Index.state, HashMap.lookup_insert_if, if_neg hj]
  · rfl

/-- The loop over `latest` visits each series once. No key comes twice in
the list of a map, so what is restored for an id is what `latest` has for
it. -/
theorem Index.Names.restore (h : index.Names names)
    (latest : HashMap SeriesId UInt64) :
    (index.restore latest).Names names
      ∧ ∀ id, id < names.length → (index.restore latest).state id
        = (latest.lookup id).elim (index.state id)
          (index.state id).restoreNewest := by
  have hloop : ∀ (pairs : List (SeriesId × UInt64)) (index : Index),
      index.Names names → (pairs.map Prod.fst).Nodup →
      (pairs.foldl (fun index e => index.modify e.1 (·.restoreNewest e.2))
        index).Names names
      ∧ ∀ id, id < names.length →
        (∀ last, (id, last) ∈ pairs →
          (pairs.foldl (fun index e => index.modify e.1
            (·.restoreNewest e.2)) index).state id
            = (index.state id).restoreNewest last)
        ∧ (id ∉ pairs.map Prod.fst →
          (pairs.foldl (fun index e => index.modify e.1
            (·.restoreNewest e.2)) index).state id = index.state id) := by
    intro pairs
    induction pairs with
    | nil =>
        intro index h _
        exact ⟨h, fun id _ => ⟨by simp, fun _ => rfl⟩⟩
    | cons e pairs ih =>
        intro index h hnd
        obtain ⟨hnot, hnd⟩ := List.nodup_cons.mp hnd
        obtain ⟨hnames, hstate⟩ :=
          ih (index.modify e.1 (·.restoreNewest e.2)) (h.modify _ _) hnd
        refine ⟨hnames, fun id hid => ⟨fun last hlast => ?_, fun hout => ?_⟩⟩
        · rcases List.mem_cons.mp hlast with rfl | hlast
          · refine ((hstate id hid).2 hnot).trans ?_
            rw [h.state_modify hid, if_pos rfl]
          · refine ((hstate id hid).1 last hlast).trans ?_
            rw [state_modify_ne]
            rintro rfl
            exact hnot (List.mem_map.mpr ⟨_, hlast, rfl⟩)
        · rw [List.map_cons, List.mem_cons, not_or] at hout
          refine ((hstate id hid).2 hout.2).trans ?_
          exact state_modify_ne hout.1 _
  obtain ⟨hnames, hstate⟩ := hloop latest.toPairs index h
    latest.nodup_toPairs_fst
  refine ⟨hnames, fun id hid => ?_⟩
  cases hlast : latest.lookup id with
  | some last =>
      exact (hstate id hid).1 last (HashMap.mem_toPairs.mpr hlast)
  | none =>
      refine (hstate id hid).2 fun hin => ?_
      obtain ⟨⟨j, last⟩, hpair, rfl⟩ := List.mem_map.mp hin
      rw [HashMap.mem_toPairs.mp hpair] at hlast
      cases hlast

/-- A series as `encode` creates it. -/
def Index.Fresh (index : Index) : Prop := ∀ id, index.state id = {}

theorem Index.Names.fresh_encodeAll (h : index.Names names)
    (hfresh : index.Fresh) (sets : List LabelSet) :
    (index.encodeAll sets).Fresh := by
  induction sets generalizing index names with
  | nil => exact hfresh
  | cons ls sets ih =>
      refine ih (h.encode ls).2 fun id => ?_
      rw [h.state_encode]
      exact hfresh id

/-- With the last timestamps restored, the index shows what the segments
have, all of it flushed: a series with segments gets its newest timestamp,
and one without keeps the state of a new one. -/
theorem Loaded.restored {latest : HashMap SeriesId UInt64}
    (h : Loaded v index latest) (hfresh : index.Fresh) :
    Replay.Shows ⟨index.restore latest, 0⟩ v.sets v.hist v := by
  obtain ⟨hnames, hrestored⟩ := h.names.restore latest
  have hstate : ∀ id ls, v.sets[id]? = some ls →
      (index.restore latest).state id
        = (Lib.newest Sample.timestamp (v.hist ls)).elim {}
          (SeriesState.restoreNewest {}) := by
    intro id ls hid
    obtain ⟨hlt, -⟩ := List.getElem?_eq_some_iff.mp hid
    rw [hrestored id hlt, h.latest id, hid, hfresh id]
    rfl
  have hsamples : ∀ id, ((index.restore latest).state id).samples = []
      ∧ ((index.restore latest).state id).loggedGen = 0 := by
    intro id
    cases hid : v.sets[id]? with
    | none => rw [hnames.state_fresh hid]; exact ⟨rfl, rfl⟩
    | some ls =>
        rw [hstate id ls hid]
        cases Lib.newest Sample.timestamp (v.hist ls) <;> exact ⟨rfl, rfl⟩
  have hshows : (index.restore latest).Shows v.sets v.hist v := by
    refine ⟨hnames, fun id ls hid => ?_, fun id ls _ => ?_, fun ls hls => ?_⟩
    · rw [hstate id ls hid]
      cases hlast : Lib.newest Sample.timestamp (v.hist ls) with
      | none =>
          have hnil : v.hist ls = [] := by
            simpa [Lib.newest] using hlast
          rw [hnil]
          exact .nil rfl rfl
      | some last =>
          show (SeriesState.restoreNewest {} last).Holds (v.hist ls)
          exact .restoreNewest rfl rfl (h.asc ls) hlast
    · rw [(hsamples id).1, List.append_nil]
    · exact ⟨h.unknown ls hls, h.unknown ls hls⟩
  exact ⟨hshows, fun id => (hsamples id).2, hshows.inMemory_eq_zero.symm⟩

-- ================================================================= the open

/-- What `open_with` has in hand behind the reading of the files. -/
structure Opening.Good (json : Json) (data : DataDir) (o : Opening)
    (g : Ledger) : Prop where
  replay : o.replay.Shows g.names g.base.hist g.view
  held : data.Holds json g.files
  valid : Valid (g.files.map Prod.snd)
  store : o.store.StoreFor g.names g.files
  undefined : g.defined = []

/-- The segments, read and indexed. -/
theorem SegmentStore.open_restored {json : Json} {data : DataDir}
    {store : SegmentStore} {latest : HashMap SeriesId UInt64}
    (h : SegmentStore.open_ json data Index.new = .ok (store, index, latest)) :
    ∃ files, data.Holds json files ∧ Valid (files.map Prod.snd)
      ∧ Replay.Shows ⟨index.restore latest, 0⟩
        (View.loadAll {} (files.map Prod.snd)).sets
        (View.loadAll {} (files.map Prod.snd)).hist
        (View.loadAll {} (files.map Prod.snd))
      ∧ store.StoreFor (View.loadAll {} (files.map Prod.snd)).sets files := by
  have hnil : ∀ ls, ({} : View).hist ls = [] := fun _ => rfl
  obtain ⟨files, hheld, hvalid, hloaded, hstore⟩ :=
    SegmentStore.open_inv hnil Index.Names.new h
  obtain ⟨_, _, hopen, -, -⟩ :=
    SegmentStore.open_ok hheld hvalid hnil Index.Names.new
  rw [hopen] at h
  cases h
  have hfresh : Index.new.Fresh := fun id =>
    Index.Names.new.state_fresh (List.getElem?_nil)
  exact ⟨files, hheld, hvalid,
    hloaded.restored (Index.Names.new.fresh_encodeAll hfresh _), hstore⟩

/-- A replay on top, of whatever it is. -/
theorem Replay.Shows.replayed {replay : Replay} {base : View}
    (h : replay.Shows base.sets base.hist base) (reads : Nat → Nat → Nat)
    (dir : Wal.Dir) :
    ∃ names v, base.sets <+: names
      ∧ (Wal.replay Replay.sink reads dir replay).2.2.Shows names base.hist
        v := by
  refine Wal.replay_keeps Replay.sink (P := fun replay => ∃ names v,
    base.sets <+: names ∧ replay.Shows names base.hist v) ?_ ?_ reads dir
    ⟨_, _, List.prefix_rfl, h⟩
  · intro ls replay h
    obtain ⟨names, v, hpre, h⟩ := h
    exact ⟨_, v, hpre.trans (prefix_touch names ls), h.series ls⟩
  · intro id xs replay h
    obtain ⟨names, v, hpre, h⟩ := h
    cases hid : names[id]? with
    | none =>
        rw [h.samples_unknown hid]
        exact ⟨names, v, hpre, h⟩
    | some ls => exact ⟨names, _, hpre, h.samples hid xs⟩

/-- `open_with` fails, or has its segments and its replay in order. -/
theorem System.openWith_cases (json : Json) (maxBufferSamples : Nat)
    (reads : Nat → Nat → Nat) (s : System) :
    s.openWith json maxBufferSamples reads = s
      ∨ ∃ o stage, s.openWith json maxBufferSamples reads
          = { s with phase := .opening o stage }
        ∧ ∃ g, o.Good json s.data g := by
  unfold System.openWith
  split
  · exact .inl rfl
  · cases hopen : SegmentStore.open_ json s.data Index.new with
    | error e => exact .inl rfl
    | ok r =>
        obtain ⟨store, index, latest⟩ := r
        obtain ⟨files, hheld, hvalid, hshows, hstore⟩ :=
          SegmentStore.open_restored hopen
        obtain ⟨names, v, hpre, hreplayed⟩ := hshows.replayed reads s.log.dir
        simp only
        split
        · exact .inl rfl
        · rename_i report dir replay heq
          rw [heq] at hreplayed
          refine .inr ⟨_, _, rfl, ⟨names, files, v, []⟩, hreplayed, hheld,
            hvalid, ?_, rfl⟩
          exact hstore.mono hpre hreplayed.shows.named.nodup

/-- Opening empty directories. -/
theorem System.exec_open_empty (json : Json) (cfg : Wal.WalConfig) {max : Nat}
    (hmax : 0 < max) (reads : Nat → Nat → Nat) :
    Lib.exec (System.step json cfg) [.openWith max reads, .create, .syncDir] {}
      = some {
          log := [{ id := 1, durable := true }]
          phase := .running {
            state := { store := some {}, maxBufferSamples := max }
            wal := .start 1 0 } } := by
  have hopen : SegmentStore.open_ json ∅ Index.new
      = .ok ({}, Index.new, ∅) := by
    have hkeys : (∅ : DataDir).keys = [] := rfl
    simp only [SegmentStore.open_, hkeys, segmentNumbers, bind, Except.bind,
      List.mergeSort_nil]
    rfl
  have hreplay : Wal.replay Replay.sink reads []
      { index := Index.new.restore ∅ }
        = (.ok {}, [], { index := Index.new }) := by
    simp only [Wal.replay, Wal.list, List.mergeSort_nil]
    rfl
  have hstart : System.openWith json max reads {}
      = { phase := .opening ⟨{}, { index := Index.new }, max, none⟩
            (.create 1) } := by
    unfold System.openWith
    rw [if_neg (Nat.ne_of_gt hmax)]
    simp only [hopen, Wal.Disk.dir, List.filter_nil, List.map_nil, hreplay]
    rfl
  simp only [Lib.exec, System.step, hstart, Option.bind_some]
  rfl

/-- Once the log is open, the database is settled. -/
theorem Opening.Good.settled {json : Json} {data : DataDir} {o : Opening}
    {g : Ledger} (h : o.Good json data g) (wal : Wal.Machine) :
    Settled json data (o.open_ wal).state g := by
  have hstate : (o.open_ wal).state = {
      index := o.replay.index
      store := o.store
      bufferedSamples := o.replay.bufferedSamples
      maxBufferSamples := o.maxBufferSamples } := by
    unfold Opening.open_
    cases o.last <;> rfl
  rw [hstate]
  refine ⟨⟨h.replay.shows, ⟨Nat.one_pos, fun id ls _ => ?_, fun id => ?_, ?_⟩,
    h.replay.counted⟩, h.held, h.valid, ⟨o.store, rfl, h.store⟩⟩
  · simp [SeriesState.isLogged, h.replay.fresh id, h.undefined]
  · rw [h.replay.fresh id]
    exact Nat.zero_le _
  · simp [h.undefined]

end Tsdb
