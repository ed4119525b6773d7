/-
The database in memory (`db.rs`): what an operation does between two calls
that may fail or wait.

# The pieces of an operation

A write takes its series into the index (`prepare`), hands a record to the
log, and takes the samples in (`commit`); a flush takes the samples out
again (`takeTable`). The calls between, to the log and to the files of the
store, are those of the system that runs all of this
(`Tsdb.Db.System`); here stands what becomes of the state, and the answer
to a query.

A write is divided where it calls the log. `prepare` has changed the index
by then, and nothing takes this back if the log refuses: the label sets
stay. `commit` marks as logged the series
the record has defined, and appends sample by sample, counting what was
taken.

The opening has its pieces here, too. `restore` gives each series of the
segments its last timestamp, and `Replay.sink` is what the resolver of the
log is told to feed: a series is taken into the index, and samples go
where those of a write go.

# Identity of a series

The source shares each series between the index and a batch in hand
through an `Arc`; the id stands for it here, and `Index.modify` for the
lock. An id is never given away again while the database is open, so the
two come to the same.
-/
import Tsdb.Storage.Flush
import Tsdb.Wal.Record
import Tsdb.Wal.Replay

namespace Tsdb

open Lib (HashMap)
open Wal (SeriesEntry SamplesEntry WalRecord ReplaySink)

-- ============================================================== the state

inductive DbError
  | storage (e : StorageError)
  | invalidTimeRange (start end_ : UInt64)
  | storageFailed
  | wal (e : Wal.WalError)
deriving DecidableEq, Repr

/-- `DbState`, the store being `persistence.disk`. -/
structure DbState where
  index : Index := Index.new
  store : Option SegmentStore := none
  bufferedSamples : Nat := 0
  maxBufferSamples : Nat
  failed : Bool := false
  generation : Nat := 1

/-- `Db::new`: in memory, and no limit to the buffer. -/
def DbState.new : DbState where
  maxBufferSamples := 2 ^ 64 - 1

/-- `SeriesState::append` for each sample: what was taken counts. -/
def Index.appendSamples (index : Index) (id : SeriesId)
    (samples : List Sample) : Index × Nat :=
  (index.modify id fun st => (st.appendAll samples).1,
    ((index.state id).appendAll samples).2)

-- ================================================================ a write

/-- The locals of `write` in front of the log: the index, the series to
define, the set that keeps them from being defined twice, and the samples
of each series. -/
structure Prepared where
  index : Index
  newSeries : List SeriesEntry := []
  logging : List SeriesId := []
  entries : List SamplesEntry := []

/-- The loop body over the series of the batch. -/
def Prepared.add (generation : Nat) (p : Prepared)
    (series : LabelSet × List Sample) : Prepared :=
  if series.2 = [] then p
  else
    let (id, index) := p.index.encode series.1
    let p := { p with
      index
      entries := p.entries ++ [{ id, samples := series.2 }] }
    if !(index.state id).isLogged generation && decide (id ∉ p.logging) then
      { p with
        newSeries := p.newSeries ++ [{ id, labels := series.1 }]
        logging := p.logging ++ [id] }
    else p

/-- What `write` gives to the log. -/
def Prepared.record (p : Prepared) : WalRecord where
  series := p.newSeries
  samples := p.entries

namespace DbState

/-- `write`, up to the log. -/
def prepare (db : DbState) (batch : WriteBatch) : Prepared :=
  batch.series.foldl (Prepared.add db.generation) { index := db.index }

/-- The loop body over the entries. -/
def appendEntry (db : DbState) (e : SamplesEntry) : DbState :=
  let (index, taken) := db.index.appendSamples e.id e.samples
  { db with index, bufferedSamples := db.bufferedSamples + taken }

/-- `write`, behind the log and up to the flush. -/
def commit (db : DbState) (p : Prepared) : DbState :=
  let index := p.newSeries.foldl
    (fun index e => index.modify e.id (·.markLogged db.generation)) p.index
  p.entries.foldl appendEntry { db with index }

/-- `write` of a database in memory: nothing to log, and a flush does
nothing. -/
def writeInMemory (db : DbState) (batch : WriteBatch) : DbState :=
  db.commit (db.prepare batch)

end DbState

-- ================================================================ a query

/-- `labels` of `query`. -/
def Index.labelIds (index : Index) (ids : List SeriesId) :
    HashMap LabelSet SeriesId :=
  ids.foldl (fun labels id =>
    match index.labelsFor id with
    | some ls => labels.insert ls id
    | none => labels) ∅

/-- The loop at the end of `query`. -/
def Index.collect (index : Index) (range : TimeRange) :
    List SeriesId → HashMap SeriesId (List Sample) → List SeriesResult
  | [], _ => []
  | id :: ids, diskSamples =>
      let samples := (diskSamples.lookup id).getD []
      let rest := index.collect range ids (diskSamples.erase id)
      match index.get id with
      | some series =>
          { labels := series.labels
            samples := samples ++ series.state.range range } :: rest
      | none => rest

def DbState.query (json : Json) (data : DataDir) (db : DbState)
    (matchers : List Matcher) (range : TimeRange) :
    Except DbError (List SeriesResult) :=
  if range.start > range.end_ then
    .error (.invalidTimeRange range.start range.end_)
  else if db.failed then .error .storageFailed
  else
    let ids := db.index.resolve matchers
    let labels := db.index.labelIds ids
    let diskSamples :=
      match db.store with
      | some store => store.read json data ids labels range
      | none => .ok ∅
    match diskSamples with
    | .error e => .error (.storage e)
    | .ok diskSamples => .ok (db.index.collect range ids diskSamples)

-- ================================================================ a flush

/-- The table `flush` takes out of the index. -/
def Index.takeTable (index : Index) :
    List SeriesId → List (SeriesId × List Sample) × Index
  | [] => ([], index)
  | id :: ids =>
      match index.get id with
      | none => index.takeTable ids
      | some series =>
          let (samples, _) := series.state.takeSamples
          let (table, index) :=
            (index.modify id fun st => st.takeSamples.2).takeTable ids
          (if samples = [] then table else (id, samples) :: table, index)

-- ============================================================ the opening

/-- The loop over `latest`. -/
def Index.restore (index : Index) (latest : HashMap SeriesId UInt64) :
    Index :=
  latest.toPairs.foldl (fun index e =>
    index.modify e.1 (·.restoreNewest e.2)) index

/-- `Replay`. -/
structure Replay where
  index : Index
  bufferedSamples : Nat := 0

/-- `ReplaySink` for it. -/
def Replay.sink : ReplaySink Replay where
  series labels self :=
    let (id, index) := self.index.encode labels
    (id, { self with index })
  samples id samples self :=
    match self.index.get id with
    | some _ =>
        let (index, taken) := self.index.appendSamples id samples
        { index, bufferedSamples := self.bufferedSamples + taken }
    | none => self

end Tsdb
