/-
Data segments (`storage/segment.rs`): the files samples are flushed to,
how they are found and read when the store is opened, how a flush writes
the next one, and how a query reads them.

# What is a parameter

`serde_json` writes and reads the payload. It stands here as `Json`, two
functions, with the one property the store relies on: what was encoded
decodes to what it was (`Json.Lawful`). The header around the payload,
with its length and checksum, is in `segmentFile` and `readSegment` as
the source has it.

A directory is a map from the names `open` tells apart (`DataName`) to
contents. Which name a string is, and that two strings are never one
name, is `Tsdb.Names`.

# The flush, step by step

`flush` is a list of calls, each of which may fail, and the process may
stop between any two. A job (`FlushJob`) is what it has in hand between
two calls, and `flushStep` makes the next one; the file is written under
its temporary name and gets its own by the rename. A `write` call writes
as many bytes as it likes, so `write_all` is a number of steps.

# The counter

The counter behind the names of the files is a `Nat` here, and the runs are
over `open_` and `flushStep`, which count on. The source counts with
`checked_add` and has an error for the last number: `openChecked` and
`flushStepChecked` are the two functions with that error. In a run from
empty directories the two counts are the same as long as it has no `2 ^ 64`
events (`System.exec_checked`).
-/
import Tsdb.Lib.Bytes
import Tsdb.Storage.Index

namespace Tsdb

open Lib (Bytes HashMap toLE ofLE)

-- ============================================================ the contents

structure DiskSeries where
  labels : LabelSet
  samples : List (UInt64 × UInt64)
deriving DecidableEq, Repr

structure Segment where
  series : List DiskSeries
deriving DecidableEq, Repr

/-- `serde_json`, for segments. -/
structure Json where
  toVec : Segment → Option Bytes
  fromSlice : Bytes → Option Segment

/-- What was encoded decodes to what it was. -/
def Json.Lawful (json : Json) : Prop :=
  ∀ seg bytes, json.toVec seg = some bytes → json.fromSlice bytes = some seg

-- ========================================================== the directory

/-- The names `SegmentStore::open` tells apart: `segment-{number:020}.seg`,
the same with `.tmp`, `segment-{raw}.seg` where `raw` is no number in this
form, and all others. -/
inductive DataName
  | segment (number : Nat)
  | temporary (number : Nat)
  | misnamed (raw : String)
  | other (name : String)
deriving DecidableEq, Repr

abbrev DataDir := HashMap DataName Bytes

/-- `numberOverflow` is a `CorruptSegment` as well, with a text of its own
in place of a path. -/
inductive StorageError
  | io
  | corruptSegment (file : DataName)
  | numberOverflow
  | serialization
deriving DecidableEq, Repr

/-- `MAGIC`, "MiNItsDB". -/
def magic : Bytes := [0x4D, 0x69, 0x4E, 0x49, 0x74, 0x73, 0x44, 0x42]

/-- What `flush` writes around the payload. -/
def segmentFile (payload : Bytes) : Bytes :=
  magic ++ toLE 8 payload.length ++ toLE 4 (Lib.Crc32.hash payload).toNat
    ++ payload

def readSegment (json : Json) (data : DataDir) (path : DataName) :
    Except StorageError Segment :=
  match data.lookup path with
  | none => .error .io
  | some bytes =>
      if bytes.length < 20 ∨ bytes.take 8 ≠ magic then
        .error (.corruptSegment path)
      else
        let len := ofLE ((bytes.drop 8).take 8)
        let checksum := ofLE ((bytes.drop 16).take 4)
        let payload := bytes.drop 20
        if len ≠ payload.length % 2 ^ 64
            ∨ checksum ≠ (Lib.Crc32.hash payload).toNat then
          .error (.corruptSegment path)
        else
          match json.fromSlice payload with
          | some segment => .ok segment
          | none => .error (.corruptSegment path)

-- ============================================================== the store

abbrev Ranges := HashMap SeriesId (UInt64 × UInt64)

structure SegmentMeta where
  number : Nat
  ranges : Ranges

/-- Does the segment hold anything a query asks for? -/
def SegmentMeta.concerns (segment : SegmentMeta) (ids : List SeriesId)
    (range : TimeRange) : Bool :=
  segment.ranges.toPairs.any fun e =>
    decide (e.1 ∈ ids) && decide (e.2.1 ≤ range.end_)
      && decide (e.2.2 ≥ range.start)

structure SegmentStore where
  segments : List SegmentMeta := []
  nextNumber : Nat := 0

/-- `samples.windows(2).any(|pair| pair[0].0 >= pair[1].0)`. -/
def unordered (samples : List (UInt64 × UInt64)) : Bool :=
  (samples.zip samples.tail).any fun pair => pair.1.1 ≥ pair.2.1

/-- The loop body of `index_segment`. -/
def indexSeries (path : DataName)
    (acc : Index × HashMap SeriesId UInt64 × Ranges) (series : DiskSeries) :
    Except StorageError (Index × HashMap SeriesId UInt64 × Ranges) :=
  let (index, latest, ranges) := acc
  match series.samples with
  | [] => .error (.corruptSegment path)
  | (first, bits) :: rest =>
      if unordered series.samples then .error (.corruptSegment path)
      else
        let (id, index) := index.encode series.labels
        let last := ((first, bits) :: rest).getLast (List.cons_ne_nil _ _)
        if (latest.lookup id).any (fun previous => first ≤ previous)
            || (ranges.lookup id).isSome then
          .error (.corruptSegment path)
        else
          .ok (index, latest.insert id last.1,
            ranges.insert id (first, last.1))

def indexSegment (segment : Segment) (index : Index)
    (latest : HashMap SeriesId UInt64) (path : DataName) :
    Except StorageError (Index × HashMap SeriesId UInt64 × Ranges) :=
  segment.series.foldlM (indexSeries path) (index, latest, ∅)

/-- The numbers of the segments among the names of a directory. -/
def segmentNumbers : List DataName → Except StorageError (List Nat)
  | [] => .ok []
  | .segment number :: names =>
      (segmentNumbers names).map (number :: ·)
  | .misnamed raw :: _ => .error (.corruptSegment (.misnamed raw))
  | _ :: names => segmentNumbers names

namespace SegmentStore

/-- The loop body of `open`. -/
def openFile (json : Json) (data : DataDir)
    (acc : List SegmentMeta × Index × HashMap SeriesId UInt64)
    (number : Nat) :
    Except StorageError
      (List SegmentMeta × Index × HashMap SeriesId UInt64) := do
  let (segments, index, latest) := acc
  let segment ← readSegment json data (.segment number)
  let (index, latest, ranges) ←
    indexSegment segment index latest (.segment number)
  return (segments ++ [{ number, ranges }], index, latest)

/-- `SegmentStore::open`, behind the lock: the store, the index and the
last timestamp of each series. -/
def open_ (json : Json) (data : DataDir) (index : Index) :
    Except StorageError
      (SegmentStore × Index × HashMap SeriesId UInt64) := do
  let numbers ← segmentNumbers data.keys
  let files := numbers.mergeSort (· ≤ ·)
  let (segments, index, latest) ←
    files.foldlM (openFile json data) ([], index, ∅)
  let nextNumber :=
    match files.getLast? with
    | none => 0
    | some number => number + 1
  return ({ segments, nextNumber }, index, latest)

/-- `number.checked_add(1)`, with the error of `open` and `flush`. -/
def checkedNumber (number : Nat) : Except StorageError Nat :=
  if number + 1 < 2 ^ 64 then .ok (number + 1) else .error .numberOverflow

/-- `SegmentStore::open`, with the counter checked. -/
def openChecked (json : Json) (data : DataDir) (index : Index) :
    Except StorageError
      (SegmentStore × Index × HashMap SeriesId UInt64) := do
  let numbers ← segmentNumbers data.keys
  let files := numbers.mergeSort (· ≤ ·)
  let (segments, index, latest) ←
    files.foldlM (openFile json data) ([], index, ∅)
  let nextNumber ←
    match files.getLast? with
    | none => .ok 0
    | some number => checkedNumber number
  return ({ segments, nextNumber }, index, latest)

-- =============================================================== the flush

/-- The segment `flush` makes of its series; `none` is a failed
`expect`. -/
def segmentOf (series : List (SeriesId × List Sample)) (index : Index) :
    Option Segment :=
  let entries := series.mergeSort fun a b => a.1 ≤ b.1
  (entries.mapM fun e => (index.labelsFor e.1).map fun labels =>
    { labels, samples := e.2.map fun s => (s.timestamp, s.value) }).map
    Segment.mk

/-- The ranges of a segment just written; `none` is a failed `expect`. -/
def rangesOf (segment : Segment) (index : Index) : Option Ranges :=
  segment.series.foldlM (fun ranges series => do
    let id ← index.idFor series.labels
    let first ← series.samples.head?
    let last ← series.samples.getLast?
    return ranges.insert id (first.1, last.1)) ∅

end SegmentStore

/-- The call `SegmentStore::flush` is about to make. -/
inductive FlushStage
  | toVec
  | open_ (bytes : Bytes)
  | write (bytes : Bytes) (done : Nat)
  | syncAll
  | rename
  | syncDir
deriving DecidableEq, Repr

structure FlushJob where
  segment : Segment
  stage : FlushStage := .toVec
deriving DecidableEq, Repr

namespace SegmentStore

/-- The next call of a flush, if it succeeds; `n` is how much a `write`
call writes. -/
def flushStep (json : Json) (n : Nat) (index : Index) (data : DataDir)
    (store : SegmentStore) (job : FlushJob) :
    Option (DataDir × (SegmentStore ⊕ FlushJob)) :=
  let temporary := DataName.temporary store.nextNumber
  let finalPath := DataName.segment store.nextNumber
  match job.stage with
  | .toVec =>
      (json.toVec job.segment).map fun payload =>
        (data, .inr { job with stage := .open_ (segmentFile payload) })
  | .open_ bytes =>
      some (data.insert temporary [],
        .inr { job with stage := .write bytes 0 })
  | .write bytes done =>
      if done < bytes.length then
        let chunk := (bytes.drop done).take (max n 1)
        some (data.insert temporary
            ((data.lookup temporary).getD [] ++ chunk),
          .inr { job with stage := .write bytes (done + chunk.length) })
      else some (data, .inr { job with stage := .syncAll })
  | .syncAll => some (data, .inr { job with stage := .rename })
  | .rename =>
      (data.lookup temporary).map fun bytes =>
        ((data.erase temporary).insert finalPath bytes,
          .inr { job with stage := .syncDir })
  | .syncDir =>
      (rangesOf job.segment index).map fun ranges =>
        (data, .inl {
          segments := store.segments ++ [{ number := store.nextNumber, ranges }]
          nextNumber := store.nextNumber + 1 })

/-- The same, with the counter checked behind the last call. An error leaves
the segment in the store, and its number as the next one; nobody asks a
store that has failed. -/
def flushStepChecked (json : Json) (n : Nat) (index : Index) (data : DataDir)
    (store : SegmentStore) (job : FlushJob) :
    Option (DataDir × Except StorageError (SegmentStore ⊕ FlushJob)) :=
  match job.stage with
  | .syncDir =>
      (rangesOf job.segment index).map fun ranges =>
        (data, (checkedNumber store.nextNumber).map fun nextNumber => .inl {
          segments := store.segments ++ [{ number := store.nextNumber, ranges }]
          nextNumber })
  | _ => (store.flushStep json n index data job).map fun (data, next) =>
      (data, .ok next)

-- =============================================================== the reads

/-- What `read` adds to the result for a series of a segment. -/
def readSeries (ids : List SeriesId) (labels : HashMap LabelSet SeriesId)
    (range : TimeRange) (result : HashMap SeriesId (List Sample))
    (series : DiskSeries) : HashMap SeriesId (List Sample) :=
  match labels.lookup series.labels with
  | some id =>
      if id ∈ ids then
        result.insert id ((result.lookup id).getD []
          ++ (series.samples.filter fun s =>
              decide (s.1 ≥ range.start) && decide (s.1 ≤ range.end_)).map
            fun s => ⟨s.1, s.2⟩)
      else result
  | none => result

def read (json : Json) (data : DataDir) (store : SegmentStore)
    (ids : List SeriesId) (labels : HashMap LabelSet SeriesId)
    (range : TimeRange) :
    Except StorageError (HashMap SeriesId (List Sample)) :=
  store.segments.foldlM (fun result segment =>
    if segment.concerns ids range then do
      let file ← readSegment json data (.segment segment.number)
      return file.series.foldl (readSeries ids labels range) result
    else return result) ∅

end SegmentStore

end Tsdb
