/-
Feeding a log back (`storage/wal/replay.rs`): the resolver maps the ids
of the log to the ids of the sink and parks samples whose series has not
been defined yet.

# The sink

The source is generic in a trait with two methods, and so is the model:
`ReplaySink` on a state of any type. The database is one sink
(`Tsdb.Db.Recovery`). Another numbers the series it is given and keeps the
calls (`recording`), to say which calls are made and in which order
(`Tsdb.Wal.Routing`, `Tsdb.Wal.Repair`).

# The resolver

`apply` takes the series entries of a record first, then its samples. A
series entry asks the sink for an id, overwrites what the log's id stood
for, and delivers what was parked under it. A samples entry is delivered
under the id the log's id stands for, or parked. At the end `finish`
counts what is still parked, the ids and the samples, and drops it.

Only two facts about the resolver are stated here. Records are applied
one after the other (`applyAll_append`), and what the two calls of a sink
keep, a record keeps (`apply_keeps`): an invariant of the sink's state
survives whatever the log says. What the calls are is the subject of
`Tsdb.Wal.Routing`.
-/
import Tsdb.Lib.HashMap
import Tsdb.Wal.Record

namespace Tsdb.Wal

open Lib (HashMap)

variable {σ : Type}

/-- The two calls a sink answers, on a sink of state `σ`. -/
structure ReplaySink (σ : Type) where
  series : LabelSet → σ → SeriesId × σ
  samples : SeriesId → List Sample → σ → σ

/-- A call a sink has answered. -/
inductive SinkCall
  | series (labels : LabelSet)
  | samples (id : SeriesId) (samples : List Sample)
deriving DecidableEq, Repr

/-- The sink that numbers the series and keeps the calls. -/
def recording : ReplaySink (List SinkCall) where
  series labels calls := (calls.length, calls ++ [.series labels])
  samples id samples calls := calls ++ [.samples id samples]

structure ResolveStats where
  lateSeries : Nat := 0
  unknownSeries : Nat := 0
  droppedSamples : Nat := 0
deriving DecidableEq, Repr

structure Resolver where
  ids : HashMap SeriesId SeriesId := ∅
  pending : HashMap SeriesId (List (List Sample)) := ∅
  stats : ResolveStats := {}

namespace Resolver

/-- One series entry: define the id, and deliver what was parked for
it. -/
def applySeries (ops : ReplaySink σ) (acc : Resolver × σ)
    (e : SeriesEntry) : Resolver × σ :=
  let (self, sink) := acc
  let (sinkId, sink) := ops.series e.labels sink
  let self := { self with ids := self.ids.insert e.id sinkId }
  match self.pending.lookup e.id with
  | some parked =>
      ({ self with
          pending := self.pending.erase e.id
          stats := { self.stats with
            lateSeries := self.stats.lateSeries + 1 } },
        parked.foldl (fun sink samples => ops.samples sinkId samples sink)
          sink)
  | none => (self, sink)

/-- One samples entry: deliver it, or park it. -/
def applySamples (ops : ReplaySink σ) (acc : Resolver × σ)
    (e : SamplesEntry) : Resolver × σ :=
  let (self, sink) := acc
  match self.ids.lookup e.id with
  | some sinkId => (self, ops.samples sinkId e.samples sink)
  | none =>
      let parked := (self.pending.lookup e.id).getD []
      ({ self with
          pending := self.pending.insert e.id (parked ++ [e.samples]) },
        sink)

/-- `Resolver::apply`. -/
def apply (ops : ReplaySink σ) (acc : Resolver × σ) (rec : WalRecord) :
    Resolver × σ :=
  rec.samples.foldl (applySamples ops)
    (rec.series.foldl (applySeries ops) acc)

/-- The records of a log, one after the other. -/
def applyAll (ops : ReplaySink σ) (acc : Resolver × σ)
    (recs : List WalRecord) : Resolver × σ :=
  recs.foldl (apply ops) acc

@[simp] theorem applyAll_nil (ops : ReplaySink σ) (acc : Resolver × σ) :
    applyAll ops acc [] = acc := rfl

@[simp] theorem applyAll_cons (ops : ReplaySink σ) (acc : Resolver × σ)
    (rec : WalRecord) (recs : List WalRecord) :
    applyAll ops acc (rec :: recs)
      = applyAll ops (apply ops acc rec) recs := rfl

theorem applyAll_append (ops : ReplaySink σ) (acc : Resolver × σ)
    (recs recs' : List WalRecord) :
    applyAll ops acc (recs ++ recs')
      = applyAll ops (applyAll ops acc recs) recs' :=
  List.foldl_append

/-- What the calls of a sink keep, a record keeps. -/
theorem apply_keeps (ops : ReplaySink σ) {P : σ → Prop}
    (hseries : ∀ ls sink, P sink → P (ops.series ls sink).2)
    (hsamples : ∀ id xs sink, P sink → P (ops.samples id xs sink))
    (acc : Resolver × σ) (rec : WalRecord) (h : P acc.2) :
    P (apply ops acc rec).2 := by
  have hparked : ∀ id (parked : List (List Sample)) sink, P sink →
      P (parked.foldl (fun sink xs => ops.samples id xs sink) sink) :=
    fun id parked sink h =>
      List.foldlRecOn parked _ h fun sink h xs _ => hsamples id xs sink h
  have hdefine : P (rec.series.foldl (applySeries ops) acc).2 := by
    refine List.foldlRecOn (motive := fun (acc : Resolver × σ) => P acc.2)
      rec.series _ h fun acc h e _ => ?_
    unfold applySeries
    simp only
    split
    · exact hparked _ _ _ (hseries _ _ h)
    · exact hseries _ _ h
  refine List.foldlRecOn (motive := fun (acc : Resolver × σ) => P acc.2)
    rec.samples _ hdefine fun acc h e _ => ?_
  unfold applySamples
  simp only
  split
  · exact hsamples _ _ _ h
  · exact h

def finish (self : Resolver) : ResolveStats :=
  { self.stats with
    unknownSeries := self.pending.keys.length
    droppedSamples := (self.pending.values.flatten.map List.length).sum }

end Resolver

end Tsdb.Wal
