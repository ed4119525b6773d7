/-
The log of an open database can be read by itself.

A definition is logged once in a generation, and a flush ends a generation
with the log: as long as no removal has taken a part of it, what is left of
the log defines every id it uses, and each as the series it is
(`retained_log_contained`).

# Removals

In the middle of a removal a definition may be gone and a record that uses
it still there. The theorem is about the states in which every removal
that has taken a file is done (`removalsDone`), by the events: it has
returned, or the directories have been opened again since. That is
`Tale.whole`, and the chapter has `Contained` of the retained log under
this flag.

# What is read off

`Contained` speaks of ids and label sets of the process. The index of the
open database has these same ids (`Db.Good.names`), so a definition in the
log is that of the series the database knows by the id. The retained log
is what the files, the batch in hand and the buffer hold, byte for byte
(`Journal.whole` of `Tsdb.Wal.AtRest`), and a replay of exactly these
records has nothing to resolve later and nothing to drop
(`Contained.resolves`).
-/
import Tsdb.Db.Lifetimes
import Tsdb.Db.Session

namespace Tsdb

open Lib (exec)
open Wal (ReplaySink Resolver WalConfig retainedBytes)

variable {json : Json} {cfg : WalConfig} {t : Tale} {s : System}
  {events : List Event}

/-- A removal that has taken a file is done once it returns, or once the
directories are opened again. -/
def removalDone (done : Bool) : Event → Bool
  | .openWith _ _ => true
  | .wal (.removeFile _ _) => false
  | .wal (.removeReturn _ _) => true
  | _ => done

/-- Is every removal done that has taken a file? -/
def removalsDone (events : List Event) : Bool := events.foldl removalDone true

theorem Tale.Of.whole (h : Tale.Of events t) :
    t.whole = removalsDone events := by
  induction h with
  | start => rfl
  | @next events t e _ _ ih =>
      have hlast : (t.next e).whole = removalDone t.whole e := by
        cases e with
        | wal a => cases a <;> rfl
        | write batch result => cases result <;> rfl
        | _ => rfl
      rw [hlast, ih]
      exact (List.foldl_concat ..).symm
  | crash _ _ _ ih =>
      refine ih.trans ?_
      unfold removalsDone
      rw [List.foldl_concat]
      rfl

/-- The index of an open database knows its series by their ids. -/
theorem Db.Good.names {data : DataDir} {db : Db} {g : Ledger}
    (h : db.Good json data g) (hfailed : db.state.failed = false) :
    db.state.index.Names g.names := by
  cases h with
  | failed hf _ =>
      rw [hf] at hfailed
      cases hfailed
  | settled _ h => exact h.memory.shows.named
  | flushing _ h => exact h.shows.named

/-- What is left of the log of an open database, in the files, in hand and
in the buffer, defines each id it uses, there or earlier, as the series with
the id, and no id twice differently. So a replay of it misses nothing.

The log is the database's own, with all removals done, and by the chapter
its records are `Contained`. The bytes are those records, framed. -/
theorem retained_log_contained (hjson : json.Lawful)
    (hrun : exec (System.step json cfg) events {} = some s) {db : Db}
    (hphase : s.phase = .running db) (hfailed : db.state.failed = false)
    (hopen : db.pc.who = .operation) (hdone : removalsDone events = true) :
    ∃ recs, Wal.Whole (retainedBytes s.log db.wal) recs
      ∧ (∀ front rec back, recs = front ++ rec :: back →
        ∀ e ∈ rec.samples, ∃ d ∈ definitions (front ++ [rec]), d.id = e.id
          ∧ db.state.index.labelsFor e.id = some d.labels)
      ∧ (∀ d ∈ definitions recs, ∀ d' ∈ definitions recs,
        d.id = d'.id → d.labels = d'.labels)
      ∧ ∀ (σ : Type) (ops : ReplaySink σ) (sink : σ),
        let stats := (Resolver.applyAll ops ({}, sink) recs).1.finish
        stats.unknownSeries = 0 ∧ stats.droppedSamples = 0 := by
  obtain ⟨t, hof, h⟩ := System.tells hjson hrun
  obtain ⟨c, hc⟩ := h.works hphase hfailed
  have hcontained : Contained c.ledger.names c.ledger.defined
      (c.recs s.log) := by
    cases hc.owned with
    | own _ _ _ hwhole => exact hwhole (hof.whole.trans hdone)
    | replayed hwho =>
        rcases hwho with hwho | hpc
        · rw [hopen] at hwho
          cases hwho
        · rw [hpc] at hopen
          cases hopen
  have hforward := (hc.good.names hfailed).forward
  refine ⟨c.recs s.log, hc.journal.whole hc.noted.plain, ?_, ?_,
    fun σ ops sink => hcontained.resolves ops sink⟩
  · intro front rec back hcat e he
    obtain ⟨d, hd, hid⟩ := hcontained.uses front rec back hcat e he
    refine ⟨d, hd, hid, ?_⟩
    rw [hforward, ← hid]
    refine hcontained.named d ?_
    rw [hcat, ← List.singleton_append, ← List.append_assoc,
      definitions_append]
    exact List.mem_append_left _ hd
  · intro d hd d' hd' hid
    have hlabels := hcontained.named d hd
    rw [hid, hcontained.named d' hd', Option.some.injEq] at hlabels
    exact hlabels.symm

/-- Behind a flush the log has two records, one in a file and one in the
buffer. -/
theorem retained_log_contained_once :
    ∃ s db, exec (System.step Json.sample ⟨100, 0⟩)
        (openEmpty 4 ++ session) {} = some s
      ∧ s.phase = .running db
      ∧ s.log.dir.map (fun f => f.bytes.length) = [70]
      ∧ db.wal.shared.buffer.buf.length = 45
      ∧ ∃ recs, Wal.Whole (retainedBytes s.log db.wal) recs
        ∧ (∀ front rec back, recs = front ++ rec :: back →
          ∀ e ∈ rec.samples, ∃ d ∈ definitions (front ++ [rec]), d.id = e.id
            ∧ db.state.index.labelsFor e.id = some d.labels)
        ∧ ∀ d ∈ definitions recs, ∀ d' ∈ definitions recs,
          d.id = d'.id → d.labels = d'.labels := by
  obtain ⟨s, db, hrun, hphase, hpc, hfailed, -, hsizes, hbuffer, -⟩ :=
    System.exec_session
  obtain ⟨recs, hwhole, huses, hsame, -⟩ := retained_log_contained
    Json.sample_lawful hrun hphase hfailed (by rw [hpc]; rfl) (by rfl)
  exact ⟨s, db, hrun, hphase, hsizes, hbuffer, recs, hwhole, huses, hsame⟩

end Tsdb
