/-
What is told of a system, in every run (`System.Tells`): the writes.

Writes, errors and the opening add the last kinds of steps to those of the
chapter. This module has the writes, `Reopen.lean` the openings, and
`Lifetimes.lean` the errors and the induction over the run: whatever
happens, there is a tale of it, and the directories and the process are as
it says.

# A write, three times

An accepted write is one event that goes into three books. The ledger adds
its samples to the view (`Db.Good.write`). The journal appends its record,
and the log keeps one record more, that of one write more
(`Kept.write`); the record reads back as it is, since its ids are 64-bit
words and its label sets come from the constructors (`RecordOf.logged`).
The tale notes the LSN, which is where the log ends behind the record
(`append_lsn`).

A write of nothing has no record and the LSN of the end of the log
(`isEmpty_iff`, `Noted.skip`).

A write that the log refuses is in no book, but it has taken its label
sets into the index: `Ledger.refused`, and the tale is not `orderly` from
then on.

# The ids

A record has the ids of the process, so the log must be the database's own
by the time something is written. It is, because a write is made in no
operation, and the removal of the replayed files is part of the opening
(`own_idle`).
-/
import Tsdb.Db.Chronicle

namespace Tsdb

open Lib (HashMap Run exec)
open Wal (Disk Journal Log Machine SamplesEntry SeriesEntry WalConfig WalError
  WalRecord)

variable {json : Json} {cfg : WalConfig} {t : Tale} {data data' : DataDir}
  {disk disk' : Disk} {db db' : Db} {c : Chapter}

-- ================================================================ the records

namespace RecordOf

variable {names defined : List LabelSet} {batch : WriteBatch}
  {rec : WalRecord}

/-- The record of a write reads back as it is. -/
theorem logged (h : RecordOf names defined batch.nonempty rec) :
    rec.logged = rec := by
  obtain ⟨series, samples⟩ := rec
  have hseries : series.map (fun e => { e with
      labels := LabelSet.fromLabels e.labels.labels }) = series := by
    conv_rhs => rw [← List.map_id series]
    refine List.map_congr_left fun e he => ?_
    have hin : e.labels ∈ series.map SeriesEntry.labels :=
      List.mem_map_of_mem he
    rw [show series.map SeriesEntry.labels = _ from h.labels, mem_touchAll]
      at hin
    rcases hin with hin | hin
    · cases hin
    · obtain ⟨b, hb, hlabels⟩ := List.mem_map.mp (List.mem_of_mem_filter hin)
      have hcanon := WriteBatch.canonical_of_nonempty hb
      rw [hlabels] at hcanon
      show (⟨e.id, _⟩ : SeriesEntry) = e
      rw [LabelSet.fromLabels_canonical hcanon]
  have hsamples : samples.filter (·.samples ≠ []) = samples := by
    rw [List.filter_eq_self]
    intro e he
    obtain ⟨b, hb, -, hsame⟩ := exists_of_forall₂ h.samples.flip he
    rw [hsame]
    simpa using WriteBatch.ne_nil_of_nonempty hb
  unfold WalRecord.logged WalRecord.nonempty
  rw [hseries, hsamples]

/-- It is empty if the write is. -/
theorem isEmpty_iff (h : RecordOf names defined batch.nonempty rec) :
    rec.isEmpty = true ↔ batch.nonempty = [] := by
  unfold WalRecord.isEmpty
  rw [Bool.and_eq_true, List.isEmpty_iff, List.isEmpty_iff]
  constructor
  · intro hempty
    have hlogged := congrArg WalRecord.samples h.logged
    rw [show rec.logged.samples = [] from hempty.2] at hlogged
    have hsamples := h.samples
    rw [← hlogged] at hsamples
    exact List.forall₂_nil_left_iff.mp hsamples
  · intro hnone
    have hlabels := h.labels
    have hsamples := h.samples
    rw [hnone] at hlabels hsamples
    refine ⟨List.map_eq_nil_iff.mp hlabels, ?_⟩
    unfold WalRecord.nonempty
    rw [List.forall₂_nil_right_iff.mp hsamples]
    rfl

end RecordOf

/-- The log takes the record of a write, if there is something in it. -/
theorem Kept.write {lnames : List LabelSet} {base : View}
    {writes : List WriteBatch} {defined : List LabelSet} {n : Nat}
    {recs : List WalRecord} {batch : WriteBatch} {rec : WalRecord}
    (h : Kept lnames base writes defined n recs)
    (hrec : RecordOf lnames defined batch.nonempty rec) :
    Kept lnames base (writes ++ [batch])
      (defined ++ rec.series.map SeriesEntry.labels) n
      (recs ++ if rec.isEmpty then [] else [rec]) := by
  by_cases hnone : batch.nonempty = []
  · have hlabels := hrec.labels
    rw [hnone] at hlabels
    rw [if_pos (hrec.isEmpty_iff.mpr hnone), List.append_nil, hlabels]
    show Kept _ _ _ (defined ++ []) _ _
    rw [List.append_nil]
    exact h.skip hnone
  · rw [if_neg (fun hempty => hnone (hrec.isEmpty_iff.mp hempty))]
    exact h.append hrec hnone

theorem Contained.write {names defined : List LabelSet}
    {recs : List WalRecord} {batch : WriteBatch} {rec : WalRecord}
    (h : Contained names defined recs) (hnd : names.Nodup)
    (hrec : RecordOf names defined batch.nonempty rec) :
    Contained names (defined ++ rec.series.map SeriesEntry.labels)
      (recs ++ if rec.isEmpty then [] else [rec]) := by
  by_cases hnone : batch.nonempty = []
  · have hlabels := hrec.labels
    rw [hnone] at hlabels
    rw [if_pos (hrec.isEmpty_iff.mpr hnone), List.append_nil, hlabels]
    show Contained _ (defined ++ []) _
    rw [List.append_nil]
    exact h
  · rw [if_neg (fun hempty => hnone (hrec.isEmpty_iff.mp hempty))]
    exact h.append hnd hrec

-- ================================================================= the writes

namespace Chapter.Tells

/-- In no operation, the log is the database's own. -/
private theorem own_idle (h : c.Tells json t data disk db)
    (hpc : db.pc = .idle) : c.lnames = c.ledger.names
      ∧ c.defined = c.ledger.defined
      ∧ (t.whole = true →
        Contained c.ledger.names c.ledger.defined (c.recs disk)) := by
  cases h.owned with
  | own _ hnames hdefined hwhole => exact ⟨hnames, hdefined, hwhole⟩
  | replayed hwho =>
      rw [hpc] at hwho
      rcases hwho with hwho | hwho
      · cases hwho
      · cases hwho

/-- A flush begins. -/
theorem flush (h : c.Tells json t data disk db) (hpc : db.pc = .idle) :
    c.Tells json t data disk (db.flush .operation) := by
  have hserial := h.calls.unlocked (by rw [hpc]; simp)
  have hidle := h.calls.idle (by rw [hpc]; simp)
  obtain ⟨hnames, hdefined, hwhole⟩ := h.own_idle hpc
  refine ⟨h.journal, h.noted,
    Db.Good.flush db (h.good.of_idle hpc h.able) _, h.able, h.writes, h.view,
    h.base, h.kept, h.held, h.calls.quiet hserial hidle, ?_, ?_⟩
  · unfold Db.flush
    simp only
    split
    · trivial
    · intro hlocked
      rw [hserial] at hlocked
      cases hlocked
  · unfold Db.flush
    simp only
    split
    · exact .own rfl hnames hdefined hwhole
    · exact .own rfl hnames hdefined hwhole

/-- A write the log has refused. -/
private theorem refused (h : c.Tells json t data disk db)
    (hpc : db.pc = .idle) (batch : WriteBatch) :
    ∃ c', Chapter.Tells json { t with orderly := false } data disk
      { db with state :=
        { db.state with index := (db.state.prepare batch).index } } c' := by
  have hsettled := (h.good.of_idle hpc h.able).refused batch
  obtain ⟨hnames, hdefined, hwhole⟩ := h.own_idle hpc
  have hpre := prefix_touchAll c.ledger.names (batch.nonempty.map Prod.fst)
  have hserial := h.calls.unlocked (by rw [hpc]; simp)
  have hidle := h.calls.idle (by rw [hpc]; simp)
  refine ⟨{ c with
    ledger := c.ledger.refused batch
    lnames := (c.ledger.refused batch).names }, h.journal,
    ⟨h.noted.plain, h.noted.past, h.noted.le, h.noted.safe, h.noted.lsns⟩,
    .settled ?_ hsettled, h.able, h.writes, ⟨h.view.hist, by simp⟩,
    ⟨h.base.hist, by simp⟩, ?_, h.held, h.calls.quiet hserial hidle, ?_, ?_⟩
  · show ∀ who cut job, db.pc ≠ _
    rw [hpc]
    simp
  · refine h.kept.mono hsettled.memory.shows.named.nodup ?_
    rw [hnames]
    exact hpre
  · show Chapter.Stands _ _ _ _ db.pc
    rw [hpc]
    trivial
  · show Chapter.Owned _ _ _ db.pc
    rw [hpc]
    exact .own rfl rfl hdefined fun hw => (hwhole hw).mono hpre

/-- The LSN of a write is where the log ends behind it. -/
private theorem append_lsn {rec : WalRecord} {lsn : Nat} {m m' : Machine}
    (hs : Wal.step cfg (.append rec (.ok lsn)) (disk, m) = some (disk', m')) :
    m'.shared.buffer.end_ = lsn := by
  obtain ⟨-, hresult, -, rfl⟩ := Wal.step_append hs
  rcases Wal.appendWith_cases cfg m.shared.buffer rec
    with ⟨-, heq⟩ | ⟨-, e, heq⟩ | ⟨-, -, -, heq⟩
  · rw [heq] at hresult ⊢
    cases hresult
    rfl
  · rw [heq] at hresult
    cases hresult
  · rw [heq] at hresult ⊢
    cases hresult
    rfl

/-- A write the log has taken. Everything a chapter says is said again with
one more write: the view has it, the record is what it adds to the log, its
series are defined there or earlier, and its LSN is the length of the log
with it. A write of nothing has no record, and none of this is needed. -/
private theorem written (h : c.Tells json t data disk db)
    (hpc : db.pc = .idle) {batch : WriteBatch} {lsn : Nat} {m' : Machine}
    (hs : Wal.step cfg (.append (db.state.prepare batch).record (.ok lsn))
      (disk, db.wal) = some (disk', m')) :
    ∃ c', Chapter.Tells json (t.next (.write batch (.ok lsn))) data disk'
      { db with wal := m', state := db.state.commit (db.state.prepare batch) }
      c' := by
  have hsettled := h.good.of_idle hpc h.able
  have hafter := hsettled.written batch
  have hnd := hafter.memory.shows.named.nodup
  have hrec := (hsettled.memory.prepare batch).record
  generalize hr : (db.state.prepare batch).record = rec at hrec hs hafter
  obtain ⟨hnames, hdefined, hwhole⟩ := h.own_idle hpc
  have hpre := prefix_touchAll c.ledger.names (batch.nonempty.map Prod.fst)
  obtain ⟨mvs, log', hand', buffer', hexec, happ, hjournal, hrecs⟩ :=
    h.journal.step (by simp) hs
  have haccepted : (Wal.Action.append rec (.ok lsn)).accepted
      = if rec.isEmpty then [] else [rec] := rfl
  rw [haccepted] at happ hrecs
  have hlsn : lsn = (Wal.logBytes log'.accepted).length := by
    rw [← append_lsn hs]
    exact hjournal.sim.end_
  have hnoted : Noted (t.next (.write batch (.ok lsn))) log' := by
    by_cases hnone : batch.nonempty = []
    · rw [if_pos (hrec.isEmpty_iff.mpr hnone)] at happ
      exact (h.noted.moves hexec happ).skip hnone hlsn
    · rw [if_neg (fun hempty => hnone (hrec.isEmpty_iff.mp hempty))] at happ
      exact h.noted.append hexec happ hrec.logged hnone hlsn
  have hwrites := t.writes_ok batch lsn
  have hserial : m'.shared.serial = db.wal.shared.serial := by
    obtain ⟨-, -, hsame⟩ := Wal.step_keeps (by simp) hs
    exact (hsame rfl).2
  have hremoving := (Wal.step_others (by simp) rfl hs).1
  have hfree := h.calls.unlocked (by rw [hpc]; simp)
  have hidle := h.calls.idle (by rw [hpc]; simp)
  refine ⟨{ c with
    actions := c.actions ++ [.append rec (.ok lsn)]
    log := log', hand := hand', buffer := buffer'
    ledger := c.ledger.written batch rec
    lnames := (c.ledger.written batch rec).names
    defined := (c.ledger.written batch rec).defined
    rest := c.rest ++ [batch] }, hjournal, hnoted, .settled ?_ hafter, ?_, ?_,
    ?_, h.base, ?_, ?_, ?_, ?_, ?_⟩
  · show ∀ who cut job, db.pc ≠ _
    rw [hpc]
    simp
  · rw [show (DbState.failed _) = db.state.failed from
      DbState.failed_commit db.state _]
    exact h.able
  · rw [hwrites, h.writes, List.append_assoc]
  · rw [hwrites, View.writeAll_concat]
    refine ⟨funext fun ls => ?_, fun horder => ?_⟩
    · show (c.ledger.view.write batch).hist ls = _
      rw [View.hist_write, View.hist_write,
        show c.ledger.view.hist = _ from h.view.hist]
    · show touchAll c.ledger.names _ = _
      rw [View.sets_write, show c.ledger.names = _ from h.view.sets horder]
  · show Kept _ c.ledger.base _ _ c.inert (log'.recs c.old disk')
    have hkept := h.kept.mono hnd (hnames ▸ hpre)
    rw [hdefined] at hkept
    rw [hrecs]
    exact hkept.write hrec
  · show c.inert + log'.pending.length ≤ (log'.recs c.old disk').length
    have hpending := Log.exec_pending hexec
    have hheld := h.held
    rw [happ] at hpending
    rw [hrecs, List.length_append]
    unfold Chapter.recs at hheld
    omega
  · refine (h.calls.congr (fun cutting hc => hserial ▸ hc) hremoving).quiet
      (hserial.trans hfree) ?_
    rw [show ({ db with wal := m' } : Db).wal.removing = _ from hremoving]
    exact hidle
  · show Chapter.Stands _ _ _ _ db.pc
    rw [hpc]
    trivial
  · show Chapter.Owned _ _ _ db.pc
    rw [hpc]
    refine .own rfl rfl rfl fun hw => ?_
    show Contained _ _ (log'.recs c.old disk')
    rw [hrecs]
    exact ((hwhole hw).mono hpre).write hnd hrec

/-- A write. -/
theorem write (h : c.Tells json t data disk db) {batch : WriteBatch}
    {result : Except WalError Nat}
    (hs : db.write cfg batch result disk = some (disk', db')) :
    ∃ c', Chapter.Tells json (t.next (.write batch result)) data disk' db'
      c' := by
  obtain ⟨hpc, -, rfl, hcases⟩ := Db.write_cases hs
  rcases hcases with ⟨e, rfl, -, rfl⟩ | ⟨lsn, wal, rfl, hstep, hdb⟩
  · exact h.refused hpc batch
  · obtain ⟨c', h'⟩ := h.written hpc hstep
    rcases hdb with rfl | rfl
    · exact ⟨c', h'⟩
    · exact ⟨c', h'.flush hpc⟩

end Chapter.Tells

end Tsdb
