/-
What every step of an open database keeps of its chapter.

Each kind of step has a lemma of its own: those of the log's threads
(`Chapter.Tells.goOn`), a write (`written`, `refused`, in `Durable.lean`),
the way of a flush from the cut (`cutReturn`) over the segment (`storeStep`)
to the removal (`removed`), and the errors. A process that stops in any of
them leaves the writes that are safe, and some more
(`Chapter.Tells.leaves`).

# The log by itself

A step of the log that accepts nothing and takes no file away moves the
journal and nothing else (`moved`, `quiet`). One that takes a file away is
a step of the removal the database is in, and the file is one that was
closed before the cut: all of its records are inert, and inert records may
go (`removeFile`, by `Kept.removed`).

# A flush

It is followed from the lock to the last file, and at each stage the
question is what the log has that the segments do not.

- The cut is answered: everything accepted is in front of it
  (`answered`). Only the database writes, and it is waiting, so this is
  also everything there will be until the flush is over.
- The flush of the store begins, or memory had nothing, and then neither
  do the segments lack anything (`startFlush`, `flush_nothing`). The
  division of the writes does not change, since nothing is on disk.
- The store has its segment (`storeStep`): all writes are `done` now, every
  record of the log is inert (`settle`), and the new generation defines
  nothing.
- `remove_through` returns: its list was complete and is done, so of the
  files up to the cut none is left, and with all that was accepted in
  front of the cut the retained log is empty (`gone`, by
  `Journal.cleared`). The log may be taken for one of the new generation,
  with the database's own ids.

An opening removes the replayed files in the same way, with their last id
in place of a cut, and goes through the same lemmas with another caller.

# Stopping

The rename is a step in the middle of the flush of the store, and behind it
the directory has a segment that the ledger has not. `renamed` counts it
in, and `standing` has what the directories stand for at any point. Hence
`leaves`, with no case for where the process has stopped.
-/
import Tsdb.Db.Chapter

namespace Tsdb

open Lib (HashMap exec)
open Wal (Disk Journal Log Machine WalConfig WalError WalRecord)

variable {json : Json} {cfg : WalConfig} {t : Tale} {data data' : DataDir}
  {disk disk' : Disk} {db db' : Db} {c : Chapter}

-- ================================================================ the segments

/-- With the segment of a flush the segments hold all of the view. -/
theorem Ledger.hist_concat {g : Ledger} {seg : Segment}
    (hmoved : ∀ ls, g.base.hist ls ++ seg.samplesOf ls = g.view.hist ls)
    (number : Nat) :
    (View.loadAll {} ((g.files ++ [(number, seg)]).map Prod.snd)).hist
      = g.view.hist := by
  funext ls
  rw [← hmoved ls, hist_files {} (fun _ => rfl), Ledger.hist_base, histOf,
    histOf, List.flatMap_append, List.flatMap_singleton]

theorem Ledger.sets_concat (g : Ledger) (number : Nat) (seg : Segment) :
    (View.loadAll {} ((g.files ++ [(number, seg)]).map Prod.snd)).sets
      = touchAll g.base.sets (seg.series.map DiskSeries.labels) := by
  rw [List.map_append, List.map_singleton, View.loadAll_concat,
    View.sets_load]
  rfl

/-- What a cut covers stays covered. -/
theorem Covers.moves {base : Nat} {log log' : Log}
    {hand buffer : List WalRecord} {m m' : Machine} {cut : Nat}
    {a : Wal.Action} {mvs : List Log.Move} (h : Covers log m cut)
    (hsim : Wal.Sim base log hand buffer disk m)
    (hexec : exec Log.move mvs log = some log')
    (happ : Log.appended mvs = [])
    (hs : Wal.step cfg a (disk, m) = some (disk', m')) :
    Covers log' m' cut := by
  have hacc := Log.exec_accepted hexec
  rw [happ, List.append_nil] at hacc
  have hbelow := h.below
  have hactive := hsim.activeSegment
  rw [hsim.id] at hactive
  refine ⟨?_, Nat.lt_of_lt_of_le hbelow (Wal.active_mono hsim hs), ?_⟩
  · rw [Log.exec_through hexec (by omega), hacc]
    exact h.through
  · rw [Log.exec_first hexec]
    exact h.first

namespace Chapter.Tells

/-- The segments, with that of a flush under way. -/
private theorem renamed (h : c.Tells json t data disk db) {who : Caller}
    {cut : Nat} {job : FlushJob} (hpc : db.pc = .flush who cut job)
    (hflush : Flushing json data db.state job c.ledger) (number : Nat) :
    Valid ((c.ledger.files ++ [(number, job.segment)]).map Prod.snd)
      ∧ (View.loadAll {} ((c.ledger.files
          ++ [(number, job.segment)]).map Prod.snd)).Like t.orderly
        (.writeAll {} t.writes) := by
  have hstands := h.stands
  rw [hpc] at hstands
  constructor
  · rw [List.map_append, List.map_singleton]
    exact (valid_concat fun _ => rfl).mpr ⟨hflush.valid, hflush.fits⟩
  · refine ⟨?_, fun horder => ?_⟩
    · rw [Ledger.hist_concat hflush.moved]
      exact h.view.hist
    · rw [Ledger.sets_concat, hstands.2 horder]
      exact h.view.sets horder

/-- What the directories have, at any point. In a flush the answer turns
with the rename: before it the segments have what the chapter began with,
behind it they have it all, and the records are there twice. -/
private theorem standing (h : c.Tells json t data disk db) :
    ∃ n, n + c.log.pending.length ≤ (c.recs disk).length
      ∧ Standing json t.orderly data t.writes n (c.recs disk) := by
  have hbefore : data.Holds json c.ledger.files →
      Valid (c.ledger.files.map Prod.snd) →
      ∃ n, n + c.log.pending.length ≤ (c.recs disk).length
        ∧ Standing json t.orderly data t.writes n (c.recs disk) :=
    fun hheld hvalid => ⟨c.inert, h.held, c.ledger.files, c.lnames, c.done,
      c.rest, h.writes, hheld, hvalid, h.base, c.defined, h.kept⟩
  cases h.good with
  | failed hfailed _ =>
      rw [h.able] at hfailed
      cases hfailed
  | settled _ hsettled => exact hbefore hsettled.held hsettled.valid
  | @flushing who cut job hpc hflush =>
      obtain ⟨store, -, -, hdir⟩ := hflush.store
      rcases hdir with ⟨-, -, hheld⟩ | ⟨-, hheld⟩
      · exact hbefore hheld hflush.valid
      · -- the rename has happened, and the segments have it all
        have hstands := h.stands
        rw [hpc] at hstands
        obtain ⟨hvalid, hlike⟩ := h.renamed hpc hflush store.nextNumber
        refine ⟨(c.recs disk).length, ?_, c.ledger.files
          ++ [(store.nextNumber, job.segment)], c.lnames, t.writes, [],
          (List.append_nil _).symm, hheld, hvalid, hlike, [],
          h.kept.settle ?_⟩
        · rw [hstands.1.pending_nil]
          exact Nat.le_refl _
        · rw [Ledger.hist_concat hflush.moved, h.view.hist, h.writes,
            View.writeAll_append]
          exact ((h.base.writeAll c.rest).hist).symm

/-- A process that stops leaves the writes it has made. If it stops in a
removal, some of the files that call had on its list are gone; they lie
below the active one, and had nothing the segments do not have. No other
call removes files. -/
theorem leaves (h : c.Tells json t data disk db) {removed : List Nat}
    (hremoved : removed.Sublist (Phase.running db).toRemove)
    (hunlink : removed.foldlM Disk.unlink disk = some disk') :
    Leaves json t data disk' db.wal := by
  obtain ⟨n, hheld, hstanding⟩ := h.standing
  by_cases hpc : ∃ who through, db.pc = .remove who through
  · obtain ⟨who, through, hpc⟩ := hpc
    have hstands := h.stands
    rw [hpc] at hstands
    obtain ⟨hcovers, hrest, hinert, -⟩ := hstands
    have hids : ∀ id ∈ removed, id < db.wal.shared.activeSegment := by
      intro id hid
      have hin := hremoved.subset hid
      unfold Phase.toRemove at hin
      simp only at hin
      split at hin
      · rename_i bound todo done hcall
        obtain ⟨hlt, hle⟩ := h.journal.removal.todo _ _ _ _ hcall
        exact Nat.lt_of_le_of_lt (hle id hin) hlt
      · cases hin
    obtain ⟨hjournal, hsub⟩ := h.journal.unlink_all hids hunlink
    refine ⟨c.old, c.actions, c.log, c.hand, c.buffer,
      (c.log.recs c.old disk').length, hjournal, h.noted, ?_, ?_⟩
    · rw [hcovers.pending_nil]
      exact Nat.le_refl _
    · cases h.good with
      | failed hfailed _ =>
          rw [h.able] at hfailed
          cases hfailed
      | flushing hflush _ =>
          rw [hflush] at hpc
          cases hpc
      | settled _ hsettled =>
          have hkept := h.kept
          rw [hinert] at hkept
          have hfront : ∀ rec ∈ c.log.recs c.old disk',
              rec ∈ (c.log.recs c.old disk).take
                (c.log.recs c.old disk).length := by
            intro rec hrec
            rw [List.take_length]
            exact hsub.subset hrec
          have hless := hkept.removed hfront
          rw [List.drop_length, List.append_nil] at hless
          exact ⟨c.ledger.files, c.lnames, c.done, c.rest, h.writes,
            hsettled.held, hsettled.valid, h.base, c.defined, hless⟩
  · -- no other call removes files
    have hnone : removed = [] := by
      have hidle : db.wal.removing db.calls = .idle := by
        by_contra hbusy
        exact hpc (h.calls.later _ (Nat.le_refl _) hbusy).2
      unfold Phase.toRemove at hremoved
      simp only [hidle] at hremoved
      exact List.eq_nil_of_sublist_nil hremoved
    subst hnone
    cases hunlink
    exact ⟨c.old, c.actions, c.log, c.hand, c.buffer, n, h.journal, h.noted,
      hheld, hstanding⟩

-- ================================================================== the log

variable {a : Wal.Action} {m' : Machine}

/-- A step that neither accepts anything nor takes a file away leaves the
chapter as it is, with the steps of the log one longer. Everything a chapter
says of the log is about its records, and they have not changed; where the
database is at a call, the caller of this lemma says why the call stands. -/
private theorem moved (h : c.Tells json t data disk db)
    {safe : Nat} {log' : Log} {hand' buffer' : List WalRecord}
    {mvs : List Log.Move}
    (hjournal : Journal c.old (c.actions ++ [a]) log' hand' buffer' disk' m')
    (hexec : exec Log.move mvs c.log = some log')
    (happ : Log.appended mvs = [])
    (hrecs : log'.recs c.old disk' = c.recs disk)
    (hs : Wal.step cfg a (disk, db.wal) = some (disk', m'))
    (hnoted : Noted { t with safe } c.log)
    (hcalls : ({ db with wal := m' } : Db).Calls)
    (hcut : ∀ who, db.pc = .cut who →
      m'.shared.serial = some { caller := 0, requested := true } →
      Wal.beforeCut (c.actions ++ [a]) = log'.accepted) :
    Chapter.Tells json { t with safe } data disk' { db with wal := m' }
      { c with
        actions := c.actions ++ [a]
        log := log'
        hand := hand'
        buffer := buffer' } := by
  have hpending := Log.exec_pending hexec
  rw [happ, List.length_nil, Nat.add_zero] at hpending
  have hsame := Log.exec_accepted hexec
  rw [happ, List.append_nil] at hsame
  have hheld := h.held
  have hkept := h.kept
  have hstands := h.stands
  have howned := h.owned
  rw [← hrecs] at hheld hkept
  refine ⟨hjournal, hnoted.moves hexec happ, h.good.congr rfl rfl, h.able,
    h.writes, h.view, h.base, hkept, ?_, hcalls, ?_, ?_⟩
  · show c.inert + log'.pending.length ≤ (log'.recs c.old disk').length
    omega
  · show Chapter.Stands _ disk' m' _ db.pc
    unfold Chapter.Stands at hstands ⊢
    cases hpc : db.pc with
    | idle => trivial
    | cut who => exact hcut who hpc
    | flush who cut job =>
        simp only [hpc] at hstands
        exact ⟨hstands.1.moves h.journal.sim hexec happ hs, hstands.2⟩
    | remove who cut =>
        simp only [hpc] at hstands
        obtain ⟨hcovers, hrest, hinert, hdefined⟩ := hstands
        exact ⟨hcovers.moves h.journal.sim hexec happ hs, hrest,
          hinert.trans (congrArg List.length hrecs.symm), hdefined⟩
  · cases howned with
    | own hwho hnames hdefined hwhole =>
        rw [← hrecs] at hwhole
        exact .own hwho hnames hdefined hwhole
    | replayed hwho hnone hfirst =>
        exact .replayed hwho (hsame.trans hnone)
          ((Log.exec_first hexec).trans hfirst)

/-- The removal a database is in stays below the active segment. -/
private theorem below (h : c.Tells json t data disk db) :
    ∀ who through, db.pc = .remove who through →
      through < db.wal.shared.activeSegment := by
  intro who through hpc
  have hstands := h.stands
  rw [hpc] at hstands
  exact hstands.1.below

/-- A step of the log that neither takes a file away nor returns. It appends
nothing, so the log goes on by moves that leave its records alone. A request
for a cut needs a word: behind it everything accepted is in front of the
cut, for the database writes nothing until the cut has returned. -/
private theorem quiet (h : c.Tells json t data disk db)
    (hallow : db.allows a = true)
    (hcut : ∀ caller closed, a ≠ .cutReturn caller closed)
    (hremove : ∀ caller removed, a ≠ .removeReturn caller removed)
    (hfile : ∀ caller id, a ≠ .removeFile caller id)
    (hs : Wal.step cfg a (disk, db.wal) = some (disk', m')) :
    ∃ c', Chapter.Tells json (t.next (.wal a)) data disk'
      { db with wal := m' } c' := by
  have hacc : a.accepted = [] := by
    cases a with
    | append => cases hallow
    | _ => rfl
  obtain ⟨mvs, log', hand', buffer', hexec, happ, hjournal, hrecs⟩ :=
    h.journal.step hfile hs
  rw [hacc] at happ hrecs
  rw [List.append_nil] at hrecs
  have hsame := Log.exec_accepted hexec
  rw [happ, List.append_nil] at hsame
  have hnoted : Noted (t.next (.wal a)) c.log
      ∧ ∃ safe, t.next (.wal a) = { t with safe } := by
    cases a with
    | waitReturn lsn =>
        simp only [Wal.step] at hs
        split at hs
        · rename_i hle
          refine ⟨h.noted.wait (Nat.le_trans hle ?_), _, rfl⟩
          rw [h.journal.sim.written]
          exact h.journal.sim.sound
        · cases hs
    | cutReturn caller closed => exact absurd rfl (hcut caller closed)
    | removeReturn caller removed => exact absurd rfl (hremove caller removed)
    | removeFile caller id => exact absurd rfl (hfile caller id)
    | closeReturn => cases hallow
    | _ => exact ⟨h.noted, t.safe, rfl⟩
  obtain ⟨hnoted, safe, hnext⟩ := hnoted
  rw [hnext] at hnoted ⊢
  refine ⟨_, h.moved hjournal hexec happ hrecs hs hnoted
    (h.calls.goOn hallow hcut hremove h.below hs) fun who hpc hserial => ?_⟩
  have hstands := h.stands
  rw [hpc] at hstands
  rw [hsame, Wal.beforeCut_snoc]
  by_cases hrequest : ∃ caller, a = .cutRequest caller
  · obtain ⟨caller, rfl⟩ := hrequest
    exact h.journal.accepted.symm
  · have hno : a.isRequest = false := by
      cases a with
      | cutRequest caller => exact absurd ⟨caller, rfl⟩ hrequest
      | _ => rfl
    rw [hno, if_neg Bool.false_ne_true]
    -- the request is an earlier one
    refine hstands ?_
    cases a with
    | flusher n =>
        rw [← (Wal.FlusherStep.of_step hs).calls.1]
        exact hserial
    | cutLock caller =>
        simp only [Wal.step] at hs
        split at hs <;> cases hs
        cases hserial
    | cutRequest caller => cases hno
    | cutReturn caller closed => exact absurd rfl (hcut caller closed)
    | _ =>
        obtain ⟨-, -, hkeep⟩ := Wal.step_keeps (by simp) hs
        rw [← (hkeep rfl).2]
        exact hserial

/-- A file of the log is removed: it had nothing that the segments do not
have. Its records are among the first of the log, and those first are the
ones the flush in front of the removal has put into a segment. -/
private theorem removeFile (h : c.Tells json t data disk db)
    {caller id : Nat} (hallow : db.allows (.removeFile caller id) = true)
    (hs : Wal.step cfg (.removeFile caller id) (disk, db.wal)
      = some (disk', m')) :
    ∃ c', Chapter.Tells json (t.next (.wal (.removeFile caller id))) data
      disk' { db with wal := m' } c' := by
  obtain ⟨-, who, through, hpc⟩ := Db.Calls.allows_removeFile hallow
  have hstands := h.stands
  rw [hpc] at hstands
  obtain ⟨hcovers, hrest, hinert, hdefined⟩ := hstands
  obtain ⟨hjournal, hsub⟩ := h.journal.removeFile hs
  let c' : Chapter := { c with
    actions := c.actions ++ [.removeFile caller id]
    inert := (c.log.recs c.old disk').length }
  have hkept : Kept c.lnames c.ledger.base c.rest c.defined
      (c.log.recs c.old disk').length (c.log.recs c.old disk') := by
    have hkept := h.kept
    rw [hinert] at hkept
    have hfront : ∀ rec ∈ c.log.recs c.old disk',
        rec ∈ (c.log.recs c.old disk).take
          (c.log.recs c.old disk).length := by
      intro rec hrec
      rw [List.take_length]
      exact hsub.subset hrec
    have hless := hkept.removed hfront
    rwa [List.drop_length, List.append_nil] at hless
  have hcovers' : Covers c.log m' through :=
    hcovers.moves h.journal.sim (rfl : exec Log.move [] c.log = some c.log)
      rfl hs
  refine ⟨c', hjournal, ⟨h.noted.plain, h.noted.past, h.noted.le, h.noted.safe,
    h.noted.lsns⟩, h.good.congr rfl rfl, h.able, h.writes, h.view, h.base,
    hkept, ?_, h.calls.goOn hallow (by simp) (by simp) h.below hs, ?_, ?_⟩
  · show _ + c.log.pending.length ≤ _
    rw [hcovers.pending_nil]
    exact Nat.le_refl _
  · show c'.Stands _ disk' m' db.pc
    rw [hpc]
    exact ⟨hcovers', hrest, rfl, hdefined⟩
  · cases h.owned with
    | own hwho hnames hdef _ =>
        exact .own hwho hnames hdef (by simp [Tale.next])
    | replayed hwho hnone hfirst => exact .replayed hwho hnone hfirst

/-- A step of the log, while the database stays where it is. -/
theorem goOn (h : c.Tells json t data disk db)
    (hallow : db.allows a = true)
    (hcut : ∀ caller closed, a ≠ .cutReturn caller closed)
    (hremove : ∀ caller removed, a ≠ .removeReturn caller removed)
    (hs : Wal.step cfg a (disk, db.wal) = some (disk', m')) :
    ∃ c', Chapter.Tells json (t.next (.wal a)) data disk'
      { db with wal := m' } c' := by
  by_cases hfile : ∃ caller id, a = .removeFile caller id
  · obtain ⟨caller, id, rfl⟩ := hfile
    exact h.removeFile hallow hs
  · exact h.quiet hallow hcut hremove
      (fun caller id he => hfile ⟨caller, id, he⟩) hs

-- ================================================================== a flush

/-- Owned as before, as far as it depends on where the database stands. -/
private theorem owned_congr {pc pc' : Pc} (h : c.Owned t disk pc)
    (hwho : pc'.who = pc.who) (hpc : ∀ through, pc ≠ .remove .opened through) :
    c.Owned t disk pc' := by
  cases h with
  | own hown hnames hdefined hwhole =>
      exact .own (hwho.trans hown) hnames hdefined hwhole
  | @replayed last hopening hnone hfirst =>
      rcases hopening with hopening | hremove
      · exact .replayed (.inl (hwho.trans hopening)) hnone hfirst
      · exact absurd hremove (hpc last)

/-- The cut has been answered: everything is in front of it. The answer is
the number of a closed file, and the records accepted before the request are
in the files up to that one, which is all of them. -/
private theorem answered (h : c.Tells json t data disk db) {who : Caller}
    {closed : Nat} (hpc : db.pc = .cut who)
    (hs : Wal.step cfg (.cutReturn 0 closed) (disk, db.wal)
      = some (disk', m')) :
    ∃ c', Chapter.Tells json (t.next (.wal (.cutReturn 0 closed))) data disk'
        { db with wal := m' } c'
      ∧ Covers c'.log m' closed ∧ m'.shared.serial = none := by
  obtain ⟨mvs, log', hand', buffer', hexec, happ, hjournal, hrecs⟩ :=
    h.journal.step (by simp) hs
  have happ : Log.appended mvs = [] := happ
  have hrecs : log'.recs c.old disk' = c.recs disk := by
    rw [hrecs]
    exact List.append_nil _
  obtain ⟨hrequest, hclosed, hfree, hremoving⟩ :
      db.wal.shared.serial = some { caller := 0, requested := true }
        ∧ db.wal.shared.cut.closed = some closed
        ∧ m'.shared.serial = none ∧ m'.removing = db.wal.removing := by
    have hreturn := hs
    simp only [Wal.step] at hreturn
    split at hreturn
    · rename_i hcond
      cases hreturn
      exact ⟨hcond.1, hcond.2, rfl, rfl⟩
    · cases hreturn
  have hstands := h.stands
  rw [hpc] at hstands
  have hcovers : Covers c.log db.wal closed := by
    obtain ⟨-, hle, -⟩ := h.journal.cuts.answered closed hclosed
    obtain ⟨hfirst, hbelow⟩ := h.journal.clearing.published closed hclosed
    rw [hstands hrequest] at hle
    exact ⟨(Log.through_accepted _ _).eq_of_length_le hle, hbelow, hfirst⟩
  refine ⟨_, h.moved hjournal hexec happ hrecs hs
    (h.noted.all hcovers.pending_nil) ?_ fun _ _ hserial => ?_,
    hcovers.moves h.journal.sim hexec happ hs, hfree⟩
  · refine h.calls.congr (fun _ hc => ?_) hremoving
    rw [hfree] at hc
    cases hc
  · rw [hfree] at hserial
    cases hserial

/-- The segments have everything, and the removal begins. From here on they
are the base of what the log adds, and none of the records in front of the
cut is needed any more. -/
private theorem settle (h : c.Tells json t data disk db) {state : DbState}
    {g : Ledger} {who : Caller} {cut : Nat} (hwho : db.pc.who = who)
    (hpc : ∀ who through, db.pc ≠ .remove who through)
    (hserial : db.wal.shared.serial = none)
    (hcovers : Covers c.log db.wal cut) (hgood : Settled json data' state g)
    (hable : state.failed = false) (hnames : g.names = c.ledger.names)
    (hview : g.view = c.ledger.view) (hdefined : g.defined = [])
    (hbase : g.base.Like t.orderly (.writeAll {} t.writes)) :
    ∃ c', Chapter.Tells json t data' disk
      { db with state, pc := .remove who cut } c' := by
  refine ⟨{ c with
    ledger := g, done := t.writes, rest := [], defined := []
    inert := (c.recs disk).length }, h.journal, h.noted,
    .settled (by simp) hgood, hable, (List.append_nil _).symm, ?_, hbase,
    h.kept.settle ?_, ?_, h.calls.quiet hserial (h.calls.idle hpc),
    ⟨hcovers, rfl, rfl, hdefined⟩, ?_⟩
  · show View.Like _ ⟨g.names, g.view.hist⟩ _
    rw [hnames, hview]
    exact h.view
  · rw [hbase.hist, h.writes, View.writeAll_append]
    exact ((h.base.writeAll c.rest).hist).symm
  · show (c.recs disk).length + c.log.pending.length ≤ (c.recs disk).length
    rw [hcovers.pending_nil]
    exact Nat.le_refl _
  · refine owned_congr ?_ hwho.symm fun _ => hpc _ _
    cases h.owned with
    | own hown hlnames hdef hwhole =>
        refine .own hown (hlnames.trans hnames.symm) hdefined.symm fun hw => ?_
        show Contained g.names g.defined _
        rw [hnames, hdefined]
        exact (hwhole hw).forget
    | replayed hopening hnone hfirst =>
        exact .replayed hopening hnone hfirst

/-- With nothing in the index to flush, the segments have everything. -/
private theorem flush_nothing (h : c.Tells json t data disk db)
    (hsettled : Settled json data db.state c.ledger)
    (hnone : db.state.bufferedSamples = 0) :
    c.ledger.base.Like t.orderly (.writeAll {} t.writes) := by
  have hhist := hsettled.memory.shows.hist_of_inMemory
    (hsettled.memory.counted ▸ hnone)
  rw [h.view.hist, h.writes] at hhist
  have hbase := h.base.settle hhist
  rwa [← h.writes] at hbase

/-- The flush of the store begins, or there was nothing to flush. In the
second case the segments have all there is already, and the removal is next. -/
private theorem startFlush (h : c.Tells json t data disk db) {who : Caller}
    {cut : Nat} (hpc : db.pc = .cut who)
    (hserial : db.wal.shared.serial = none)
    (hcovers : Covers c.log db.wal cut)
    (hs : db.startFlush who cut = some db') :
    ∃ c', Chapter.Tells json t data disk db' c' := by
  have hnot : ∀ who through, db.pc ≠ .remove who through := by
    rw [hpc]
    simp
  cases h.good with
  | failed hfailed _ =>
      rw [h.able] at hfailed
      cases hfailed
  | flushing hflush _ =>
      rw [hflush] at hpc
      cases hpc
  | settled _ hsettled =>
      obtain ⟨index, pc, ⟨hstart, job, rfl, hflushing⟩
          | ⟨hstart, hnone, hsettled'⟩⟩ := hsettled.startFlush who cut
      · have hs' := hs
        rw [hstart] at hs'
        cases hs'
        refine ⟨c, h.journal, h.noted, .flushing rfl hflushing, h.able,
          h.writes, h.view, h.base, h.kept, h.held,
          h.calls.quiet hserial (h.calls.idle hnot),
          ⟨hcovers, fun horder => ?_⟩,
          owned_congr h.owned (by rw [hpc]; rfl) fun _ => hnot _ _⟩
        have hnames := h.view.sets horder
        have hbase := h.base.sets horder
        refine hsettled.startFlush_order hs rfl ?_ fun ls hls => ?_
        · rw [show c.ledger.names = _ from hnames, hbase, h.writes,
            View.writeAll_append, View.sets_writeAll (View.writeAll {} c.done)]
          exact prefix_touchAll _ _
        · rw [show c.ledger.names = _ from hnames] at hls
          rw [show c.ledger.view.hist = _ from h.view.hist]
          exact ((View.Ok.empty.writeAll t.writes).mem ls).mp hls
      · rw [hstart] at hs
        cases hs
        exact h.settle (by rw [hpc]; rfl) hnot hserial hcovers hsettled' h.able
          rfl rfl rfl (h.flush_nothing hsettled hnone)

/-- The cut returns. -/
theorem cutReturn (h : c.Tells json t data disk db) {who : Caller}
    {closed : Nat} (hpc : db.pc = .cut who)
    (hs : Wal.step cfg (.cutReturn 0 closed) (disk, db.wal)
      = some (disk', m'))
    (hstart : ({ db with wal := m' } : Db).startFlush who closed = some db') :
    ∃ c', Chapter.Tells json (t.next (.wal (.cutReturn 0 closed))) data disk'
      db' c' := by
  obtain ⟨c', h', hcovers, hserial⟩ := h.answered hpc hs
  exact h'.startFlush hpc hserial hcovers hstart

/-- A call of the store. It is in front of the last one, and the flush goes
on; or it is the last, and `settle` says what follows. -/
theorem storeStep (hjson : json.Lawful) (h : c.Tells json t data disk db)
    {n : Nat} (hs : db.storeStep json n data = some (data', db')) :
    ∃ c', Chapter.Tells json t data' disk db' c' := by
  obtain ⟨who, cut, job, hpc⟩ : ∃ who cut job, db.pc = .flush who cut job := by
    have hflush := hs
    unfold Db.storeStep at hflush
    split at hflush
    · rename_i hpc _
      exact ⟨_, _, _, hpc⟩
    · cases hflush
  have hnot : ∀ who through, db.pc ≠ .remove who through := by
    rw [hpc]
    simp
  have hserial : db.wal.shared.serial = none := by
    refine h.calls.unlocked ?_
    rw [hpc]
    simp
  have hstands := h.stands
  rw [hpc] at hstands
  obtain ⟨hcovers, horder⟩ := hstands
  cases h.good with
  | failed hfailed _ =>
      rw [h.able] at hfailed
      cases hfailed
  | settled hnone _ => exact absurd hpc (hnone who cut job)
  | flushing hflush hflushing =>
      rw [hflush] at hpc
      cases hpc
      rcases hflushing.step hjson hflush hs with ⟨job', rfl, hflushing'⟩
        | ⟨store, number, rfl, hsettled⟩
      · refine ⟨c, h.journal, h.noted, .flushing rfl hflushing', h.able,
          h.writes, h.view, h.base, h.kept, h.held,
          h.calls.quiet hserial (h.calls.idle hnot),
          ⟨hcovers, ?_⟩,
          owned_congr h.owned (by rw [hflush]; rfl) fun _ => hnot _ _⟩
        rw [Db.storeStep_segment hflush rfl hs]
        exact horder
      · exact h.settle (by rw [hflush]; rfl) hnot hserial hcovers hsettled
          h.able rfl rfl rfl (h.renamed hflush hflushing number).2

/-- The removal a call of `open_with` is for is next, or it is over. Behind
the last of them the log has nothing from before this process, for what has
been replayed lay in the files up to the last. -/
private theorem next_stands (h : c.Tells json t data disk db) {who : Caller}
    {through : Nat} (hpc : db.pc = .remove who through) {t' : Tale}
    (hstarted : c.log.first ≤ m'.shared.activeSegment)
    (hgone : c.recs disk' = []) :
    Chapter.Stands t' disk' m'
      { c with lnames := c.ledger.names, defined := [], inert := 0 }
      who.next := by
  have hstands := h.stands
  rw [hpc] at hstands
  obtain ⟨-, hrest, -, hdefined⟩ := hstands
  cases who with
  | operation => trivial
  | opened => trivial
  | opening last =>
      cases h.owned with
      | own hwho =>
          rw [hpc] at hwho
          cases hwho
      | @replayed last' hwho hnone hfirst =>
          have hlast : last = last' := by
            rw [hpc] at hwho
            rcases hwho with hwho | hwho
            · cases hwho
              rfl
            · cases hwho
          subst hlast
          refine ⟨⟨?_, ?_, Nat.le_of_eq hfirst⟩, hrest, ?_, hdefined⟩
          · -- nothing has been accepted that it could not cover
            refine (Log.through_accepted _ _).eq_of_length_le ?_
            show c.log.accepted.length ≤ _
            rw [hnone]
            exact Nat.zero_le _
          · show last < m'.shared.activeSegment
            omega
          · show 0 = (c.recs disk').length
            rw [hgone]
            rfl

/-- Behind the last removal the log is the database's own: its records have
been made by this process, and define the series they are for. -/
private theorem next_owned (h : c.Tells json t data disk db) {who : Caller}
    {through : Nat} (hpc : db.pc = .remove who through) {t' : Tale}
    (hgone : c.recs disk' = []) :
    Chapter.Owned t' disk'
      { c with lnames := c.ledger.names, defined := [], inert := 0 }
      who.next := by
  have hstands := h.stands
  rw [hpc] at hstands
  have hdefined := hstands.2.2.2
  have hown : who.next.who = .operation → Chapter.Owned t' disk'
      { c with lnames := c.ledger.names, defined := [], inert := 0 }
      who.next := by
    intro hwho
    refine .own hwho rfl hdefined.symm fun _ => ?_
    show Contained _ c.ledger.defined (c.recs disk')
    rw [hgone, hdefined]
    exact .nil _
  cases h.owned with
  | own hwho =>
      rw [hpc] at hwho
      refine hown ?_
      rw [show who = .operation from hwho]
      rfl
  | @replayed last hwho hnone hfirst =>
      rw [hpc] at hwho
      rcases hwho with hwho | hwho
      · rw [show who = .opening last from hwho]
        exact .replayed (.inr rfl) hnone hfirst
      · cases hwho
        exact hown rfl

/-- A call of `remove_through` returns: its list is done. -/
private theorem removeReturn_done {caller : Nat} {removed : List Nat}
    {m : Machine} (hs : Wal.step cfg (.removeReturn caller removed) (disk, m)
      = some (disk', m')) :
    ∃ bound, m.removing caller = .removing bound [] removed
      ∧ disk' = disk ∧ m' = m.setRemoving caller .idle := by
  simp only [Wal.step] at hs
  split at hs
  · rename_i bound done hcall
    split at hs
    · rename_i hdone
      cases hs
      exact ⟨bound, hdone ▸ hcall, rfl, rfl⟩
    · cases hs
  · cases hs

/-- The list was complete, too: nothing is left of the log. -/
theorem gone (h : c.Tells json t data disk db) {who : Caller} {through : Nat}
    {removed : List Nat} (hpc : db.pc = .remove who through)
    (hs : Wal.step cfg (.removeReturn db.calls removed) (disk, db.wal)
      = some (disk', m')) {mvs : List Log.Move} {log' : Log}
    {hand' buffer' : List WalRecord}
    (hexec : exec Log.move mvs c.log = some log')
    (happ : Log.appended mvs = [])
    (hjournal : Journal c.old
      (c.actions ++ [.removeReturn db.calls removed]) log' hand' buffer' disk'
      m') :
    log'.recs c.old disk' = [] := by
  obtain ⟨bound, hcall, hdisk, -⟩ := removeReturn_done hs
  have hstands := h.stands
  rw [hpc] at hstands
  have hcovers := hstands.1.moves h.journal.sim hexec happ hs
  refine hjournal.cleared hcovers.first hcovers.through fun e he hlinked => ?_
  by_contra hle
  rw [hdisk] at he
  have hin := h.journal.clearing.listed _ _ _ _ hcall e he hlinked (by
    rw [h.calls.removing who through bound [] removed hpc hcall]
    omega)
  cases hin

/-- The removal has gone through. The files up to the bound are gone, so of
the records that the segments have, none is left, and the next call begins. -/
theorem removed (h : c.Tells json t data disk db) {who : Caller}
    {through : Nat} {removed : List Nat} (hpc : db.pc = .remove who through)
    (hs : Wal.step cfg (.removeReturn db.calls removed) (disk, db.wal)
      = some (disk', m')) :
    ∃ c', Chapter.Tells json
      (t.next (.wal (.removeReturn db.calls removed))) data disk'
      { db with wal := m', pc := who.next, calls := db.calls + 1 } c' := by
  obtain ⟨mvs, log', hand', buffer', hexec, happ, hjournal, hrecs⟩ :=
    h.journal.step (by simp) hs
  have happ : Log.appended mvs = [] := happ
  have hrecs : log'.recs c.old disk' = c.recs disk := by
    rw [hrecs]
    exact List.append_nil _
  obtain ⟨-, -, -, hm'⟩ := removeReturn_done hs
  have hgone := h.gone hpc hs hexec happ hjournal
  have hcalls : ({ db with wal := m' } : Db).Calls := by
    rw [hm']
    exact h.calls.call hpc (by simp) (by simp)
  have h' := h.moved hjournal hexec happ hrecs hs h.noted
    hcalls fun who' hcut _ => by
      rw [hpc] at hcut
      cases hcut
  have hstands := h'.stands
  rw [show ({ db with wal := m' } : Db).pc = _ from hpc] at hstands
  obtain ⟨hcovers, hrest, -, -⟩ := hstands
  cases h'.good with
  | failed hfailed _ =>
      rw [show db.state.failed = false from h.able] at hfailed
      cases hfailed
  | flushing hflush _ =>
      rw [show db.pc = _ from hflush] at hpc
      cases hpc
  | settled _ hsettled =>
      refine ⟨{ c with
        actions := c.actions ++ [.removeReturn db.calls removed]
        log := log', hand := hand', buffer := buffer'
        lnames := c.ledger.names, defined := [], inert := 0 }, h'.journal,
        ⟨h'.noted.plain, h'.noted.past, h'.noted.le, h'.noted.safe,
          h'.noted.lsns⟩,
        .settled (Caller.next_ne_flush who) hsettled, h.able, h.writes, h.view,
        h.base, ?_, ?_, ?_,
        h'.next_stands hpc hjournal.clearing.started hgone,
        h'.next_owned hpc hgone⟩
      · show Kept _ _ c.rest [] 0 (log'.recs c.old disk')
        rw [hgone, show c.rest = [] from hrest]
        exact .empty hsettled.memory.shows.named.nodup _
      · show 0 + log'.pending.length ≤ _
        rw [hcovers.pending_nil]
        exact Nat.zero_le _
      · refine h.calls.ended hpc ?_ fun j hj => ?_
        · rw [hm']
          rfl
        · rw [hm']
          exact if_neg hj

/-- The removal fails. Some of the files may be gone, and the rest has
nothing that the segments do not have. -/
theorem removeFails (h : c.Tells json t data disk db) {through : Nat}
    (hpc : db.pc = .remove .operation through) :
    c.Tells json t data disk
      { db with pc := .idle, calls := db.calls + 1 } := by
  refine ⟨h.journal, h.noted, ?_, h.able, h.writes, h.view, h.base, h.kept,
    h.held, h.calls.ended hpc rfl fun _ _ => rfl, trivial, ?_⟩
  · cases h.good with
    | failed hfailed _ =>
        rw [h.able] at hfailed
        cases hfailed
    | flushing hflush _ =>
        rw [hflush] at hpc
        cases hpc
    | settled _ hsettled => exact .settled (by simp) hsettled
  · cases h.owned with
    | own _ hnames hdefined hwhole => exact .own rfl hnames hdefined hwhole
    | replayed hwho =>
        rw [hpc] at hwho
        rcases hwho with hwho | hwho
        · cases hwho
        · cases hwho

end Chapter.Tells

end Tsdb
