/-
One process, as its two directories and its callers have it.

A `Chapter` is the record of an open database: its log (`Wal.Journal`), its
ledger, and how the writes that stand are divided between the segments and
the log (`Chapter.Tells`). Where the database stands in an operation says
how far the two have got (`Chapter.Stands`): behind a cut everything that
was accepted is in front of it, and behind the flush of the store the log
has nothing that the segments do not have. The ids of the log are the
database's own, unless `open_with` has yet to remove the replayed files
(`Chapter.Owned`).

# The clauses

`Chapter.Tells` joins invariants that have been proved apart: of the log
(`journal`, `noted`), of the state in memory (`good`), of what segments
and log have of the writes (`base`, `kept`), and of which call is under
way (`calls`). Between them there are four equations: the writes that
stand are `done` and `rest`; the view in memory is that of all writes, and
that of the segments the view of `done`; and the records of the log behind
the inert ones are those of `rest`.

`Db.Calls` is a matter of the lock. Only one thread is in an operation, so
at most one caller is in a cut and at most one in `remove_through`, and it
is the one the database stands in. Any other call has come to its end.

# What is left

`Leaves` is what of all this outlives the process. It has the log as it
is, and says which of its records the segments have; nothing about memory
or about the operation. A process that stops leaves it (`Leaves.crash`),
a drained log even without loss (`Leaves.exited`), and while a dropped
log drains it goes on to hold (`Leaves.drain`). `Rests` is what becomes
of it when nobody runs any more, and what the next opening starts from.
-/
import Tsdb.Db.Contained
import Tsdb.Db.Invariant
import Tsdb.Db.Stored

namespace Tsdb

open Lib (HashMap exec)
open Wal (Disk Journal Log Machine WalConfig WalError WalRecord)

-- ============================================================ what is left

variable {json : Json} {cfg : WalConfig} {t : Tale} {data data' : DataDir}
  {disk disk' : Disk} {m m' : Machine} {a : Wal.Action}

/-- Two directories nobody has open, and the writes they have. -/
structure Rests (json : Json) (t : Tale) (data : DataDir) (disk : Disk) :
    Prop where
  mine : t.mine = []
  safe : t.safe = t.past.length
  rests : ∃ recs n, disk.AtRest recs
    ∧ Standing json t.orderly data t.writes n recs

theorem Rests.empty (json : Json) : Rests json {} ∅ [] where
  mine := rfl
  safe := rfl
  rests := by
    refine ⟨[], 0, ⟨List.Pairwise.nil, ?_⟩, .empty json⟩
    show Wal.Recovers (Wal.list []) []
    unfold Wal.list
    rw [List.mergeSort_nil]
    exact .none

/-- What a process leaves when it stops: its log, and which of its records
the segments have. -/
structure Leaving (json : Json) (t : Tale) (data : DataDir)
    (old : List (List WalRecord)) (actions : List Wal.Action) (log : Log)
    (hand buffer : List WalRecord) (n : Nat) (disk : Disk) (m : Machine) :
    Prop where
  journal : Journal old actions log hand buffer disk m
  noted : Noted t log
  held : n + log.pending.length ≤ (log.recs old disk).length
  standing : Standing json t.orderly data t.writes n (log.recs old disk)

def Leaves (json : Json) (t : Tale) (data : DataDir) (disk : Disk)
    (m : Machine) : Prop :=
  ∃ old actions log hand buffer n,
    Leaving json t data old actions log hand buffer n disk m

/-- With nothing on its way, all of it is there. -/
theorem Leaving.rests {old : List (List WalRecord)}
    {actions : List Wal.Action} {log : Log} {hand buffer : List WalRecord}
    {n : Nat} (h : Leaving json t data old actions log hand buffer n disk m)
    (hnone : log.pending = []) :
    Rests json (t.next (.wal .closeReturn)) data disk := by
  obtain ⟨k, hk, hle, hrest⟩ := h.journal.crash h.noted.plain
  rw [hnone, List.length_nil, Nat.sub_zero] at hk
  have hall := Nat.le_antisymm hle hk
  rw [hall, List.take_length] at hrest
  refine ⟨rfl, rfl, _, n, hrest, ?_⟩
  rw [t.writes_closed]
  exact h.standing

namespace Leaves

/-- A crash takes writes that are not safe. -/
theorem crash (h : Leaves json t data disk m) :
    ∃ k, t.safe ≤ k ∧ k ≤ t.writes.length
      ∧ Rests json (t.crash k) data disk := by
  obtain ⟨old, actions, log, hand, buffer, n, h⟩ := h
  obtain ⟨k, hk, hle, hrest⟩ := h.journal.crash h.noted.plain
  obtain ⟨i, hsafe, hi, hstanding⟩ :=
    h.standing.torn h.noted.le h.noted.safe h.held hk hle
  refine ⟨i, hsafe, hi, rfl, ?_, _, n, hrest, ?_⟩
  · show i = (t.writes.take i).length
    rw [List.length_take, Nat.min_eq_left hi]
  · rw [t.writes_crash]
    exact hstanding

/-- A log whose flusher has left has lost nothing. -/
theorem exited (h : Leaves json t data disk m) (hpc : m.pc = .exited) :
    Rests json (t.next (.wal .closeReturn)) data disk := by
  obtain ⟨old, actions, log, hand, buffer, n, h⟩ := h
  exact h.rests (h.journal.exited hpc)

/-- Nor has one that has nothing on its way. -/
theorem empty (h : Leaves json t data disk m)
    (hbuf : m.shared.buffer.buf = []) (hpc : m.pc.holding = none) :
    Rests json (t.next (.wal .closeReturn)) data disk := by
  obtain ⟨old, actions, log, hand, buffer, n, h⟩ := h
  exact h.rests (h.journal.sim.pending_nil hbuf hpc)

/-- The log drains. -/
theorem drain (h : Leaves json t data disk m) (ha : drains a = true)
    (hs : Wal.step cfg a (disk, m) = some (disk', m')) :
    Leaves json (t.next (.wal a)) data disk' m' := by
  obtain ⟨old, actions, log, hand, buffer, n, h⟩ := h
  have hquiet : a.accepted = [] ∧ (∀ j id, a ≠ .removeFile j id)
      ∧ t.next (.wal a) = t := by
    cases a with
    | flusher n => exact ⟨rfl, by simp, rfl⟩
    | syncer => exact ⟨rfl, by simp, rfl⟩
    | close => exact ⟨rfl, by simp, rfl⟩
    | _ => cases ha
  obtain ⟨hacc, hremove, hsame⟩ := hquiet
  obtain ⟨moves, log', hand', buffer', hexec, happ, hjournal, hrecs⟩ :=
    h.journal.step hremove hs
  rw [hacc] at happ hrecs
  rw [List.append_nil] at hrecs
  rw [hsame]
  refine ⟨old, _, log', hand', buffer', n, hjournal,
    h.noted.moves hexec happ, ?_, ?_⟩
  · have hle := Log.exec_pending hexec
    have hheld := h.held
    rw [happ, List.length_nil] at hle
    rw [hrecs]
    omega
  · rw [hrecs]
    exact h.standing

end Leaves

-- ============================================================ the chapter

structure Chapter where
  old : List (List WalRecord)
  actions : List Wal.Action
  log : Log
  hand : List WalRecord
  buffer : List WalRecord
  ledger : Ledger
  /-- the label sets by the ids of the log -/
  lnames : List LabelSet
  defined : List LabelSet
  done : List WriteBatch
  rest : List WriteBatch
  inert : Nat

/-- The retained log. -/
def Chapter.recs (c : Chapter) (disk : Disk) : List WalRecord :=
  c.log.recs c.old disk

/-- All that was accepted is in front of the cut, below the active
segment. -/
structure Covers (log : Log) (m : Machine) (cut : Nat) : Prop where
  through : log.through cut = log.accepted
  below : cut < m.shared.activeSegment
  first : log.first ≤ cut + 1

/-- Behind a cut nothing is on its way. -/
theorem Covers.pending_nil {log : Log} {cut : Nat} (h : Covers log m cut) :
    log.pending = [] :=
  (Log.behind_through h.through).2.2

def Pc.who : Pc → Caller
  | .idle => .operation
  | .cut who => who
  | .flush who _ _ => who
  | .remove who _ => who

/-- How far the operation has got that the database is in. -/
def Chapter.Stands (t : Tale) (disk : Disk) (m : Machine) (c : Chapter) :
    Pc → Prop
  | .idle => True
  | .cut _ => m.shared.serial = some { caller := 0, requested := true } →
      Wal.beforeCut c.actions = c.log.accepted
  | .flush _ cut job => Covers c.log m cut
      ∧ (t.orderly = true → touchAll c.ledger.base.sets
        (job.segment.series.map DiskSeries.labels) = c.ledger.names)
  | .remove _ cut => Covers c.log m cut ∧ c.rest = []
      ∧ c.inert = (c.recs disk).length ∧ c.ledger.defined = []

/-- The log is the database's own, or it is that of the files `open_with`
has replayed, up to `last`, and will remove. -/
inductive Chapter.Owned (t : Tale) (disk : Disk) (c : Chapter) (pc : Pc) :
    Prop
  | own (hwho : pc.who = .operation) (hnames : c.lnames = c.ledger.names)
      (hdefined : c.defined = c.ledger.defined)
      (hwhole : t.whole = true →
        Contained c.ledger.names c.ledger.defined (c.recs disk))
  | replayed {last : Nat}
      (hwho : pc.who = .opening last ∨ pc = .remove .opened last)
      (hnone : c.log.accepted = []) (hfirst : c.log.first = last + 1)

/-- Which calls the database has under way: its own, and none but the one
it stands in. -/
structure Db.Calls (db : Db) : Prop where
  serial : ∀ cutting, db.wal.shared.serial = some cutting →
    cutting.caller = 0 ∧ ∃ who, db.pc = .cut who
  later : ∀ j, db.calls ≤ j → db.wal.removing j ≠ .idle →
    j = db.calls ∧ ∃ who through, db.pc = .remove who through
  bounded : ∀ who through bound, db.pc = .remove who through →
    db.wal.removing db.calls = .bounded bound → bound = through
  removing : ∀ who through bound todo removed,
    db.pc = .remove who through →
    db.wal.removing db.calls = .removing bound todo removed →
    bound = through

namespace Db.Calls

variable {db db' : Db}

/-- Nobody has got the lock of a cut, and no removal has moved. -/
theorem congr (h : db.Calls) {wal : Machine}
    (hserial : ∀ cutting, wal.shared.serial = some cutting →
      db.wal.shared.serial = some cutting)
    (hremoving : wal.removing = db.wal.removing) :
    ({ db with wal } : Db).Calls where
  serial cutting hc := h.serial cutting (hserial cutting hc)
  later j hj hbusy := h.later j hj (hremoving ▸ hbusy)
  bounded who through bound hpc hb :=
    h.bounded who through bound hpc (hremoving ▸ hb)
  removing who through bound todo removed hpc hr :=
    h.removing who through bound todo removed hpc (hremoving ▸ hr)

/-- The caller in `Cut::request` is the database, which is in `cut`. -/
private theorem locked (h : db.Calls) {who : Caller} (hpc : db.pc = .cut who)
    {wal : Machine} {r : Bool}
    (hserial : wal.shared.serial = some { caller := 0, requested := r })
    (hremoving : wal.removing = db.wal.removing) :
    ({ db with wal } : Db).Calls where
  serial cutting hc := by
    rw [show _ = _ from hserial, Option.some.injEq] at hc
    exact ⟨by rw [← hc], who, hpc⟩
  later j hj hbusy := h.later j hj (hremoving ▸ hbusy)
  bounded who' through bound hpc' hb :=
    h.bounded who' through bound hpc' (hremoving ▸ hb)
  removing who' through bound todo removed hpc' hr :=
    h.removing who' through bound todo removed hpc' (hremoving ▸ hr)

/-- The call of `remove_through` the database is in goes on. -/
theorem call (h : db.Calls) {who : Caller} {through : Nat}
    (hpc : db.pc = .remove who through) {pc : Wal.RemovePc}
    (hbounded : ∀ bound, pc = .bounded bound → bound = through)
    (hremoving : ∀ bound todo removed, pc = .removing bound todo removed →
      bound = through) :
    ({ db with wal := db.wal.setRemoving db.calls pc } : Db).Calls where
  serial cutting hc := h.serial cutting hc
  later j hj hbusy := by
    by_cases he : j = db.calls
    · exact ⟨he, who, through, hpc⟩
    · refine h.later j hj ?_
      unfold Machine.setRemoving at hbusy
      simp only [if_neg he] at hbusy
      exact hbusy
  bounded who' through' bound hpc' hb := by
    rw [hpc] at hpc'
    cases hpc'
    unfold Machine.setRemoving at hb
    simp only [if_true] at hb
    exact hbounded bound hb
  removing who' through' bound todo removed hpc' hr := by
    rw [hpc] at hpc'
    cases hpc'
    unfold Machine.setRemoving at hr
    simp only [if_true] at hr
    exact hremoving bound todo removed hr

section Allows

variable {caller id bound : Nat} {todo : List Nat}

private theorem allows_cutLock (h : db.allows (.cutLock caller) = true) :
    caller = 0 ∧ ∃ who, db.pc = .cut who := by
  simp only [Db.allows] at h
  split at h
  · rename_i who hpc
    exact ⟨beq_iff_eq.mp h, who, hpc⟩
  · cases h

private theorem allows_cutRequest
    (h : db.allows (.cutRequest caller) = true) :
    caller = 0 ∧ ∃ who, db.pc = .cut who := by
  simp only [Db.allows] at h
  split at h
  · rename_i who hpc
    exact ⟨beq_iff_eq.mp h, who, hpc⟩
  · cases h

private theorem allows_removeBound
    (h : db.allows (.removeBound caller id bound) = true) :
    caller = db.calls ∧ ∃ who, db.pc = .remove who id := by
  simp only [Db.allows] at h
  split at h
  · rename_i who through hpc
    rw [Bool.and_eq_true, beq_iff_eq, beq_iff_eq] at h
    exact ⟨h.1, who, h.2 ▸ hpc⟩
  · cases h

private theorem allows_removeList
    (h : db.allows (.removeList caller todo) = true) :
    caller = db.calls ∧ ∃ who through, db.pc = .remove who through := by
  simp only [Db.allows] at h
  split at h
  · rename_i who through hpc
    exact ⟨beq_iff_eq.mp h, who, through, hpc⟩
  · cases h

theorem allows_removeFile (h : db.allows (.removeFile caller id) = true) :
    caller = db.calls ∧ ∃ who through, db.pc = .remove who through := by
  simp only [Db.allows] at h
  split at h
  · rename_i who through hpc
    exact ⟨beq_iff_eq.mp h, who, through, hpc⟩
  · cases h

end Allows

/-- A step of the log, while the database stays where it is. A cut and a
removal go on only for the caller the database is at, and a removal that is
further on has its bound: the file it takes away next lies below it. -/
theorem goOn (h : db.Calls) {a : Wal.Action} (hallow : db.allows a = true)
    (hcut : ∀ caller closed, a ≠ .cutReturn caller closed)
    (hremove : ∀ caller removed, a ≠ .removeReturn caller removed)
    (hbelow : ∀ who through, db.pc = .remove who through →
      through < db.wal.shared.activeSegment)
    (hs : Wal.step cfg a (disk, db.wal) = some (disk', m')) :
    ({ db with wal := m' } : Db).Calls := by
  cases a with
  | flusher n =>
      obtain ⟨hserial, hremoving⟩ := (Wal.FlusherStep.of_step hs).calls
      exact h.congr (fun _ hc => hserial ▸ hc) hremoving
  | syncer =>
      obtain ⟨-, -, hsame⟩ := Wal.step_keeps (by simp) hs
      exact h.congr (fun _ hc => (hsame rfl).2 ▸ hc)
        (Wal.step_others (by simp) rfl hs).1
  | waitReturn lsn =>
      obtain ⟨-, -, hsame⟩ := Wal.step_keeps (by simp) hs
      exact h.congr (fun _ hc => (hsame rfl).2 ▸ hc)
        (Wal.step_others (by simp) rfl hs).1
  | cutLock caller =>
      obtain ⟨rfl, who, hpc⟩ := allows_cutLock hallow
      simp only [Wal.step] at hs
      split at hs <;> cases hs
      exact h.locked hpc (r := false) rfl rfl
  | cutRequest caller =>
      obtain ⟨rfl, who, hpc⟩ := allows_cutRequest hallow
      simp only [Wal.step] at hs
      split at hs <;> cases hs
      exact h.locked hpc (r := true) rfl rfl
  | cutReturn caller closed => exact absurd rfl (hcut caller closed)
  | removeBound caller id bound =>
      obtain ⟨rfl, who, hpc⟩ := allows_removeBound hallow
      simp only [Wal.step] at hs
      split at hs <;> cases hs
      rename_i hbound
      have hlt := hbelow who id hpc
      refine h.call hpc (fun b hb => ?_) (by simp)
      cases hb
      omega
  | removeList caller todo =>
      obtain ⟨rfl, who, through, hpc⟩ := allows_removeList hallow
      simp only [Wal.step] at hs
      split at hs
      · rename_i bound hcall
        split at hs <;> cases hs
        refine h.call hpc (by simp) fun b todo removed hr => ?_
        cases hr
        exact h.bounded who through _ hpc hcall
      · cases hs
  | removeFile caller id =>
      obtain ⟨rfl, who, through, hpc⟩ := allows_removeFile hallow
      simp only [Wal.step] at hs
      split at hs
      · rename_i bound next todo removed hcall
        split at hs
        · obtain ⟨d, -, heq⟩ := Option.map_eq_some_iff.mp hs
          cases heq
          refine h.call hpc (by simp) fun b todo removed hr => ?_
          cases hr
          exact h.removing who through _ _ _ hpc hcall
        · cases hs
      · cases hs
  | removeReturn caller removed => exact absurd rfl (hremove caller removed)
  | append rec result => cases hallow
  | removeFail caller id => cases hallow
  | close => cases hallow
  | closeReturn => cases hallow

/-- With no call under way it does not matter where the database stands. -/
theorem quiet (h : db.Calls) (hserial : db.wal.shared.serial = none)
    (hidle : db.wal.removing db.calls = .idle) {state : DbState} {pc : Pc} :
    ({ db with state, pc } : Db).Calls := by
  have hlater : ∀ j, db.calls ≤ j → db.wal.removing j = .idle := by
    intro j hj
    by_contra hbusy
    obtain ⟨rfl, -⟩ := h.later j hj hbusy
    exact hbusy hidle
  refine ⟨fun cutting hc => ?_, fun j hj hbusy => ?_,
    fun who through bound _ hb => ?_,
    fun who through bound todo removed _ hr => ?_⟩
  · rw [show db.wal.shared.serial = some cutting from hc] at hserial
    cases hserial
  · exact absurd (hlater j hj) hbusy
  · rw [show db.wal.removing db.calls = .bounded bound from hb] at hidle
    cases hidle
  · rw [show db.wal.removing db.calls = .removing bound todo removed from hr]
      at hidle
    cases hidle

/-- Nobody is in a cut unless the database is. -/
theorem unlocked (h : db.Calls) (hpc : ∀ who, db.pc ≠ .cut who) :
    db.wal.shared.serial = none := by
  by_contra hlocked
  obtain ⟨cutting, hlocked⟩ := Option.ne_none_iff_exists'.mp hlocked
  obtain ⟨-, who, hcut⟩ := h.serial cutting hlocked
  exact hpc who hcut

/-- No call is under way unless the database is in it. -/
theorem idle (h : db.Calls) (hpc : ∀ who through, db.pc ≠ .remove who through) :
    db.wal.removing db.calls = .idle := by
  by_contra hbusy
  obtain ⟨-, who, through, hremove⟩ := h.later _ (Nat.le_refl _) hbusy
  exact hpc who through hremove

/-- A removal is over; what its call has come to does not matter. -/
theorem ended (h : db.Calls) {who : Caller} {through : Nat}
    (hpc : db.pc = .remove who through) {wal : Machine} {pc : Pc}
    (hserial : wal.shared.serial = db.wal.shared.serial)
    (hremoving : ∀ j, j ≠ db.calls → wal.removing j = db.wal.removing j) :
    ({ db with wal, pc, calls := db.calls + 1 } : Db).Calls := by
  have hfree : wal.shared.serial = none := by
    rw [hserial]
    refine h.unlocked ?_
    rw [hpc]
    simp
  have hidle : ∀ j, db.calls + 1 ≤ j → wal.removing j = .idle := by
    intro j hj
    rw [hremoving j (by omega)]
    by_contra hbusy
    have := (h.later j (by omega) hbusy).1
    omega
  refine ⟨fun cutting hc => ?_, fun j hj hbusy => absurd (hidle j hj) hbusy,
    fun _ _ bound _ hb => ?_, fun _ _ bound todo removed _ hr => ?_⟩
  · rw [show wal.shared.serial = some cutting from hc] at hfree
    cases hfree
  · have hnone := hidle _ (Nat.le_refl _)
    rw [show wal.removing (db.calls + 1) = .bounded bound from hb] at hnone
    cases hnone
  · have hnone := hidle _ (Nat.le_refl _)
    rw [show wal.removing (db.calls + 1) = .removing bound todo removed
      from hr] at hnone
    cases hnone

end Db.Calls

/-- What is told of an open database. -/
structure Chapter.Tells (json : Json) (t : Tale) (data : DataDir)
    (disk : Disk) (db : Db) (c : Chapter) : Prop where
  journal : Journal c.old c.actions c.log c.hand c.buffer disk db.wal
  noted : Noted t c.log
  good : db.Good json data c.ledger
  able : db.state.failed = false
  writes : t.writes = c.done ++ c.rest
  view : (⟨c.ledger.names, c.ledger.view.hist⟩ : View).Like t.orderly
    (.writeAll {} t.writes)
  base : c.ledger.base.Like t.orderly (.writeAll {} c.done)
  kept : Kept c.lnames c.ledger.base c.rest c.defined c.inert (c.recs disk)
  held : c.inert + c.log.pending.length ≤ (c.recs disk).length
  calls : db.Calls
  stands : c.Stands t disk db.wal db.pc
  owned : c.Owned t disk db.pc

end Tsdb
