/-
What the log is for: an abstract log of one process, in whole records.

Records are accepted into `pending`, move in order into the active
segment, and stay in the segment they moved into; a rotation closes the
active segment and starts the next. Nothing is said about threads,
buffers, or when any of this happens.

# The three laws

`accepted` grows by `append` only and never changes otherwise
(`accepted_move`), a closed segment never changes at all
(`closed_move`), and what is published is in the segments
(`Sound.move`): these three carry every guarantee the pipeline gives.
Each is proved of one move, by its four cases, and lifted to lists of
moves by the induction on the list (`exec_accepted`, `exec_closed`).

# How it is used

The machine of `Tsdb.Wal.Machine` has appenders, a buffer that is swapped
out, a flusher with bytes in hand, and files that receive a part of a
write. `Tsdb.Wal.Pipeline` maps each state of it to a log and each step to
a list of moves, mostly an empty one. What a caller is promised is then
read off the log: the records of an append are behind all that were
accepted before it, and an LSN that is published has its record in a
segment.

A position in the log is a number of bytes, as an LSN is in the source,
and `logBytes` converts: a record is not empty, so a position determines
how many records are below it. `through id` is the part of a log that a
removal of the files up to `id` is about; it does not change once `id` is
closed (`exec_through`).
-/
import Tsdb.Lib.Runs
import Tsdb.Wal.Repair

namespace Tsdb.Wal

open Lib (Bytes exec)

-- =============================================================== the log

structure Log where
  /-- the id of the first segment -/
  first : Nat
  closed : List (List WalRecord) := []
  active : List WalRecord := []
  pending : List WalRecord := []
  written : Nat := 0
deriving DecidableEq, Repr

namespace Log

/-- The records in the segments. -/
def flushed (log : Log) : List WalRecord := log.closed.flatten ++ log.active

/-- All records, in the order they were accepted. -/
def accepted (log : Log) : List WalRecord := log.flushed ++ log.pending

def activeId (log : Log) : Nat := log.first + log.closed.length

inductive Move
  | append (rec : WalRecord)
  | write (n : Nat)
  | rotate
  | publish (lsn : Nat)
deriving DecidableEq, Repr

def move : Move → Log → Option Log
  | .append rec, log => some { log with pending := log.pending ++ [rec] }
  | .write n, log =>
      some { log with
        active := log.active ++ log.pending.take n
        pending := log.pending.drop n }
  | .rotate, log =>
      some { log with closed := log.closed ++ [log.active], active := [] }
  | .publish lsn, log =>
      if lsn ≤ (logBytes log.flushed).length then
        some { log with written := max log.written lsn }
      else none

/-- The records a list of moves appends. -/
def appended : List Move → List WalRecord
  | [] => []
  | .append rec :: moves => rec :: appended moves
  | _ :: moves => appended moves

theorem appended_append (mvs mvs' : List Move) :
    appended (mvs ++ mvs') = appended mvs ++ appended mvs' := by
  induction mvs with
  | nil => rfl
  | cons mv mvs ih => cases mv <;> simp [appended, ih]

end Log

@[simp] theorem logBytes_nil : logBytes [] = [] := rfl

@[simp] theorem logBytes_append (recs recs' : List WalRecord) :
    logBytes (recs ++ recs') = logBytes recs ++ logBytes recs' := by
  simp [logBytes]

theorem logBytes_singleton (rec : WalRecord) :
    logBytes [rec] = recordBytes rec := by
  simp [logBytes, encode_eq]

theorem logBytes_flatten (parts : List (List WalRecord)) :
    logBytes parts.flatten = (parts.map logBytes).flatten := by
  induction parts with
  | nil => rfl
  | cons part parts ih => simp [ih]

theorem recordBytes_length_pos (rec : WalRecord) :
    0 < (recordBytes rec).length := by
  rw [recordBytes, List.length_append, RecordHeader.encode_length,
    RecordHeader.encodedLen]
  omega

theorem logBytes_length_pos {recs : List WalRecord} (h : recs ≠ []) :
    0 < (logBytes recs).length := by
  obtain ⟨rec, recs, rfl⟩ := List.exists_cons_of_ne_nil h
  have := recordBytes_length_pos rec
  rw [← List.singleton_append, logBytes_append, logBytes_singleton,
    List.length_append]
  omega

namespace Log

variable {log log' : Log} {mv : Move}

/-- Every move keeps what was accepted, and only `append` adds to it. -/
theorem accepted_move (h : move mv log = some log') :
    log'.accepted = log.accepted ++ appended [mv] := by
  cases mv with
  | append rec => cases h; simp [accepted, flushed, appended]
  | write n => cases h; simp [accepted, flushed, appended]
  | rotate => cases h; simp [accepted, flushed, appended]
  | publish lsn =>
      simp only [move] at h
      split at h
      · cases h
        simp [accepted, flushed, appended]
      · cases h

/-- What is flushed stays flushed. -/
theorem flushed_move (h : move mv log = some log') :
    log.flushed <+: log'.flushed := by
  cases mv with
  | append rec => cases h; exact List.prefix_rfl
  | write n =>
      cases h
      exact ⟨log.pending.take n, by simp [flushed]⟩
  | rotate => cases h; exact ⟨[], by simp [flushed]⟩
  | publish lsn =>
      simp only [move] at h
      split at h
      · cases h
        exact List.prefix_rfl
      · cases h

/-- A closed segment is never written to again. -/
theorem closed_move (h : move mv log = some log') :
    log.closed <+: log'.closed := by
  cases mv with
  | append rec => cases h; exact List.prefix_rfl
  | write n => cases h; exact List.prefix_rfl
  | rotate => cases h; exact List.prefix_append _ _
  | publish lsn =>
      simp only [move] at h
      split at h
      · cases h
        exact List.prefix_rfl
      · cases h

theorem first_move (h : move mv log = some log') :
    log'.first = log.first := by
  cases mv with
  | append rec => cases h; rfl
  | write n => cases h; rfl
  | rotate => cases h; rfl
  | publish lsn =>
      simp only [move] at h
      split at h
      · cases h
        rfl
      · cases h

theorem exec_flushed {mvs : List Move} (h : exec move mvs log = some log') :
    log.flushed <+: log'.flushed := by
  induction mvs generalizing log with
  | nil =>
      cases h
      exact List.prefix_rfl
  | cons mv mvs ih =>
      rw [exec, Option.bind_eq_some_iff] at h
      obtain ⟨log₁, hmv, hrest⟩ := h
      exact (flushed_move hmv).trans (ih hrest)

theorem exec_closed {mvs : List Move} (h : exec move mvs log = some log') :
    log.closed <+: log'.closed := by
  induction mvs generalizing log with
  | nil =>
      cases h
      exact List.prefix_rfl
  | cons mv mvs ih =>
      rw [exec, Option.bind_eq_some_iff] at h
      obtain ⟨log₁, hmv, hrest⟩ := h
      exact (closed_move hmv).trans (ih hrest)

theorem exec_accepted {mvs : List Move}
    (h : exec move mvs log = some log') :
    log'.accepted = log.accepted ++ appended mvs := by
  induction mvs generalizing log with
  | nil =>
      cases h
      exact (List.append_nil _).symm
  | cons mv mvs ih =>
      rw [exec, Option.bind_eq_some_iff] at h
      obtain ⟨log₁, hmv, hrest⟩ := h
      have happ : appended (mv :: mvs) = appended [mv] ++ appended mvs :=
        appended_append [mv] mvs
      rw [ih hrest, accepted_move hmv, List.append_assoc, ← happ]

theorem exec_first {mvs : List Move} (h : exec move mvs log = some log') :
    log'.first = log.first := by
  induction mvs generalizing log with
  | nil =>
      cases h
      rfl
  | cons mv mvs ih =>
      rw [exec, Option.bind_eq_some_iff] at h
      obtain ⟨log₁, hmv, hrest⟩ := h
      rw [ih hrest, first_move hmv]

theorem exec_activeId {mvs : List Move}
    (h : exec move mvs log = some log') : log.activeId ≤ log'.activeId := by
  have := (exec_closed h).length_le
  rw [activeId, activeId, exec_first h]
  omega

/-- The records in the segments up to `id`. -/
def through (log : Log) (id : Nat) : List WalRecord :=
  (log.closed.take (id + 1 - log.first)).flatten

theorem through_accepted (log : Log) (id : Nat) :
    log.through id <+: log.accepted := by
  rw [accepted, flushed, through]
  conv_rhs => rw [← List.take_append_drop (id + 1 - log.first) log.closed]
  rw [List.flatten_append, List.append_assoc, List.append_assoc]
  exact List.prefix_append _ _

/-- The segments up to a closed one do not change. -/
theorem exec_through {mvs : List Move}
    (h : exec move mvs log = some log') {id : Nat}
    (hid : id < log.activeId) : log'.through id = log.through id := by
  obtain ⟨more, hmore⟩ := exec_closed h
  rw [activeId] at hid
  rw [through, through, ← hmore, exec_first h,
    List.take_append_of_le_length (by omega)]

/-- What is published is in the segments. -/
def Sound (log : Log) : Prop :=
  log.written ≤ (logBytes log.flushed).length

theorem Sound.move (hs : log.Sound) (h : Log.move mv log = some log') :
    log'.Sound := by
  obtain ⟨more, hmore⟩ := flushed_move h
  have hle : (logBytes log.flushed).length
      ≤ (logBytes log'.flushed).length := by
    rw [← hmore, logBytes_append, List.length_append]
    omega
  cases mv with
  | append rec => cases h; exact Nat.le_trans hs hle
  | write n => cases h; exact Nat.le_trans hs hle
  | rotate => cases h; exact Nat.le_trans hs hle
  | publish lsn =>
      simp only [Log.move] at h
      split at h
      · rename_i hlsn
        cases h
        exact Nat.max_le.mpr ⟨hs, hlsn⟩
      · cases h

end Log

end Tsdb.Wal
