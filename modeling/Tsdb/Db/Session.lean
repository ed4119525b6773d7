/-
Sessions that compute.

Whether events can happen one after the other is computed by `exec`, and
`decide` can run it in the kernel, but for two things: a directory is
listed by a merge sort, which does not reduce there, and so is it when
`open_with` reads the files of the log.

# The listing

`System.play` is `System.step` with the listing of `remove_through` taken
as it stands, where the files are in order anyway. It is defined less often
than `step` and agrees with it where it is (`System.step_of_play`), so a
session that plays is a run of the system (`System.exec_of_play`).

# The opening

On empty directories `open_with` is computed once, by hand
(`System.exec_open_empty`), and every session starts behind it
(`System.exec_opened`). How a directory with files in it opens is not
computed, but follows from the theorems about recovery wherever it is
needed.

# The session

`System.glance` takes from a state what can be compared: where it is,
whether it has failed, the count of the buffer, and the sizes of the
log's files, a removed one counted as missing. `session` goes through a
flush with its cut, its segment and its removal, then a write that is
waited for, then one that is not (`System.exec_session`). The three
samples are in three different places when it ends, so it is where runs
with crashes, restarts and queries begin in the modules behind this one.
-/
import Tsdb.Db.Opening
import Tsdb.Storage.Format

namespace Tsdb

open Lib (exec)
open Wal (WalConfig)

variable {json : Json} {cfg : WalConfig} {s s' : System}

-- ============================================================= the listing

/-- The listing of files that are in order, without the sorting. -/
def System.listed (caller : Nat) (todo : List Nat) (s : System) :
    Option System :=
  match s.phase with
  | .running db =>
      match db.wal.removing caller with
      | .bounded bound =>
          if (s.log.dir.map Wal.SegmentFile.id).Pairwise (· < ·)
              ∧ todo = (s.log.dir.map Wal.SegmentFile.id).filter (· ≤ bound)
              ∧ db.allows (.removeList caller todo) = true then
            some { s with phase := .running { db with
              wal := db.wal.setRemoving caller (.removing bound todo []) } }
          else none
      | _ => none
  | _ => none

theorem System.step_listed (json : Json) (cfg : WalConfig) {caller : Nat}
    {todo : List Nat} (h : s.listed caller todo = some s') :
    System.step json cfg (.wal (.removeList caller todo)) s = some s' := by
  obtain ⟨data, log, phase⟩ := s
  unfold System.listed at h
  split at h
  · rename_i db hphase
    split at h
    · rename_i bound hcall
      split at h
      · rename_i hcond
        obtain ⟨hids, htodo, hallow⟩ := hcond
        cases hphase
        cases h
        have hlist : Wal.list log.dir = log.dir :=
          Wal.list_eq (List.Perm.refl _) (List.pairwise_map.mp hids)
        have hs : Wal.step cfg (.removeList caller todo) (log, db.wal)
            = some (log,
              db.wal.setRemoving caller (.removing bound todo [])) := by
          simp only [Wal.step, hcall, hlist]
          exact if_pos htodo
        simp only [System.step, Db.walStep, hallow, hs]
        rfl
      · cases h
    · cases h
  · cases h

/-- A step, with the listing taken as it stands. -/
def System.play (json : Json) (cfg : WalConfig) (e : Event) (s : System) :
    Option System :=
  match e with
  | .wal (.removeList caller todo) => s.listed caller todo
  | e => System.step json cfg e s

theorem System.step_of_play {e : Event}
    (h : System.play json cfg e s = some s') :
    System.step json cfg e s = some s' := by
  unfold System.play at h
  split at h
  · exact System.step_listed json cfg h
  · exact h

theorem System.exec_of_play {events : List Event}
    (h : exec (System.play json cfg) events s = some s') :
    exec (System.step json cfg) events s = some s' := by
  induction events generalizing s with
  | nil => exact h
  | cons e events ih =>
      obtain ⟨s₁, hs, hrest⟩ := Option.bind_eq_some_iff.mp h
      exact Option.bind_eq_some_iff.mpr
        ⟨s₁, System.step_of_play hs, ih hrest⟩

-- ============================================================= the opening

/-- The events of `open_with` on empty directories. -/
def openEmpty (max : Nat) : List Event :=
  [.openWith max (fun _ _ => 0), .create, .syncDir]

/-- A database just opened on them. -/
def System.opened (max : Nat) : System where
  log := [{ id := 1, durable := true }]
  phase := .running {
    state := { store := some {}, maxBufferSamples := max }
    wal := .start 1 0 }

theorem System.exec_opened {max : Nat} (hmax : 0 < max)
    {events : List Event}
    (h : exec (System.play json cfg) events (.opened max) = some s) :
    exec (System.step json cfg) (openEmpty max ++ events) {} = some s :=
  Lib.exec_append (System.exec_open_empty json cfg hmax _)
    (System.exec_of_play h)

-- ============================================================= the session

/-- What is looked at in an open database: where it is, whether it has
failed, the count of the buffer, and the sizes of the files of the log. -/
def System.glance (s : System) : Option (Pc × Bool × Nat × List Nat) :=
  match s.phase with
  | .running db => some (db.pc, db.state.failed, db.state.bufferedSamples,
      s.log.dir.map fun f => f.bytes.length)
  | _ => none

theorem System.glance_running {pc : Pc} {failed : Bool} {buffered : Nat}
    {sizes : List Nat} (h : s.glance = some (pc, failed, buffered, sizes)) :
    ∃ db, s.phase = .running db ∧ db.pc = pc ∧ db.state.failed = failed
      ∧ db.state.bufferedSamples = buffered
      ∧ s.log.dir.map (fun f => f.bytes.length) = sizes := by
  unfold System.glance at h
  split at h
  · rename_i db hphase
    cases h
    exact ⟨db, hphase, rfl, rfl, rfl, rfl⟩
  · cases h

/-- A write of one sample, at time `t`. -/
def writeAt (t : UInt64) : WriteBatch where
  series := [(⟨[⟨"host", "a"⟩]⟩, [⟨t, 7⟩])]
  canonical := by
    intro e he
    rw [List.mem_singleton.mp he]
    exact List.pairwise_singleton _ _

/-- A flush of one record, from the call of `cut` to that of `read_dir` in
`remove_through`. -/
def flushUpToList : List Event :=
  [.wal (.cutLock 0), .wal (.cutRequest 0)]
    ++ List.replicate 17 (.wal (.flusher 70))
    ++ [.wal (.cutReturn 0 1)] ++ List.replicate 7 (.store 200)
    ++ [.wal (.removeBound 0 1 1)]

/-- The whole call. -/
def flushCall : List Event :=
  flushUpToList ++ [.wal (.removeList 0 [1]), .wal (.removeFile 0 1),
    .wal (.removeReturn 0 [1])]

/-- A sample is written and flushed; a second one is written, and waited
for until its record is in its file; a third one is only written. -/
def session : List Event :=
  .write (writeAt 5) (.ok 70) :: .flush :: flushCall
    ++ .write (writeAt 8) (.ok 140) :: List.replicate 8 (.wal (.flusher 70))
    ++ [.wal (.waitReturn 140), .write (writeAt 9) (.ok 185)]

/-- It has the first in a segment, with the file of its record gone, the
second in memory and in a file, and the third in memory only. -/
theorem System.exec_session :
    ∃ s db, exec (System.step Json.sample ⟨100, 0⟩)
        (openEmpty 4 ++ session) {} = some s
      ∧ s.phase = .running db ∧ db.pc = .idle ∧ db.state.failed = false
      ∧ db.state.bufferedSamples = 2
      ∧ s.log.dir.map (fun f => f.bytes.length) = [70]
      ∧ db.wal.shared.buffer.buf.length = 45
      ∧ s.data.keys = [.segment 0] := by
  have hsees : (exec (System.play Json.sample ⟨100, 0⟩) session
      (.opened 4)).map (fun s => s.glance == some (.idle, false, 2, [70])
        && (match s.phase with
          | .running db => db.wal.shared.buffer.buf.length == 45
          | _ => false)
        && s.data.keys == [.segment 0]) = some true := by decide +kernel
  obtain ⟨s, hrun, hseen⟩ := Option.map_eq_some_iff.mp hsees
  simp only [Bool.and_eq_true, beq_iff_eq] at hseen
  obtain ⟨⟨hglance, hbuffer⟩, hkeys⟩ := hseen
  obtain ⟨db, hphase, hpc, hfailed, hcount, hsizes⟩ :=
    System.glance_running hglance
  rw [hphase] at hbuffer
  exact ⟨s, db, System.exec_opened (Nat.succ_pos 3) hrun, hphase, hpc, hfailed,
    hcount, hsizes, beq_iff_eq.mp hbuffer, hkeys⟩

end Tsdb
