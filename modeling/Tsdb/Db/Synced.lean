/-
What one event does to what is on disk.

# The segments

A flush begins where nothing of it is on disk (`Phase.flushing_step`): the
phases have a flush or they have none, and where one begins its first call
is still to come. So between two calls of the store nothing happens to what
is on disk of the segments.

# The log

The log of a process is certain up to what its syncer has synced: a step
keeps that (`Tethered.step`), and the syncer's own raises it
(`Tethered.goOn`). Behind a cut all of it is certain
(`Tethered.cutReturn`): the flusher has rotated for the cut, which syncs
the file it closes, and by `Covers` nothing is left in the buffer, in hand,
or in the new file.

`Tethered` counts records as well: not more than the writes of the process
have. It is what relates the records of a machine, which knows of no
writes, to the tale, which has an LSN for each.

# What has been removed

A file that `remove_through` takes had nothing that the segments do not
have, so that it does not matter whether a power loss puts it back. This is
said of the shadow, the directory in which all of them are back
(`Spent.unlink`); a file that goes from the log goes from the shadow, too,
if the directory on disk does not name it, and for one that was below the
active segment that is no loss. The threads do not look at removed files,
and never create one of a lower id (`Wal.Gone.step`).
-/
import Tsdb.Db.Computer
import Tsdb.Db.Progress

namespace Tsdb

open Wal (Anchored Disk LogFile Machine WalConfig)

variable {json : Json} {cfg : WalConfig} {t : Tale} {data : DataDir}
  {disk disk' : Disk} {db db' : Db} {e : Event}

-- ============================================================= the segments

/-- Behind the cut a flush begins, or there is nothing to flush. -/
theorem Db.pc_startFlush {who : Caller} {cut : Nat}
    (h : db.startFlush who cut = some db') :
    db'.pc = .remove who cut
      ∨ ∃ segment, db'.pc = .flush who cut { segment } := by
  unfold startFlush at h
  rcases db.state.index.takeTable (db.state.index.resolve [])
    with ⟨table, index⟩
  simp only at h
  split at h
  · cases h
    exact .inl rfl
  · obtain ⟨segment, -, rfl⟩ := Option.map_eq_some_iff.mp h
    exact .inr ⟨segment, rfl⟩

theorem Db.pc_flush (db : Db) :
    ∀ who cut job, (db.flush .operation).pc ≠ .flush who cut job := by
  intro who cut job
  unfold Db.flush
  simp only
  split
  · exact Pc.noConfusion
  · exact Pc.noConfusion

theorem Opening.pc_open (o : Opening) (wal : Machine) :
    ∀ who cut job, (o.open_ wal).pc ≠ .flush who cut job := by
  intro who cut job
  unfold Opening.open_
  split
  · exact Pc.noConfusion
  · unfold Db.flush
    simp only
    split
    · exact Pc.noConfusion
    · exact Pc.noConfusion

namespace Phase

/-- A flush begins where nothing of it is on disk. No step but that of a cut
which returns changes what flush there is, apart from the store's own. -/
theorem flushing_step {s s' : System} (h : System.Step json cfg s e s')
    (hcrash : ∀ removed, e ≠ .crash removed) (hfault : e ≠ .fault)
    (hstore : ∀ n, e ≠ .store n) :
    s'.phase.flushing = s.phase.flushing
      ∨ s.phase.flushing = none ∧ ∀ store job,
        s'.phase.flushing = some (store, job) → job.stage = .toVec := by
  have hnone : s.phase.flushing = none → s'.phase.flushing = none →
      s'.phase.flushing = s.phase.flushing := fun h h' => h'.trans h.symm
  cases h with
  | openWith hphase =>
      refine .inl (hnone (by rw [hphase]; rfl) ?_)
      unfold System.openWith
      split
      · rw [hphase]
        rfl
      · split
        · rw [hphase]
          rfl
        · split
          · rw [hphase]
            rfl
          · rfl
  | setLen hphase | syncAll hphase | create hphase =>
      exact .inl (hnone (by rw [hphase]; rfl) rfl)
  | syncDir hphase =>
      exact .inl (hnone (by rw [hphase]; rfl)
        (flushing_none (Opening.pc_open _ _)))
  | @write db db' batch result log hphase hwrite =>
      obtain ⟨hpc, -, -, hcases⟩ := Db.write_cases hwrite
      have hidle : ∀ who cut job, db.pc ≠ .flush who cut job := by
        rw [hpc]
        exact fun _ _ _ => Pc.noConfusion
      refine .inl (hnone (hphase ▸ flushing_none hidle) (flushing_none ?_))
      rcases hcases with ⟨-, -, -, rfl⟩ | ⟨-, wal, -, -, hdb⟩
      · exact hidle
      · rcases hdb with rfl | rfl
        · exact hidle
        · exact Db.pc_flush _
  | @flush db hphase hpc =>
      refine .inl (hnone (hphase ▸ flushing_none ?_)
        (flushing_none (Db.pc_flush db)))
      rw [hpc]
      exact fun _ _ _ => Pc.noConfusion
  | @wal db db' a log hphase hwal =>
      cases hwal with
      | goOn =>
          refine .inl ?_
          rw [hphase]
          rfl
      | @cut who closed log wal db' hpc _ hstart =>
          have hbefore : (Phase.running db).flushing = none :=
            flushing_none (by rw [hpc]; exact fun _ _ _ => Pc.noConfusion)
          refine .inr ⟨hphase ▸ hbefore, fun store job hjob => ?_⟩
          obtain ⟨-, who', cut', hflush⟩ := flushing_some hjob
          rcases Db.pc_startFlush hstart with hremove | ⟨segment, hnew⟩
          · rw [hremove] at hflush
            cases hflush
          · rw [hnew] at hflush
            cases hflush
            rfl
      | @removed who through removed log wal hpc =>
          refine .inl (hnone (hphase ▸ flushing_none ?_)
            (flushing_none (Caller.next_ne_flush who)))
          rw [hpc]
          exact fun _ _ _ => Pc.noConfusion
  | store => exact absurd rfl (hstore _)
  | openFault | flushFault | removeFault => exact absurd rfl hfault
  | @drop db hphase hpc =>
      refine .inl (hnone (hphase ▸ flushing_none ?_) rfl)
      rw [hpc]
      exact fun _ _ _ => Pc.noConfusion
  | drain hphase | closed hphase =>
      exact .inl (hnone (by rw [hphase]; rfl) rfl)
  | crash => exact absurd rfl (hcrash _)

end Phase

-- ================================================================== the log

namespace Tethered

variable {sure : Nat} {m m' : Machine} {a : Wal.Action} {t' : Tale}

theorem sim (h : Tethered cfg t sure disk m) :
    ∃ base log hand rest, Wal.Sim base log hand rest disk m := by
  obtain ⟨count, hanchored, -⟩ := h
  obtain ⟨base, log, hand, rest, hsim, -⟩ := hanchored.counted
  exact ⟨base, log, hand, rest, hsim⟩

/-- A step of the log. -/
theorem step (h : Tethered cfg t sure disk m)
    (hs : Wal.step cfg a (disk, m) = some (disk', m'))
    (hcount : recordCount (t.mine.map Prod.fst) + a.accepted.length
      ≤ recordCount (t'.mine.map Prod.fst)) :
    Tethered cfg t' sure disk' m' := by
  obtain ⟨count, hanchored, hle⟩ := h
  exact ⟨_, hanchored.step hs, by omega⟩

/-- It may have made more certain: the step may be the one with which the
syncer comes back from `sync_data`, and then what it has synced is. -/
theorem goOn (h : Tethered cfg t sure disk m)
    (hs : Wal.step cfg a (disk, m) = some (disk', m'))
    (hcut : ∀ caller closed, a ≠ .cutReturn caller closed)
    (haccepted : a.accepted = []) (hmine : t'.mine = t.mine) :
    Tethered cfg t' (max sure (m.sureBy a)) disk' m' := by
  have hcount : recordCount (t.mine.map Prod.fst) + a.accepted.length
      ≤ recordCount (t'.mine.map Prod.fst) := by
    rw [haccepted, hmine]
    exact Nat.le_refl _
  have hnone : m.sureBy a = 0 →
      Tethered cfg t' (max sure (m.sureBy a)) disk' m' := by
    intro hzero
    rw [hzero, Nat.max_zero]
    exact h.step hs hcount
  cases a with
  | syncer due =>
      cases hpc : m.syncer with
      | sync w file =>
          obtain ⟨count, hanchored, hle⟩ := h
          have hsure : m.sureBy (.syncer due) = w := by
            unfold Wal.Machine.sureBy
            rw [hpc]
          rw [hsure]
          exact ⟨count, hanchored.synced hpc hs, hmine ▸ hle⟩
      | _ =>
          refine hnone ?_
          unfold Wal.Machine.sureBy
          rw [hpc]
  | cutReturn caller closed => exact absurd rfl (hcut caller closed)
  | _ => exact hnone rfl

/-- Behind a cut all of it is certain. The closed files have been synced by
the rotations that closed them, and by `Covers` there is nothing behind
them: nothing in the active file, in hand or in the buffer. -/
theorem cutReturn (h : Tethered cfg t sure disk m) {caller closed : Nat}
    (hs : Wal.step cfg (.cutReturn caller closed) (disk, m)
      = some (disk', m')) (hmine : t'.mine = t.mine) {base : Nat}
    {log : Wal.Log} {hand rest : List Wal.WalRecord}
    (hsim : Wal.Sim base log hand rest disk' m')
    (hcovers : Covers log m' closed) :
    Tethered cfg t' (max sure (m.sureBy (.cutReturn caller closed))) disk'
      m' := by
  obtain ⟨-, hactive, hpending⟩ := Wal.Log.behind_through hcovers.through
  obtain ⟨count, hanchored, hle⟩ := h
  have hnext := hanchored.step hs
  have hend : m'.shared.buffer.end_ = m.shared.buffer.end_ := by
    obtain ⟨-, hsame, -⟩ := Wal.step_keeps (by simp) hs
    exact congrArg Wal.Inner.end_ (hsame rfl)
  rw [hsim.pending, List.append_eq_nil_iff] at hpending
  obtain ⟨rfl, rfl⟩ := hpending
  obtain ⟨hspare, hhand⟩ := List.append_eq_nil_iff.mp hsim.hand_eq
  have hpos := hsim.pos
  rw [hactive] at hpos
  refine ⟨_, ?_, hmine ▸ hle⟩
  show Anchored cfg (max sure m.shared.buffer.end_) _ _ _
  rw [← hend]
  exact hnext.all hpos hspare hhand hsim.buf

end Tethered

/-- A database in an operation works. -/
theorem System.Tells.busy {s : System} (h : s.Tells json t)
    (hphase : s.phase = .running db) (hpc : db.pc ≠ .idle) :
    ∃ ch : Chapter, ch.Tells json t s.data s.log db := by
  cases h with
  | running hphase' h =>
      rw [hphase] at hphase'
      cases hphase'
      exact ⟨_, h⟩
  | failed hphase' hrefuses =>
      rw [hphase] at hphase'
      cases hphase'
      exact absurd hrefuses.pc hpc
  | down hphase' | opening hphase' | closing hphase' =>
      rw [hphase] at hphase'
      cases hphase'

section

variable {named : List Bool} {m m' : Machine} {a : Wal.Action}

/-- The file that goes is below the active segment, too. -/
theorem Wal.Gone.unlink (h : Wal.Gone named disk m) {id : Nat}
    (hid : id < m.shared.activeSegment)
    (hunlink : disk.unlink id = some disk')
    (hshared : m'.shared = m.shared) : Wal.Gone named disk' m' := by
  intro i f' hf' hnamed hlinked
  rw [hshared]
  rw [Disk.unlink_eq hunlink, List.getElem?_map, Option.map_eq_some_iff] at hf'
  obtain ⟨f, hf, rfl⟩ := hf'
  split at hlinked
  · rename_i hthis
    rw [Bool.and_eq_true, beq_iff_eq] at hthis
    rw [if_pos (by simpa using hthis)]
    show f.id < _
    rw [hthis.2]
    exact hid
  · rename_i hother
    rw [if_neg hother]
    exact h i f hf hnamed hlinked

/-- The segments have what it had. -/
theorem Spent.unlink (h : Spent json t data (disk.shadow named) m.calm)
    {id : Nat} (hid : id < m.shared.activeSegment)
    (hunlink : disk.unlink id = some disk')
    (hcalm : m'.calm = m.calm) :
    Spent json { t with whole := false } data (disk'.shadow named)
      m'.calm := by
  rw [hcalm]
  refine (h.still (Disk.still_shadow (.unlink hunlink))
    fun i f f' hf hf' hlinked hlost => ?_).whole false
  rw [Disk.shadow, Disk.getElem?_back, Option.map_eq_some_iff] at hf hf'
  obtain ⟨g, hg, rfl⟩ := hf
  obtain ⟨g', hg', rfl⟩ := hf'
  rw [Disk.unlink_eq hunlink, List.getElem?_map, hg, Option.map_some,
    Option.some.injEq] at hg'
  obtain ⟨hno, hunnamed⟩ := Bool.or_eq_false_iff.mp hlost
  have hwas : g.linked = true := by
    rcases Bool.or_eq_true_iff.mp hlinked with hwas | hnamed
    · exact hwas
    · rw [hnamed] at hunnamed
      cases hunnamed
  by_cases hthis : (g.linked && g.id == id) = true
  · rw [Bool.and_eq_true, beq_iff_eq] at hthis
    show g.id < m.shared.activeSegment
    rw [hthis.2]
    exact hid
  · rw [if_neg hthis] at hg'
    rw [← hg', hwas] at hno
    cases hno

/-- The threads go on, and what has been removed stays so. The active
segment only moves up, and a new file is linked. -/
theorem Wal.Gone.step (h : Wal.Gone named disk m)
    (hlen : named.length ≤ disk.length) {base : Nat} {log : Wal.Log}
    {hand rest : List Wal.WalRecord}
    (hsim : Wal.Sim base log hand rest disk m)
    (hfile : ∀ j id, a ≠ .removeFile j id)
    (hs : Wal.step cfg a (disk, m) = some (disk', m')) :
    Wal.Gone named disk' m' := by
  have hmono := Wal.active_mono hsim hs
  intro i f' hf' hnamed hlinked
  have hin : i < named.length := by
    by_contra hout
    rw [List.getD_eq_getElem?_getD,
      List.getElem?_eq_none (Nat.le_of_not_lt hout)] at hnamed
    cases hnamed
  have hat : (disk'.map LogFile.entry)[i]? = some f'.entry := by
    rw [List.getElem?_map, hf']
    rfl
  have hentry : (disk.map LogFile.entry)[i]? = some f'.entry := by
    rcases (Disk.Grows.of_step hsim hfile hs).entries with heq | heq
    · rw [← heq]
      exact hat
    · rw [heq, List.getElem?_append_left (by
        rw [List.length_map]
        omega)] at hat
      exact hat
  rw [List.getElem?_map, Option.map_eq_some_iff] at hentry
  obtain ⟨f, hf, heq⟩ := hentry
  have hold := h i f hf hnamed ((congrArg Prod.snd heq).trans hlinked)
  rw [show f.id = f'.id from congrArg Prod.fst heq] at hold
  omega

end

end Tsdb
