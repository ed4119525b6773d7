/-
Every process that has ever had the directories.

`System.Tells` says what is told of a system, in each of its phases, and
`System.Tells.step` that one event keeps it; so it holds of every run that
began on empty directories, whatever happened to its processes
(`System.tells`). Of the writes, a run leaves open only how many a crash
has taken, and `Tale.Of` bounds that.

# The phases

- Nobody has the directories: they rest (`Rests`).
- Somebody is opening them (`Telling`).
- A database is open: a chapter is told of it (`Chapter.Tells`).
- A database is open and a flush of it has failed. Its state is of no use
  any more; it refuses every write and starts no flush (`Db.Refuses`), its
  log goes on by itself, and what matters is what it leaves.
- A log is being dropped: what it leaves, until its threads have gone.

# The step

Any event but a crash leaves no choice, so the tale behind it is
`Tale.next`. The cases of `Step` are grouped by what they need: an opening
(`openWith`, `telling`), an open database that works (`works`), one that
does not, and the ends (`closes`, `rests`). An error of the store or of
the removal leaves an open database or ends an opening
(`flushFault`, `removeFault`). A crash is apart, because the tale behind
it has a number to be chosen, and the lemma says that there is one in the
bounds (`crash`).

The induction is then a few lines, and everything about restarts is read
off its result.
-/
import Tsdb.Db.Reopen

namespace Tsdb

open Lib (exec)
open Wal (Disk Journal Log Machine WalConfig WalRecord)

variable {json : Json} {cfg : WalConfig} {t : Tale} {data data' : DataDir}
  {disk disk' : Disk} {m m' : Machine}

-- ================================================================= an error

/-- A crash takes nothing from directories nobody has open. -/
theorem Rests.crash (h : Rests json t data disk) :
    ∃ k, t.safe ≤ k ∧ k ≤ t.writes.length
      ∧ Rests json (t.crash k) data disk := by
  obtain ⟨hmine, hsafe, recs, n, hrest, hstanding⟩ := h
  refine ⟨t.writes.length, ?_, Nat.le_refl _, rfl, ?_, recs, n, hrest, ?_⟩
  · rw [hsafe]
    exact List.length_append ▸ Nat.le_add_right _ _
  · show t.writes.length = (t.writes.take t.writes.length).length
    rw [List.take_length]
  · rw [t.writes_crash, List.take_length]
    exact hstanding

namespace Leaves

/-- A caller has waited for its write. -/
theorem wait (h : Leaves json t data disk m) {lsn : Nat}
    (hs : Wal.step cfg (.waitReturn lsn) (disk, m) = some (disk', m')) :
    Leaves json (t.next (.wal (.waitReturn lsn))) data disk' m' := by
  obtain ⟨old, actions, log, hand, buffer, n, h⟩ := h
  simp only [Wal.step] at hs
  split at hs
  · rename_i hle
    cases hs
    refine ⟨old, actions, log, hand, buffer, n, h.journal, h.noted.wait ?_,
      h.held, h.standing⟩
    rw [h.journal.sim.written] at hle
    exact Nat.le_trans hle h.journal.sim.sound
  · cases hs

end Leaves

/-- A database that a failed flush has left: it takes nothing in any more,
and nothing is removed. -/
structure Db.Refuses (db : Db) : Prop where
  pc : db.pc = .idle
  failed : db.state.failed = true
  idle : db.wal.removing db.calls = .idle

/-- Its log is all that still moves. -/
theorem Db.Refuses.walStep {a : Wal.Action} {db db' : Db} (h : db.Refuses)
    (hleaves : Leaves json t data disk db.wal)
    (hs : db.WalStep cfg disk a disk' db') :
    db'.Refuses ∧ Leaves json (t.next (.wal a)) data disk' db'.wal := by
  cases hs with
  | cut hpc =>
      rw [h.pc] at hpc
      cases hpc
  | removed hpc =>
      rw [h.pc] at hpc
      cases hpc
  | goOn hallow _ _ hstep =>
      cases a with
      | flusher n =>
          have hsame := (Wal.FlusherStep.of_step hstep).calls.2
          exact ⟨⟨h.pc, h.failed, hsame ▸ h.idle⟩, hleaves.drain rfl hstep⟩
      | syncer =>
          have hsame := (Wal.step_others (by simp) rfl hstep).1
          exact ⟨⟨h.pc, h.failed, hsame ▸ h.idle⟩, hleaves.drain rfl hstep⟩
      | waitReturn lsn =>
          have hsame := (Wal.step_others (by simp) rfl hstep).1
          exact ⟨⟨h.pc, h.failed, hsame ▸ h.idle⟩, hleaves.wait hstep⟩
      | _ =>
          exfalso
          simp [Db.allows, h.pc] at hallow

-- ============================================================== the system

/-- What is told of a system, phase by phase. -/
inductive System.Tells (json : Json) (t : Tale) (s : System) : Prop
  | down (hphase : s.phase = .down) (h : Rests json t s.data s.log)
  | opening {o : Opening} {stage : Wal.Opening} {g : Ledger}
      {lnames : List LabelSet} {done rest : List WriteBatch} {n : Nat}
      {recs : List WalRecord} (hphase : s.phase = .opening o stage)
      (h : Telling json t s.data s.log o stage g lnames done rest n recs)
  | running {db : Db} {c : Chapter} (hphase : s.phase = .running db)
      (h : c.Tells json t s.data s.log db)
  | failed {db : Db} (hphase : s.phase = .running db) (hrefuses : db.Refuses)
      (h : Leaves json t s.data s.log db.wal)
  | closing {wal : Machine} (hphase : s.phase = .closing wal)
      (h : Leaves json t s.data s.log wal)

namespace System.Tells

variable {s s' : System} {e : Event}

theorem empty (json : Json) : System.Tells json {} {} :=
  .down rfl (.empty json)

/-- Where an error of the store leaves an open database. -/
private theorem flushFault {db : Db} {c : Chapter} {who : Caller} {cut : Nat}
    {job : FlushJob} (h : c.Tells json t s.data s.log db)
    (hpc : db.pc = .flush who cut job) :
    System.Tells json t { s with phase :=
      { db with state := { db.state with failed := true } }.fails who } := by
  have hleaves := h.leaves (List.nil_sublist _) rfl
  cases who with
  | operation =>
      refine .failed rfl ⟨rfl, rfl, ?_⟩ hleaves
      show db.wal.removing (db.calls + 1) = .idle
      by_contra hbusy
      obtain ⟨-, who, through, hremove⟩ :=
        h.calls.later _ (Nat.le_succ _) hbusy
      rw [hpc] at hremove
      cases hremove
  | opening last => exact .closing rfl hleaves
  | opened => exact .closing rfl hleaves

/-- Where an error of the removal leaves an open database. -/
private theorem removeFault {db : Db} {c : Chapter} {who : Caller}
    {through : Nat} (h : c.Tells json t s.data s.log db)
    (hpc : db.pc = .remove who through) :
    System.Tells json t { s with phase := db.fails who } := by
  cases who with
  | operation => exact .running rfl (h.removeFails hpc)
  | opening last =>
      exact .closing rfl (h.leaves (List.nil_sublist _) rfl)
  | opened =>
      exact .closing rfl (h.leaves (List.nil_sublist _) rfl)

/-- Reading the files: they open, or nothing has changed. -/
private theorem openWith (h : Rests json t s.data s.log)
    (hphase : s.phase = .down) (max : Nat) (reads : Nat → Nat → Nat) :
    System.Tells json { t with whole := true } (s.openWith json max reads) := by
  by_cases hmax : max = 0
  · have hsame : s.openWith json max reads = s := by
      unfold System.openWith
      rw [if_pos hmax]
    rw [hsame]
    exact .down hphase ⟨h.mine, h.safe, h.rests⟩
  · obtain ⟨o, stage, g, lnames, done, rest, n, recs, hopen, htelling⟩ :=
      h.openWith hmax reads
    rw [hopen]
    exact .opening rfl htelling

/-- A stage of `Wal::open`. -/
theorem telling (h : System.Tells json t s) {o : Opening}
    {stage : Wal.Opening} (hphase : s.phase = .opening o stage) :
    ∃ g lnames done rest n recs,
      Telling json t s.data s.log o stage g lnames done rest n recs := by
  cases h with
  | opening hphase' h =>
      rw [hphase] at hphase'
      cases hphase'
      exact ⟨_, _, _, _, _, _, h⟩
  | down hphase' | running hphase' | failed hphase' | closing hphase' =>
      rw [hphase] at hphase'
      cases hphase'

/-- An open database works, or a failed flush has left it. -/
private theorem runs (h : System.Tells json t s) {db : Db}
    (hphase : s.phase = .running db) :
    (∃ c : Chapter, c.Tells json t s.data s.log db)
      ∨ db.Refuses ∧ Leaves json t s.data s.log db.wal := by
  cases h with
  | running hphase' h =>
      rw [hphase] at hphase'
      cases hphase'
      exact .inl ⟨_, h⟩
  | failed hphase' hrefuses h =>
      rw [hphase] at hphase'
      cases hphase'
      exact .inr ⟨hrefuses, h⟩
  | down hphase' | opening hphase' | closing hphase' =>
      rw [hphase] at hphase'
      cases hphase'

/-- An open database that has not failed works. -/
theorem works (h : System.Tells json t s) {db : Db}
    (hphase : s.phase = .running db) (hfailed : db.state.failed = false) :
    ∃ c : Chapter, c.Tells json t s.data s.log db := by
  rcases h.runs hphase with hc | ⟨hrefuses, -⟩
  · exact hc
  · rw [hrefuses.failed] at hfailed
    cases hfailed

/-- A database that is dropped leaves its log. -/
theorem closes (h : System.Tells json t s) {wal : Machine}
    (hphase : s.phase = .closing wal) : Leaves json t s.data s.log wal := by
  cases h with
  | closing hphase' h =>
      rw [hphase] at hphase'
      cases hphase'
      exact h
  | down hphase' | opening hphase' | running hphase' | failed hphase' =>
      rw [hphase] at hphase'
      cases hphase'

/-- Nobody has the directories, or the files are about to be read. -/
theorem rests (h : System.Tells json t s) (hphase : s.phase = .down) :
    Rests json t s.data s.log := by
  cases h with
  | down _ h => exact h
  | opening hphase' | running hphase' | failed hphase' | closing hphase' =>
      rw [hphase] at hphase'
      cases hphase'

/-- Any event but a crash. A running database is in a chapter, or it refuses
everything and what it would leave is known; in either case the event is one
the chapter has a lemma for, or leaves the directories alone. -/
theorem step (hjson : json.Lawful) (h : System.Tells json t s)
    (he : ∀ removed, e ≠ .crash removed)
    (hs : System.step json cfg e s = some s') :
    System.Tells json (t.next e) s' := by
  cases System.Step.of_step hs with
  | @openWith max reads hphase =>
      exact openWith (h.rests hphase) hphase max reads
  | setLen hphase =>
      obtain ⟨g, lnames, done, rest, n, recs, h⟩ := h.telling hphase
      exact .opening rfl (h.goOn h.holds.setLen rfl)
  | syncAll hphase =>
      obtain ⟨g, lnames, done, rest, n, recs, h⟩ := h.telling hphase
      exact .opening rfl (h.goOn h.holds.syncAll rfl)
  | create hphase hcreate =>
      obtain ⟨g, lnames, done, rest, n, recs, h⟩ := h.telling hphase
      obtain ⟨hlog, hholds⟩ := h.holds.create
      rw [hlog] at hcreate
      cases hcreate
      exact .opening rfl (h.goOn hholds rfl)
  | syncDir hphase =>
      obtain ⟨g, lnames, done, rest, n, recs, h⟩ := h.telling hphase
      obtain ⟨c, hc⟩ := h.opened
      exact .running rfl hc
  | openFault hphase =>
      obtain ⟨g, lnames, done, rest, n, recs, h⟩ := h.telling hphase
      exact .down rfl h.rests
  | write hphase hwrite =>
      rcases h.runs hphase with ⟨c, hc⟩ | ⟨hrefuses, -⟩
      · obtain ⟨c', hc'⟩ := hc.write hwrite
        exact .running rfl hc'
      · have hready := (Db.write_cases hwrite).2.1
        rw [hrefuses.failed] at hready
        cases hready
  | flush hphase hpc hfailed =>
      rcases h.runs hphase with ⟨c, hc⟩ | ⟨hrefuses, -⟩
      · exact .running rfl (hc.flush hpc)
      · rw [hrefuses.failed] at hfailed
        cases hfailed
  | wal hphase hwal =>
      rcases h.runs hphase with ⟨c, hc⟩ | ⟨hrefuses, hleaves⟩
      · cases hwal with
        | goOn hallow hcut hremove hstep =>
            obtain ⟨c', hc'⟩ := hc.goOn hallow hcut hremove hstep
            exact .running rfl hc'
        | cut hpc hstep hstart =>
            obtain ⟨c', hc'⟩ := hc.cutReturn hpc hstep hstart
            exact .running rfl hc'
        | removed hpc hstep =>
            obtain ⟨c', hc'⟩ := hc.removed hpc hstep
            exact .running rfl hc'
      · obtain ⟨hrefuses', hleaves'⟩ := hrefuses.walStep hleaves hwal
        exact .failed rfl hrefuses' hleaves'
  | store hphase hstore =>
      rcases h.runs hphase with ⟨c, hc⟩ | ⟨hrefuses, -⟩
      · obtain ⟨c', hc'⟩ := hc.storeStep hjson hstore
        exact .running rfl hc'
      · unfold Db.storeStep at hstore
        rw [hrefuses.pc] at hstore
        cases hstore
  | flushFault hphase hpc =>
      rcases h.runs hphase with ⟨c, hc⟩ | ⟨hrefuses, -⟩
      · exact flushFault hc hpc
      · rw [hrefuses.pc] at hpc
        cases hpc
  | removeFault hphase hpc =>
      rcases h.runs hphase with ⟨c, hc⟩ | ⟨hrefuses, -⟩
      · exact removeFault hc hpc
      · rw [hrefuses.pc] at hpc
        cases hpc
  | drop hphase hpc =>
      rcases h.runs hphase with ⟨c, hc⟩ | ⟨-, hleaves⟩
      · exact .closing rfl
          (hc.leaves (List.nil_sublist _) rfl)
      · exact .closing rfl hleaves
  | drain hphase ha hstep =>
      exact .closing rfl ((h.closes hphase).drain ha hstep)
  | closed hphase hstep =>
      have hleaves := h.closes hphase
      simp only [Wal.step] at hstep
      split at hstep
      · rename_i hpc
        cases hstep
        exact .down rfl (hleaves.exited hpc.1)
      · cases hstep
  | crash => exact absurd rfl (he _)

/-- A crash takes writes that are not safe. What is left of a running
process is what its chapter leaves; in the other phases no file is removed,
and the directories are left as they are. -/
theorem crash (h : System.Tells json t s) {removed : List Nat}
    (hs : System.step json cfg (.crash removed) s = some s') :
    ∃ k, t.safe ≤ k ∧ k ≤ t.writes.length
      ∧ System.Tells json (t.crash k) s' := by
  cases System.Step.of_step hs with
  | @crash _ log hremoved hlog =>
      have hnone : s.phase.toRemove = [] → log = s.log := by
        intro hnil
        rw [hnil, List.sublist_nil] at hremoved
        subst hremoved
        cases hlog
        rfl
      have hrests : Rests json t s.data s.log → log = s.log →
          ∃ k, t.safe ≤ k ∧ k ≤ t.writes.length
            ∧ System.Tells json (t.crash k) { s with log, phase := .down } := by
        intro h hsame
        obtain ⟨k, hsafe, hk, hrest⟩ := h.crash
        exact ⟨k, hsafe, hk, .down rfl (hsame ▸ hrest)⟩
      have hleaves : ∀ wal : Machine, Leaves json t s.data log wal →
          ∃ k, t.safe ≤ k ∧ k ≤ t.writes.length
            ∧ System.Tells json (t.crash k) { s with log, phase := .down } := by
        intro wal h
        obtain ⟨k, hsafe, hk, hrest⟩ := h.crash
        exact ⟨k, hsafe, hk, .down rfl hrest⟩
      cases h with
      | down hphase h =>
          exact hrests h (hnone (by rw [hphase]; rfl))
      | opening hphase h =>
          exact hrests h.rests (hnone (by rw [hphase]; rfl))
      | running hphase h =>
          rw [hphase] at hremoved
          exact hleaves _ (h.leaves hremoved hlog)
      | failed hphase hrefuses h =>
          have hsame := hnone (by
            rw [hphase]
            simp only [Phase.toRemove, hrefuses.idle])
          exact hleaves _ (hsame ▸ h)
      | closing hphase h =>
          have hsame := hnone (by rw [hphase]; rfl)
          exact hleaves _ (hsame ▸ h)

end System.Tells

/-- Every run has its tale. -/
theorem System.tells (hjson : json.Lawful) {s : System} {events : List Event}
    (hrun : exec (System.step json cfg) events {} = some s) :
    ∃ t, Tale.Of events t ∧ s.Tells json t := by
  induction events using List.reverseRecOn generalizing s with
  | nil =>
      cases hrun
      exact ⟨{}, .start, .empty json⟩
  | append_singleton events e ih =>
      obtain ⟨s₁, hevents, hlast⟩ := Lib.exec_split hrun
      obtain ⟨s₂, hs, hnil⟩ := Option.bind_eq_some_iff.mp hlast
      cases hnil
      obtain ⟨t, hof, htells⟩ := ih hevents
      by_cases he : ∃ removed, e = .crash removed
      · obtain ⟨removed, rfl⟩ := he
        obtain ⟨k, hsafe, hk, h⟩ := htells.crash hs
        exact ⟨t.crash k, .crash hof hsafe hk, h⟩
      · have hno : ∀ removed, e ≠ .crash removed :=
          fun removed hcrash => he ⟨removed, hcrash⟩
        exact ⟨t.next e, .next hof hno, htells.step hjson hno hs⟩

end Tsdb
