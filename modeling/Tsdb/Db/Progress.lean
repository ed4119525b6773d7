/-
Every call that is under way can go on, and comes to an end.

In an open database that has not failed, whatever the threads of its log
have done, the operation it is in has a step that succeeds
(`Chapter.Tells.goesOn`), if only the files make no error, and it is nearer
to its end behind it: the answer to a cut is a number of steps of the
flusher away, the flush of the store a number of calls, a removal as many
as there are files on its list.
So an operation, and `open_with` with the recovery it does, always has a
way to return (`System.returns`).

# Being able to

Two things could keep an operation from going on, a cut that is never
answered and a file on a list that is not there. `Db.Able` excludes them,
by `Awake` and `Listed` of `Tsdb.Wal.Progress`, and is an invariant of the
runs in which nobody drops the database.

# The measure

`Db.away` is a pair in lexicographic order: calls still to be made,
including those of the removals that are to follow (`Caller.more`), and
then the steps of the call under way. A cut is at the lock, at its
request, or waiting; while it waits the second component is the flusher's
`Machine.away`. `goesOn` goes through the operations and gives for each an
event that is allowed and lowers the pair.

# Returning

The events it gives are never writes, faults or crashes
(`Event.goesOn`), so a run made of them tells of the same writes.
`returns_running` is the induction on the measure. An opening has its
stages in front of that, each of which succeeds once (`opening_goesOn`).
This is the existence of a continuation, and no claim about schedules.
-/
import Mathlib.Data.Prod.Lex
import Tsdb.Db.Lifetimes
import Tsdb.Wal.Progress

namespace Tsdb

open Lib (Bytes exec)
open Wal (Awake Disk Journal Machine WalConfig)

variable {json : Json} {cfg : WalConfig} {t : Tale} {data data' : DataDir}
  {disk disk' : Disk} {db db' : Db} {c : Chapter} {s s' : System}

-- ============================================================== the store

/-- Calls to the end of a flush, if a `write` call writes all. -/
def FlushStage.away : FlushStage → Nat
  | .toVec => 7
  | .open_ _ => 6
  | .write bytes done => if done < bytes.length then 5 else 4
  | .syncAll => 3
  | .rename => 2
  | .syncDir => 1

/-- A call in front of the last succeeds: the text can be made, the
temporary file is the one that is written to, and when the rename comes it
is there. A `write` call may write a part only, and then less is left. -/
theorem FlushJob.Ok.goOn (htotal : json.Total) {store : SegmentStore}
    {job : FlushJob} (hok : job.Ok json data store.nextNumber)
    (hstage : job.stage ≠ .syncDir) (index : Index) :
    ∃ n data' job',
      store.flushStep json n index data job = some (data', .inr job')
        ∧ job'.stage.away < job.stage.away := by
  obtain ⟨segment, stage⟩ := job
  cases stage with
  | toVec =>
      obtain ⟨payload, hvec⟩ := htotal segment
      simp only [SegmentStore.flushStep, hvec, Option.map_some]
      exact ⟨0, _, _, rfl, Nat.lt_succ_self 6⟩
  | open_ bytes =>
      refine ⟨0, _, _, rfl, ?_⟩
      simp only [FlushStage.away]
      split <;> omega
  | write bytes done =>
      refine ⟨bytes.length, ?_⟩
      simp only [SegmentStore.flushStep, FlushStage.away]
      by_cases hmore : done < bytes.length
      · rw [if_pos hmore, if_pos hmore]
        refine ⟨_, _, rfl, ?_⟩
        have hall : ¬ done + ((bytes.drop done).take
            (max bytes.length 1)).length < bytes.length := by
          rw [List.length_take, List.length_drop]
          omega
        simp only
        rw [if_neg hall]
        exact Nat.lt_succ_self 4
      · rw [if_neg hmore, if_neg hmore]
        exact ⟨_, _, rfl, Nat.lt_succ_self 3⟩
  | syncAll => exact ⟨0, _, _, rfl, Nat.lt_succ_self 2⟩
  | rename =>
      obtain ⟨payload, -, hfile⟩ := hok
      simp only [SegmentStore.flushStep, hfile, Option.map_some]
      exact ⟨0, _, _, rfl, Nat.lt_succ_self 1⟩
  | syncDir => exact absurd rfl hstage

-- ============================================================ being able to

/-- What an open database needs in order to go on: its log answers, and the
files it is to remove are there. -/
structure Db.Able (disk : Disk) (db : Db) : Prop where
  awake : Awake db.wal
  listed : (db.wal.removing db.calls).Listed disk

/-- An open database that has not failed is able to go on. -/
def System.Able (s : System) : Prop :=
  ∀ db, s.phase = .running db → db.state.failed = false → db.Able s.log

/-- `startFlush` makes no calls. -/
theorem Db.wal_startFlush {who : Caller} {cut : Nat}
    (h : db.startFlush who cut = some db') :
    db'.wal = db.wal ∧ db'.calls = db.calls := by
  unfold startFlush at h
  rcases db.state.index.takeTable (db.state.index.resolve [])
    with ⟨table, index⟩
  simp only at h
  split at h
  · cases h
    exact ⟨rfl, rfl⟩
  · obtain ⟨segment, -, rfl⟩ := Option.map_eq_some_iff.mp h
    exact ⟨rfl, rfl⟩

theorem Db.wal_storeStep {n : Nat}
    (h : db.storeStep json n data = some (data', db')) :
    db'.wal = db.wal ∧ db'.calls = db.calls := by
  unfold storeStep at h
  split at h
  · obtain ⟨⟨d, r⟩, -, heq⟩ := Option.map_eq_some_iff.mp h
    cases r with
    | inl store =>
        cases heq
        exact ⟨rfl, rfl⟩
    | inr job =>
        cases heq
        exact ⟨rfl, rfl⟩
  · cases h

/-- A call is over, and the next has not been made. -/
theorem Db.Calls.able (h : db.Calls) (hawake : Awake db'.wal)
    (hremoving : ∀ j, j ≠ db.calls → db'.wal.removing j = db.wal.removing j)
    (hnext : db'.calls = db.calls + 1) : db'.Able disk := by
  refine ⟨hawake, ?_⟩
  have hidle : db'.wal.removing db'.calls = .idle := by
    rw [hnext, hremoving _ (Nat.succ_ne_self _)]
    by_contra hbusy
    have hlast := (h.later _ (Nat.le_succ _) hbusy).1
    exact Nat.succ_ne_self _ hlast
  rw [hidle]
  trivial

namespace Db.Able

/-- Where the database stands does not matter. -/
theorem congr (h : db.Able disk) (hwal : db'.wal = db.wal)
    (hcalls : db'.calls = db.calls) : db'.Able disk := by
  refine ⟨hwal ▸ h.awake, ?_⟩
  rw [hwal, hcalls]
  exact h.listed

/-- A step of the log. -/
private theorem goOn (h : db.Able disk) (hc : c.Tells json t data disk db)
    {a : Wal.Action} {wal : Machine} (ha : a ≠ .close)
    (hremove : ∀ caller id, a = .removeFile caller id → caller = db.calls)
    (hs : Wal.step cfg a (disk, db.wal) = some (disk', wal)) :
    ({ db with wal } : Db).Able disk' :=
  ⟨h.awake.step ha hs, hc.journal.listed_step h.listed hremove hs⟩

theorem walStep (h : db.Able disk) (hc : c.Tells json t data disk db)
    {a : Wal.Action} (hs : db.WalStep cfg disk a disk' db') :
    db'.Able disk' := by
  cases hs with
  | goOn hallow hcut hremove hstep =>
      refine h.goOn hc ?_ ?_ hstep
      · rintro rfl
        cases hallow
      · rintro caller id rfl
        exact (Db.Calls.allows_removeFile hallow).1
  | @cut who closed _ wal _ hpc hstep hstart =>
      obtain ⟨hwal, hcalls⟩ := Db.wal_startFlush hstart
      exact (h.goOn hc (by simp) (by simp) hstep).congr hwal hcalls
  | @removed who through removed _ wal hpc hstep =>
      refine hc.calls.able (h.awake.step (by simp) hstep) (fun j hj => ?_) rfl
      simp only [Wal.step] at hstep
      split at hstep
      · split at hstep <;> cases hstep
        exact if_neg hj
      · cases hstep

theorem write (h : db.Able disk) (hc : c.Tells json t data disk db)
    {batch : WriteBatch} {result : Except Wal.WalError Nat}
    (hs : db.write cfg batch result disk = some (disk', db')) :
    db'.Able disk' := by
  obtain ⟨-, -, rfl, hcases⟩ := Db.write_cases hs
  rcases hcases with ⟨e, -, -, rfl⟩ | ⟨lsn, wal, -, hstep, hdb⟩
  · exact h.congr rfl rfl
  · have hafter := h.goOn hc (by simp) (by simp) hstep
    rcases hdb with rfl | rfl
    · exact hafter.congr rfl rfl
    · exact hafter.congr rfl rfl

end Db.Able

/-- One step keeps what the progress of a call rests on: the log answers
whom it has been asked by, and the files on the list of a removal are there. -/
theorem System.Able.step (h : s.Able) (htells : s.Tells json t) {e : Event}
    (hs : System.step json cfg e s = some s') : s'.Able := by
  intro db₁ hphase' hfailed'
  cases System.Step.of_step hs with
  | @openWith max reads hphase =>
      rcases System.openWith_cases json max reads s
        with heq | ⟨o, stage, heq, -⟩
      · rw [heq, hphase] at hphase'
        cases hphase'
      · rw [heq] at hphase'
        cases hphase'
  | @syncDir o id file hphase =>
      cases hphase'
      have hwal : (o.open_ (.start id file)).wal = .start id file := by
        unfold Opening.open_
        cases o.last <;> rfl
      constructor
      · rw [hwal]
        exact .start id file
      · rw [hwal]
        trivial
  | @write db db' batch result log hphase hwrite =>
      cases hphase'
      have hfailed := (Db.write_cases hwrite).2.1
      obtain ⟨c, hc⟩ := htells.works hphase hfailed
      exact (h db hphase hfailed).write hc hwrite
  | flush hphase hpc hfailed =>
      cases hphase'
      exact (h _ hphase hfailed).congr rfl rfl
  | @wal db db' a log hphase hwal =>
      cases hphase'
      have hfailed : db.state.failed = false := hwal.failed ▸ hfailed'
      obtain ⟨c, hc⟩ := htells.works hphase hfailed
      exact (h db hphase hfailed).walStep hc hwal
  | @store db db' n data hphase hstore =>
      cases hphase'
      have hfailed : db.state.failed = false :=
        Db.failed_storeStep hstore ▸ hfailed'
      obtain ⟨hwal, hcalls⟩ := Db.wal_storeStep hstore
      exact (h db hphase hfailed).congr hwal hcalls
  | @flushFault db who cut job hphase hpc =>
      cases who with
      | operation =>
          cases hphase'
          cases hfailed'
      | opening last => cases hphase'
      | opened => cases hphase'
  | @removeFault db who through hphase hpc =>
      cases who with
      | operation =>
          cases hphase'
          obtain ⟨c, hc⟩ := htells.works hphase hfailed'
          exact hc.calls.able (h db hphase hfailed').awake (fun _ _ => rfl) rfl
      | opening last => cases hphase'
      | opened => cases hphase'
  | _ => cases hphase'

-- ================================================================ going on

/-- The removals a caller has before it, three calls each. -/
def Caller.more : Caller → Nat
  | .opening _ => 3
  | _ => 0

/-- Calls to go in a cut. -/
def Wal.Shared.cutAway (shared : Wal.Shared) : Nat :=
  match shared.serial with
  | none => 8
  | some cutting =>
      if cutting.requested then if shared.cut.closed.isSome then 5 else 6
      else 7

/-- Calls to go in a removal, and the files of its list. -/
def Wal.RemovePc.away : Wal.RemovePc → Nat × Nat
  | .idle => (3, 0)
  | .bounded _ => (2, 0)
  | .removing _ todo _ => (1, todo.length)

/-- How far the operation is from its end: calls, and steps of the last. -/
def Db.away (db : Db) : Lex (Nat × Nat) :=
  match db.pc with
  | .idle => toLex (0, 0)
  | .remove who _ =>
      let away := (db.wal.removing db.calls).away
      toLex (who.more + away.1, away.2)
  | .flush who _ job => toLex (who.more + 4, job.stage.away)
  | .cut who => toLex (who.more + db.wal.shared.cutAway, db.wal.away)

/-- What happens to a database whose files make no error, and which nobody
else calls. -/
def Event.goesOn : Event → Bool
  | .setLen => true
  | .syncAll => true
  | .create => true
  | .syncDir => true
  | .wal _ => true
  | .store _ => true
  | _ => false

/-- An event that brings the database nearer to the end of its operation. -/
def Db.GoesOn (json : Json) (cfg : WalConfig) (data : DataDir) (disk : Disk)
    (db : Db) : Prop :=
  ∃ e data' disk' db', e.goesOn = true
    ∧ System.step json cfg e { data, log := disk, phase := .running db }
      = some { data := data', log := disk', phase := .running db' }
    ∧ db'.away < db.away

/-- A step of the log is one. -/
private theorem Db.GoesOn.wal {a : Wal.Action} {wal : Machine}
    (hallow : db.allows a = true)
    (hs : Wal.step cfg a (disk, db.wal) = some (disk', wal))
    (hreturn : ({ db with wal } : Db).returned a = some db')
    (hlt : db'.away < db.away) : db.GoesOn json cfg data disk := by
  refine ⟨.wal a, data, disk', db', rfl, ?_, hlt⟩
  simp only [System.step, Db.walStep, if_pos hallow, hs, Option.bind_some,
    hreturn, Option.map_some]

namespace Chapter.Tells

/-- With an answer the cut returns, and the flush of the store begins. The
return is allowed, and it is nearer to the end, as the calls of a database
are counted in front of those of the log. -/
private theorem answer_goesOn (h : c.Tells json t data disk db) {who : Caller}
    (hpc : db.pc = .cut who) {closed : Nat}
    (hserial : db.wal.shared.serial = some { caller := 0, requested := true })
    (hclosed : db.wal.shared.cut.closed = some closed) :
    db.GoesOn json cfg data disk := by
  have hs : Wal.step cfg (.cutReturn 0 closed) (disk, db.wal) = some (disk,
      { db.wal with shared := { db.wal.shared with
        serial := none
        cut := { db.wal.shared.cut with closed := none } } }) := by
    simp only [Wal.step, hserial, hclosed, and_self, if_true]
  have hallow : db.allows (.cutReturn 0 closed) = true := by
    simp [Db.allows, hpc]
  have hidle := h.calls.idle (by rw [hpc]; simp)
  have haway : db.away = toLex (who.more + 5, db.wal.away) := by
    unfold Db.away Wal.Shared.cutAway
    simp [hpc, hserial, hclosed]
  cases h.good with
  | failed hfailed _ =>
      rw [h.able] at hfailed
      cases hfailed
  | flushing hflush _ =>
      rw [hflush] at hpc
      cases hpc
  | settled _ hsettled =>
      have hcut : Settled json data ({ db with wal := { db.wal with
          shared := { db.wal.shared with
            serial := none
            cut := { db.wal.shared.cut with closed := none } } } } : Db).state
          c.ledger := hsettled
      obtain ⟨index, pc, ⟨hstart, job, rfl, -⟩ | ⟨hstart, -⟩⟩ :=
        hcut.startFlush who closed
      · refine .wal hallow hs (by simp only [Db.returned, hpc]; exact hstart) ?_
        rw [haway]
        exact Prod.Lex.toLex_lt_toLex.mpr (.inl (Nat.lt_succ_self _))
      · refine .wal hallow hs (by simp only [Db.returned, hpc]; exact hstart) ?_
        rw [haway]
        unfold Db.away Db.flushed
        simp only [hidle, Wal.RemovePc.away]
        exact Prod.Lex.toLex_lt_toLex.mpr (.inl (by omega))

/-- A cut is locked, requested, answered. It is the flusher that answers, so
if it has not there is a step of the flusher which is nearer: it is awake,
since a request wakes it. -/
private theorem cut_goesOn (h : c.Tells json t data disk db)
    (hable : db.Able disk) {who : Caller} (hpc : db.pc = .cut who) :
    db.GoesOn json cfg data disk := by
  have hallow : ∀ a : Wal.Action, (a = .cutLock 0 ∨ a = .cutRequest 0
      ∨ ∃ closed, a = .cutReturn 0 closed) → db.allows a = true := by
    intro a ha
    rcases ha with rfl | rfl | ⟨closed, rfl⟩
    · simp [Db.allows, hpc]
    · simp [Db.allows, hpc]
    · simp [Db.allows, hpc]
  have hnear : ∀ wal : Machine,
      (wal.shared.cutAway < db.wal.shared.cutAway
        ∨ wal.shared.cutAway = db.wal.shared.cutAway
          ∧ wal.away < db.wal.away) →
      ({ db with wal } : Db).away < db.away := by
    intro wal hlt
    unfold Db.away
    simp only [hpc]
    rw [Prod.Lex.toLex_lt_toLex]
    omega
  cases hserial : db.wal.shared.serial with
  | none =>
      have hs : Wal.step cfg (.cutLock 0) (disk, db.wal) = some (disk,
          { db.wal with shared := { db.wal.shared with
            serial := some { caller := 0, requested := false } } }) := by
        simp only [Wal.step, hserial, if_true]
      refine .wal (hallow _ (.inl rfl)) hs rfl (hnear _ (.inl ?_))
      simp [Wal.Shared.cutAway, hserial]
  | some cutting =>
      obtain ⟨hcaller, -⟩ := h.calls.serial cutting hserial
      obtain ⟨caller, requested⟩ := cutting
      replace hcaller : caller = 0 := hcaller
      subst hcaller
      cases requested with
      | false =>
          have hs : Wal.step cfg (.cutRequest 0) (disk, db.wal) = some (disk,
              { db.wal with shared := { db.wal.shared with
                serial := some { caller := 0, requested := true }
                cut := { requested := true, closed := none } } }) := by
            simp only [Wal.step, hserial, if_true]
          refine .wal (hallow _ (.inr (.inl rfl))) hs rfl (hnear _ (.inl ?_))
          simp [Wal.Shared.cutAway, hserial]
      | true =>
          cases hclosed : db.wal.shared.cut.closed with
          | some closed => exact h.answer_goesOn hpc hserial hclosed
          | none =>
              have hwaiting : db.wal.shared.waiting = true := by
                unfold Wal.Shared.waiting
                rw [hserial]
                rfl
              rcases hable.awake.asked hwaiting with hreq | ⟨closed, hsome⟩
              · obtain ⟨n, disk', wal, hs, hserve⟩ :=
                  h.journal.serve cfg hable.awake hreq
                have hsame := (Wal.FlusherStep.of_step hs).calls.1
                refine .wal rfl hs rfl (hnear _ ?_)
                unfold Wal.Shared.cutAway
                rw [hsame, hserial]
                rcases hserve with ⟨closed, hanswer⟩ | ⟨hcut, hlt⟩
                · rw [hanswer, hclosed]
                  exact .inl (Nat.lt_succ_self 5)
                · rw [hcut]
                  exact .inr ⟨rfl, hlt⟩
              · rw [hclosed] at hsome
                cases hsome

/-- The calls of the store succeed. In front of the last it is the call that
is nearer to the end; behind the last the removal is next. -/
private theorem flush_goesOn (htotal : json.Total)
    (h : c.Tells json t data disk db) {who : Caller} {cut : Nat}
    {job : FlushJob} (hpc : db.pc = .flush who cut job) :
    db.GoesOn json cfg data disk := by
  have hidle := h.calls.idle (by rw [hpc]; simp)
  have haway : db.away = toLex (who.more + 4, job.stage.away) := by
    unfold Db.away
    rw [hpc]
  cases h.good with
  | failed hfailed _ =>
      rw [h.able] at hfailed
      cases hfailed
  | settled hnot _ => exact absurd hpc (hnot who cut job)
  | flushing hflush hflushing =>
      rw [hpc] at hflush
      cases hflush
      obtain ⟨store, hsome, hknown, hstands⟩ := hflushing.store
      rcases hstands with ⟨hstage, hok, -⟩ | ⟨hstage, -⟩
      · obtain ⟨n, data', job', hcall, hlt⟩ :=
          hok.goOn htotal hstage db.state.index
        refine ⟨.store n, data', disk, { db with pc := .flush who cut job' },
          rfl, ?_, ?_⟩
        · simp only [System.step, Db.storeStep, hpc, hsome, hcall,
            Option.map_some]
        · rw [haway]
          exact Prod.Lex.toLex_lt_toLex.mpr (.inr ⟨rfl, hlt⟩)
      · obtain ⟨store', hcall, -⟩ : ∃ store',
            store.flushStep json 0 db.state.index data job
              = some (data, .inl store') ∧ _ :=
          FlushJob.register hflushing.shows.named hknown hflushing.fits
            hflushing.named hstage
        refine ⟨.store 0, data, disk, Db.flushed { db with
          state := { db.state with store := some store' } } who cut, rfl, ?_, ?_⟩
        · simp only [System.step, Db.storeStep, hpc, hsome, hcall,
            Option.map_some]
        · rw [haway]
          unfold Db.away Db.flushed
          simp only [hidle, Wal.RemovePc.away]
          exact Prod.Lex.toLex_lt_toLex.mpr (.inl (by omega))

/-- A call of `remove_through` knows its bound, its list, and removes. Each
of its four states has one step, and the number of files left on the list
counts for the third. -/
private theorem remove_goesOn (h : c.Tells json t data disk db)
    (hable : db.Able disk) {who : Caller} {through : Nat}
    (hpc : db.pc = .remove who through) : db.GoesOn json cfg data disk := by
  have hnear : ∀ pc : Wal.RemovePc,
      toLex pc.away < toLex (db.wal.removing db.calls).away →
      ({ db with wal := db.wal.setRemoving db.calls pc } : Db).away
        < db.away := by
    intro pc hlt
    unfold Db.away
    simp only [hpc]
    rw [show (db.wal.setRemoving db.calls pc).removing db.calls = pc
      from if_pos rfl]
    rw [Prod.Lex.toLex_lt_toLex] at hlt ⊢
    omega
  cases hbusy : db.wal.removing db.calls with
  | idle =>
      have hs : Wal.step cfg (.removeBound db.calls through
            (min through (db.wal.shared.activeSegment - 1))) (disk, db.wal)
          = some (disk, db.wal.setRemoving db.calls (.bounded
            (min through (db.wal.shared.activeSegment - 1)))) := by
        simp only [Wal.step, hbusy, and_self, if_true]
      refine .wal (by simp [Db.allows, hpc]) hs rfl (hnear _ ?_)
      rw [hbusy]
      simp [Prod.Lex.toLex_lt_toLex, Wal.RemovePc.away]
  | bounded bound =>
      let todo :=
        ((Wal.list disk.dir).map Wal.SegmentFile.id).filter (· ≤ bound)
      have hs : Wal.step cfg (.removeList db.calls todo) (disk, db.wal)
          = some (disk,
            db.wal.setRemoving db.calls (.removing bound todo [])) := by
        simp only [Wal.step, hbusy, todo, if_true]
      refine .wal (by simp [Db.allows, hpc]) hs rfl (hnear _ ?_)
      rw [hbusy]
      simp [Prod.Lex.toLex_lt_toLex, Wal.RemovePc.away]
  | removing bound todo removed =>
      cases todo with
      | nil =>
          have hs : Wal.step cfg (.removeReturn db.calls removed) (disk, db.wal)
              = some (disk, db.wal.setRemoving db.calls .idle) := by
            simp only [Wal.step, hbusy, if_true]
          have hreturn : ({ db with wal := db.wal.setRemoving db.calls .idle }
                : Db).returned (.removeReturn db.calls removed)
              = some { db with
                  wal := db.wal.setRemoving db.calls .idle
                  pc := who.next, calls := db.calls + 1 } := by
            simp [Db.returned, hpc]
          refine .wal (by simp [Db.allows, hpc]) hs hreturn ?_
          have hidle : (db.wal.setRemoving db.calls .idle).removing
              (db.calls + 1) = .idle := by
            unfold Machine.setRemoving
            simp only [Nat.succ_ne_self, if_false]
            by_contra hlater
            have hlast := (h.calls.later _ (Nat.le_succ _) hlater).1
            omega
          unfold Db.away
          simp only [hpc, hbusy]
          cases who with
          | operation | opened =>
              simp [Caller.next, Prod.Lex.toLex_lt_toLex, Wal.RemovePc.away]
          | opening last =>
              simp only [Caller.next, hidle, Prod.Lex.toLex_lt_toLex,
                Wal.RemovePc.away, Caller.more]
              omega
      | cons id todo =>
          have hlisted := hable.listed
          rw [hbusy] at hlisted
          obtain ⟨disk', hunlink⟩ :=
            Wal.Disk.unlink_ok (hlisted.2 id List.mem_cons_self)
          have hs : Wal.step cfg (.removeFile db.calls id) (disk, db.wal)
              = some (disk', db.wal.setRemoving db.calls
                (.removing bound todo (removed ++ [id]))) := by
            simp only [Wal.step, hbusy, if_true, hunlink, Option.map_some]
          refine .wal (by simp [Db.allows, hpc]) hs rfl (hnear _ ?_)
          rw [hbusy]
          simp [Prod.Lex.toLex_lt_toLex, Wal.RemovePc.away]

/-- Whatever operation it is in. -/
theorem goesOn (htotal : json.Total) (h : c.Tells json t data disk db)
    (hable : db.Able disk) (hpc : db.pc ≠ .idle) :
    db.GoesOn json cfg data disk := by
  cases hat : db.pc with
  | idle => exact absurd hat hpc
  | cut who => exact h.cut_goesOn hable hat
  | flush who cut job => exact h.flush_goesOn htotal hat
  | remove who through => exact h.remove_goesOn hable hat

end Chapter.Tells

-- ================================================================= an opening

/-- Stages to go until the log is open. -/
def Wal.Opening.away : Wal.Opening → Nat
  | .setLen _ _ _ => 3
  | .syncAll _ _ => 2
  | .create _ => 1
  | .syncDir _ _ => 0

/-- The process is opening its directories, or has them open and has not
failed. -/
def Phase.alive : Phase → Bool
  | .opening _ _ => true
  | .running db => !db.state.failed
  | _ => false

/-- An open database between two operations. -/
def System.Ready (s : System) : Prop :=
  ∃ db, s.phase = .running db ∧ db.pc = .idle ∧ db.state.failed = false

theorem Opening.failed_open (o : Opening) (wal : Machine) :
    (o.open_ wal).state.failed = false := by
  unfold Opening.open_
  cases o.last <;> rfl

/-- What is alive stays so. -/
theorem System.alive_step {e : Event} (he : e.goesOn = true)
    (halive : s.phase.alive = true)
    (hs : System.step json cfg e s = some s') : s'.phase.alive = true := by
  cases System.Step.of_step hs with
  | setLen => rfl
  | syncAll => rfl
  | create => rfl
  | @syncDir o id file =>
      show (!(o.open_ (.start id file)).state.failed) = true
      rw [o.failed_open]
      rfl
  | wal hphase hwal =>
      rw [hphase] at halive
      show (!_) = true
      rw [hwal.failed]
      exact halive
  | store hphase hstore =>
      rw [hphase] at halive
      show (!_) = true
      rw [Db.failed_storeStep hstore]
      exact halive
  | drain hphase | closed hphase =>
      rw [hphase] at halive
      cases halive
  | _ => cases he

/-- A stage of `Wal::open` succeeds. The file it is for is the last, as
`Telling` says, so the call finds it. -/
private theorem System.Tells.opening_goesOn (h : s.Tells json t)
    (cfg : WalConfig) {o : Opening} {stage : Wal.Opening}
    (hphase : s.phase = .opening o stage) :
    ∃ e s', e.goesOn = true ∧ System.step json cfg e s = some s'
      ∧ ((∃ stage', s'.phase = .opening o stage' ∧ stage'.away < stage.away)
        ∨ ∃ db, s'.phase = .running db) := by
  obtain ⟨g, lnames, done, rest, n, recs, h⟩ := h.telling hphase
  cases stage with
  | setLen id offset next =>
      have hs : System.step json cfg .setLen s = some { s with
          log := s.log.setLen id offset
          phase := .opening o (.syncAll id next) } := by
        simp only [System.step, hphase]
      exact ⟨_, _, rfl, hs, .inl ⟨_, rfl, Nat.lt_succ_self 2⟩⟩
  | syncAll id next =>
      have hs : System.step json cfg .syncAll s = some { s with
          log := s.log.syncAll id
          phase := .opening o (.create next) } := by
        simp only [System.step, hphase]
      exact ⟨_, _, rfl, hs, .inl ⟨_, rfl, Nat.lt_succ_self 1⟩⟩
  | create next =>
      have hs : System.step json cfg .create s = some { s with
          log := s.log ++ [{ id := next }]
          phase := .opening o (.syncDir next s.log.length) } := by
        simp only [System.step, hphase, h.holds.create.1, Option.map_some]
      exact ⟨_, _, rfl, hs, .inl ⟨_, rfl, Nat.lt_succ_self 0⟩⟩
  | syncDir id file =>
      have hs : System.step json cfg .syncDir s = some { s with
          log := s.log.syncDir
          phase := .running (o.open_ (.start id file)) } := by
        simp only [System.step, hphase]
      exact ⟨_, _, rfl, hs, .inr ⟨_, rfl⟩⟩

-- ================================================================ returning

namespace System.Tells

/-- What goes on tells of the same writes, and is able to go on. -/
private theorem goOn (hjson : json.Lawful) (h : s.Tells json t)
    (hable : s.Able) {e : Event} (he : e.goesOn = true)
    (hs : System.step json cfg e s = some s') :
    s'.Tells json (t.next e) ∧ s'.Able := by
  have hno : ∀ removed, e ≠ .crash removed := by
    rintro removed rfl
    cases he
  exact ⟨h.step hjson hno hs, hable.step h hs⟩

/-- An open database has a way out of its operation. -/
private theorem returns_running (hjson : json.Lawful) (htotal : json.Total)
    (h : s.Tells json t) (hable : s.Able) (hphase : s.phase = .running db)
    (halive : s.phase.alive = true) :
    ∃ es s', (∀ e ∈ es, e.goesOn = true)
      ∧ exec (System.step json cfg) es s = some s' ∧ s'.Ready := by
  generalize haway : db.away = away
  induction away using WellFoundedLT.induction generalizing s t db with
  | ind away ih =>
      have hfailed : db.state.failed = false := by
        rw [hphase] at halive
        simpa [Phase.alive] using halive
      by_cases hpc : db.pc = .idle
      · exact ⟨[], s, by simp, rfl, db, hphase, hpc, hfailed⟩
      · obtain ⟨c, hc⟩ := h.works hphase hfailed
        have hgoes : db.GoesOn json cfg s.data s.log :=
          hc.goesOn htotal (hable db hphase hfailed) hpc
        obtain ⟨e, data', disk', db', he, hs, hlt⟩ := hgoes
        have hsame :
            s = { data := s.data, log := s.log, phase := .running db } := by
          rw [← hphase]
        rw [← hsame] at hs
        obtain ⟨h', hable'⟩ := h.goOn hjson hable he hs
        obtain ⟨es, s₂, hes, hrun, hready⟩ := ih db'.away (haway ▸ hlt) h'
          hable' rfl (System.alive_step he halive hs) rfl
        refine ⟨e :: es, s₂, List.forall_mem_cons.mpr ⟨he, hes⟩, ?_, hready⟩
        rw [exec, hs]
        exact hrun

/-- A process that is alive has a way to return to its caller. -/
theorem returns (hjson : json.Lawful) (htotal : json.Total)
    (h : s.Tells json t) (hable : s.Able) (halive : s.phase.alive = true) :
    ∃ es s', (∀ e ∈ es, e.goesOn = true)
      ∧ exec (System.step json cfg) es s = some s' ∧ s'.Ready := by
  cases hphase : s.phase with
  | running db => exact returns_running hjson htotal h hable hphase halive
  | down =>
      rw [hphase] at halive
      cases halive
  | closing wal =>
      rw [hphase] at halive
      cases halive
  | opening o stage =>
      generalize haway : stage.away = away
      induction away using Nat.strongRecOn generalizing s t stage with
      | ind away ih =>
          obtain ⟨e, s₁, he, hs, hnext⟩ := h.opening_goesOn cfg hphase
          obtain ⟨h', hable'⟩ := h.goOn hjson hable he hs
          have halive' := System.alive_step he halive hs
          obtain ⟨es, s₂, hes, hrun, hready⟩ : ∃ es s',
              (∀ e ∈ es, e.goesOn = true)
                ∧ exec (System.step json cfg) es s₁ = some s' ∧ s'.Ready := by
            rcases hnext with ⟨stage', hphase', hlt⟩ | ⟨db, hphase'⟩
            · exact ih stage'.away (haway ▸ hlt) h' hable' halive' stage' hphase'
                rfl
            · exact returns_running hjson htotal h' hable' hphase' halive'
          refine ⟨e :: es, s₂, List.forall_mem_cons.mpr ⟨he, hes⟩, ?_, hready⟩
          rw [exec, hs]
          exact hrun

end System.Tells

end Tsdb
