/-
The computer, one event at a time.

`Computer.Tells` says what is told of a computer, and here is what keeps
it. An event is a step of the system, which the lemmas of
`Tsdb.Db.Lifetimes` are about, and what `Computer.after` makes of the
things on disk; each clause of `Tells` has its own lemma, and
`Computer.Tells.step` puts them together.

# The clauses

`stored` is about the segments: only the calls of a flush change what is
on disk of them, by `Storage.Outage`. `logged_step` is about the log, and
goes through the phases: `Wal::open` leaves a certain log certain, the file
it creates being the exception until the directory is synced; an open log
is tethered, by the lemmas of `Tsdb.Db.Synced`; and the flusher leaves a
certain one behind when it exits. Removals need the most care. The first
file that goes makes the directory differ from what is on disk of it
(`removing_removeFile`), the threads go on in the meantime
(`removing_serves`), and the call ends with a sync, after which they agree
again. `uncut_step` is about a truncation, which is not on disk before the
file is synced.

# Crashes

A crash leaves a computer of which less is told (`Computer.Crashed`): the
directories have some first writes, all that were safe among them, and if
the power fails, those with an LSN that is certain. Nothing can happen to
it but another crash, which changes nothing, a power loss, being written
back, and that somebody opens the directories, who is to find what is on
disk (`OpensOnDisk`); after each of these but the first all is told again.
`Computer.Stands` is either of the two, and has one lemma for each
occurrence.
-/
import Tsdb.Db.Loss

namespace Tsdb

open Wal (Anchored Disk LogFile Machine WalConfig firstId)

variable {json : Json} {cfg : WalConfig} {t : Tale} {disk' : Disk}
  {c c' : Computer} {db db' : Db} {e : Event}

namespace Computer

@[simp] theorem system_after (c : Computer) (e : Event) (s : System) :
    (c.after e s).system = s := by
  cases e with
  | wal a | store n =>
      simp only [after]
      split <;> rfl
  | _ => rfl

/-- A step of the processes, and what it does to what is on disk. -/
theorem step_system (hs : Computer.step json cfg (.system e) c = some c') :
    e ≠ .fault ∧ ∃ s, System.step json cfg e c.system = some s
      ∧ c.after e s = c' := by
  cases e with
  | fault => cases hs
  | _ => exact ⟨Event.noConfusion, Option.map_eq_some_iff.mp hs⟩

/-- Only the store syncs data. -/
theorem after_synced (he : ∀ n, e ≠ .store n) (s : System) :
    (c.after e s).entries = c.entries ∧ (c.after e s).synced = c.synced := by
  cases e with
  | store n => exact absurd rfl (he n)
  | wal a =>
      unfold after
      simp only
      split
      · exact ⟨rfl, rfl⟩
      · exact ⟨rfl, rfl⟩
  | _ => exact ⟨rfl, rfl⟩

namespace Logged

theorem of_down (h : c.Logged json cfg t) (hphase : c.system.phase = .down) :
    c.system.log.Certain ∧ c.system.log.Unremoved c.named := by
  cases h with
  | down _ hcertain hnamed => exact ⟨hcertain, hnamed⟩
  | opening hphase' | created hphase' | running hphase' | closing hphase' =>
      rw [hphase] at hphase'
      cases hphase'

theorem of_opening (h : c.Logged json cfg t) {o : Opening}
    {stage : Wal.Opening} (hphase : c.system.phase = .opening o stage)
    (hstage : ∀ id file, stage ≠ .syncDir id file) :
    c.system.log.Certain ∧ c.system.log.Unremoved c.named := by
  cases h with
  | opening _ _ hcertain hnamed => exact ⟨hcertain, hnamed⟩
  | created hphase' =>
      rw [hphase] at hphase'
      cases hphase'
      exact absurd rfl (hstage _ _)
  | down hphase' | running hphase' | closing hphase' =>
      rw [hphase] at hphase'
      cases hphase'

theorem of_created (h : c.Logged json cfg t) {o : Opening} {id file : Nat}
    (hphase : c.system.phase = .opening o (.syncDir id file)) :
    ∃ before : Disk, id = firstId before ∧ file = before.length
      ∧ c.system.log = before ++ [{ id := firstId before }]
      ∧ before.Certain := by
  cases h with
  | created hphase' hlog hcertain =>
      rw [hphase] at hphase'
      cases hphase'
      exact ⟨_, rfl, rfl, hlog, hcertain⟩
  | opening hphase' hstage =>
      rw [hphase] at hphase'
      cases hphase'
      exact absurd rfl (hstage _ _)
  | down hphase' | running hphase' | closing hphase' =>
      rw [hphase] at hphase'
      cases hphase'

theorem of_running (h : c.Logged json cfg t)
    (hphase : c.system.phase = .running db) :
    Tethered cfg t c.sure c.system.log db.wal
      ∧ (c.system.log.Unremoved c.named
        ∨ Removing json t c.system.data c.named c.system.log db) := by
  cases h with
  | running hphase' htethered hnamed =>
      rw [hphase] at hphase'
      cases hphase'
      exact ⟨htethered, hnamed⟩
  | down hphase' | opening hphase' | created hphase' | closing hphase' =>
      rw [hphase] at hphase'
      cases hphase'

/-- In no removal every file is there. -/
theorem of_working (h : c.Logged json cfg t)
    (hphase : c.system.phase = .running db)
    (hpc : ∀ who through, db.pc ≠ .remove who through) :
    Tethered cfg t c.sure c.system.log db.wal
      ∧ c.system.log.Unremoved c.named := by
  obtain ⟨htethered, hnamed⟩ := h.of_running hphase
  refine ⟨htethered, hnamed.resolve_right fun hremoving => ?_⟩
  obtain ⟨who, through, hremove⟩ := hremoving.pc
  exact hpc who through hremove

theorem of_closing (h : c.Logged json cfg t) {wal : Machine}
    (hphase : c.system.phase = .closing wal) :
    Tethered cfg t c.sure c.system.log wal
      ∧ c.system.log.Unremoved c.named := by
  cases h with
  | closing hphase' htethered hnamed =>
      rw [hphase] at hphase'
      cases hphase'
      exact ⟨htethered, hnamed⟩
  | down hphase' | opening hphase' | created hphase' | running hphase' =>
      rw [hphase] at hphase'
      cases hphase'

end Logged

namespace Tells

/-- A process that comes to its end in order leaves nothing to write back. -/
theorem onDisk (h : c.Tells json cfg t)
    (hphase : c.system.phase = .down) : c.OnDisk := by
  obtain ⟨hcertain, hnamed⟩ := h.logged.of_down hphase
  refine ⟨hcertain, hnamed, ?_, ?_⟩
  · rw [Option.eq_none_iff_forall_ne_some]
    intro disk hdisk
    obtain ⟨⟨o, id, next, hopening⟩, -⟩ := h.uncut disk hdisk
    rw [hphase] at hopening
    cases hopening
  · have hdata := h.data
    rw [hphase] at hdata
    exact hdata

/-- The name of the next segment is new. -/
private theorem nextNumber_new (h : c.Tells json cfg t)
    {store : SegmentStore} {job : FlushJob}
    (hflushing : c.system.phase.flushing = some (store, job))
    (hstage : job.stage = .rename) :
    c.system.data.lookup (.segment store.nextNumber) = none := by
  obtain ⟨db, hphase⟩ : ∃ db, c.system.phase = .running db := by
    cases hphase : c.system.phase with
    | running db => exact ⟨db, rfl⟩
    | _ =>
        rw [hphase] at hflushing
        cases hflushing
  rw [hphase] at hflushing
  obtain ⟨hstore, who, cut, hpc⟩ := Phase.flushing_some hflushing
  obtain ⟨g, hg⟩ := h.system.flushing hphase hpc
  obtain ⟨store', hstore', hfor, hstands⟩ := hg.store
  rw [hstore] at hstore'
  cases hstore'
  rcases hstands with ⟨-, -, hheld⟩ | ⟨hlast, -⟩
  · by_contra hsome
    obtain ⟨f, hf, he⟩ := List.mem_map.mp
      ((hheld.found _).mp (Option.isSome_iff_ne_none.mpr hsome))
    have := hfor.below hheld f hf
    omega
  · rw [hstage] at hlast
    cases hlast

/-- What is on disk of the segments, behind any event. Only a call of the
store changes it: in the last call the directory is synced, and the new name
is on disk; in front of it the lemma about one call of a flush applies. -/
private theorem stored (h : c.Tells json cfg t) {s : System}
    (hs : System.Step json cfg c.system e s)
    (hcrash : ∀ removed, e ≠ .crash removed) (hfault : e ≠ .fault) :
    (c.after e s).entries.Backed s.data (c.after e s).synced s.phase.unsynced
      ∧ ∀ store job, s.phase.flushing = some (store, job) →
        job.Written s.data (c.after e s).synced store.nextNumber := by
  by_cases he : ∃ n, e = .store n
  · obtain ⟨n, rfl⟩ := he
    cases hs with
    | @store db db' n data hphase hstep =>
        unfold Db.storeStep at hstep
        split at hstep
        · rename_i who cut job store hpc hstore
          have hflushing : c.system.phase.flushing = some (store, job) := by
            rw [hphase]
            simp only [Phase.flushing, hpc, hstore]
          have hbacked := h.data
          unfold Phase.unsynced at hbacked
          rw [hflushing] at hbacked
          replace hbacked : c.entries.Backed c.system.data c.synced
            (store.unsynced job) := hbacked
          simp only [after, hflushing]
          obtain ⟨⟨data', next⟩, hcall, heq⟩ := Option.map_eq_some_iff.mp hstep
          cases next with
          | inl store' =>
              cases heq
              have hstage := (SegmentStore.flushStep_last hcall).mpr rfl
              rw [if_pos hstage]
              have hnone : (Phase.running (Db.flushed { db with state :=
                  { db.state with store := store' } } who cut)).flushing
                  = none :=
                Phase.flushing_none fun _ _ _ => Pc.noConfusion
              refine ⟨?_, fun store job hjob => ?_⟩
              · rw [Phase.unsynced_none hnone]
                exact hbacked.registered hcall
              · rw [hnone] at hjob
                cases hjob
          | inr job' =>
              cases heq
              have hstage : job.stage ≠ .syncDir := fun hlast => by
                cases (SegmentStore.flushStep_last hcall).mp hlast
              rw [if_neg hstage]
              have hnext : (Phase.running { db with
                  pc := .flush who cut job' }).flushing
                  = some (store, job') := by
                simp only [Phase.flushing, hstore]
              obtain ⟨hbacked', hwritten⟩ := hbacked.flushStep
                (h.written _ _ hflushing) (h.nextNumber_new hflushing) hcall
              refine ⟨?_, fun store' job hjob => ?_⟩
              · unfold Phase.unsynced
                rw [hnext]
                exact hbacked'
              · rw [hnext] at hjob
                cases hjob
                exact hwritten
        · cases hstep
  · have hno : ∀ n, e ≠ .store n := fun n heq => he ⟨n, heq⟩
    obtain ⟨hentries, hsynced⟩ := after_synced (c := c) hno s
    rw [hentries, hsynced, hs.data_eq hno]
    rcases Phase.flushing_step hs hcrash hfault hno with hsame | ⟨hnone, hnew⟩
    · unfold Phase.unsynced
      rw [hsame]
      exact ⟨h.data, h.written⟩
    · have hbacked := h.data
      rw [Phase.unsynced_none hnone] at hbacked
      refine ⟨?_, fun store job hjob hstage => ?_⟩
      · have hnone' : s.phase.unsynced = none := by
          cases hjob : s.phase.flushing with
          | none => exact Phase.unsynced_none hjob
          | some next =>
              unfold Phase.unsynced SegmentStore.unsynced
              rw [hjob]
              exact if_neg (by rw [hnew _ _ hjob]; exact FlushStage.noConfusion)
        rw [hnone']
        exact hbacked
      · rw [hnew store job hjob] at hstage
        cases hstage

section

variable {m' : Machine} {a : Wal.Action}

/-- `remove_through` removes a file. -/
private theorem removing_removeFile (h : c.Tells json cfg t)
    (hphase : c.system.phase = .running db)
    (hnamed : c.system.log.Unremoved c.named
      ∨ Removing json t c.system.data c.named c.system.log db)
    {caller id : Nat} (hallow : db.allows (.removeFile caller id) = true)
    (hs : Wal.step cfg (.removeFile caller id) (c.system.log, db.wal)
      = some (disk', m')) :
    Removing json (t.next (.wal (.removeFile caller id))) c.system.data
      c.named disk' { db with wal := m' } := by
  obtain ⟨rfl, who, through, hpc⟩ := Db.Calls.allows_removeFile hallow
  obtain ⟨hgone, hspent⟩ := h.before_removal hphase hpc hnamed
  obtain ⟨bound, todo, removed, hcall, hunlink, rfl⟩ := Wal.step_removeFile hs
  obtain ⟨ch, hch⟩ := h.system.busy hphase (by rw [hpc]; exact Pc.noConfusion)
  obtain ⟨hbound, htodo⟩ := hch.journal.removal.todo _ _ _ _ hcall
  have hid : id < db.wal.shared.activeSegment :=
    Nat.lt_of_le_of_lt (htodo id List.mem_cons_self) hbound
  refine ⟨⟨who, through, hpc⟩, ⟨bound, todo, removed ++ [id], ?_, by simp⟩,
    hspent.unlink hid hunlink rfl, hgone.unlink hid hunlink rfl⟩
  show (db.wal.setRemoving db.calls _).removing db.calls = _
  exact if_pos rfl

/-- The threads go on behind it. -/
private theorem removing_serves (h : c.Tells json cfg t)
    (htethered : Tethered cfg t c.sure c.system.log db.wal)
    (hremoving : Removing json t c.system.data c.named c.system.log db)
    (ha : a.serves = true)
    (hs : Wal.step cfg a (c.system.log, db.wal) = some (disk', m')) :
    Removing json (t.next (.wal a)) c.system.data c.named disk'
      { db with wal := m' } := by
  obtain ⟨base, log, hand, rest, hsim⟩ := htethered.sim
  have hfile : ∀ j id, a ≠ .removeFile j id := by
    rintro j id rfl
    cases ha
  have hsame : m'.removing = db.wal.removing := by
    cases a with
    | flusher n => exact (Wal.FlusherStep.of_step hs).calls.2
    | syncer due => exact (Wal.step_others (by simp) rfl hs).1
    | waitReturn lsn => exact (Wal.step_others (by simp) rfl hs).1
    | _ => cases ha
  obtain ⟨bound, todo, removed, hcall, hsome⟩ := hremoving.taken
  have hspent := hremoving.spent
  obtain ⟨old, actions, log', hand', buffer, hleaving⟩ := hspent
  have hshadow := Wal.step_calm hleaving.journal h.named ha hs
  exact ⟨hremoving.pc, ⟨bound, todo, removed, hsame ▸ hcall, hsome⟩,
    hremoving.spent.step ha hshadow,
    hremoving.gone.step h.named hsim hfile hs⟩

/-- The files of the log, behind a step that does not return. A file is
removed, and then it may be back; the directory is synced, and then nothing
may; or neither, and what was the case before still is. -/
private theorem named_goOn (h : c.Tells json cfg t)
    (hphase : c.system.phase = .running db)
    (htethered : Tethered cfg t c.sure c.system.log db.wal)
    (hnamed : c.system.log.Unremoved c.named
      ∨ Removing json t c.system.data c.named c.system.log db)
    (hallow : db.allows a = true)
    (hremove : ∀ caller removed, a ≠ .removeReturn caller removed)
    (hs : Wal.step cfg a (c.system.log, db.wal) = some (disk', m')) :
    disk'.Unremoved (if db.wal.syncsDir a then disk'.names else c.named)
      ∨ Removing json (t.next (.wal a)) c.system.data
        (if db.wal.syncsDir a then disk'.names else c.named) disk'
        { db with wal := m' } := by
  by_cases hfile : ∃ caller id, a = .removeFile caller id
  · obtain ⟨caller, id, rfl⟩ := hfile
    exact .inr (h.removing_removeFile hphase hnamed hallow hs)
  by_cases hsyncs : db.wal.syncsDir a = true
  · rw [if_pos hsyncs]
    exact .inl (Disk.unremoved_names disk')
  rw [if_neg hsyncs]
  rcases hnamed with hunremoved | hremoving
  · obtain ⟨base, log, hand, rest, hsim⟩ := htethered.sim
    exact .inl (hunremoved.entries (Disk.Grows.of_step hsim
      (fun j id he => hfile ⟨j, id, he⟩) hs).flags)
  · refine .inr (h.removing_serves htethered hremoving ?_ hs)
    obtain ⟨who, through, hpc⟩ := hremoving.pc
    obtain ⟨bound, todo, removed, hcall, -⟩ := hremoving.taken
    cases a with
    | flusher n => rfl
    | syncer due => rfl
    | waitReturn lsn => rfl
    | removeBound caller id bound' =>
        -- there is one call only, and it has its list
        exfalso
        simp only [Db.allows, hpc, Bool.and_eq_true, beq_iff_eq] at hallow
        simp [Wal.step, hallow.1, hcall] at hs
    | removeList caller todo' =>
        exfalso
        simp only [Db.allows, hpc, beq_iff_eq] at hallow
        simp [Wal.step, hallow, hcall] at hs
    | removeFile caller id => exact absurd ⟨caller, id, rfl⟩ hfile
    | removeReturn caller removed' => exact absurd rfl (hremove _ _)
    | _ =>
        exfalso
        simp [Db.allows, hpc] at hallow

end

/-- Behind the reading of the files. -/
private theorem logged_openWith (h : c.Tells json cfg t)
    (hphase : c.system.phase = .down) (max : Nat) (reads : Nat → Nat → Nat) :
    (c.after (.openWith max reads)
      (c.system.openWith json max reads)).Logged json cfg
        (t.next (.openWith max reads)) := by
  obtain ⟨hcertain, hnamed⟩ := h.logged.of_down hphase
  have hsame : Logged json cfg (t.next (.openWith max reads))
      { c with system := c.system } := .down hphase hcertain hnamed
  show Logged json cfg _ { c with system := c.system.openWith json max reads }
  unfold System.openWith
  split
  · exact hsame
  · split
    · exact hsame
    · split
      · exact hsame
      · rename_i report _ replay _
        refine .opening rfl (fun id file => ?_) hcertain hnamed
        unfold Wal.Opening.next
        cases report.truncated <;> exact Wal.Opening.noConfusion

/-- The end of the last file is cut. -/
private theorem logged_setLen (h : c.Tells json cfg t) {o : Opening}
    {id offset next : Nat}
    (hphase : c.system.phase = .opening o (.setLen id offset next)) :
    Logged json cfg t { c with
      system := { c.system with
        log := c.system.log.setLen id offset
        phase := .opening o (.syncAll id next) }
      uncut := some c.system.log } := by
  obtain ⟨hcertain, hnamed⟩ := h.logged.of_opening hphase (by simp)
  obtain ⟨g, lnames, done, rest, n, recs, htelling⟩ := h.system.telling hphase
  refine .opening rfl (by simp) (htelling.holds.certain_setLen hcertain)
    (hnamed.entries (.inl ?_))
  unfold Disk.names Disk.setLen
  rw [List.map_map]
  refine List.map_congr_left fun f _ => ?_
  show LogFile.linked (if _ then _ else _) = f.linked
  split <;> rfl

/-- It is synced. -/
private theorem logged_syncAll (h : c.Tells json cfg t) {o : Opening}
    {id next : Nat} (hphase : c.system.phase = .opening o (.syncAll id next)) :
    Logged json cfg t { c with
      system := { c.system with
        log := c.system.log.syncAll id
        phase := .opening o (.create next) }
      uncut := none } := by
  obtain ⟨hcertain, hnamed⟩ := h.logged.of_opening hphase (by simp)
  refine .opening rfl (by simp) (hcertain.syncAll id)
    (hnamed.entries (.inl ?_))
  unfold Disk.names Disk.syncAll
  rw [List.map_map]
  refine List.map_congr_left fun f _ => ?_
  show LogFile.linked (if _ then _ else _) = f.linked
  split <;> rfl

/-- The next segment of the log. -/
private theorem logged_create (h : c.Tells json cfg t) {o : Opening}
    {next : Nat} {log : Disk}
    (hphase : c.system.phase = .opening o (.create next))
    (hcreate : c.system.log.create next = some log) :
    Logged json cfg t { c with system := { c.system with
      log, phase := .opening o (.syncDir next c.system.log.length) } } := by
  obtain ⟨hcertain, hnamed⟩ := h.logged.of_opening hphase (by simp)
  obtain ⟨g, lnames, done, rest, n, recs, htelling⟩ := h.system.telling hphase
  obtain ⟨hnext, -, -⟩ := htelling.holds
  obtain rfl : next = firstId c.system.log := hnext
  obtain ⟨rfl, -⟩ := Disk.create_eq hcreate
  exact .created rfl rfl hcertain hnamed htelling.rests

/-- The log is open. -/
private theorem logged_syncDir (h : c.Tells json cfg t) {o : Opening}
    {id file : Nat} (hphase : c.system.phase = .opening o (.syncDir id file)) :
    Logged json cfg t { c with
      system := { c.system with
        log := c.system.log.syncDir
        phase := .running (o.open_ (.start id file)) }
      named := c.system.log.syncDir.names
      sure := 0 } := by
  obtain ⟨before, rfl, rfl, hlog, hcertain⟩ := h.logged.of_created hphase
  have hopened : c.system.log.syncDir = (Wal.opened before).1 := by
    rw [hlog]
    exact List.map_append.trans (congrArg (· ++ _) hcertain.syncDir)
  refine .running rfl ⟨0, ?_, Nat.zero_le _⟩ (.inl (Disk.unremoved_names _))
  show Anchored cfg 0 0 c.system.log.syncDir (Opening.open_ _ _).wal
  rw [hopened, show (o.open_ (.start (firstId before) before.length)).wal
    = (Wal.opened before).2 by unfold Opening.open_; split <;> rfl]
  exact .start hcertain

/-- A write is on no disk. It is accepted or refused, and in the first case
the log has one record more, as has the process. -/
private theorem logged_write (h : c.Tells json cfg t) {batch : WriteBatch}
    {result : Except Wal.WalError Nat} {log : Disk}
    (hphase : c.system.phase = .running db)
    (hwrite : db.write cfg batch result c.system.log = some (log, db')) :
    Logged json cfg (t.next (.write batch result)) { c with
      system := { c.system with log, phase := .running db' } } := by
  obtain ⟨hpc, hfailed, rfl, hcases⟩ := Db.write_cases hwrite
  obtain ⟨htethered, hnamed⟩ := h.logged.of_working hphase (by simp [hpc])
  rcases hcases with ⟨e, rfl, -, rfl⟩ | ⟨lsn, wal, rfl, hstep, hdb⟩
  · exact .running rfl htethered (.inl hnamed)
  · obtain ⟨ch, hch⟩ := h.system.works hphase hfailed
    have hsettled := hch.good.of_idle hpc hch.able
    have hrec := (hsettled.memory.prepare batch).record
    have hnext : Tethered cfg (t.next (.write batch (.ok lsn))) c.sure
        c.system.log wal := by
      refine htethered.step hstep ?_
      show _ + (if (db.state.prepare batch).record.isEmpty then []
          else [(db.state.prepare batch).record]).length
        ≤ recordCount ((t.mine ++ [(batch, lsn)]).map Prod.fst)
      rw [List.map_append, List.map_singleton, recordCount_append,
        recordCount_singleton]
      by_cases hnone : batch.nonempty = []
      · rw [if_pos (hrec.isEmpty_iff.mpr hnone), if_pos hnone]
        exact Nat.le_refl _
      · rw [if_neg (fun hempty => hnone (hrec.isEmpty_iff.mp hempty)),
          if_neg hnone]
        exact Nat.le_refl _
    rcases hdb with rfl | rfl
    · exact .running rfl hnext (.inl hnamed)
    · exact .running rfl hnext (.inl hnamed)

/-- A step of the log of an open database: it goes on, a cut returns and
everything is certain, or a removal returns. In the last case the directory
has just been synced, unless the call has removed nothing. -/
private theorem logged_wal (h : c.Tells json cfg t) {a : Wal.Action}
    {log : Disk} (hphase : c.system.phase = .running db)
    (hwal : db.WalStep cfg c.system.log a log db')
    (hnext : System.Tells json (t.next (.wal a))
      { c.system with log, phase := .running db' }) :
    Logged json cfg (t.next (.wal a)) { c with
      system := { c.system with log, phase := .running db' }
      named := if db.wal.syncsDir a then log.names else c.named
      sure := max c.sure (db.wal.sureBy a) } := by
  cases hwal with
  | @goOn a log wal hallow hcut hremove hstep =>
      obtain ⟨htethered, hnamed⟩ := h.logged.of_running hphase
      have hquiet : a.accepted = [] ∧ (t.next (.wal a)).mine = t.mine := by
        cases a with
        | append => cases hallow
        | closeReturn => cases hallow
        | _ => exact ⟨rfl, rfl⟩
      exact .running rfl (htethered.goOn hstep hcut hquiet.1 hquiet.2)
        (h.named_goOn hphase htethered hnamed hallow hremove hstep)
  | @cut who closed log wal db' hpc hstep hstart =>
      obtain ⟨htethered, hnamed⟩ :=
        h.logged.of_working hphase (by simp [hpc])
      obtain ⟨base, log', hand, rest, hsim⟩ := htethered.sim
      have hwal : db'.wal = wal := (Db.wal_startFlush hstart).1
      have hpc' := Db.pc_startFlush hstart
      obtain ⟨ch, hch⟩ := hnext.busy rfl (by
        rcases hpc' with hpc' | ⟨segment, hpc'⟩
        · rw [hpc']
          exact Pc.noConfusion
        · rw [hpc']
          exact Pc.noConfusion)
      have hcovers : Covers ch.log db'.wal closed := by
        have hstands := hch.stands
        rcases hpc' with hpc' | ⟨segment, hpc'⟩
        · rw [hpc'] at hstands
          exact hstands.1
        · rw [hpc'] at hstands
          exact hstands.1
      have hsim' := hch.journal.sim
      rw [hwal] at hcovers hsim'
      refine .running rfl ?_ (.inl (hnamed.entries
        (Disk.Grows.of_step hsim (by simp) hstep).flags))
      show Tethered cfg _ _ log db'.wal
      rw [hwal]
      exact htethered.cutReturn hstep rfl hsim' hcovers
  | @removed who through removed log wal hpc hstep =>
      obtain ⟨htethered, hnamed⟩ := h.logged.of_running hphase
      refine .running rfl (htethered.goOn hstep (by simp) rfl rfl) (.inl ?_)
      obtain ⟨bound, hcall, rfl⟩ : ∃ bound,
          db.wal.removing db.calls = .removing bound [] removed
            ∧ log = c.system.log := by
        simp only [Wal.step] at hstep
        split at hstep
        · rename_i bound done hcall
          split at hstep
          · rename_i hdone
            cases hstep
            exact ⟨bound, hdone ▸ hcall, rfl⟩
          · cases hstep
        · cases hstep
      show Disk.Unremoved (if decide (removed ≠ []) = true then _ else _) _
      by_cases hsome : removed = []
      · -- it has removed nothing
        rw [if_neg (by simpa using hsome)]
        refine hnamed.resolve_right fun hremoving => ?_
        obtain ⟨bound', todo, removed', hcall', hsome'⟩ := hremoving.taken
        rw [hcall] at hcall'
        cases hcall'
        exact hsome' hsome
      · rw [if_pos (by simpa using hsome)]
        exact Disk.unremoved_names _

/-- A step of the log of a dropped database. -/
private theorem logged_drain (h : c.Tells json cfg t) {a : Wal.Action}
    {log : Disk} {wal wal' : Machine}
    (hphase : c.system.phase = .closing wal) (ha : drains a = true)
    (hstep : Wal.step cfg a (c.system.log, wal) = some (log, wal')) :
    Logged json cfg (t.next (.wal a)) { c with
      system := { c.system with log, phase := .closing wal' }
      named := if wal.syncsDir a then log.names else c.named
      sure := max c.sure (wal.sureBy a) } := by
  obtain ⟨htethered, hnamed⟩ := h.logged.of_closing hphase
  obtain ⟨base, log', hand, rest, hsim⟩ := htethered.sim
  have hquiet : (∀ caller closed, a ≠ .cutReturn caller closed)
      ∧ (∀ j id, a ≠ .removeFile j id) ∧ a.accepted = []
      ∧ (t.next (.wal a)).mine = t.mine := by
    cases a with
    | flusher n => exact ⟨by simp, by simp, rfl, rfl⟩
    | syncer due => exact ⟨by simp, by simp, rfl, rfl⟩
    | close => exact ⟨by simp, by simp, rfl, rfl⟩
    | _ => cases ha
  obtain ⟨hcut, hfile, haccepted, hmine⟩ := hquiet
  refine .closing rfl (htethered.goOn hstep hcut haccepted hmine) ?_
  show Disk.Unremoved (if wal.syncsDir a = true then _ else _) _
  split
  · exact Disk.unremoved_names log
  · exact hnamed.entries (Disk.Grows.of_step hsim hfile hstep).flags

/-- The log is closed. -/
private theorem logged_closed (h : c.Tells json cfg t) {log : Disk}
    {wal wal' : Machine} (hphase : c.system.phase = .closing wal)
    (hstep : Wal.step cfg .closeReturn (c.system.log, wal)
      = some (log, wal')) :
    Logged json cfg (t.next (.wal .closeReturn)) { c with
      system := { c.system with log, phase := .down }
      named := c.named
      sure := max c.sure 0 } := by
  obtain ⟨⟨count, hanchored, -⟩, hnamed⟩ := h.logged.of_closing hphase
  simp only [Wal.step] at hstep
  split at hstep
  · rename_i hexited
    cases hstep
    exact .down rfl (hanchored.exited hexited.1) hnamed
  · cases hstep

/-- What is on disk of the log, behind any event. For each there is a lemma
above, or nothing happens to the log. -/
private theorem logged_step (h : c.Tells json cfg t) {s : System}
    (hs : System.Step json cfg c.system e s)
    (hcrash : ∀ removed, e ≠ .crash removed) (hfault : e ≠ .fault)
    (hnext : s.Tells json (t.next e)) :
    (c.after e s).Logged json cfg (t.next e) := by
  cases hs with
  | openWith hphase => exact h.logged_openWith hphase _ _
  | setLen hphase => exact h.logged_setLen hphase
  | syncAll hphase => exact h.logged_syncAll hphase
  | create hphase hcreate => exact h.logged_create hphase hcreate
  | syncDir hphase => exact h.logged_syncDir hphase
  | write hphase hwrite => exact h.logged_write hphase hwrite
  | flush hphase hpc =>
      obtain ⟨htethered, hnamed⟩ :=
        h.logged.of_working hphase (by simp [hpc])
      exact .running rfl htethered (.inl hnamed)
  | wal hphase hwal =>
      have hlogged := h.logged_wal hphase hwal hnext
      simp only [after, hphase, Phase.wal]
      exact hlogged
  | @store db db' n data hphase hstore =>
      have hwal := (Db.wal_storeStep hstore).1
      have hpc : ∀ who through, db.pc ≠ .remove who through := by
        unfold Db.storeStep at hstore
        split at hstore
        · rename_i hflush _
          simp [hflush]
        · cases hstore
      obtain ⟨htethered, hnamed⟩ := h.logged.of_working hphase hpc
      rw [← hwal] at htethered
      simp only [after]
      split
      · exact .running rfl htethered (.inl hnamed)
      · exact .running rfl htethered (.inl hnamed)
  | openFault | flushFault | removeFault => exact absurd rfl hfault
  | drop hphase hpc =>
      obtain ⟨htethered, hnamed⟩ :=
        h.logged.of_working hphase (by simp [hpc])
      exact .closing rfl htethered hnamed
  | drain hphase ha hstep =>
      have hlogged := h.logged_drain hphase ha hstep
      simp only [after, hphase, Phase.wal]
      exact hlogged
  | closed hphase hstep =>
      have hlogged := h.logged_closed hphase hstep
      simp only [after, hphase, Phase.wal]
      exact hlogged
  | crash => exact absurd rfl (hcrash _)

/-- No directory gets shorter: a file that is removed stays in the list,
with no name, and only `create` adds one. -/
private theorem length_step {s s' : System}
    (hs : System.Step json cfg s e s')
    (hcrash : ∀ removed, e ≠ .crash removed) :
    s.log.length ≤ s'.log.length := by
  have hlater : ∀ {disk disk' : Disk} {m m' : Machine} {a : Wal.Action},
      Wal.step cfg a (disk, m) = some (disk', m') →
      disk.length ≤ disk'.length := by
    intro disk disk' m m' a hstep
    by_contra hlt
    rw [Nat.not_le] at hlt
    obtain ⟨f', hf', -⟩ := (Wal.step_later hstep).kept _ _
      (List.getElem?_eq_getElem hlt)
    exact Nat.lt_irrefl _ (List.getElem?_eq_some_iff.mp hf').1
  cases hs with
  | openWith =>
      unfold System.openWith
      split
      · exact Nat.le_refl _
      · split
        · exact Nat.le_refl _
        · split <;> exact Nat.le_refl _
  | setLen | syncAll | syncDir => exact Nat.le_of_eq (List.length_map _).symm
  | create hphase hcreate =>
      obtain ⟨rfl, -⟩ := Disk.create_eq hcreate
      show _ ≤ (_ ++ _ : Disk).length
      rw [List.length_append]
      exact Nat.le_add_right _ _
  | write hphase hwrite =>
      obtain ⟨-, -, rfl, -⟩ := Db.write_cases hwrite
      exact Nat.le_refl _
  | wal hphase hwal =>
      cases hwal with
      | goOn _ _ _ hstep => exact hlater hstep
      | cut _ hstep => exact hlater hstep
      | removed _ hstep => exact hlater hstep
  | drain _ _ hstep => exact hlater hstep
  | closed _ hstep => exact hlater hstep
  | flush | store | openFault | flushFault | removeFault | drop =>
      exact Nat.le_refl _
  | crash => exact absurd rfl (hcrash _)

private theorem named_step (h : c.Tells json cfg t) {s : System}
    (hs : System.Step json cfg c.system e s)
    (hcrash : ∀ removed, e ≠ .crash removed) :
    (c.after e s).named.length ≤ s.log.length := by
  have hkept : c.named.length ≤ s.log.length :=
    Nat.le_trans h.named (length_step hs hcrash)
  have hnames : s.log.names.length ≤ s.log.length :=
    Nat.le_of_eq (List.length_map _)
  cases e with
  | syncDir => exact hnames
  | store n =>
      simp only [after]
      split <;> exact hkept
  | wal a =>
      simp only [after]
      split
      · show List.length (if _ then _ else _) ≤ _
        split
        · exact hnames
        · exact hkept
      · exact hkept
  | _ => exact hkept

/-- A file that has been cut is not what it was until it is synced. The cut
and the sync are two steps of `Wal::open` with nothing in between, so there
is a log from before the cut only in the phase between them. -/
private theorem uncut_step (h : c.Tells json cfg t) {s : System}
    (hs : System.Step json cfg c.system e s)
    (hcrash : ∀ removed, e ≠ .crash removed) (hfault : e ≠ .fault) :
    ∀ disk, (c.after e s).uncut = some disk →
      (∃ o id next, s.phase = .opening o (.syncAll id next))
        ∧ disk.Certain ∧ Rests json (t.next e) s.data disk := by
  have hnone : (∀ o id next, c.system.phase ≠ .opening o (.syncAll id next)) →
      c.uncut = none := by
    intro hphase
    rw [Option.eq_none_iff_forall_ne_some]
    intro disk hdisk
    obtain ⟨⟨o, id, next, hopening⟩, -⟩ := h.uncut disk hdisk
    exact hphase o id next hopening
  have hkept : (c.after e s).uncut = c.uncut → c.uncut = none →
      ∀ disk, (c.after e s).uncut = some disk →
      (∃ o id next, s.phase = .opening o (.syncAll id next))
        ∧ disk.Certain ∧ Rests json (t.next e) s.data disk := by
    intro hsame hno disk hdisk
    rw [hsame, hno] at hdisk
    cases hdisk
  cases hs with
  | @setLen o id offset next hphase =>
      intro disk hdisk
      cases hdisk
      obtain ⟨hcertain, -⟩ := h.logged.of_opening hphase (by simp)
      obtain ⟨g, lnames, done, rest, n, recs, htelling⟩ :=
        h.system.telling hphase
      exact ⟨⟨o, id, next, rfl⟩, hcertain, htelling.rests⟩
  | syncAll hphase =>
      intro disk hdisk
      cases hdisk
  | openWith hphase | create hphase | syncDir hphase | write hphase
  | flush hphase | drop hphase =>
      exact hkept rfl (hnone (by simp [hphase]))
  | wal hphase | store hphase | drain hphase | closed hphase =>
      refine hkept ?_ (hnone (by simp [hphase]))
      simp only [after]
      split <;> rfl
  | openFault | flushFault | removeFault => exact absurd rfl hfault
  | crash => exact absurd rfl (hcrash _)

/-- Any event but a crash. -/
theorem step (hjson : json.Lawful) (h : c.Tells json cfg t)
    (hcrash : ∀ removed, e ≠ .crash removed)
    (hs : Computer.step json cfg (.system e) c = some c') :
    c'.Tells json cfg (t.next e) := by
  obtain ⟨hfault, s, hstep, rfl⟩ := step_system hs
  have hnext := h.system.step hjson hcrash hstep
  have hone := System.Step.of_step hstep
  have hsystem := c.system_after e s
  obtain ⟨hdata, hwritten⟩ := h.stored hone hcrash hfault
  refine ⟨?_, ?_, ?_, ?_, ?_, h.logged_step hone hcrash hfault hnext⟩
  all_goals rw [hsystem]
  · exact hnext
  · exact hdata
  · exact hwritten
  · exact h.named_step hone hcrash
  · exact h.uncut_step hone hcrash hfault

end Tells

/-- What is told of a computer behind a crash: what the files have, and what
a power loss leaves of them. -/
structure Crashed (json : Json) (cfg : WalConfig) (t : Tale) (c : Computer) :
    Prop where
  phase : c.system.phase = .down
  named : c.named.length ≤ c.system.log.length
  rests : ∃ k, t.safe ≤ k ∧ k ≤ t.writes.length
    ∧ Rests json (t.crash k) c.system.data c.system.log
  lost : ∀ loss c', Computer.step json cfg (.powerLoss loss) c = some c' →
    ∃ k, t.upTo c.sure ≤ k ∧ k ≤ t.writes.length
      ∧ c'.Tells json cfg (t.crash k)

/-- A crash: the files stay as they are. -/
theorem Tells.crash (h : c.Tells json cfg t) {removed : List Nat}
    (hs : Computer.step json cfg (.system (.crash removed)) c = some c') :
    c'.Crashed json cfg t := by
  have hlost : ∀ loss c₂,
      Computer.step json cfg (.powerLoss loss) c' = some c₂ →
      ∃ k, t.upTo c.sure ≤ k ∧ k ≤ t.writes.length
        ∧ c₂.Tells json cfg (t.crash k) :=
    fun _ _ hloss => h.crash_powerLoss hs hloss
  obtain ⟨s, hstep, rfl⟩ := Option.map_eq_some_iff.mp hs
  obtain ⟨k, hsafe, hk, hnext⟩ := h.system.crash hstep
  cases System.Step.of_step hstep with
  | @crash removed log hremoved hlog =>
    refine ⟨rfl, ?_, ⟨k, hsafe, hk, hnext.rests rfl⟩, hlost⟩
    have hlength : log.length = c.system.log.length := by
      simpa using congrArg List.length (relinked_unlink_all hlog)
    exact hlength ▸ h.named

/-- Nobody is there to do anything but open them, or to crash. -/
theorem Crashed.step (h : c.Crashed json cfg t)
    (hs : Computer.step json cfg (.system e) c = some c') :
    (∃ max reads, e = .openWith max reads)
      ∨ (∃ removed, e = .crash removed) ∧ c' = c := by
  obtain ⟨hfault, s, hstep, rfl⟩ := step_system hs
  have hphase := h.phase
  cases System.Step.of_step hstep with
  | openWith => exact .inl ⟨_, _, rfl⟩
  | @crash removed log hremoved hlog =>
      rw [hphase] at hremoved
      obtain rfl := List.eq_nil_of_sublist_nil hremoved
      cases hlog
      refine .inr ⟨⟨_, rfl⟩, ?_⟩
      obtain ⟨⟨data, log, phase⟩, entries, synced, named, uncut, sure⟩ := c
      cases hphase
      rfl
  | openFault | flushFault | removeFault => exact absurd rfl hfault
  | setLen hphase' | syncAll hphase' | create hphase' | syncDir hphase'
  | write hphase' | flush hphase' | wal hphase' | store hphase'
  | drop hphase' | drain hphase' | closed hphase' =>
      rw [hphase] at hphase'
      cases hphase'

/-- What is told of a computer. -/
inductive Stands (json : Json) (cfg : WalConfig) (t : Tale) (c : Computer) :
    Prop
  | tells (h : c.Tells json cfg t)
  | crashed (h : c.Crashed json cfg t)

namespace Stands

theorem of {b : Bool} (h : c.Tells json cfg t
    ∨ b = true ∧ c.Crashed json cfg t) : c.Stands json cfg t :=
  h.elim .tells fun hcrashed => .crashed hcrashed.2

/-- Directories that nobody has have some of the writes. -/
theorem rests (h : c.Stands json cfg t) (hphase : c.system.phase = .down) :
    ∃ k, t.safe ≤ k ∧ k ≤ t.writes.length
      ∧ Rests json (t.crash k) c.system.data c.system.log := by
  cases h with
  | tells h => exact (h.system.rests hphase).crash
  | crashed h => exact h.rests

/-- Somebody is about to open them, and all they hold is on disk. -/
theorem opens (h : c.Stands json cfg t) (hdisk : c.OnDisk) {max : Nat}
    {reads : Nat → Nat → Nat}
    (hs : Computer.step json cfg (.system (.openWith max reads)) c
      = some c') :
    ∃ k, t.safe ≤ k ∧ k ≤ t.writes.length ∧ c.Tells json cfg (t.crash k) := by
  obtain ⟨-, s, hstep, -⟩ := step_system hs
  have hphase : c.system.phase = .down := by
    cases System.Step.of_step hstep
    assumption
  have hnamed : c.named.length ≤ c.system.log.length := by
    cases h with
    | tells h => exact h.named
    | crashed h => exact h.named
  obtain ⟨k, hsafe, hk, hrests⟩ := h.rests hphase
  exact ⟨k, hsafe, hk, hdisk.tells hphase hnamed hrests⟩

/-- Whatever else a process does. -/
theorem step (hjson : json.Lawful) (h : c.Stands json cfg t)
    (hcrash : ∀ removed, e ≠ .crash removed)
    (hopen : ∀ max reads, e ≠ .openWith max reads)
    (hs : Computer.step json cfg (.system e) c = some c') :
    c.Tells json cfg t ∧ c'.Tells json cfg (t.next e) := by
  cases h with
  | tells h => exact ⟨h, h.step hjson hcrash hs⟩
  | crashed h =>
      exfalso
      rcases h.step hs with ⟨max, reads, he⟩ | ⟨⟨removed, he⟩, -⟩
      · exact hopen max reads he
      · exact hcrash removed he

theorem crash (h : c.Stands json cfg t) {removed : List Nat}
    (hs : Computer.step json cfg (.system (.crash removed)) c = some c') :
    c'.Crashed json cfg t ∧ c'.sure = c.sure := by
  cases h with
  | tells h =>
      refine ⟨h.crash hs, ?_⟩
      obtain ⟨s, -, rfl⟩ := Option.map_eq_some_iff.mp hs
      rfl
  | crashed h =>
      rcases h.step hs with ⟨max, reads, he⟩ | ⟨-, rfl⟩
      · cases he
      · exact ⟨h, rfl⟩

/-- Of what is written back nothing is lost that is safe. -/
theorem writeBack (h : c.Stands json cfg t)
    (hs : Computer.step json cfg .writeBack c = some c') :
    ∃ k, t.safe ≤ k ∧ k ≤ t.writes.length
      ∧ c'.Tells json cfg (t.crash k) := by
  simp only [Computer.step] at hs
  split at hs
  · rename_i hphase
    cases hs
    obtain ⟨k, hsafe, hk, hrests⟩ := h.rests hphase
    exact ⟨k, hsafe, hk, tells_stored
      (hrests.same c.system.log.writeBack_same)
      c.system.log.certain_writeBack⟩
  · cases hs

theorem powerLoss (h : c.Stands json cfg t) {loss : Loss}
    (hs : Computer.step json cfg (.powerLoss loss) c = some c') :
    ∃ k, t.upTo c.sure ≤ k ∧ k ≤ t.writes.length
      ∧ c'.Tells json cfg (t.crash k) := by
  cases h with
  | tells h => exact h.powerLoss hs
  | crashed h => exact h.lost loss c' hs

/-- An open database has not crashed. -/
theorem up (h : c.Stands json cfg t) (hready : c.system.Ready) :
    c.Tells json cfg t := by
  cases h with
  | tells h => exact h
  | crashed h =>
      obtain ⟨db, hphase, -⟩ := hready
      rw [h.phase] at hphase
      cases hphase

end Stands

end Computer

end Tsdb
