/-
What a flush leaves of the log.

The log of a system is what its files, the batch in hand and the buffer
hold, or, with no process, what a replay of the files finds
(`System.Retains`). Every event adds what it appends and may take files
away, so the log never has more than what it had and what was appended
since, whatever happens: errors, crashes and later openings included
(`System.Keeps`).

# What a flush empties

A flush takes away all of it, if it gets to the cut. It asks the count of
the buffer whether it should, and the log has records that the count does
not know of: those of writes whose samples were all old. So the law that a
flush empties the log has a condition (`flush_empties_iff`).

# How it goes

A call of `flush` is followed from its first step to its return.
`Db.Called` says of each state in between whether the log will be empty at
the end: within the operation it will be, if nothing fails, for it has got
to its cut; in front of it and behind it the log is looked at. The steps
of the flusher leave an empty log empty, and one that is not empty as it
is (`retained_nil_iff`); that the removal leaves nothing is
`Chapter.Tells.emptied`, on the chapter's account of what the cut covers.

# What empty means

`System.Emptied` says it in three ways, and the first gives the others.
The files, the batch and the buffer have no bytes; a crash leaves nothing
that a replay would deliver; and whatever comes later, the log has no
record but those appended from here on, in their order. The last is
`System.Keeps` over the run that follows, with an empty bound, so a record
that was flushed never comes back.

A write that is too old, and a flush behind it, is the run in which the
condition fails (`flush_keeps_stale`).
-/
import Tsdb.Db.Progress
import Tsdb.Db.Session

namespace Tsdb

open Lib (Run exec)
open Wal (Disk Journal Log Machine WalConfig WalError WalRecord retainedBytes)

variable {json : Json} {cfg : WalConfig} {s s' : System}

-- ================================================================ the records

/-- The record of a write reads back as it is. What is read has canonical
label sets and no entry without samples; a write is prepared from label sets
that are canonical, and passes over the series that are empty. -/
theorem DbState.logged_prepare (state : DbState) (batch : WriteBatch) :
    (state.prepare batch).record.logged = (state.prepare batch).record := by
  have hprepared : (∀ e ∈ (state.prepare batch).newSeries, e.labels.Canonical)
      ∧ ∀ e ∈ (state.prepare batch).entries, e.samples ≠ [] := by
    refine List.foldlRecOn (motive := fun p : Prepared =>
        (∀ e ∈ p.newSeries, e.labels.Canonical)
          ∧ ∀ e ∈ p.entries, e.samples ≠ []) batch.series _
      ⟨by simp, by simp⟩ fun p hp b hb => ?_
    obtain ⟨hseries, hentries⟩ := hp
    unfold Prepared.add
    split
    · exact ⟨hseries, hentries⟩
    · rename_i hne
      have hentries' : ∀ e ∈ p.entries ++ [⟨(p.index.encode b.1).1, b.2⟩],
          e.samples ≠ [] := by
        intro e he
        rcases List.mem_append.mp he with he | he
        · exact hentries e he
        · rw [List.mem_singleton.mp he]
          exact hne
      simp only
      split
      · refine ⟨fun e he => ?_, hentries'⟩
        rcases List.mem_append.mp he with he | he
        · exact hseries e he
        · rw [List.mem_singleton.mp he]
          exact batch.canonical b hb
      · exact ⟨hseries, hentries'⟩
  obtain ⟨hseries, hentries⟩ := hprepared
  have hlabels : (state.prepare batch).newSeries.map (fun e =>
      { e with labels := LabelSet.fromLabels e.labels.labels })
      = (state.prepare batch).newSeries := by
    conv_rhs => rw [← List.map_id (state.prepare batch).newSeries]
    refine List.map_congr_left fun e he => ?_
    rw [LabelSet.fromLabels_canonical (hseries e he)]
    rfl
  have hsamples : (state.prepare batch).entries.filter (·.samples ≠ [])
      = (state.prepare batch).entries :=
    List.filter_eq_self.mpr fun e he => by simpa using hentries e he
  unfold Prepared.record WalRecord.logged WalRecord.nonempty
  rw [hlabels, hsamples]

-- ==================================================== the log of a process

/-- An open log with no other records than those of `bound`, in their
order. -/
def Wal.Within (bound : List WalRecord) (disk : Disk) (m : Machine) : Prop :=
  ∃ old actions log hand rest, Journal old actions log hand rest disk m
    ∧ (∀ rec ∈ log.accepted, rec.logged = rec)
    ∧ (log.recs old disk).Sublist bound

namespace Wal.Within

variable {bound : List WalRecord} {disk disk' : Disk} {m m' : Machine}
  {a : Action}

/-- A step adds what it appends. -/
theorem step (h : Within bound disk m)
    (hlogged : ∀ rec ∈ a.accepted, rec.logged = rec)
    (hs : Wal.step cfg a (disk, m) = some (disk', m')) :
    Within (bound ++ a.accepted) disk' m' := by
  obtain ⟨old, actions, log, hand, rest, hjournal, hplain, hsub⟩ := h
  by_cases hfile : ∃ caller id, a = .removeFile caller id
  · obtain ⟨caller, id, rfl⟩ := hfile
    obtain ⟨hjournal', hless⟩ := hjournal.removeFile hs
    refine ⟨old, _, log, hand, rest, hjournal', hplain, ?_⟩
    exact (hless.trans hsub).trans (List.sublist_append_left _ _)
  · obtain ⟨mvs, log', hand', rest', hexec, happ, hjournal', hrecs⟩ :=
      hjournal.step (fun caller id he => hfile ⟨caller, id, he⟩) hs
    refine ⟨old, _, log', hand', rest', hjournal', fun rec hrec => ?_, ?_⟩
    · rw [Log.exec_accepted hexec, happ, List.mem_append] at hrec
      rcases hrec with hrec | hrec
      · exact hplain rec hrec
      · exact hlogged rec hrec
    · rw [hrecs]
      exact hsub.append_right _

/-- A removal has files below the active one to remove. -/
theorem todo_lt (h : Within bound disk m) {caller last : Nat}
    {todo removed : List Nat}
    (hcall : m.removing caller = .removing last todo removed) :
    ∀ id ∈ todo, id < m.shared.activeSegment := by
  obtain ⟨old, actions, log, hand, rest, hjournal, -, -⟩ := h
  obtain ⟨hlt, hle⟩ := hjournal.removal.todo caller last todo removed hcall
  intro id hid
  exact Nat.lt_of_le_of_lt (hle id hid) hlt

/-- A process that stops leaves no more, whatever files it has got to. -/
theorem stops (h : Within bound disk m) {removed : List Nat}
    (hids : ∀ id ∈ removed, id < m.shared.activeSegment)
    (hunlink : removed.foldlM Disk.unlink disk = some disk') :
    ∃ recs, disk'.AtRest recs ∧ recs.Sublist bound := by
  obtain ⟨old, actions, log, hand, rest, hjournal, hplain, hsub⟩ := h
  obtain ⟨hjournal', hless⟩ := hjournal.unlink_all hids hunlink
  obtain ⟨k, -, -, hrest⟩ := hjournal'.crash hplain
  exact ⟨_, hrest, ((List.take_sublist _ _).trans hless).trans hsub⟩

theorem rests (h : Within bound disk m) :
    ∃ recs, disk.AtRest recs ∧ recs.Sublist bound := by
  have hnone : ∀ id ∈ ([] : List Nat), id < m.shared.activeSegment := by simp
  exact h.stops hnone rfl

/-- The bytes of the log are its records. -/
theorem whole (h : Within bound disk m) :
    ∃ recs, Whole (retainedBytes disk m) recs ∧ recs.Sublist bound := by
  obtain ⟨old, actions, log, hand, rest, hjournal, hplain, hsub⟩ := h
  exact ⟨_, hjournal.whole hplain, hsub⟩

/-- A log without bytes has no records. -/
theorem empty (h : Within bound disk m) (hnil : retainedBytes disk m = []) :
    Within [] disk m := by
  obtain ⟨old, actions, log, hand, rest, hjournal, hplain, -⟩ := h
  refine ⟨old, actions, log, hand, rest, hjournal, hplain, ?_⟩
  rw [(hjournal.whole hplain).eq_nil_iff.mp hnil]

/-- A step that appends nothing and takes no file away leaves the log empty
or not, as it was. -/
theorem retained_nil_iff (h : Within bound disk m)
    (hfile : ∀ caller id, a ≠ .removeFile caller id)
    (hacc : a.accepted = [])
    (hs : Wal.step cfg a (disk, m) = some (disk', m')) :
    retainedBytes disk' m' = [] ↔ retainedBytes disk m = [] := by
  obtain ⟨old, actions, log, hand, rest, hjournal, hplain, -⟩ := h
  obtain ⟨mvs, log', hand', rest', hexec, happ, hjournal', hrecs⟩ :=
    hjournal.step hfile hs
  have haccepted := Log.exec_accepted hexec
  rw [happ, hacc, List.append_nil] at haccepted
  rw [hacc, List.append_nil] at hrecs
  have hwhole := hjournal'.whole (haccepted ▸ hplain)
  rw [hwhole.eq_nil_iff, hrecs, (hjournal.whole hplain).eq_nil_iff]

end Wal.Within

-- ===================================================== the log of a system

/-- What an event appends to the log: the record of a write that is
accepted, unless it is empty. -/
def Event.appended (s : System) : Event → List WalRecord
  | .write batch result =>
      match s.phase with
      | .running db => (Wal.Action.append
          (db.state.prepare batch).record result).accepted
      | _ => []
  | _ => []

/-- What a run appends. -/
def System.appended (json : Json) (cfg : WalConfig) :
    List Event → System → List WalRecord
  | [], _ => []
  | e :: events, s => e.appended s ++
      match System.step json cfg e s with
      | some s' => System.appended json cfg events s'
      | none => []

/-- The records of the log: those of its files, the batch in hand and the
buffer; with no process, those a replay of the files finds. -/
def System.Retains (s : System) (recs : List WalRecord) : Prop :=
  match s.phase with
  | .running db => Wal.Whole (retainedBytes s.log db.wal) recs
  | .closing wal => Wal.Whole (retainedBytes s.log wal) recs
  | _ => Wal.Recovers (Wal.list s.log.dir) recs

/-- A system whose log has no other records than those of `bound`. -/
inductive System.Keeps (s : System) (bound : List WalRecord) : Prop
  | down {recs : List WalRecord} (hphase : s.phase = .down)
      (h : s.log.AtRest recs) (hsub : recs.Sublist bound)
  | opening {o : Opening} {stage : Wal.Opening} {recs : List WalRecord}
      (hphase : s.phase = .opening o stage) (h : stage.Holds s.log recs)
      (hsub : recs.Sublist bound)
  | running {db : Db} (hphase : s.phase = .running db)
      (h : Wal.Within bound s.log db.wal)
  | closing {wal : Machine} (hphase : s.phase = .closing wal)
      (h : Wal.Within bound s.log wal)

namespace System.Keeps

variable {bound : List WalRecord} {db : Db} {e : Event}

theorem retains (h : s.Keeps bound) :
    ∃ recs, s.Retains recs ∧ recs.Sublist bound := by
  unfold System.Retains
  cases h with
  | down hphase h hsub =>
      rw [hphase]
      exact ⟨_, h.recovers, hsub⟩
  | opening hphase h hsub =>
      rw [hphase]
      exact ⟨_, h.atRest.recovers, hsub⟩
  | running hphase h =>
      rw [hphase]
      exact h.whole
  | closing hphase h =>
      rw [hphase]
      exact h.whole

theorem within (h : s.Keeps bound) (hphase : s.phase = .running db) :
    Wal.Within bound s.log db.wal := by
  cases h with
  | running hphase' h =>
      rw [hphase] at hphase'
      cases hphase'
      exact h
  | down hphase' | opening hphase' | closing hphase' =>
      rw [hphase] at hphase'
      cases hphase'

private theorem holds (h : s.Keeps bound) {o : Opening} {stage : Wal.Opening}
    (hphase : s.phase = .opening o stage) :
    ∃ recs, stage.Holds s.log recs ∧ recs.Sublist bound := by
  cases h with
  | opening hphase' h hsub =>
      rw [hphase] at hphase'
      cases hphase'
      exact ⟨_, h, hsub⟩
  | down hphase' | running hphase' | closing hphase' =>
      rw [hphase] at hphase'
      cases hphase'

private theorem drains (h : s.Keeps bound) {wal : Machine}
    (hphase : s.phase = .closing wal) : Wal.Within bound s.log wal := by
  cases h with
  | closing hphase' h =>
      rw [hphase] at hphase'
      cases hphase'
      exact h
  | down hphase' | opening hphase' | running hphase' =>
      rw [hphase] at hphase'
      cases hphase'

private theorem rests (h : s.Keeps bound) (hphase : s.phase = .down) :
    ∃ recs, s.log.AtRest recs ∧ recs.Sublist bound := by
  cases h with
  | down _ h hsub => exact ⟨_, h, hsub⟩
  | opening hphase' | running hphase' | closing hphase' =>
      rw [hphase] at hphase'
      cases hphase'

/-- A process that stops leaves the records where they are, or fewer. Fewer
are left only if it stops in a removal. -/
private theorem crash (h : s.Keeps bound) {removed : List Nat} {log : Disk}
    (hremoved : removed.Sublist s.phase.toRemove)
    (hlog : removed.foldlM Disk.unlink s.log = some log) :
    ∃ recs, log.AtRest recs ∧ recs.Sublist bound := by
  have hnone : s.phase.toRemove = [] → log = s.log := by
    intro hnil
    rw [hnil, List.sublist_nil] at hremoved
    subst hremoved
    cases hlog
    rfl
  cases h with
  | down hphase h hsub =>
      rw [hnone (by rw [hphase]; rfl)]
      exact ⟨_, h, hsub⟩
  | opening hphase h hsub =>
      rw [hnone (by rw [hphase]; rfl)]
      exact ⟨_, h.atRest, hsub⟩
  | closing hphase h =>
      rw [hnone (by rw [hphase]; rfl)]
      exact h.rests
  | @running db hphase h =>
      rw [hphase] at hremoved
      refine h.stops (fun id hid => ?_) hlog
      have hin := hremoved.subset hid
      unfold Phase.toRemove at hin
      simp only at hin
      split at hin
      · rename_i bound todo done hcall
        exact h.todo_lt hcall id hin
      · cases hin

/-- A step of the log appends nothing, but for an append. -/
private theorem goOn {disk disk' : Disk} {m m' : Machine} {a : Wal.Action}
    (h : Wal.Within bound disk m) (hacc : a.accepted = [])
    (hs : Wal.step cfg a (disk, m) = some (disk', m')) :
    Wal.Within bound disk' m' := by
  have hstep := h.step (by rw [hacc]; simp) hs
  rwa [hacc, List.append_nil] at hstep

private theorem walStep {log log' : Disk} {db db' : Db} {a : Wal.Action}
    (h : Wal.Within bound log db.wal) (hs : db.WalStep cfg log a log' db') :
    Wal.Within bound log' db'.wal := by
  cases hs with
  | goOn hallow _ _ hstep =>
      refine goOn h ?_ hstep
      cases a with
      | append => cases hallow
      | _ => rfl
  | cut _ hstep hstart =>
      rw [(Db.wal_startFlush hstart).1]
      exact goOn h rfl hstep
  | removed _ hstep => exact goOn h rfl hstep

private theorem fails {who : Caller} (h : Wal.Within bound s.log db.wal) :
    System.Keeps { s with phase := db.fails who } bound := by
  cases who with
  | operation => exact .running rfl h
  | opening last => exact .closing rfl h
  | opened => exact .closing rfl h

private theorem openWith (h : s.Keeps bound) (hphase : s.phase = .down)
    (max : Nat) (reads : Nat → Nat → Nat) :
    (s.openWith json max reads).Keeps bound := by
  obtain ⟨recs, hrest, hsub⟩ := h.rests hphase
  unfold System.openWith
  split
  · exact h
  · split
    · exact h
    · rename_i store index latest hopen
      obtain ⟨report, dir, hreplay, -, hholds⟩ := hrest.replayed Replay.sink
        reads { index := index.restore latest }
      rw [hreplay]
      exact .opening rfl hholds hsub

/-- An accepted write adds its record. -/
private theorem write (h : Wal.Within bound s.log db.wal) {db' : Db}
    {batch : WriteBatch} {result : Except WalError Nat} {log : Disk}
    (hs : db.write cfg batch result s.log = some (log, db')) :
    Wal.Within (bound ++ (Wal.Action.append
      (db.state.prepare batch).record result).accepted) log db'.wal := by
  obtain ⟨-, -, rfl, ⟨e, rfl, -, rfl⟩ | ⟨lsn, wal, rfl, hstep, hdb⟩⟩ :=
    Db.write_cases hs
  · rw [show (Wal.Action.append _ _).accepted = [] from rfl, List.append_nil]
    exact h
  · have hlogged : ∀ rec ∈ (Wal.Action.append
        (db.state.prepare batch).record (.ok lsn)).accepted,
        rec.logged = rec := by
      intro rec hrec
      simp only [Wal.Action.accepted] at hrec
      split at hrec
      · cases hrec
      · rw [List.mem_singleton.mp hrec]
        exact db.state.logged_prepare batch
    have hwithin := h.step hlogged hstep
    rcases hdb with rfl | rfl
    · exact hwithin
    · exact hwithin

/-- Every event adds what it appends. All but a write append nothing, and of
what is in the files, in hand and in the buffer they move some or take some
away, from the front. -/
theorem step (h : s.Keeps bound) (hs : System.step json cfg e s = some s') :
    s'.Keeps (bound ++ e.appended s) := by
  have hsame : e.appended s = [] → s'.Keeps bound →
      s'.Keeps (bound ++ e.appended s) := by
    intro hnil h'
    rwa [hnil, List.append_nil]
  cases System.Step.of_step hs with
  | openWith hphase => exact hsame rfl (h.openWith hphase _ _)
  | setLen hphase =>
      obtain ⟨recs, hholds, hsub⟩ := h.holds hphase
      exact hsame rfl (.opening rfl hholds.setLen hsub)
  | syncAll hphase =>
      obtain ⟨recs, hholds, hsub⟩ := h.holds hphase
      exact hsame rfl (.opening rfl hholds.syncAll hsub)
  | create hphase hcreate =>
      obtain ⟨recs, hholds, hsub⟩ := h.holds hphase
      obtain ⟨hlog, hholds'⟩ := hholds.create
      rw [hlog] at hcreate
      cases hcreate
      exact hsame rfl (.opening rfl hholds' hsub)
  | @syncDir o id file hphase =>
      obtain ⟨recs, hholds, hsub⟩ := h.holds hphase
      obtain ⟨old, hjournal, hrecs⟩ := hholds.syncDir
      refine hsame rfl (.running rfl ?_)
      have hwal : (o.open_ (.start id file)).wal = .start id file := by
        unfold Opening.open_
        cases o.last <;> rfl
      rw [hwal]
      exact ⟨old, [], _, [], [], hjournal, by simp [Log.accepted, Log.flushed],
        hrecs ▸ hsub⟩
  | write hphase hwrite =>
      unfold Event.appended
      simp only [hphase]
      exact .running rfl (write (h.within hphase) hwrite)
  | flush hphase =>
      have hwithin := h.within hphase
      exact hsame rfl (.running rfl hwithin)
  | wal hphase hwal =>
      exact hsame rfl (.running rfl (walStep (h.within hphase) hwal))
  | store hphase hstore =>
      refine hsame rfl (.running rfl ?_)
      rw [(Db.wal_storeStep hstore).1]
      exact h.within hphase
  | openFault hphase =>
      obtain ⟨recs, hholds, hsub⟩ := h.holds hphase
      exact hsame rfl (.down rfl hholds.atRest hsub)
  | flushFault hphase =>
      have hwithin := h.within hphase
      exact hsame rfl (fails hwithin)
  | removeFault hphase => exact hsame rfl (fails (h.within hphase))
  | drop hphase => exact hsame rfl (.closing rfl (h.within hphase))
  | @drain _ _ a _ hphase ha hstep =>
      refine hsame rfl (.closing rfl (goOn (h.drains hphase) ?_ hstep))
      cases a with
      | append => cases ha
      | _ => rfl
  | closed hphase hstep =>
      have hwithin := goOn (h.drains hphase) rfl hstep
      obtain ⟨recs, hrest, hsub⟩ := hwithin.rests
      exact hsame rfl (.down rfl hrest hsub)
  | crash hremoved hlog =>
      obtain ⟨recs, hrest, hsub⟩ := h.crash hremoved hlog
      exact hsame rfl (.down rfl hrest hsub)

/-- So does every run. -/
theorem exec {events : List Event} (h : s.Keeps bound)
    (hrun : Lib.exec (System.step json cfg) events s = some s') :
    s'.Keeps (bound ++ System.appended json cfg events s) := by
  induction events generalizing s bound with
  | nil =>
      cases hrun
      rw [System.appended, List.append_nil]
      exact h
  | cons e events ih =>
      obtain ⟨s₁, hs, hrest⟩ := Option.bind_eq_some_iff.mp hrun
      have hlater := ih (h.step hs) hrest
      rw [List.append_assoc] at hlater
      rw [System.appended, hs]
      exact hlater

end System.Keeps

/-- Empty directories have an empty log. -/
theorem System.keeps_empty : System.Keeps {} [] :=
  .down rfl ⟨List.Pairwise.nil, by
    show Wal.Recovers (Wal.list []) []
    unfold Wal.list
    rw [List.mergeSort_nil]
    exact .none⟩ (.refl _)

-- ================================================================ a flush

/-- Behind a removal that has gone through, the log is empty. -/
theorem Chapter.Tells.emptied {t : Tale} {data : DataDir} {disk disk' : Disk}
    {db : Db} {c : Chapter} {m' : Machine} (h : c.Tells json t data disk db)
    {who : Caller} {through : Nat} {removed : List Nat}
    (hpc : db.pc = .remove who through)
    (hs : Wal.step cfg (.removeReturn db.calls removed) (disk, db.wal)
      = some (disk', m')) :
    retainedBytes disk' m' = [] := by
  obtain ⟨mvs, log', hand', rest', hexec, happ, hjournal, -⟩ :=
    h.journal.step (by simp) hs
  have happ : Log.appended mvs = [] := happ
  have hwhole := hjournal.whole (h.noted.moves hexec happ).plain
  exact hwhole.eq_nil_iff.mpr (h.gone hpc hs hexec happ hjournal)

/-- Within a call of `flush`: `fill` says whether the log is empty when it
returns. -/
structure Db.Called (fill : Prop) (log : Disk) (db : Db) : Prop where
  busy : db.pc ≠ .idle → fill
  idle : db.pc = .idle → (retainedBytes log db.wal = [] ↔ fill)

namespace Db.Called

variable {fill : Prop} {log log' : Disk} {db db' : Db}

/-- With nothing in the buffer a flush leaves the log as it is; or else it
gets to the cut. -/
theorem flush (log : Disk) (db : Db) :
    Db.Called (db.state.bufferedSamples ≠ 0 ∨ retainedBytes log db.wal = [])
      log (db.flush .operation) := by
  unfold Db.flush
  by_cases hnone : db.state.bufferedSamples = 0
  · rw [if_pos hnone]
    exact ⟨fun hbusy => absurd rfl hbusy, fun _ => by simp [hnone]⟩
  · rw [if_neg hnone]
    exact ⟨fun _ => .inl hnone, fun hidle => by cases hidle⟩

/-- A step of the log within a call of `flush`. The flag says whether the
log is empty when the call returns; where the cut returns and no sample is
in memory, the store has nothing to write, and the removal is next. -/
theorem walStep (h : db.Called fill log) {bound : List WalRecord}
    (hwithin : Wal.Within bound log db.wal) {t : Tale} {data : DataDir}
    {c : Chapter} (hc : c.Tells json t data log db) {a : Wal.Action}
    (hs : db.WalStep cfg log a log' db') : db'.Called fill log' := by
  cases hs with
  | goOn hallow _ _ hstep =>
      refine ⟨h.busy, fun hpc => ?_⟩
      rw [← h.idle hpc]
      refine hwithin.retained_nil_iff (fun caller id he => ?_) ?_ hstep
      · subst he
        obtain ⟨-, who, through, hremove⟩ := Db.Calls.allows_removeFile hallow
        rw [hremove] at hpc
        cases hpc
      · cases a with
        | append => cases hallow
        | _ => rfl
  | @cut who closed _ wal _ hpc _ hstart =>
      -- the store has a segment to write, or the removal is next
      have hfill : fill := h.busy (by rw [hpc]; simp)
      refine ⟨fun _ => hfill, fun hidle => ?_⟩
      unfold Db.startFlush at hstart
      rcases db.state.index.takeTable (db.state.index.resolve [])
        with ⟨table, index⟩
      simp only at hstart
      split at hstart
      · cases hstart
        cases hidle
      · obtain ⟨seg, -, rfl⟩ := Option.map_eq_some_iff.mp hstart
        cases hidle
  | removed hpc hstep =>
      have hfill : fill := h.busy (by rw [hpc]; simp)
      exact ⟨fun _ => hfill, fun _ => iff_of_true (hc.emptied hpc hstep) hfill⟩

theorem storeStep (h : db.Called fill log) {n : Nat} {data data' : DataDir}
    (hs : db.storeStep json n data = some (data', db')) :
    db'.Called fill log := by
  unfold Db.storeStep at hs
  split at hs
  · rename_i who cut job store hpc _
    have hfill : fill := h.busy (by rw [hpc]; simp)
    refine ⟨fun _ => hfill, fun hidle => ?_⟩
    obtain ⟨⟨data₁, r⟩, -, heq⟩ := Option.map_eq_some_iff.mp hs
    cases r with
    | inl store' =>
        cases heq
        cases hidle
    | inr job' =>
        cases heq
        cases hidle
  · cases hs

end Db.Called

/-- A call of `flush` that makes no error, up to any of its steps. The
induction is on the steps taken; none of them is a write, and a fault is
excluded, so each is one of the log or one of the store. -/
theorem System.called (hjson : json.Lawful) {events mid : List Event}
    {db : Db} (hrun : exec (System.step json cfg) events {} = some s)
    (hphase : s.phase = .running db)
    (hcall : exec (System.step json cfg) (.flush :: mid) s = some s')
    (hmid : ∀ e ∈ mid, e.goesOn = true) :
    ∃ db', s'.phase = .running db' ∧ db'.state.failed = false
      ∧ db'.Called (db.state.bufferedSamples ≠ 0
        ∨ retainedBytes s.log db.wal = []) s'.log := by
  induction mid using List.reverseRecOn generalizing s' with
  | nil =>
      obtain ⟨s₁, hs, hnil⟩ := Option.bind_eq_some_iff.mp hcall
      cases hnil
      cases System.Step.of_step hs with
      | flush hphase' _ hfailed =>
          rw [hphase] at hphase'
          cases hphase'
          exact ⟨_, rfl, hfailed, .flush s.log db⟩
  | append_singleton mid e ih =>
      rw [← List.cons_append] at hcall
      obtain ⟨s₁, hbefore, hlast⟩ := Lib.exec_split hcall
      obtain ⟨s₂, hs, hnil⟩ := Option.bind_eq_some_iff.mp hlast
      cases hnil
      obtain ⟨db₁, hphase₁, hfailed, hcalled⟩ :=
        ih hbefore fun e he => hmid e (List.mem_append_left _ he)
      have hall := Lib.exec_append hrun hbefore
      obtain ⟨t, -, htells⟩ := System.tells hjson hall
      obtain ⟨c, hc⟩ := htells.works hphase₁ hfailed
      have hwithin := (System.keeps_empty.exec hall).within hphase₁
      have he := hmid e (List.mem_append_right _ List.mem_cons_self)
      cases System.Step.of_step hs with
      | wal hphase' hwal =>
          rw [hphase₁] at hphase'
          cases hphase'
          exact ⟨_, rfl, hwal.failed.trans hfailed,
            hcalled.walStep hwithin hc hwal⟩
      | store hphase' hstore =>
          rw [hphase₁] at hphase'
          cases hphase'
          exact ⟨_, rfl, (Db.failed_storeStep hstore).trans hfailed,
            hcalled.storeStep hstore⟩
      | setLen hphase' | syncAll hphase' | create hphase' | syncDir hphase' =>
          rw [hphase₁] at hphase'
          cases hphase'
      | drain hphase' | closed hphase' =>
          rw [hphase₁] at hphase'
          cases hphase'
      | _ => cases he

-- ============================================================== a stale write

/-- A write behind the flush that is too old for its series, up to where its
record is in its file. -/
def writeStale : List Event :=
  .write (writeAt 3) (.ok 140) :: List.replicate 8 (.wal (.flusher 70))

/-- The count of the buffer is one, and behind the flush the log is
empty. -/
private theorem flush_seen :
    ∃ s s', exec (System.step Json.sample ⟨100, 0⟩)
        (openEmpty 2 ++ [.write (writeAt 5) (.ok 70)]) {} = some s
      ∧ exec (System.step Json.sample ⟨100, 0⟩) (.flush :: flushCall) s
        = some s'
      ∧ s.glance = some (.idle, false, 1, [0])
      ∧ s'.glance = some (.idle, false, 0, [0]) := by
  have hsees : ((exec (System.play Json.sample ⟨100, 0⟩)
      [.write (writeAt 5) (.ok 70)] (.opened 2)).bind fun s =>
        (exec (System.play Json.sample ⟨100, 0⟩) (.flush :: flushCall) s).map
          fun s' => s.glance == some (.idle, false, 1, [0])
            && s'.glance == some (.idle, false, 0, [0])) = some true := by
    decide +kernel
  obtain ⟨s, hwrite, hflush⟩ := Option.bind_eq_some_iff.mp hsees
  obtain ⟨s', hflush, hseen⟩ := Option.map_eq_some_iff.mp hflush
  simp only [Bool.and_eq_true, beq_iff_eq] at hseen
  exact ⟨s, s', System.exec_opened Nat.zero_lt_two hwrite,
    System.exec_of_play hflush, hseen.1, hseen.2⟩

/-- The record of a stale write stays when the flush returns. -/
private theorem stale_seen :
    ∃ s, exec (System.step Json.sample ⟨100, 0⟩) (openEmpty 2
        ++ .write (writeAt 5) (.ok 70) :: .flush :: flushCall ++ writeStale) {}
        = some s
      ∧ s.glance = some (.idle, false, 0, [70]) := by
  have hsees : (exec (System.play Json.sample ⟨100, 0⟩)
      (.write (writeAt 5) (.ok 70) :: .flush :: flushCall ++ writeStale)
      (.opened 2)).bind System.glance = some (.idle, false, 0, [70]) := by
    decide +kernel
  obtain ⟨s, hrun, hseen⟩ := Option.bind_eq_some_iff.mp hsees
  exact ⟨s, System.exec_opened Nat.zero_lt_two hrun, hseen⟩

-- ========================================================== an empty log

/-- The log has no record, a crash leaves none to replay, and whatever comes
it has no more than what is appended from here on. -/
structure System.Emptied (json : Json) (cfg : WalConfig) (s : System)
    (db : Db) : Prop where
  files : ∀ f ∈ s.log.dir, f.bytes = []
  hand : db.wal.hand = []
  buffer : db.wal.shared.buffer.buf = []
  crash : ∀ removed s', System.step json cfg (.crash removed) s = some s' →
    ∀ reads replay, ∃ report dir,
      Wal.replay Replay.sink reads s'.log.dir replay
        = (.ok report, dir, replay) ∧ report.records = 0
  later : ∀ later s', exec (System.step json cfg) later s = some s' →
    ∃ recs, s'.Retains recs
      ∧ recs.Sublist (System.appended json cfg later s)

namespace System.Emptied

variable {db : Db}

theorem retained_nil (h : s.Emptied json cfg db) :
    retainedBytes s.log db.wal = [] := by
  unfold retainedBytes
  rw [h.hand, h.buffer, List.append_nil, List.append_nil,
    List.flatMap_eq_nil_iff]
  exact fun f hf => h.files f ((Wal.list_perm _).subset hf)

/-- Without bytes there is no record, and there were none to come. -/
theorem of_nil {bound : List WalRecord} (h : s.Keeps bound)
    (hphase : s.phase = .running db)
    (hnil : retainedBytes s.log db.wal = []) : s.Emptied json cfg db := by
  have hkeeps : s.Keeps [] := .running hphase ((h.within hphase).empty hnil)
  unfold retainedBytes at hnil
  rw [List.append_eq_nil_iff, List.append_eq_nil_iff,
    List.flatMap_eq_nil_iff] at hnil
  obtain ⟨⟨hfiles, hhand⟩, hbuffer⟩ := hnil
  refine ⟨fun f hf => hfiles f ((Wal.list_perm _).symm.subset hf), hhand,
    hbuffer, fun removed s' hs reads replay => ?_, fun later s' hlater => ?_⟩
  · cases System.Step.of_step hs with
    | crash hremoved hlog =>
        obtain ⟨recs, hrest, hsub⟩ := hkeeps.crash hremoved hlog
        rw [List.sublist_nil] at hsub
        subst hsub
        exact ⟨_, _, Wal.replay_ok Replay.sink reads hrest.nodup
          hrest.recovers replay, rfl⟩
  · exact (hkeeps.exec hlater).retains

end System.Emptied

/-- In every run, a flush that returns without an error has emptied the log
exactly if there were samples in the buffer when it was called, or no
records in the log. -/
theorem flush_empties_iff (hjson : json.Lawful) {events mid : List Event}
    {db db' : Db} (hrun : exec (System.step json cfg) events {} = some s)
    (hphase : s.phase = .running db)
    (hcall : exec (System.step json cfg) (.flush :: mid) s = some s')
    (hmid : ∀ e ∈ mid, e.goesOn = true) (hphase' : s'.phase = .running db')
    (hpc : db'.pc = .idle) :
    s'.Emptied json cfg db' ↔ db.state.bufferedSamples ≠ 0
      ∨ retainedBytes s.log db.wal = [] := by
  obtain ⟨db₁, hphase₁, -, hcalled⟩ :=
    System.called hjson hrun hphase hcall hmid
  rw [hphase'] at hphase₁
  cases hphase₁
  rw [← hcalled.idle hpc]
  constructor
  · exact System.Emptied.retained_nil
  · exact System.Emptied.of_nil
      (System.keeps_empty.exec (Lib.exec_append hrun hcall)) hphase'

/-- With the flush of one sample, which gets to the cut. -/
theorem flush_empties_iff_once :
    ∃ (cfg : WalConfig) (s s' : System) (db db' : Db),
      exec (System.step Json.sample cfg)
        (openEmpty 2 ++ [.write (writeAt 5) (.ok 70)]) {} = some s
      ∧ s.phase = .running db ∧ db.state.bufferedSamples = 1
      ∧ exec (System.step Json.sample cfg) (.flush :: flushCall) s = some s'
      ∧ s'.phase = .running db'
      ∧ (s'.Emptied Json.sample cfg db' ↔ db.state.bufferedSamples ≠ 0
        ∨ retainedBytes s.log db.wal = []) := by
  obtain ⟨s, s', hrun, hcall, hseen, hseen'⟩ := flush_seen
  obtain ⟨db, hphase, -, -, hcount, -⟩ := System.glance_running hseen
  obtain ⟨db', hphase', hpc, -, -, -⟩ := System.glance_running hseen'
  exact ⟨_, s, s', db, db', hrun, hphase, hcount, hcall, hphase',
    flush_empties_iff Json.sample_lawful hrun hphase hcall (by decide) hphase'
      hpc⟩

/-- A flush that empties nothing, behind a write that is too old: it returns,
and the record is in its file. -/
theorem flush_keeps_stale :
    ∃ (cfg : WalConfig) (s s' : System) (db db' : Db), Json.sample.Lawful
      ∧ exec (System.step Json.sample cfg) (openEmpty 2
          ++ .write (writeAt 5) (.ok 70) :: .flush :: flushCall
          ++ writeStale) {} = some s
      ∧ s.phase = .running db
      ∧ exec (System.step Json.sample cfg) [.flush] s = some s'
      ∧ s'.phase = .running db' ∧ db'.pc = .idle
      ∧ ¬ s'.Emptied Json.sample cfg db' := by
  obtain ⟨s, hrun, hseen⟩ := stale_seen
  obtain ⟨db, hphase, hpc, hfailed, hcount, hsizes⟩ :=
    System.glance_running hseen
  have hs : System.step Json.sample ⟨100, 0⟩ .flush s
      = some { s with phase := .running (db.flush .operation) } := by
    simp only [System.step, hphase, hpc, hfailed, and_self, if_true]
  refine ⟨_, s, _, db, _, Json.sample_lawful, hrun, hphase,
    by rw [exec, hs]; rfl, rfl, if_pos hcount, fun hemptied => ?_⟩
  obtain ⟨f, hf, hsize⟩ : ∃ f ∈ s.log.dir, f.bytes.length = 70 :=
    List.mem_map.mp (hsizes ▸ List.mem_cons_self)
  have hnil : f.bytes = [] := hemptied.files f hf
  rw [hnil] at hsize
  cases hsize

end Tsdb
