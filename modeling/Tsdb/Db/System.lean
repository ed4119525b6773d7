/-
The database over its files (`db.rs`): opening it, its operations, and the
threads of its log, step by step, in a process that may stop between any
two.

# Granularity

An operation has the lock on the state from its first step to its last, so
that nothing comes between but the flusher and the syncer of the log. A
write is one step up to its flush: all they see of it is the append. A
query changes nothing and is no step (`System.query`). A flush is a step
for each call that may fail or wait: the cut, the calls of the store
(`flushStep`), the removal of the log files. So is `open_with`, behind the
reading of the files.

# Errors

A call that fails ends the operation it is part of, as `?` does: a flush
that the store has refused leaves the database failed, and an error within
`open_with` drops what it has opened. The thread that drops a database
closes the log, and waits for its threads to drain it.

# Crashes

A process may stop at any step. Its files stay as they are, except that
one that stops within `remove_through` may have got to any of the files
it was to remove, which is one event with a choice in place of one event
for each file. Nothing is said here about power losses; the bytes that
are synced and those that are not read the same (`Tsdb.Db.Computer` has
the difference).

# Steps, one by one

`System.step` is the transition function. `Step` and `WalStep` are the
same as relations, with a constructor for each thing that can happen and
what it found and changed; `of_step` says that there are no others.
Invariants of runs are proved by cases on these, and `System.step` is not
unfolded again.
-/
import Tsdb.Db.State
import Tsdb.Wal.Crash

namespace Tsdb

open Lib (HashMap exec)
open Wal (Disk Machine WalConfig WalError)

-- ========================================================= an open database

/-- What a flush or a removal is part of: an operation; `open_with`, which
is to remove the replayed segments up to `last`; or that removal itself. -/
inductive Caller
  | operation
  | opening (last : Nat)
  | opened
deriving DecidableEq, Repr

/-- Where the thread stands that has the lock on the state, if there is
one: in `cut`, in the flush of the store, in `remove_through`. -/
inductive Pc
  | idle
  | cut (who : Caller)
  | flush (who : Caller) (cut : Nat) (job : FlushJob)
  | remove (who : Caller) (through : Nat)
deriving DecidableEq, Repr

/-- `Db`; `calls` counts the flushes and calls that are over. -/
structure Db where
  state : DbState
  wal : Machine
  pc : Pc := .idle
  calls : Nat := 0

/-- Behind a flush or a removal. -/
def Caller.next : Caller → Pc
  | .operation => .idle
  | .opening last => .remove .opened last
  | .opened => .idle

namespace Db

/-- `DbState::flush`, up to the cut. -/
def flush (db : Db) (who : Caller) : Db :=
  { db with pc := if db.state.bufferedSamples = 0 then who.next else .cut who }

/-- `DbState::flush`, behind the flush of the store. -/
def flushed (db : Db) (who : Caller) (cut : Nat) : Db :=
  { db with
    state := { db.state with
      bufferedSamples := 0
      generation := db.state.generation + 1 }
    pc := .remove who cut }

/-- `DbState::flush`, between the cut and the flush of the store; `none` is
a failed `expect`. -/
def startFlush (db : Db) (who : Caller) (cut : Nat) : Option Db :=
  let (table, index) := db.state.index.takeTable (db.state.index.resolve [])
  let db := { db with state := { db.state with index } }
  if table = [] then some (db.flushed who cut)
  else (SegmentStore.segmentOf table index).map fun segment =>
    { db with pc := .flush who cut { segment } }

/-- `Db::write`, up to its flush. -/
def write (cfg : WalConfig) (batch : WriteBatch)
    (result : Except WalError Nat) (log : Disk) (db : Db) :
    Option (Disk × Db) :=
  if db.pc = .idle ∧ db.state.failed = false then
    let p := db.state.prepare batch
    (Wal.step cfg (.append p.record result) (log, db.wal)).map
      fun (log, wal) =>
        match result with
        | .error _ =>
            (log, { db with wal, state := { db.state with index := p.index } })
        | .ok _ =>
            let state := db.state.commit p
            let db := { db with wal, state }
            (log,
              if state.bufferedSamples ≥ state.maxBufferSamples then
                db.flush .operation
              else db)
  else none

/-- Is this a step of the log's own threads, of a waiting caller, or of the
call the database is in? -/
def allows (db : Db) : Wal.Action → Bool
  | .flusher _ => true
  | .syncer _ => true
  | .waitReturn _ => true
  | .cutLock caller =>
      match db.pc with
      | .cut _ => caller == 0
      | _ => false
  | .cutRequest caller =>
      match db.pc with
      | .cut _ => caller == 0
      | _ => false
  | .cutReturn caller _ =>
      match db.pc with
      | .cut _ => caller == 0
      | _ => false
  | .removeBound caller id _ =>
      match db.pc with
      | .remove _ through => caller == db.calls && id == through
      | _ => false
  | .removeList caller _ =>
      match db.pc with
      | .remove _ _ => caller == db.calls
      | _ => false
  | .removeFile caller _ =>
      match db.pc with
      | .remove _ _ => caller == db.calls
      | _ => false
  | .removeReturn caller _ =>
      match db.pc with
      | .remove _ _ => caller == db.calls
      | _ => false
  | _ => false

/-- The database goes on when `cut` or `remove_through` returns. -/
def returned (db : Db) : Wal.Action → Option Db
  | .cutReturn _ closed =>
      match db.pc with
      | .cut who => db.startFlush who closed
      | _ => none
  | .removeReturn _ _ =>
      match db.pc with
      | .remove who _ =>
          some { db with pc := who.next, calls := db.calls + 1 }
      | _ => none
  | _ => some db

/-- A step of the log, while the database is open. -/
def walStep (cfg : WalConfig) (a : Wal.Action) (log : Disk) (db : Db) :
    Option (Disk × Db) :=
  if db.allows a then
    (Wal.step cfg a (log, db.wal)).bind fun (log, wal) =>
      ({ db with wal }.returned a).map fun db => (log, db)
  else none

/-- The steps of the log, one by one. -/
inductive WalStep (cfg : WalConfig) (log : Disk) (db : Db) :
    Wal.Action → Disk → Db → Prop
  | goOn {a : Wal.Action} {log' : Disk} {wal : Machine}
      (hallow : db.allows a = true)
      (hcut : ∀ caller closed, a ≠ .cutReturn caller closed)
      (hremove : ∀ caller removed, a ≠ .removeReturn caller removed)
      (hstep : Wal.step cfg a (log, db.wal) = some (log', wal)) :
      WalStep cfg log db a log' { db with wal }
  | cut {who : Caller} {closed : Nat} {log' : Disk} {wal : Machine} {db' : Db}
      (hpc : db.pc = .cut who)
      (hstep : Wal.step cfg (.cutReturn 0 closed) (log, db.wal)
        = some (log', wal))
      (hstart : { db with wal }.startFlush who closed = some db') :
      WalStep cfg log db (.cutReturn 0 closed) log' db'
  | removed {who : Caller} {through : Nat} {removed : List Nat} {log' : Disk}
      {wal : Machine} (hpc : db.pc = .remove who through)
      (hstep : Wal.step cfg (.removeReturn db.calls removed) (log, db.wal)
        = some (log', wal)) :
      WalStep cfg log db (.removeReturn db.calls removed) log'
        { db with wal, pc := who.next, calls := db.calls + 1 }

/-- There are no others. Only at a return does the database itself go on,
and which it is says where it has been. -/
theorem WalStep.of_step {cfg : WalConfig} {a : Wal.Action}
    {log log' : Disk} {db db' : Db}
    (h : db.walStep cfg a log = some (log', db')) :
    WalStep cfg log db a log' db' := by
  unfold walStep at h
  split at h
  · rename_i hallow
    obtain ⟨⟨log₁, wal⟩, hstep, hreturn⟩ := Option.bind_eq_some_iff.mp h
    obtain ⟨db₁, hdb, heq⟩ := Option.map_eq_some_iff.mp hreturn
    cases heq
    clear h hreturn
    cases a with
    | cutReturn caller closed =>
        unfold returned at hdb
        unfold allows at hallow
        cases hpc : db.pc with
        | cut who =>
            simp only [hpc, beq_iff_eq] at hallow hdb
            subst hallow
            exact .cut hpc hstep hdb
        | idle => simp [hpc] at hallow
        | flush => simp [hpc] at hallow
        | remove => simp [hpc] at hallow
    | removeReturn caller removed =>
        unfold returned at hdb
        unfold allows at hallow
        cases hpc : db.pc with
        | remove who through =>
            simp only [hpc, beq_iff_eq] at hallow hdb
            subst hallow
            cases hdb
            exact .removed hpc hstep
        | idle => simp [hpc] at hallow
        | flush => simp [hpc] at hallow
        | cut => simp [hpc] at hallow
    | _ =>
        cases hdb
        exact .goOn hallow (by simp) (by simp) hstep
  · cases h

/-- A write is refused, and has only taken its label sets in; or it is
accepted, the log has its record, and the buffer its samples, which may be
enough for a flush. -/
theorem write_cases {cfg : WalConfig} {batch : WriteBatch}
    {result : Except WalError Nat} {log log' : Disk} {db db' : Db}
    (h : db.write cfg batch result log = some (log', db')) :
    db.pc = .idle ∧ db.state.failed = false ∧ log' = log
      ∧ ((∃ e, result = .error e
          ∧ (Wal.appendWith cfg db.wal.shared.buffer
              (db.state.prepare batch).record).1 = .error e
          ∧ db' = { db with state :=
              { db.state with index := (db.state.prepare batch).index } })
        ∨ ∃ lsn wal, result = .ok lsn
          ∧ Wal.step cfg (.append (db.state.prepare batch).record (.ok lsn))
              (log, db.wal) = some (log, wal)
          ∧ let state := db.state.commit (db.state.prepare batch)
            db' = { db with wal, state }
              ∨ db' = Db.flush { db with wal, state } .operation) := by
  unfold write at h
  split at h
  · rename_i hready
    obtain ⟨⟨log₁, wal⟩, hstep, heq⟩ := Option.map_eq_some_iff.mp h
    obtain ⟨-, hresult, rfl, hwal⟩ := Wal.step_append hstep
    refine ⟨hready.1, hready.2, ?_⟩
    cases result with
    | error e =>
        cases heq
        refine ⟨rfl, .inl ⟨e, rfl, hresult, ?_⟩⟩
        -- a refused append leaves the buffer as it is
        have hsame : wal = db.wal := by
          rw [hwal]
          rcases Wal.appendWith_cases cfg db.wal.shared.buffer
              (db.state.prepare batch).record
            with ⟨-, hok⟩ | ⟨-, e', herr⟩ | ⟨-, -, -, hok⟩
          · rw [hok] at hresult
            cases hresult
          · rw [herr]
          · rw [hok] at hresult
            cases hresult
        rw [hsame]
    | ok lsn =>
        refine ⟨?_, .inr ⟨lsn, wal, rfl, hstep, ?_⟩⟩
        · simp only [Prod.mk.injEq] at heq
          exact heq.1.symm
        · simp only [Prod.mk.injEq] at heq
          rw [← heq.2]
          split
          · exact .inr rfl
          · exact .inl rfl
  · cases h

theorem failed_startFlush (db : Db) {db' : Db} {who : Caller} {cut : Nat}
    (h : db.startFlush who cut = some db') :
    db'.state.failed = db.state.failed := by
  unfold startFlush at h
  rcases db.state.index.takeTable (db.state.index.resolve [])
    with ⟨table, index⟩
  simp only at h
  split at h
  · cases h
    rfl
  · obtain ⟨segment, -, rfl⟩ := Option.map_eq_some_iff.mp h
    rfl

/-- The log does not fail the database. -/
theorem WalStep.failed {cfg : WalConfig} {a : Wal.Action} {log log' : Disk}
    {db db' : Db} (h : db.WalStep cfg log a log' db') :
    db'.state.failed = db.state.failed := by
  cases h with
  | goOn => rfl
  | @cut who closed log' wal db' _ _ hstart =>
      exact failed_startFlush { db with wal } hstart
  | removed => rfl

/-- A call of the flush of the store; `n` is how much a `write` call
writes. -/
def storeStep (json : Json) (n : Nat) (data : DataDir) (db : Db) :
    Option (DataDir × Db) :=
  match db.pc, db.state.store with
  | .flush who cut job, some store =>
      (store.flushStep json n db.state.index data job).map fun
        | (data, .inl store) =>
            (data, { db with state := { db.state with store } }.flushed who cut)
        | (data, .inr job) => (data, { db with pc := .flush who cut job })
  | _, _ => none

theorem failed_storeStep {json : Json} {n : Nat} {data data' : DataDir}
    {db db' : Db} (h : db.storeStep json n data = some (data', db')) :
    db'.state.failed = db.state.failed := by
  unfold storeStep at h
  split at h
  · obtain ⟨⟨d, r⟩, -, heq⟩ := Option.map_eq_some_iff.mp h
    cases r with
    | inl store =>
        cases heq
        rfl
    | inr job =>
        cases heq
        rfl
  · cases h

/-- A flush of the store writes one segment: what a call hands on to the
next is the segment the flush began with. -/
theorem storeStep_segment {json : Json} {n : Nat} {data data' : DataDir}
    {db db' : Db} {who who' : Caller} {cut cut' : Nat} {job job' : FlushJob}
    (hpc : db.pc = .flush who cut job) (hpc' : db'.pc = .flush who' cut' job')
    (h : db.storeStep json n data = some (data', db')) :
    job'.segment = job.segment := by
  unfold storeStep at h
  rw [hpc] at h
  split at h
  · rename_i store hflush hstore
    cases hflush
    obtain ⟨⟨d, r⟩, hcall, heq⟩ := Option.map_eq_some_iff.mp h
    cases r with
    | inl store =>
        cases heq
        cases hpc'
    | inr next =>
        cases heq
        cases hpc'
        unfold SegmentStore.flushStep at hcall
        simp only at hcall
        split at hcall
        · obtain ⟨payload, -, heq⟩ := Option.map_eq_some_iff.mp hcall
          cases heq
          rfl
        · cases hcall
          rfl
        · split at hcall
          · cases hcall
            rfl
          · cases hcall
            rfl
        · cases hcall
          rfl
        · obtain ⟨bytes, -, heq⟩ := Option.map_eq_some_iff.mp hcall
          cases heq
          rfl
        · obtain ⟨ranges, -, heq⟩ := Option.map_eq_some_iff.mp hcall
          cases heq
  · cases h

end Db

-- ============================================================== the process

/-- What `open_with` has in hand while it opens the log: `last` is
`last_segment` of the recovery. -/
structure Opening where
  store : SegmentStore
  replay : Replay
  maxBufferSamples : Nat
  last : Option Nat

/-- `open_with`, once the log is open. -/
def Opening.open_ (o : Opening) (wal : Machine) : Db :=
  let state : DbState := {
    index := o.replay.index
    store := o.store
    bufferedSamples := o.replay.bufferedSamples
    maxBufferSamples := o.maxBufferSamples }
  let db : Db := { state, wal }
  match o.last with
  | none => db
  | some last => db.flush (.opening last)

inductive Phase
  | down
  | opening (o : Opening) (stage : Wal.Opening)
  | running (db : Db)
  | closing (wal : Machine)

/-- The two directories, and the process that has them. -/
structure System where
  data : DataDir := ∅
  log : Disk := []
  phase : Phase := .down

inductive Event
  | openWith (maxBufferSamples : Nat) (reads : Nat → Nat → Nat)
  | setLen
  | syncAll
  | create
  | syncDir
  | write (batch : WriteBatch) (result : Except WalError Nat)
  | flush
  | wal (a : Wal.Action)
  | store (n : Nat)
  | fault
  | drop
  | crash (removed : List Nat)

/-- The files a call of `remove_through` has not got to. -/
def Phase.toRemove : Phase → List Nat
  | .running db =>
      match db.wal.removing db.calls with
      | .removing _ todo _ => todo
      | _ => []
  | _ => []

/-- Where an error leaves the caller. -/
def Db.fails (db : Db) : Caller → Phase
  | .operation =>
      .running { db with pc := .idle, calls := db.calls + 1 }
  | _ => .closing db.wal

/-- Is this a step of a log that is dropped? -/
def drains : Wal.Action → Bool
  | .flusher _ => true
  | .syncer _ => true
  | .close => true
  | _ => false

namespace System

/-- `open_with`, up to what the replay of the log has left to do. -/
def openWith (json : Json) (maxBufferSamples : Nat)
    (reads : Nat → Nat → Nat) (s : System) : System :=
  if maxBufferSamples = 0 then s
  else
    match SegmentStore.open_ json s.data Index.new with
    | .error _ => s
    | .ok (store, index, latest) =>
        match Wal.replay Replay.sink reads s.log.dir
            { index := index.restore latest } with
        | (.error _, _, _) => s
        | (.ok report, _, replay) =>
            let last := report.lastSegment
            let o : Opening := { store, replay, maxBufferSamples, last }
            { s with phase := .opening o (.next report) }

/-- The transition function. A process that stops in `remove_through` may
have got to any of the files it was to remove. -/
def step (json : Json) (cfg : WalConfig) (e : Event) (s : System) :
    Option System :=
  match e, s.phase with
  | .openWith maxBufferSamples reads, .down =>
      some (s.openWith json maxBufferSamples reads)
  | .setLen, .opening o (.setLen id offset next) =>
      some { s with
        log := s.log.setLen id offset
        phase := .opening o (.syncAll id next) }
  | .syncAll, .opening o (.syncAll id next) =>
      some { s with
        log := s.log.syncAll id
        phase := .opening o (.create next) }
  | .create, .opening o (.create next) =>
      (s.log.create next).map fun log =>
        { s with log, phase := .opening o (.syncDir next s.log.length) }
  | .syncDir, .opening o (.syncDir id file) =>
      some { s with
        log := s.log.syncDir
        phase := .running (o.open_ (.start id file)) }
  | .write batch result, .running db =>
      (db.write cfg batch result s.log).map fun (log, db) =>
        { s with log, phase := .running db }
  | .flush, .running db =>
      if db.pc = .idle ∧ db.state.failed = false then
        some { s with phase := .running (db.flush .operation) }
      else none
  | .wal a, .running db =>
      (db.walStep cfg a s.log).map fun (log, db) =>
        { s with log, phase := .running db }
  | .store n, .running db =>
      (db.storeStep json n s.data).map fun (data, db) =>
        { s with data, phase := .running db }
  | .fault, .opening _ _ => some { s with phase := .down }
  | .fault, .running db =>
      match db.pc with
      | .flush who _ _ =>
          some { s with phase :=
            { db with state := { db.state with failed := true } }.fails who }
      | .remove who _ => some { s with phase := db.fails who }
      | _ => none
  | .drop, .running db =>
      if db.pc = .idle then some { s with phase := .closing db.wal } else none
  | .wal .closeReturn, .closing wal =>
      (Wal.step cfg .closeReturn (s.log, wal)).map fun (log, _) =>
        { s with log, phase := .down }
  | .wal a, .closing wal =>
      if drains a then
        (Wal.step cfg a (s.log, wal)).map fun (log, wal) =>
          { s with log, phase := .closing wal }
      else none
  | .crash removed, _ =>
      if removed.Sublist s.phase.toRemove then
        (removed.foldlM Disk.unlink s.log).map fun log =>
          { s with log, phase := .down }
      else none
  | _, _ => none

/-- The steps, one by one. -/
inductive Step (json : Json) (cfg : WalConfig) (s : System) :
    Event → System → Prop
  | openWith {maxBufferSamples : Nat} {reads : Nat → Nat → Nat}
      (hphase : s.phase = .down) :
      Step json cfg s (.openWith maxBufferSamples reads)
        (s.openWith json maxBufferSamples reads)
  | setLen {o : Opening} {id offset next : Nat}
      (hphase : s.phase = .opening o (.setLen id offset next)) :
      Step json cfg s .setLen { s with
        log := s.log.setLen id offset
        phase := .opening o (.syncAll id next) }
  | syncAll {o : Opening} {id next : Nat}
      (hphase : s.phase = .opening o (.syncAll id next)) :
      Step json cfg s .syncAll { s with
        log := s.log.syncAll id
        phase := .opening o (.create next) }
  | create {o : Opening} {next : Nat} {log : Disk}
      (hphase : s.phase = .opening o (.create next))
      (hcreate : s.log.create next = some log) :
      Step json cfg s .create
        { s with log, phase := .opening o (.syncDir next s.log.length) }
  | syncDir {o : Opening} {id file : Nat}
      (hphase : s.phase = .opening o (.syncDir id file)) :
      Step json cfg s .syncDir { s with
        log := s.log.syncDir
        phase := .running (o.open_ (.start id file)) }
  | write {db db' : Db} {batch : WriteBatch} {result : Except WalError Nat}
      {log : Disk} (hphase : s.phase = .running db)
      (hwrite : db.write cfg batch result s.log = some (log, db')) :
      Step json cfg s (.write batch result)
        { s with log, phase := .running db' }
  | flush {db : Db} (hphase : s.phase = .running db) (hpc : db.pc = .idle)
      (hfailed : db.state.failed = false) :
      Step json cfg s .flush
        { s with phase := .running (db.flush .operation) }
  | wal {db db' : Db} {a : Wal.Action} {log : Disk}
      (hphase : s.phase = .running db)
      (hwal : db.WalStep cfg s.log a log db') :
      Step json cfg s (.wal a) { s with log, phase := .running db' }
  | store {db db' : Db} {n : Nat} {data : DataDir}
      (hphase : s.phase = .running db)
      (hstore : db.storeStep json n s.data = some (data, db')) :
      Step json cfg s (.store n) { s with data, phase := .running db' }
  | openFault {o : Opening} {stage : Wal.Opening}
      (hphase : s.phase = .opening o stage) :
      Step json cfg s .fault { s with phase := .down }
  | flushFault {db : Db} {who : Caller} {cut : Nat} {job : FlushJob}
      (hphase : s.phase = .running db) (hpc : db.pc = .flush who cut job) :
      Step json cfg s .fault { s with phase :=
        { db with state := { db.state with failed := true } }.fails who }
  | removeFault {db : Db} {who : Caller} {through : Nat}
      (hphase : s.phase = .running db) (hpc : db.pc = .remove who through) :
      Step json cfg s .fault { s with phase := db.fails who }
  | drop {db : Db} (hphase : s.phase = .running db) (hpc : db.pc = .idle) :
      Step json cfg s .drop { s with phase := .closing db.wal }
  | drain {wal wal' : Machine} {a : Wal.Action} {log : Disk}
      (hphase : s.phase = .closing wal) (ha : drains a = true)
      (hstep : Wal.step cfg a (s.log, wal) = some (log, wal')) :
      Step json cfg s (.wal a) { s with log, phase := .closing wal' }
  | closed {wal wal' : Machine} {log : Disk}
      (hphase : s.phase = .closing wal)
      (hstep : Wal.step cfg .closeReturn (s.log, wal) = some (log, wal')) :
      Step json cfg s (.wal .closeReturn) { s with log, phase := .down }
  | crash {removed : List Nat} {log : Disk}
      (hremoved : removed.Sublist s.phase.toRemove)
      (hlog : removed.foldlM Disk.unlink s.log = some log) :
      Step json cfg s (.crash removed) { s with log, phase := .down }

/-- There are no others: the transition function goes on in exactly the
phases that the constructors name. -/
theorem Step.of_step {json : Json} {cfg : WalConfig} {e : Event}
    {s s' : System} (h : step json cfg e s = some s') :
    Step json cfg s e s' := by
  unfold step at h
  split at h
  case h_1 hphase => cases h; exact .openWith hphase
  case h_2 hphase => cases h; exact .setLen hphase
  case h_3 hphase => cases h; exact .syncAll hphase
  case h_4 hphase =>
      obtain ⟨log, hcreate, rfl⟩ := Option.map_eq_some_iff.mp h
      exact .create hphase hcreate
  case h_5 hphase => cases h; exact .syncDir hphase
  case h_6 hphase =>
      obtain ⟨⟨log, db⟩, hwrite, rfl⟩ := Option.map_eq_some_iff.mp h
      exact .write hphase hwrite
  case h_7 hphase =>
      split at h
      · rename_i hready
        cases h
        exact .flush hphase hready.1 hready.2
      · cases h
  case h_8 hphase =>
      obtain ⟨⟨log, db⟩, hwal, rfl⟩ := Option.map_eq_some_iff.mp h
      exact .wal hphase (.of_step hwal)
  case h_9 hphase =>
      obtain ⟨⟨data, db⟩, hstore, rfl⟩ := Option.map_eq_some_iff.mp h
      exact .store hphase hstore
  case h_10 hphase => cases h; exact .openFault hphase
  case h_11 hphase =>
      split at h
      · rename_i hpc
        cases h
        exact .flushFault hphase hpc
      · rename_i hpc
        cases h
        exact .removeFault hphase hpc
      · cases h
  case h_12 hphase =>
      split at h
      · rename_i hpc
        cases h
        exact .drop hphase hpc
      · cases h
  case h_13 hphase =>
      obtain ⟨⟨log, wal⟩, hstep, rfl⟩ := Option.map_eq_some_iff.mp h
      exact .closed hphase hstep
  case h_14 hphase =>
      split at h
      · rename_i ha
        obtain ⟨⟨log, wal⟩, hstep, rfl⟩ := Option.map_eq_some_iff.mp h
        exact .drain hphase ha hstep
      · cases h
  case h_15 =>
      split at h
      · rename_i hremoved
        obtain ⟨log, hlog, rfl⟩ := Option.map_eq_some_iff.mp h
        exact .crash hremoved hlog
      · cases h
  case h_16 => cases h

/-- What a query returns; it waits while an operation has the lock. -/
def query (json : Json) (matchers : List Matcher) (range : TimeRange)
    (s : System) : Option (Except DbError (List SeriesResult)) :=
  match s.phase with
  | .running db =>
      if db.pc = .idle then some (db.state.query json s.data matchers range)
      else none
  | _ => none

end System

end Tsdb
