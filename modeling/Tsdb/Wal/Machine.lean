/-
The running log (`storage/wal/buffer.rs`, `lsn.rs`, `flusher.rs`,
`writer.rs`, `segment.rs` and `mod.rs`): writers, the flusher, the
syncer, cut requests and removals over one directory, as a transition
function.

# Granularity

A step is what happens under one lock, one atomic access or one system
call; between two steps of a thread anything else may happen. Waiting
(`park_timeout`, the commit delay and the waiters it looks at, the
condition variable) decides when a step is taken, not what it does, and
every step may be taken at any time it is enabled, so it is left out.
`Tsdb.Wal.Threads` has the waiting, and shows that it takes nothing away.

A `write_all` is a number of `write` calls of any size. An I/O error in
the flusher or the syncer aborts the process; a state with no step of its
own models no more than a crash there does.

# The parts

The flusher and the syncer each have a program counter, with what they
hold between two steps in its arguments. A caller of `append` needs none,
since the whole of an append happens under the buffer's lock. A caller of
`cut` and one of `remove_through` have one each, by the number of the
caller; any number of them may be under way.

`FlusherStep` lists the flusher's transitions one by one, each with what
it found and what it changed, and `FlusherStep.of_step` says that there
are no others. Invariants that the flusher keeps are proved by cases on
it. For all other steps `step_keeps` says once what they leave alone
(`Keeps`): the flusher's locals, the files' bytes, the LSNs. Most
invariants need no more than that, and so do not see appends, syncs,
requests and removals apart.
-/
import Tsdb.Wal.Disk

namespace Tsdb.Wal

open Lib (Bytes)

-- ======================================================== buffer and LSNs

structure Inner where
  buf : Bytes := []
  end_ : Nat := 0
  closed : Bool := false
deriving DecidableEq, Repr

structure Appended where
  lsn : Nat
  crossedThreshold : Bool
deriving DecidableEq, Repr

structure WalConfig where
  segmentMaxBytes : Nat
  flushThreshold : Nat

namespace Inner

/-- `WalBuffer::append`. -/
def append (g : Inner) (cfg : WalConfig) (record : Bytes) :
    Except WalError Appended × Inner :=
  if g.closed then (.error .closed, g)
  else
    let before := g.buf.length
    let g := { g with
      buf := g.buf ++ record
      end_ := g.end_ + record.length }
    (.ok {
      lsn := g.end_
      crossedThreshold := before < cfg.flushThreshold
        && g.buf.length ≥ cfg.flushThreshold }, g)

/-- `WalBuffer::take`: swap the vectors unless there is nothing to
take. -/
def take (g : Inner) (spare : Bytes) : Option Nat × Inner × Bytes :=
  if g.buf = [] then (none, g, spare)
  else (some g.end_, { g with buf := spare }, g.buf)

end Inner

/-- `advance` of `lsn.rs`. -/
def advance (cur lsn : Nat) : Nat := if lsn > cur then lsn else cur

/-- `WalWriter::append_with`, as `append` uses it. -/
def appendWith (cfg : WalConfig) (g : Inner) (rec : WalRecord) :
    Except WalError Nat × Inner :=
  let (empty, payloadLen, buf) := encode rec
  if empty then (.ok g.end_, g)
  else if payloadLen > maxRecordBytes then
    (.error (.recordTooLarge payloadLen), g)
  else
    let (result, g) := g.append cfg buf
    (result.map Appended.lsn, g)

/-- An append logs nothing, is refused, or adds the record. -/
theorem appendWith_cases (cfg : WalConfig) (g : Inner) (rec : WalRecord) :
    (rec.isEmpty = true ∧ appendWith cfg g rec = (.ok g.end_, g))
    ∨ (rec.isEmpty = false ∧ ∃ e, appendWith cfg g rec = (.error e, g))
    ∨ (rec.isEmpty = false ∧ (payloadBytes rec).length ≤ maxRecordBytes
        ∧ g.closed = false
        ∧ appendWith cfg g rec
          = (.ok (g.end_ + (recordBytes rec).length),
            { g with
              buf := g.buf ++ recordBytes rec
              end_ := g.end_ + (recordBytes rec).length })) := by
  simp only [appendWith, encode_eq, Inner.append]
  cases hempty : rec.isEmpty with
  | true => exact Or.inl ⟨rfl, by rw [if_pos rfl]⟩
  | false =>
      refine Or.inr ?_
      rw [if_neg (by simp)]
      by_cases hbig : (payloadBytes rec).length > maxRecordBytes
      · exact Or.inl ⟨rfl, _, by rw [if_pos hbig]⟩
      · rw [if_neg hbig]
        cases hclosed : g.closed with
        | true => exact Or.inl ⟨rfl, .closed, by simp [Except.map]⟩
        | false => exact Or.inr ⟨rfl, by omega, rfl, by simp [Except.map]⟩

-- =========================================================== the threads

structure CutState where
  requested : Bool := false
  closed : Option Nat := none
deriving DecidableEq, Repr

/-- The caller inside `Cut::request`: it has the `serial` lock, and it has
or has not made its request. -/
structure Cutting where
  caller : Nat
  requested : Bool
deriving DecidableEq, Repr

structure Shared where
  buffer : Inner := {}
  written : Nat := 0
  syncFile : Nat
  activeSegment : Nat
  cut : CutState := {}
  serial : Option Cutting := none
deriving DecidableEq, Repr

structure ActiveSegment where
  id : Nat
  file : Nat
  written : Nat := 0
deriving DecidableEq, Repr

/-- What `rotate` was called for: `write_batch` or a cut. -/
inductive RotateFor
  | batch (end_ : Nat)
  | cut
deriving DecidableEq, Repr

/-- Where the flusher stands inside `rotate`: about to sync the old file,
to create the new one, to sync the directory, to publish the file, to
publish the id. -/
inductive RotateStage
  | sync
  | create
  | syncDir (file : Nat)
  | setFile (closed : Nat)
  | store (closed : Nat)
deriving DecidableEq, Repr

/-- Where the flusher stands in `flush_loop`, and its locals. -/
inductive FlusherPc
  | top
  | sampleCut (closing : Bool)
  | take (closing cutting : Bool)
  | batch (end_ : Nat)
  | rotate (stage : RotateStage) (why : RotateFor)
  | write (end_ done : Nat)
  | publish (end_ : Nat)
  | clear
  | finish (closed : Nat)
  | finalSync
  | exited
deriving DecidableEq, Repr

/-- Where the syncer stands in `sync_loop`. -/
inductive SyncerPc
  | top (last : Nat)
  | parked (last : Nat)
  | fetch (w : Nat)
  | sync (w file : Nat)
  | exited
deriving DecidableEq, Repr

/-- Where a caller stands in `remove_through`: it knows the bound, or it
knows the files to remove. -/
inductive RemovePc
  | idle
  | bounded (bound : Nat)
  | removing (bound : Nat) (todo removed : List Nat)
deriving DecidableEq, Repr

structure Machine where
  shared : Shared
  seg : ActiveSegment
  spare : Bytes := []
  pc : FlusherPc := .top
  syncer : SyncerPc := .top 0
  removing : Nat → RemovePc := fun _ => .idle

/-- The log as `Wal::open` leaves it, with the segment it created. -/
def Machine.start (id file : Nat) : Machine where
  shared := { syncFile := file, activeSegment := id }
  seg := { id, file }

-- =========================================================== the flusher

/-- Behind `rotate`. -/
def RotateFor.resume (closed : Nat) : RotateFor → FlusherPc
  | .batch end_ => .write end_ 0
  | .cut => .finish closed

/-- A step of `rotate`. -/
def rotateStep (disk : Disk) (m : Machine) (why : RotateFor) :
    RotateStage → Option (Disk × Machine)
  | .sync =>
      some (disk.sync m.seg.file, { m with pc := .rotate .create why })
  | .create =>
      (disk.create (m.seg.id + 1)).map fun disk' =>
        (disk', { m with pc := .rotate (.syncDir disk.length) why })
  | .syncDir file =>
      some (disk.syncDir, { m with
        seg := { id := m.seg.id + 1, file }
        pc := .rotate (.setFile m.seg.id) why })
  | .setFile closed =>
      some (disk, { m with
        shared := { m.shared with syncFile := m.seg.file }
        pc := .rotate (.store closed) why })
  | .store closed =>
      some (disk, { m with
        shared := { m.shared with activeSegment := closed + 1 }
        pc := why.resume closed })

/-- A step of `flush_loop`; `n` is how much a `write` call writes. -/
def flusherStep (cfg : WalConfig) (n : Nat) (disk : Disk) (m : Machine) :
    Option (Disk × Machine) :=
  match m.pc with
  | .top => some (disk, { m with pc := .sampleCut m.shared.buffer.closed })
  | .sampleCut closing =>
      some (disk, { m with pc := .take closing m.shared.cut.requested })
  | .take closing cutting =>
      let (end_, buffer, spare) := m.shared.buffer.take m.spare
      let m := { m with shared := { m.shared with buffer }, spare }
      match end_ with
      | some end_ => some (disk, { m with pc := .batch end_ })
      | none =>
          if cutting then some (disk, { m with pc := .rotate .sync .cut })
          else if closing then some (disk, { m with pc := .finalSync })
          else some (disk, { m with pc := .top })
  | .batch end_ =>
      if m.seg.written ≥ cfg.segmentMaxBytes then
        some (disk, { m with pc := .rotate .sync (.batch end_) })
      else some (disk, { m with pc := .write end_ 0 })
  | .rotate stage why => rotateStep disk m why stage
  | .write end_ done =>
      if done < m.spare.length then
        let chunk := (m.spare.drop done).take (max n 1)
        some (disk.write m.seg.file (m.seg.written + done) chunk,
          { m with pc := .write end_ (done + chunk.length) })
      else
        some (disk, { m with
          seg := { m.seg with written := m.seg.written + m.spare.length }
          pc := .publish end_ })
  | .publish end_ =>
      some (disk, { m with
        shared := { m.shared with written := advance m.shared.written end_ }
        pc := .clear })
  | .clear => some (disk, { m with spare := [], pc := .top })
  | .finish closed =>
      some (disk, { m with
        shared := { m.shared with
          cut := { requested := false, closed := some closed } }
        pc := .top })
  | .finalSync => some (disk.sync m.seg.file, { m with pc := .exited })
  | .exited => none

/-- A step of `sync_loop`; `due` says that the deadline has passed when the
thread is woken. -/
def syncerStep (due : Bool) (disk : Disk) (m : Machine) :
    Option (Disk × Machine) :=
  match m.syncer with
  | .top last =>
      if m.shared.buffer.closed then some (disk, { m with syncer := .exited })
      else some (disk, { m with syncer := .parked last })
  | .parked last =>
      if due ∧ m.shared.written > last then
        some (disk, { m with syncer := .fetch m.shared.written })
      else some (disk, { m with syncer := .top last })
  | .fetch w =>
      some (disk, { m with syncer := .sync w m.shared.syncFile })
  | .sync w file =>
      some (disk.sync file, { m with syncer := .top w })
  | .exited => none

/-- The transitions of the flusher, one by one. -/
inductive FlusherStep (cfg : WalConfig) (n : Nat) (disk : Disk)
    (m : Machine) : Disk → Machine → Prop
  | top (hpc : m.pc = .top) :
      FlusherStep cfg n disk m disk
        { m with pc := .sampleCut m.shared.buffer.closed }
  | sampleCut {closing : Bool} (hpc : m.pc = .sampleCut closing) :
      FlusherStep cfg n disk m disk
        { m with pc := .take closing m.shared.cut.requested }
  | taken {closing cutting : Bool} (hpc : m.pc = .take closing cutting)
      (hbuf : m.shared.buffer.buf ≠ []) :
      FlusherStep cfg n disk m disk
        { m with
          shared := { m.shared with
            buffer := { m.shared.buffer with buf := m.spare } }
          spare := m.shared.buffer.buf
          pc := .batch m.shared.buffer.end_ }
  | serveCut {closing : Bool} (hpc : m.pc = .take closing true)
      (hbuf : m.shared.buffer.buf = []) :
      FlusherStep cfg n disk m disk { m with pc := .rotate .sync .cut }
  | leave (hpc : m.pc = .take true false)
      (hbuf : m.shared.buffer.buf = []) :
      FlusherStep cfg n disk m disk { m with pc := .finalSync }
  | again (hpc : m.pc = .take false false)
      (hbuf : m.shared.buffer.buf = []) :
      FlusherStep cfg n disk m disk { m with pc := .top }
  | full {end_ : Nat} (hpc : m.pc = .batch end_)
      (hfull : m.seg.written ≥ cfg.segmentMaxBytes) :
      FlusherStep cfg n disk m disk
        { m with pc := .rotate .sync (.batch end_) }
  | room {end_ : Nat} (hpc : m.pc = .batch end_)
      (hroom : m.seg.written < cfg.segmentMaxBytes) :
      FlusherStep cfg n disk m disk { m with pc := .write end_ 0 }
  | sync {why : RotateFor} (hpc : m.pc = .rotate .sync why) :
      FlusherStep cfg n disk m (disk.sync m.seg.file)
        { m with pc := .rotate .create why }
  | create {why : RotateFor} {disk' : Disk}
      (hpc : m.pc = .rotate .create why)
      (hcreate : disk.create (m.seg.id + 1) = some disk') :
      FlusherStep cfg n disk m disk'
        { m with pc := .rotate (.syncDir disk.length) why }
  | syncDir {why : RotateFor} {file : Nat}
      (hpc : m.pc = .rotate (.syncDir file) why) :
      FlusherStep cfg n disk m disk.syncDir
        { m with
          seg := { id := m.seg.id + 1, file }
          pc := .rotate (.setFile m.seg.id) why }
  | setFile {why : RotateFor} {closed : Nat}
      (hpc : m.pc = .rotate (.setFile closed) why) :
      FlusherStep cfg n disk m disk
        { m with
          shared := { m.shared with syncFile := m.seg.file }
          pc := .rotate (.store closed) why }
  | store {why : RotateFor} {closed : Nat}
      (hpc : m.pc = .rotate (.store closed) why) :
      FlusherStep cfg n disk m disk
        { m with
          shared := { m.shared with activeSegment := closed + 1 }
          pc := why.resume closed }
  | chunk {end_ done : Nat} (hpc : m.pc = .write end_ done)
      (hmore : done < m.spare.length) :
      FlusherStep cfg n disk m
        (disk.write m.seg.file (m.seg.written + done)
          ((m.spare.drop done).take (max n 1)))
        { m with
          pc := .write end_
            (done + ((m.spare.drop done).take (max n 1)).length) }
  | wrote {end_ done : Nat} (hpc : m.pc = .write end_ done)
      (hall : m.spare.length ≤ done) :
      FlusherStep cfg n disk m disk
        { m with
          seg := { m.seg with written := m.seg.written + m.spare.length }
          pc := .publish end_ }
  | publish {end_ : Nat} (hpc : m.pc = .publish end_) :
      FlusherStep cfg n disk m disk
        { m with
          shared := { m.shared with
            written := advance m.shared.written end_ }
          pc := .clear }
  | clear (hpc : m.pc = .clear) :
      FlusherStep cfg n disk m disk { m with spare := [], pc := .top }
  | finish {closed : Nat} (hpc : m.pc = .finish closed) :
      FlusherStep cfg n disk m disk
        { m with
          shared := { m.shared with
            cut := { requested := false, closed := some closed } }
          pc := .top }
  | finalSync (hpc : m.pc = .finalSync) :
      FlusherStep cfg n disk m (disk.sync m.seg.file)
        { m with pc := .exited }

/-- There are no others: the transition function is followed through its
branches, by where the flusher stands and by what it finds there, and each
that has a result is a constructor. -/
theorem FlusherStep.of_step {cfg : WalConfig} {n : Nat}
    {disk disk' : Disk} {m m' : Machine}
    (h : flusherStep cfg n disk m = some (disk', m')) :
    FlusherStep cfg n disk m disk' m' := by
  cases hpc : m.pc with
  | top => simp only [flusherStep, hpc] at h; cases h; exact .top hpc
  | sampleCut closing =>
      simp only [flusherStep, hpc] at h
      cases h
      exact .sampleCut hpc
  | take closing cutting =>
      simp only [flusherStep, hpc, Inner.take] at h
      by_cases hbuf : m.shared.buffer.buf = []
      · rw [if_pos hbuf] at h
        cases cutting with
        | true => cases h; exact .serveCut hpc hbuf
        | false =>
            cases closing with
            | true => cases h; exact .leave hpc hbuf
            | false => cases h; exact .again hpc hbuf
      · rw [if_neg hbuf] at h
        cases h
        exact .taken hpc hbuf
  | batch end_ =>
      simp only [flusherStep, hpc] at h
      split at h
      · rename_i hfull
        cases h
        exact .full hpc hfull
      · rename_i hroom
        cases h
        exact .room hpc (Nat.lt_of_not_ge hroom)
  | rotate stage why =>
      simp only [flusherStep, hpc] at h
      cases stage with
      | sync => cases h; exact .sync hpc
      | create =>
          rw [rotateStep, Option.map_eq_some_iff] at h
          obtain ⟨d, hd, heq⟩ := h
          cases heq
          exact .create hpc hd
      | syncDir file => cases h; exact .syncDir hpc
      | setFile closed => cases h; exact .setFile hpc
      | store closed => cases h; exact .store hpc
  | write end_ done =>
      simp only [flusherStep, hpc] at h
      split at h
      · rename_i hmore
        cases h
        exact .chunk hpc hmore
      · rename_i hall
        cases h
        exact .wrote hpc (Nat.le_of_not_lt hall)
  | publish end_ =>
      simp only [flusherStep, hpc] at h
      cases h
      exact .publish hpc
  | clear => simp only [flusherStep, hpc] at h; cases h; exact .clear hpc
  | finish closed =>
      simp only [flusherStep, hpc] at h
      cases h
      exact .finish hpc
  | finalSync =>
      simp only [flusherStep, hpc] at h
      cases h
      exact .finalSync hpc
  | exited => simp only [flusherStep, hpc] at h; cases h

/-- The flusher makes no calls. -/
theorem FlusherStep.calls {cfg : WalConfig} {n : Nat} {disk disk' : Disk}
    {m m' : Machine} (h : FlusherStep cfg n disk m disk' m') :
    m'.shared.serial = m.shared.serial ∧ m'.removing = m.removing := by
  cases h <;> exact ⟨rfl, rfl⟩

-- =========================================================== the callers

/-- What happens in a run, with the results callers see. -/
inductive Action
  | append (rec : WalRecord) (result : Except WalError Nat)
  | flusher (n : Nat)
  | syncer (due : Bool)
  | cutLock (caller : Nat)
  | cutRequest (caller : Nat)
  | cutReturn (caller closed : Nat)
  | waitReturn (lsn : Nat)
  | removeBound (caller id bound : Nat)
  | removeList (caller : Nat) (todo : List Nat)
  | removeFile (caller id : Nat)
  | removeFail (caller id : Nat)
  | removeReturn (caller : Nat) (removed : List Nat)
  | close
  | closeReturn
deriving DecidableEq, Repr

def Machine.setRemoving (m : Machine) (caller : Nat) (pc : RemovePc) :
    Machine :=
  { m with removing := fun c => if c = caller then pc else m.removing c }

/-- The transition function. A record's ids are 64-bit words. -/
def step (cfg : WalConfig) (a : Action) (s : Disk × Machine) :
    Option (Disk × Machine) :=
  let (disk, m) := s
  match a with
  | .append rec result =>
      let (result', buffer) := appendWith cfg m.shared.buffer rec
      if rec.IdsFit ∧ result' = result then
        some (disk, { m with shared := { m.shared with buffer } })
      else none
  | .flusher n => flusherStep cfg n disk m
  | .syncer due => syncerStep due disk m
  | .cutLock caller =>
      if m.shared.serial = none then
        some (disk, { m with shared := { m.shared with
          serial := some { caller, requested := false } } })
      else none
  | .cutRequest caller =>
      if m.shared.serial = some { caller, requested := false } then
        some (disk, { m with shared := { m.shared with
          serial := some { caller, requested := true }
          cut := { requested := true, closed := none } } })
      else none
  | .cutReturn caller closed =>
      if m.shared.serial = some { caller, requested := true }
          ∧ m.shared.cut.closed = some closed then
        some (disk, { m with shared := { m.shared with
          serial := none
          cut := { m.shared.cut with closed := none } } })
      else none
  | .waitReturn lsn => if m.shared.written ≥ lsn then some (disk, m) else none
  | .removeBound caller id bound =>
      if m.removing caller = .idle
          ∧ bound = min id (m.shared.activeSegment - 1) then
        some (disk, m.setRemoving caller (.bounded bound))
      else none
  | .removeList caller todo =>
      match m.removing caller with
      | .bounded bound =>
          if todo = ((list disk.dir).map SegmentFile.id).filter (· ≤ bound)
          then some (disk, m.setRemoving caller (.removing bound todo []))
          else none
      | _ => none
  | .removeFile caller id =>
      match m.removing caller with
      | .removing bound (next :: todo) removed =>
          if next = id then
            (disk.unlink id).map fun disk =>
              (disk, m.setRemoving caller
                (.removing bound todo (removed ++ [id])))
          else none
      | _ => none
  | .removeFail caller id =>
      match m.removing caller with
      | .removing _ (next :: _) _ =>
          if next = id then some (disk, m.setRemoving caller .idle) else none
      | _ => none
  | .removeReturn caller removed =>
      match m.removing caller with
      | .removing _ [] done =>
          if done = removed then some (disk, m.setRemoving caller .idle)
          else none
      | _ => none
  | .close =>
      some (disk, { m with shared := { m.shared with
        buffer := { m.shared.buffer with closed := true } } })
  | .closeReturn =>
      if m.pc = .exited ∧ m.syncer = .exited then some (disk, m) else none

theorem step_append {cfg : WalConfig} {rec : WalRecord}
    {result : Except WalError Nat} {disk disk' : Disk} {m m' : Machine}
    (h : step cfg (.append rec result) (disk, m) = some (disk', m')) :
    rec.IdsFit ∧ (appendWith cfg m.shared.buffer rec).1 = result
      ∧ disk' = disk
      ∧ m' = { m with shared := { m.shared with
          buffer := (appendWith cfg m.shared.buffer rec).2 } } := by
  simp only [step] at h
  split at h
  · rename_i hcond
    cases h
    exact ⟨hcond.1, hcond.2, rfl, rfl⟩
  · cases h

-- ================================================= what a step leaves alone

/-- What only the flusher changes. -/
structure Keeps (s s' : Disk × Machine) : Prop where
  ids : s'.1.map LogFile.id = s.1.map LogFile.id
  bytes : s'.1.map LogFile.bytes = s.1.map LogFile.bytes
  seg : s'.2.seg = s.2.seg
  spare : s'.2.spare = s.2.spare
  pc : s'.2.pc = s.2.pc
  written : s'.2.shared.written = s.2.shared.written
  activeSegment : s'.2.shared.activeSegment = s.2.shared.activeSegment

theorem Keeps.of_disk {disk : Disk} {m m' : Machine} (hseg : m'.seg = m.seg)
    (hspare : m'.spare = m.spare) (hpc : m'.pc = m.pc)
    (hwritten : m'.shared.written = m.shared.written)
    (hactive : m'.shared.activeSegment = m.shared.activeSegment) :
    Keeps (disk, m) (disk, m') :=
  ⟨rfl, rfl, hseg, hspare, hpc, hwritten, hactive⟩

/-- The callers an action belongs to: who uses the buffer, and who uses
the cut. -/
def Action.usesBuffer : Action → Bool
  | .append _ _ => true
  | .close => true
  | _ => false

def Action.usesCut : Action → Bool
  | .cutLock _ => true
  | .cutRequest _ => true
  | .cutReturn _ _ => true
  | _ => false

/-- The syncer syncs a file, and otherwise looks only after itself. -/
private theorem syncer_keeps {cfg : WalConfig} {due : Bool}
    {disk disk' : Disk} {m m' : Machine}
    (h : step cfg (.syncer due) (disk, m) = some (disk', m')) :
    Keeps (disk, m) (disk', m') ∧ m'.shared = m.shared := by
  cases hpc : m.syncer with
  | top last | parked last =>
      simp only [step, syncerStep, hpc] at h
      split at h <;> cases h <;>
        exact ⟨.of_disk rfl rfl rfl rfl rfl, rfl⟩
  | fetch w =>
      simp only [step, syncerStep, hpc] at h
      cases h
      exact ⟨.of_disk rfl rfl rfl rfl rfl, rfl⟩
  | sync w file =>
      simp only [step, syncerStep, hpc] at h
      cases h
      exact ⟨⟨Disk.map_id_sync _ _, Disk.map_bytes_sync _ _, rfl, rfl, rfl,
        rfl, rfl⟩, rfl⟩
  | exited =>
      simp only [step, syncerStep, hpc] at h
      cases h

/-- Any step but the flusher's, and what it may change. What only the
flusher changes stays in any case; the buffer is touched by appends and by
the close, the cut by those who ask for one. The frame of every invariant
below. -/
theorem step_keeps {cfg : WalConfig} {a : Action} {s s' : Disk × Machine}
    (ha : ∀ n, a ≠ .flusher n) (h : step cfg a s = some s') :
    Keeps s s'
      ∧ (a.usesBuffer = false → s'.2.shared.buffer = s.2.shared.buffer)
      ∧ (a.usesCut = false → s'.2.shared.cut = s.2.shared.cut
          ∧ s'.2.shared.serial = s.2.shared.serial) := by
  obtain ⟨disk, m⟩ := s
  cases a with
  | append rec result =>
      obtain ⟨disk', m'⟩ := s'
      obtain ⟨-, -, rfl, rfl⟩ := step_append h
      exact ⟨.of_disk rfl rfl rfl rfl rfl, (by intro hcase; cases hcase),
        fun _ => ⟨rfl, rfl⟩⟩
  | flusher n => exact absurd rfl (ha n)
  | syncer due =>
      obtain ⟨hkeeps, hshared⟩ := syncer_keeps h
      exact ⟨hkeeps, fun _ => congrArg Shared.buffer hshared,
        fun _ => ⟨congrArg Shared.cut hshared,
          congrArg Shared.serial hshared⟩⟩
  | cutLock caller =>
      simp only [step] at h
      split at h <;> cases h
      exact ⟨.of_disk rfl rfl rfl rfl rfl, fun _ => rfl,
        by intro hcase; cases hcase⟩
  | cutRequest caller =>
      simp only [step] at h
      split at h <;> cases h
      exact ⟨.of_disk rfl rfl rfl rfl rfl, fun _ => rfl,
        by intro hcase; cases hcase⟩
  | cutReturn caller closed =>
      simp only [step] at h
      split at h <;> cases h
      exact ⟨.of_disk rfl rfl rfl rfl rfl, fun _ => rfl,
        by intro hcase; cases hcase⟩
  | waitReturn lsn =>
      simp only [step] at h
      split at h <;> cases h
      exact ⟨.of_disk rfl rfl rfl rfl rfl, fun _ => rfl, fun _ => ⟨rfl, rfl⟩⟩
  | removeBound caller id bound =>
      simp only [step] at h
      split at h <;> cases h
      exact ⟨.of_disk rfl rfl rfl rfl rfl, fun _ => rfl, fun _ => ⟨rfl, rfl⟩⟩
  | removeList caller todo =>
      simp only [step] at h
      split at h
      · split at h <;> cases h
        exact ⟨.of_disk rfl rfl rfl rfl rfl, fun _ => rfl,
          fun _ => ⟨rfl, rfl⟩⟩
      · cases h
  | removeFile caller id =>
      simp only [step] at h
      split at h
      · split at h
        · rw [Option.map_eq_some_iff] at h
          obtain ⟨d, hd, heq⟩ := h
          cases heq
          exact ⟨⟨Disk.map_unlink hd fun _ => rfl,
            Disk.map_unlink hd fun _ => rfl, rfl, rfl, rfl, rfl, rfl⟩,
            fun _ => rfl, fun _ => ⟨rfl, rfl⟩⟩
        · cases h
      · cases h
  | removeFail caller id =>
      simp only [step] at h
      split at h
      · split at h <;> cases h
        exact ⟨.of_disk rfl rfl rfl rfl rfl, fun _ => rfl,
          fun _ => ⟨rfl, rfl⟩⟩
      · cases h
  | removeReturn caller removed =>
      simp only [step] at h
      split at h
      · split at h <;> cases h
        exact ⟨.of_disk rfl rfl rfl rfl rfl, fun _ => rfl,
          fun _ => ⟨rfl, rfl⟩⟩
      · cases h
  | close =>
      simp only [step] at h
      cases h
      exact ⟨.of_disk rfl rfl rfl rfl rfl, (by intro hcase; cases hcase),
        fun _ => ⟨rfl, rfl⟩⟩
  | closeReturn =>
      simp only [step] at h
      split at h <;> cases h
      exact ⟨.of_disk rfl rfl rfl rfl rfl, fun _ => rfl, fun _ => ⟨rfl, rfl⟩⟩

end Tsdb.Wal
