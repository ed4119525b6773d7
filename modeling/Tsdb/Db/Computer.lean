/-
The computer the database runs on, whose power may fail.

# What is on disk

Beside the files as the processes see them, a `Computer` has what a power
loss cannot take. Of the data directory these are the names it had when it
was last synced, and how much of each file has been; of the log, which of
its files the directory named then, and the log in front of a truncation
that has not been synced (how much of each file has been is in the files
themselves). `sure` is the LSN up to which the log is certain: that of the
last call of `sync_data` in `sync_loop`, or the end of the log at a cut
that has returned since. `Computer.after` is what each step of the system
does to all this: only the calls that sync do anything.

# What may happen

The processes go on, stop, crash and are started again, as in
`Tsdb.Db.System`; a crash leaves the files as they are, and what of them is
on disk, too. The power fails at any time (`Loss`): then a file has lost
bytes behind those that were synced, a directory has the names it had or
the names it has, for each file, and a file that was truncated may be as
long as before. No call fails: what a failed sync has left on disk, nobody
knows.

# What has to be written back

The source syncs what it writes itself, and trusts what it finds. So a
process may take a segment for stored that another has renamed and not yet
synced, remove the log's files for it, and lose both to a power loss. The
condition of `Tsdb.Wal.Crash`, that the last file of the log is synced where
`Wal::open` creates the next, is not enough against that: in such a run it
holds. `OpensOnDisk` asks for more: where the directories are opened, what
they hold is on disk (`Computer.OnDisk`), of the log and of the segments. A
process that comes to its end in order leaves it so, and so does a power
loss; only behind a crash the system has to have written it back, and to do
so is an occurrence of its own (`writeBack`).

# What is told

`Computer.Tells` puts together what the proofs carry. `system` is what is
told of the processes (`Tsdb.Db.Lifetimes`). `data` says that each segment
is on disk, but for one that has just been renamed, and `written` that this
one is written through. `uncut` is about a truncation, and `Logged` about
the files of the log, phase by phase: outside a run of the log all of it is
certain; within, the log is `Tethered`, which is to say certain up to
`sure`; and in `remove_through` the files that are gone may be back, which
is of no matter, as the segments have what they have (`Removing`).
-/
import Tsdb.Db.Outage
import Tsdb.Storage.Outage

namespace Tsdb

open Lib (Bytes exec)
open Wal (Anchored Disk LogFile Machine WalConfig firstId)

-- =========================================================== the definitions

/-- What a power loss leaves: the data directory; of the log, which of the
removed files are back, whether a file that has been truncated is what it
was, and how much of each file. -/
structure Loss where
  data : DataDir
  back : Nat → Bool
  uncut : Bool
  kept : List (Option Nat)

/-- The processes go on; what nobody has open is written back; the power
fails. -/
inductive Occurrence
  | system (e : Event)
  | writeBack
  | powerLoss (loss : Loss)

/-- A process crashes. -/
def Occurrence.isCrash : Occurrence → Bool
  | .system (.crash _) => true
  | _ => false

/-- The directories are opened. -/
def Occurrence.opens : Occurrence → Bool
  | .system (.openWith _ _) => true
  | _ => false

/-- The directories and the process, and what is on disk of them: the names
and the bytes of the data directory, the names of the log, and the log in
front of a truncation that has not been synced. -/
structure Computer where
  system : System := {}
  entries : DataDir := ∅
  synced : DataName → Nat := fun _ => 0
  named : List Bool := []
  uncut : Option Disk := none
  sure : Nat := 0

/-- All of it is on disk, and nobody has it. -/
def Computer.stored (data : DataDir) (log : Disk) : Computer where
  system := { data, log }
  entries := data
  synced name := ((data.lookup name).getD []).length
  named := log.names

/-- The log, if it runs. -/
def Phase.wal : Phase → Option Machine
  | .running db => some db.wal
  | .closing wal => some wal
  | _ => none

/-- The flush of the store, if there is one under way. -/
def Phase.flushing : Phase → Option (SegmentStore × FlushJob)
  | .running db =>
      match db.pc, db.state.store with
      | .flush _ _ job, some store => some (store, job)
      | _, _ => none
  | _ => none

/-- Does this step sync the directory? `remove_through` does, if it has
removed anything. -/
def Wal.Machine.syncsDir (m : Machine) : Wal.Action → Bool
  | .flusher _ =>
      match m.pc with
      | .rotate (.syncDir _) _ => true
      | _ => false
  | .removeReturn _ removed => removed ≠ []
  | _ => false

/-- The LSN up to which this step makes the log certain. -/
def Wal.Machine.sureBy (m : Machine) : Wal.Action → Nat
  | .syncer _ =>
      match m.syncer with
      | .sync w _ => w
      | _ => 0
  | .cutReturn _ _ => m.shared.buffer.end_
  | _ => 0

namespace Computer

/-- What is on disk behind a step of the system. -/
def after (c : Computer) (e : Event) (s : System) : Computer :=
  match e with
  | .setLen => { c with system := s, uncut := some c.system.log }
  | .syncAll => { c with system := s, uncut := none }
  | .syncDir => { c with system := s, named := s.log.names, sure := 0 }
  | .store _ =>
      match c.system.phase.flushing with
      | some (store, job) =>
          { c with
            system := s
            entries := if job.stage = .syncDir then s.data else c.entries
            synced := store.syncedBy job c.system.data c.synced }
      | none => { c with system := s }
  | .wal a =>
      match c.system.phase.wal with
      | some m =>
          { c with
            system := s
            named := if m.syncsDir a then s.log.names else c.named
            sure := max c.sure (m.sureBy a) }
      | none => { c with system := s }
  | _ => { c with system := s }

/-- The log a power loss takes bytes from. -/
def lostLog (c : Computer) (loss : Loss) : Disk :=
  let log := c.system.log.back c.named loss.back
  if loss.uncut then c.uncut.getD log else log

/-- The transition function. No call fails, and what is written back is
directories that nobody has open. -/
def step (json : Json) (cfg : WalConfig) (o : Occurrence) (c : Computer) :
    Option Computer :=
  match o with
  | .system .fault => none
  | .system e => (System.step json cfg e c.system).map (c.after e)
  | .writeBack =>
      match c.system.phase with
      | .down => some (.stored c.system.data c.system.log.writeBack)
      | _ => none
  | .powerLoss loss =>
      if c.entries.mayLeave c.system.data c.synced loss.data then
        ((c.lostLog loss).powerLoss loss.kept).map (.stored loss.data)
      else none

/-- What the directories hold is on disk: of the log each byte and each
name, and no name of a file that has been removed; of the data directory
each segment and its name. -/
structure OnDisk (c : Computer) : Prop where
  certain : c.system.log.Certain
  named : c.system.log.Unremoved c.named
  uncut : c.uncut = none
  data : c.entries.Backed c.system.data c.synced none

/-- Whoever opens the directories finds what is on disk. -/
def OpensOnDisk (json : Json) (cfg : WalConfig) (c : Computer)
    (os : List Occurrence) : Prop :=
  ∀ before after maxBufferSamples reads c',
    os = before ++ .system (.openWith maxBufferSamples reads) :: after →
    exec (Computer.step json cfg) before c = some c' → c'.OnDisk

end Computer

-- ============================================================ what is certain

variable {json : Json} {cfg : WalConfig} {t : Tale} {data data' : DataDir}
  {disk disk' : Disk} {c c' : Computer} {db : Db}

/-- The segment whose name is not on disk yet. -/
def Phase.unsynced (phase : Phase) : Option Nat :=
  phase.flushing.bind fun (store, job) => store.unsynced job

namespace Phase

theorem flushing_some {store : SegmentStore} {job : FlushJob}
    (h : (Phase.running db).flushing = some (store, job)) :
    db.state.store = some store ∧ ∃ who cut, db.pc = .flush who cut job := by
  unfold flushing at h
  simp only at h
  split at h
  · rename_i who cut job' store' hpc hstore
    cases h
    exact ⟨hstore, who, cut, hpc⟩
  · cases h

theorem flushing_none (hpc : ∀ who cut job, db.pc ≠ .flush who cut job) :
    (Phase.running db).flushing = none := by
  rw [Option.eq_none_iff_forall_ne_some]
  rintro ⟨store, job⟩ hjob
  obtain ⟨-, who, cut, hflush⟩ := flushing_some hjob
  exact hpc who cut job hflush

theorem unsynced_none {phase : Phase} (h : phase.flushing = none) :
    phase.unsynced = none := by
  unfold unsynced
  rw [h]
  rfl

end Phase

/-- A running log, and how many records it has accepted at most. -/
def Tethered (cfg : WalConfig) (t : Tale) (sure : Nat) (disk : Disk)
    (m : Machine) : Prop :=
  ∃ count, Anchored cfg sure count disk m
    ∧ count ≤ recordCount (t.mine.map Prod.fst)

/-- A call of `remove_through` has removed files, and they may be back: the
segments have what they have. -/
structure Removing (json : Json) (t : Tale) (data : DataDir)
    (named : List Bool) (disk : Disk) (db : Db) : Prop where
  pc : ∃ who through, db.pc = .remove who through
  taken : ∃ bound todo removed,
    db.wal.removing db.calls = .removing bound todo removed ∧ removed ≠ []
  spent : Spent json t data (disk.shadow named) db.wal.calm
  gone : Wal.Gone named disk db.wal

/-- What is on disk of the log, phase by phase. -/
inductive Computer.Logged (json : Json) (cfg : WalConfig) (t : Tale)
    (c : Computer) : Prop
  | down (hphase : c.system.phase = .down) (hcertain : c.system.log.Certain)
      (hnamed : c.system.log.Unremoved c.named)
  | opening {o : Opening} {stage : Wal.Opening}
      (hphase : c.system.phase = .opening o stage)
      (hstage : ∀ id file, stage ≠ .syncDir id file)
      (hcertain : c.system.log.Certain)
      (hnamed : c.system.log.Unremoved c.named)
  | created {o : Opening} {before : Disk}
      (hphase : c.system.phase
        = .opening o (.syncDir (firstId before) before.length))
      (hlog : c.system.log = before ++ [{ id := firstId before }])
      (hcertain : before.Certain) (hnamed : before.Unremoved c.named)
      (hrests : Rests json t c.system.data before)
  | running {db : Db} (hphase : c.system.phase = .running db)
      (htethered : Tethered cfg t c.sure c.system.log db.wal)
      (hnamed : c.system.log.Unremoved c.named
        ∨ Removing json t c.system.data c.named c.system.log db)
  | closing {wal : Machine} (hphase : c.system.phase = .closing wal)
      (htethered : Tethered cfg t c.sure c.system.log wal)
      (hnamed : c.system.log.Unremoved c.named)

/-- What is told of a computer. -/
structure Computer.Tells (json : Json) (cfg : WalConfig) (t : Tale)
    (c : Computer) : Prop where
  system : c.system.Tells json t
  data : c.entries.Backed c.system.data c.synced c.system.phase.unsynced
  written : ∀ store job, c.system.phase.flushing = some (store, job) →
    job.Written c.system.data c.synced store.nextNumber
  named : c.named.length ≤ c.system.log.length
  uncut : ∀ disk, c.uncut = some disk →
    (∃ o id next, c.system.phase = .opening o (.syncAll id next))
      ∧ disk.Certain ∧ Rests json t c.system.data disk
  logged : c.Logged json cfg t

-- =========================================================== the directories

/-- Without its last segment. -/
theorem DataDir.Holds.front {files : List (Nat × Segment)} {n : Nat}
    {seg : Segment} (h : data.Holds json (files ++ [(n, seg)]))
    (hseg : ∀ k, k ≠ n →
      data'.lookup (.segment k) = data.lookup (.segment k))
    (hmis : ∀ raw, data'.lookup (.misnamed raw)
      = data.lookup (.misnamed raw))
    (hnone : data'.lookup (.segment n) = none) :
    data'.Holds json files := by
  have hbelow : ∀ f ∈ files, f.1 < n := fun f hf =>
    (List.pairwise_append.mp h.asc).2.2 f hf _ List.mem_cons_self
  refine ⟨(List.pairwise_append.mp h.asc).1,
    fun raw => (hmis raw).trans (h.named raw), fun k => ?_, fun f hf => ?_⟩
  · by_cases hk : k = n
    · subst hk
      rw [hnone]
      constructor
      · intro hsome
        cases hsome
      · intro hin
        obtain ⟨f, hf, he⟩ := List.mem_map.mp hin
        have := hbelow f hf
        omega
    · rw [hseg k hk, h.found k, List.map_append, List.mem_append]
      simp [hk]
  · exact (readSegment_congr (hseg f.1 (Nat.ne_of_lt (hbelow f hf)))).trans
      (h.reads f (List.mem_append_left _ hf))

/-- Directories with the same segments have the same writes. -/
theorem Standing.congr {orderly : Bool} {writes : List WriteBatch} {n : Nat}
    {recs : List Wal.WalRecord}
    (h : Standing json orderly data writes n recs)
    (hdata : ∀ files, data.Holds json files → data'.Holds json files) :
    Standing json orderly data' writes n recs := by
  obtain ⟨files, lnames, done, rest, hwrites, hstored⟩ := h
  exact ⟨files, lnames, done, rest, hwrites,
    { hstored with held := hdata files hstored.held }⟩

theorem Leaves.congr {m : Machine} (h : Leaves json t data disk m)
    (hdata : ∀ files, data.Holds json files → data'.Holds json files) :
    Leaves json t data' disk m := by
  obtain ⟨old, actions, log, hand, buffer, n, h⟩ := h
  exact ⟨old, actions, log, hand, buffer, n, h.journal, h.noted, h.held,
    h.standing.congr hdata⟩

namespace Rests

theorem congr (h : Rests json t data disk)
    (hdata : ∀ files, data.Holds json files → data'.Holds json files) :
    Rests json t data' disk := by
  obtain ⟨recs, n, hrest, hstanding⟩ := h.rests
  exact ⟨h.mine, h.safe, recs, n, hrest, hstanding.congr hdata⟩

/-- What is synced does not matter to who opens them. -/
theorem same (h : Rests json t data disk) (hsame : Disk.Same disk' disk) :
    Rests json t data disk' := by
  obtain ⟨recs, n, hrest, hstanding⟩ := h.rests
  exact ⟨h.mine, h.safe, recs, n, hrest.same hsame, hstanding⟩

/-- A power loss takes nothing from directories that are on disk. -/
theorem outage (h : Rests json t data disk) (hsame : Disk.Same disk' disk)
    (sure : Nat) :
    ∃ k, t.upTo sure ≤ k ∧ k ≤ t.writes.length
      ∧ Rests json (t.crash k) data disk' := by
  have hsure : t.upTo sure ≤ t.safe := by
    unfold Tale.upTo
    rw [h.mine, h.safe]
    exact Nat.le_refl _
  obtain ⟨k, hsafe, hk, hrests⟩ := h.crash
  exact ⟨k, Nat.le_trans hsure hsafe, hk, hrests.same hsame⟩

end Rests

namespace Computer

/-- Directories that nobody has, and that are on disk. -/
theorem OnDisk.tells (h : c.OnDisk) (hphase : c.system.phase = .down)
    (hnamed : c.named.length ≤ c.system.log.length)
    (hrests : Rests json t c.system.data c.system.log) :
    c.Tells json cfg t where
  system := .down hphase hrests
  data := by
    rw [hphase]
    exact h.data
  written _ _ hflushing := by
    rw [hphase] at hflushing
    cases hflushing
  named := hnamed
  uncut _ huncut := by
    rw [h.uncut] at huncut
    cases huncut
  logged := .down hphase h.certain h.named

theorem onDisk_stored (data : DataDir) (hcertain : disk.Certain) :
    (stored data disk).OnDisk where
  certain := hcertain
  named := Disk.unremoved_names disk
  uncut := rfl
  data := .all data

theorem tells_stored (hrests : Rests json t data disk)
    (hcertain : disk.Certain) : (stored data disk).Tells json cfg t :=
  (onDisk_stored data hcertain).tells rfl
    (Nat.le_of_eq (List.length_map _)) hrests

end Computer

end Tsdb
