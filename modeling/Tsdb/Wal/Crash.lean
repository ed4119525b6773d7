/-
Crashes: a directory over many processes, each of which opens the log
(`Wal::open` of `storage/wal/mod.rs`), runs it, and stops at any step,
by itself or with the power.

# What a crash leaves

A process that stops leaves the files as they are. A power loss leaves,
of each file, some of what was not synced, and may take a directory entry
that was not. Afterwards what is left is on disk for good.

# Why a log opens again

`Disk.Sound`: the files have ascending ids, each is a run of accepted
records, perhaps cut short, and only the last may be cut short or have
anything left to sync. Rotation syncs a segment before it creates the
next. `Wal::open` does so only for a segment it has cut: one that a
process left behind whole and not synced becomes a segment in front of
another, and a power loss may then tear it. With the last segment synced
whenever `Wal::open` creates the next, every state is sound
(`open_recovers`); without, there is a run to a state that does not open
(`open_corrupts`).

# The invariant

`Process.Ok` is `Disk.Sound` together with what the process knows of the
files where it stands (`Phase.Ok`): the offset it is about to cut at is
the end of the whole records, the file it is about to create is above all
others, the log it runs is the one of `Tsdb.Wal.Pipeline`. While the log
runs, soundness is not carried along itself. What is carried is `Live`,
which says of the older files and of the closed segments that they are
whole and synced, and of the active one once the flusher has synced it;
`Live.sound` has soundness from it and from `Sim`.

# The steps

Each call of `Wal::open` is a fact about a sound directory:
`Disk.Sound.setLen`, `syncAll`, `create`, and `powerLoss` for the one
step that is nobody's. Calls about the last file leave the others, which
is said once (`map_last`). A flusher's step is `Live.flusher`, and
`Process.Ok.step` only dispatches.
-/
import Tsdb.Wal.Removal

namespace Tsdb.Wal

open Lib (Ascending Bytes Run exec)

-- ======================================================= what crashes leave

namespace Disk

/-- `set_len` of `truncate`. -/
def setLen (disk : Disk) (id len : Nat) : Disk :=
  disk.map fun f =>
    if f.linked && f.id == id then
      { f with bytes := Wal.setLen f.bytes len, synced := min f.synced len }
    else f

/-- `sync_all` of `truncate`. -/
def syncAll (disk : Disk) (id : Nat) : Disk :=
  disk.map fun f =>
    if f.linked && f.id == id then { f with synced := f.bytes.length } else f

/-- What a power loss leaves: of each file the number of bytes given, at
least those synced, or nothing where the entry was not synced. -/
def powerLoss : Disk → List (Option Nat) → Option Disk
  | [], [] => some []
  | f :: disk, none :: kept => if f.durable then none else powerLoss disk kept
  | f :: disk, some n :: kept =>
      if f.synced ≤ n ∧ n ≤ f.bytes.length then
        (powerLoss disk kept).map
          ({ f with bytes := f.bytes.take n, synced := n, durable := true }
            :: ·)
      else none
  | _, _ => none

/-- The file with the highest id has nothing left to sync. -/
def LastSynced (disk : Disk) : Prop :=
  ∀ f ∈ disk, (∀ g ∈ disk, g.id ≤ f.id) → f.synced = f.bytes.length

end Disk

-- ============================================================ the processes

/-- Where a process stands in `Wal::open`, behind the reading of the
files: about to cut the torn end of the last one, to sync it, to create
the next segment, to sync the directory. -/
inductive Opening
  | setLen (id offset next : Nat)
  | syncAll (id next : Nat)
  | create (next : Nat)
  | syncDir (id file : Nat)

inductive Phase
  | down
  | opening (stage : Opening)
  | running (m : Machine)

structure Process where
  disk : Disk := []
  phase : Phase := .down

inductive Event
  | replay (reads : Nat → Nat → Nat)
  | setLen
  | syncAll
  | create
  | syncDir
  | act (a : Action)
  | crash
  | powerLoss (kept : List (Option Nat))

/-- The stage behind a successful `replay`. -/
def Opening.next (report : RecoveryReport) : Opening :=
  match report.truncated with
  | some (id, offset, _) => .setLen id offset (nextId report.lastSegment)
  | none => .create (nextId report.lastSegment)

/-- The transition function. The log is not removed from. -/
def Process.step (cfg : WalConfig) (e : Event) (p : Process) :
    Option Process :=
  match e, p.phase with
  | .replay reads, .down =>
      match (Wal.replay recording reads p.disk.dir []).1 with
      | .error _ => some p
      | .ok report => some { p with phase := .opening (.next report) }
  | .setLen, .opening (.setLen id offset next) =>
      some {
        disk := p.disk.setLen id offset
        phase := .opening (.syncAll id next) }
  | .syncAll, .opening (.syncAll id next) =>
      some { disk := p.disk.syncAll id, phase := .opening (.create next) }
  | .create, .opening (.create next) =>
      (p.disk.create next).map fun disk =>
        { disk, phase := .opening (.syncDir next p.disk.length) }
  | .syncDir, .opening (.syncDir id file) =>
      some { disk := p.disk.syncDir, phase := .running (.start id file) }
  | .act a, .running m =>
      if a.remover = none then
        (Wal.step cfg a (p.disk, m)).map fun (disk, m) =>
          { disk, phase := .running m }
      else none
  | .crash, _ => some { p with phase := .down }
  | .powerLoss kept, _ =>
      (p.disk.powerLoss kept).map fun disk => { disk }
  | _, _ => none

instance (disk : Disk) : Decidable disk.LastSynced :=
  inferInstanceAs (Decidable (∀ f ∈ disk, _ → _))

/-- The same, where `Wal::open` creates a segment only behind a synced
one. -/
def Process.stepSynced (cfg : WalConfig) (e : Event) (p : Process) :
    Option Process :=
  match e with
  | .create => if p.disk.LastSynced then p.step cfg .create else none
  | e => p.step cfg e

-- ============================================================== soundness

/-- Accepted records, perhaps cut short. -/
def LogFile.Cut (f : LogFile) : Prop :=
  ∃ recs : List WalRecord, (∀ rec ∈ recs, rec.Accepted)
    ∧ f.bytes <+: logBytes recs

/-- Accepted records. -/
def LogFile.Full (f : LogFile) : Prop :=
  ∃ recs : List WalRecord, (∀ rec ∈ recs, rec.Accepted)
    ∧ f.bytes = logBytes recs

theorem LogFile.Full.cut {f : LogFile} (h : f.Full) : f.Cut := by
  obtain ⟨recs, hacc, hbytes⟩ := h
  exact ⟨recs, hacc, by rw [hbytes]⟩

structure Disk.Sound (disk : Disk) : Prop where
  linked : ∀ f ∈ disk, f.linked = true
  asc : Ascending LogFile.id disk
  cut : ∀ f ∈ disk, f.Cut
  le : ∀ f ∈ disk, f.synced ≤ f.bytes.length
  full : ∀ f ∈ disk, ∀ g ∈ disk, f.id < g.id → f.Full
  synced : ∀ f ∈ disk, ∀ g ∈ disk, f.id < g.id → f.synced = f.bytes.length

namespace Disk.Sound

variable {disk disk' : Disk}

theorem nil : Disk.Sound [] := by
  constructor <;> simp [Ascending]

theorem dir_eq (h : disk.Sound) :
    disk.dir = disk.map fun f => ⟨f.id, f.bytes⟩ := by
  rw [Disk.dir, List.filter_eq_self.mpr h.linked]

theorem dir_ascending (h : disk.Sound) :
    Ascending SegmentFile.id disk.dir := by
  rw [h.dir_eq]
  exact List.pairwise_map.mpr h.asc

/-- The directory lists the files as they are. -/
theorem list_dir (h : disk.Sound) :
    list disk.dir = disk.map fun f => ⟨f.id, f.bytes⟩ := by
  rw [list_eq (List.Perm.refl _) h.dir_ascending, h.dir_eq]

/-- A file cut short still starts with whole records. -/
theorem decodes {f : LogFile} (h : f.Cut) :
    ∃ recs, Decodes (records.scan f.bytes).items recs := by
  obtain ⟨recs, hacc, hpre⟩ := h
  obtain ⟨k, -, -, -, -, hd, -⟩ := scan_cut hacc hpre.length_le
  rw [← List.prefix_iff_eq_take.mp hpre] at hd
  exact ⟨_, hd⟩

/-- What a scan used of it is accepted records again. -/
theorem full_used {f : LogFile} (h : f.Cut) {g : LogFile}
    (hg : g.bytes = (records.scan f.bytes).used) : g.Full := by
  obtain ⟨recs, hacc, hpre⟩ := h
  obtain ⟨k, -, -, -, hused, -, -⟩ := scan_cut hacc hpre.length_le
  rw [← List.prefix_iff_eq_take.mp hpre] at hused
  exact ⟨recs.take k, fun rec hrec => hacc rec (List.mem_of_mem_take hrec),
    by rw [hg, hused]⟩

theorem recovers (h : disk.Sound) : ∃ recs, Recovers (list disk.dir) recs := by
  rw [recovers_iff, h.list_dir, ← List.map_dropLast, List.getLast?_map]
  constructor
  · intro seg hseg
    obtain ⟨f, hf, rfl⟩ := List.mem_map.mp hseg
    -- a file that is not the last has the last above it
    obtain ⟨last, hcat⟩ : ∃ last, disk = disk.dropLast ++ [last] :=
      ⟨_, (List.dropLast_concat_getLast (by rintro rfl; cases hf)).symm⟩
    have hlt : f.id < last.id := by
      have hasc := h.asc
      rw [hcat] at hasc
      exact (List.pairwise_append.mp hasc).2.2 f hf last (by simp)
    obtain ⟨recs, hacc, hbytes⟩ := h.full f (List.mem_of_mem_dropLast hf)
      last (by rw [hcat]; simp) hlt
    refine ⟨recs.map WalRecord.logged, ?_⟩
    show Whole f.bytes _
    rw [hbytes]
    exact .accepted hacc
  · intro seg hseg
    rw [Option.map_eq_some_iff] at hseg
    obtain ⟨f, hf, rfl⟩ := hseg
    exact decodes (h.cut f (List.mem_of_getLast? hf))

end Disk.Sound

/-- What a power loss leaves of a file. -/
structure LogFile.Left (f g : LogFile) : Prop where
  id : g.id = f.id
  linked : g.linked = f.linked
  bytes : g.bytes <+: f.bytes
  le : f.synced ≤ g.bytes.length
  synced : g.synced = g.bytes.length

/-- A power loss leaves something of some of the files, in their order. The
induction is on the files: one whose entry was not synced may be gone, any
other is a prefix of what it was, with all that was synced. -/
theorem Disk.powerLoss_left {disk disk' : Disk} {kept : List (Option Nat)}
    (h : disk.powerLoss kept = some disk') :
    (disk'.map LogFile.id).Sublist (disk.map LogFile.id)
      ∧ ∀ g ∈ disk', ∃ f ∈ disk, f.Left g := by
  induction disk generalizing kept disk' with
  | nil =>
      cases kept with
      | nil =>
          cases h
          exact ⟨.slnil, by simp⟩
      | cons k kept => cases h
  | cons f disk ih =>
      cases kept with
      | nil => cases h
      | cons k kept =>
          cases k with
          | none =>
              simp only [powerLoss] at h
              split at h
              · cases h
              · obtain ⟨hsub, hleft⟩ := ih h
                refine ⟨hsub.cons _, fun g hg => ?_⟩
                obtain ⟨f', hf', hl⟩ := hleft g hg
                exact ⟨f', List.mem_cons_of_mem _ hf', hl⟩
          | some n =>
              simp only [powerLoss] at h
              split at h
              · rename_i hn
                rw [Option.map_eq_some_iff] at h
                obtain ⟨rest, hrest, rfl⟩ := h
                obtain ⟨hsub, hleft⟩ := ih hrest
                have hlen : (f.bytes.take n).length = n := by
                  rw [List.length_take]
                  omega
                refine ⟨hsub.cons_cons _, fun g hg => ?_⟩
                rcases List.mem_cons.mp hg with rfl | hg
                · exact ⟨f, List.mem_cons_self, rfl, rfl,
                    List.take_prefix _ _, hlen.symm ▸ hn.1, hlen.symm⟩
                · obtain ⟨f', hf', hl⟩ := hleft g hg
                  exact ⟨f', List.mem_cons_of_mem _ hf', hl⟩
              · cases h

namespace Disk.Sound

variable {disk disk' : Disk}

/-- A power loss leaves a sound directory sound. -/
theorem powerLoss (h : disk.Sound) {kept : List (Option Nat)}
    (hloss : disk.powerLoss kept = some disk') : disk'.Sound := by
  obtain ⟨hsub, hleft⟩ := Disk.powerLoss_left hloss
  refine ⟨fun g hg => ?_, ?_, fun g hg => ?_, fun g hg => ?_,
    fun g hg g' hg' hlt => ?_, fun g hg g' hg' hlt => ?_⟩
  · obtain ⟨f, hf, hl⟩ := hleft g hg
    rw [hl.linked]
    exact h.linked f hf
  · exact List.pairwise_map.mp ((List.pairwise_map.mpr h.asc).sublist hsub)
  · obtain ⟨f, hf, hl⟩ := hleft g hg
    obtain ⟨recs, hacc, hpre⟩ := h.cut f hf
    exact ⟨recs, hacc, hl.bytes.trans hpre⟩
  · obtain ⟨f, -, hl⟩ := hleft g hg
    exact Nat.le_of_eq hl.synced
  · -- a synced file is left whole
    obtain ⟨f, hf, hl⟩ := hleft g hg
    obtain ⟨f', hf', hl'⟩ := hleft g' hg'
    rw [hl.id, hl'.id] at hlt
    obtain ⟨recs, hacc, hbytes⟩ := h.full f hf f' hf' hlt
    have hsynced := h.synced f hf f' hf' hlt
    have hsame : g.bytes = f.bytes :=
      hl.bytes.eq_of_length_le (hsynced ▸ hl.le)
    exact ⟨recs, hacc, hsame.trans hbytes⟩
  · obtain ⟨f, -, hl⟩ := hleft g hg
    exact hl.synced

end Disk.Sound

-- =========================================================== while it runs

/-- The flusher has synced the active segment and created the next, or is
about to. -/
def FlusherPc.sealed : FlusherPc → Bool
  | .rotate .create _ => true
  | .rotate (.syncDir _) _ => true
  | _ => false

/-- Names in a directory: all there, ascending, below a bound. -/
structure Names (entries : List (Nat × Bool)) (bound : Nat) : Prop where
  linked : ∀ e ∈ entries, e.2 = true
  asc : Ascending Prod.fst entries
  below : ∀ e ∈ entries, e.1 < bound

/-- A file that has just been created. -/
theorem Names.snoc {entries : List (Nat × Bool)} {id : Nat}
    (h : Names entries id) : Names (entries ++ [(id, true)]) (id + 1) where
  linked e he := by
    rcases List.mem_append.mp he with he | he
    · exact h.linked e he
    · rw [List.mem_singleton.mp he]
  asc := List.pairwise_append.mpr
    ⟨h.asc, List.pairwise_singleton _ _, fun e he e' he' => by
      rw [List.mem_singleton.mp he']
      exact h.below e he⟩
  below e he := by
    rcases List.mem_append.mp he with he | he
    · exact Nat.lt_succ_of_lt (h.below e he)
    · rw [List.mem_singleton.mp he]
      exact Nat.lt_succ_self id

/-- A running log over `base` older files: the older files and the closed
segments are whole and synced, and the active one is once it is
sealed. -/
structure Live (base : Nat) (disk : Disk) (m : Machine) : Prop where
  names : Names (disk.map LogFile.entry) (m.seg.id + 1 + m.pc.fresh)
  old : ∀ (i : Nat) (f : LogFile), i < base → disk[i]? = some f → f.Full
  le : ∀ (i : Nat) (f : LogFile), disk[i]? = some f →
    f.synced ≤ f.bytes.length
  closed : ∀ (i : Nat) (f : LogFile), i < m.seg.file → disk[i]? = some f →
    f.synced = f.bytes.length
  active : m.pc.sealed = true → ∀ f : LogFile, disk[m.seg.file]? = some f →
    f.synced = f.bytes.length

namespace Disk

variable {disk : Disk} {i file pos : Nat} {f : LogFile} {bs : Bytes}

/-- A file behind `sync`. -/
theorem getElem?_sync (h : (disk.sync file)[i]? = some f) :
    ∃ g, disk[i]? = some g ∧ f.bytes = g.bytes
      ∧ (f.synced = g.synced ∨ f.synced = f.bytes.length)
      ∧ (i = file → f.synced = f.bytes.length) := by
  rw [sync, List.getElem?_modify] at h
  obtain ⟨g, hg, rfl⟩ := Option.map_eq_some_iff.mp h
  refine ⟨g, hg, ?_⟩
  by_cases hi : file = i
  · rw [if_pos hi]
    exact ⟨rfl, .inr rfl, fun _ => rfl⟩
  · rw [if_neg hi]
    exact ⟨rfl, .inl rfl, fun he => absurd he.symm hi⟩

/-- A file behind `sync_dir`. -/
theorem getElem?_syncDir (h : disk.syncDir[i]? = some f) :
    ∃ g, disk[i]? = some g ∧ f.bytes = g.bytes ∧ f.synced = g.synced := by
  rw [syncDir, List.getElem?_map] at h
  obtain ⟨g, hg, rfl⟩ := Option.map_eq_some_iff.mp h
  exact ⟨g, hg, rfl, rfl⟩

/-- A file behind `write`. -/
theorem getElem?_write (h : (disk.write file pos bs)[i]? = some f) :
    ∃ g, disk[i]? = some g ∧ f.synced = g.synced
      ∧ g.bytes.length ≤ f.bytes.length ∧ (i ≠ file → f = g) := by
  rw [write, List.getElem?_modify] at h
  obtain ⟨g, hg, rfl⟩ := Option.map_eq_some_iff.mp h
  refine ⟨g, hg, ?_⟩
  by_cases hi : file = i
  · rw [if_pos hi]
    refine ⟨rfl, ?_, fun he => absurd hi.symm he⟩
    simp only [List.length_append, List.length_take, List.length_replicate,
      List.length_drop]
    omega
  · rw [if_neg hi]
    exact ⟨rfl, Nat.le_refl _, fun _ => rfl⟩

end Disk

namespace Live

variable {cfg : WalConfig} {base : Nat} {log : Log}
  {hand rest : List WalRecord} {disk disk' : Disk} {m m' : Machine} {n : Nat}

/-- The flusher moves on, and the files stay. -/
private theorem goto (h : Live base disk m) (m' : Machine)
    (hfile : m'.seg.file = m.seg.file) (hid : m'.seg.id = m.seg.id)
    (hfresh : m'.pc.fresh = m.pc.fresh)
    (hsealed : m'.pc.sealed = true → m.pc.sealed = true) :
    Live base disk m' where
  names := by
    rw [hid, hfresh]
    exact h.names
  old := h.old
  le := h.le
  closed := by
    rw [hfile]
    exact h.closed
  active hs := by
    rw [hfile]
    exact h.active (hsealed hs)

/-- A file is synced, whoever asks for it. -/
private theorem sync (h : Live base disk m) (file : Nat) :
    Live base (disk.sync file) m where
  names := by
    rw [Disk.map_entry_sync]
    exact h.names
  old i f hi hf := by
    obtain ⟨g, hg, hbytes, -, -⟩ := Disk.getElem?_sync hf
    obtain ⟨recs, hacc, hfull⟩ := h.old i g hi hg
    exact ⟨recs, hacc, hbytes.trans hfull⟩
  le i f hf := by
    obtain ⟨g, hg, hbytes, hsynced, -⟩ := Disk.getElem?_sync hf
    have := h.le i g hg
    rw [← hbytes] at this
    omega
  closed i f hi hf := by
    obtain ⟨g, hg, hbytes, hsynced, -⟩ := Disk.getElem?_sync hf
    have := h.closed i g hi hg
    rw [← hbytes] at this
    omega
  active hs f hf := by
    obtain ⟨g, hg, hbytes, hsynced, -⟩ := Disk.getElem?_sync hf
    have := h.active hs g hg
    rw [← hbytes] at this
    omega

/-- `rotate` creates the next file: those there were are where they were, and
the new one is empty. -/
private theorem create (h : Live base disk m)
    (hsim : Sim base log hand rest disk m) {why : RotateFor}
    (hpc : m.pc = .rotate .create why) :
    Live base (disk ++ [{ id := m.seg.id + 1 }])
      { m with pc := .rotate (.syncDir disk.length) why } := by
  have hlen : m.seg.file < disk.length := by
    have := hsim.size
    rw [hsim.file]
    omega
  have hget : ∀ {i f}, i < disk.length →
      (disk ++ [{ id := m.seg.id + 1 }])[i]? = some f →
      disk[i]? = some f := by
    intro i f hi hf
    rwa [List.getElem?_append_left hi] at hf
  refine ⟨?_, fun i f hi hf => ?_, fun i f hf => ?_, fun i f hi hf => ?_,
    fun _ f hf => ?_⟩
  · have hnames := h.names
    rw [hpc] at hnames
    rw [List.map_append]
    exact hnames.snoc
  · exact h.old i f hi (hget (by have := hsim.size; omega) hf)
  · by_cases hi : i < disk.length
    · exact h.le i f (hget hi hf)
    · rw [List.getElem?_append_right (by omega),
        List.getElem?_singleton] at hf
      split at hf
      · cases hf
        exact Nat.le_refl _
      · cases hf
  · exact h.closed i f hi (hget (Nat.lt_trans hi hlen) hf)
  · exact h.active (by rw [hpc]; rfl) f (hget hlen hf)

/-- The directory is synced, and what was the active segment is closed. -/
private theorem syncDir (h : Live base disk m)
    (hsim : Sim base log hand rest disk m) {why : RotateFor} {file : Nat}
    (hpc : m.pc = .rotate (.syncDir file) why) :
    Live base disk.syncDir { m with
      seg := { id := m.seg.id + 1, file }
      pc := .rotate (.setFile m.seg.id) why } := by
  have hfile := hsim.freshFile file why hpc
  rw [← hsim.file] at hfile
  refine ⟨?_, fun i f hi hf => ?_, fun i f hf => ?_, fun i f hi hf => ?_,
    by intro hcase; cases hcase⟩
  · have hnames := h.names
    rw [hpc] at hnames
    rw [Disk.map_entry_syncDir]
    exact hnames
  · obtain ⟨g, hg, hbytes, -⟩ := Disk.getElem?_syncDir hf
    obtain ⟨recs, hacc, hfull⟩ := h.old i g hi hg
    exact ⟨recs, hacc, hbytes.trans hfull⟩
  · obtain ⟨g, hg, hbytes, hsynced⟩ := Disk.getElem?_syncDir hf
    rw [hbytes, hsynced]
    exact h.le i g hg
  · obtain ⟨g, hg, hbytes, hsynced⟩ := Disk.getElem?_syncDir hf
    rw [hbytes, hsynced]
    rcases Nat.lt_or_ge i m.seg.file with hlt | hge
    · exact h.closed i g hlt hg
    · have hi' : i = m.seg.file := by
        have : i < file := hi
        omega
      exact h.active (by rw [hpc]; rfl) g (hi' ▸ hg)

/-- A piece of a batch: it adds bytes to the active file and syncs none. -/
private theorem write (h : Live base disk m)
    (hsim : Sim base log hand rest disk m) {e done done' pos : Nat}
    {bs : Bytes} (hpc : m.pc = .write e done) :
    Live base (disk.write m.seg.file pos bs)
      { m with pc := .write e done' } := by
  have hbase : base ≤ m.seg.file := by
    rw [hsim.file]
    omega
  refine ⟨?_, fun i f hi hf => ?_, fun i f hf => ?_, fun i f hi hf => ?_,
    by intro hcase; cases hcase⟩
  · have hnames := h.names
    rw [hpc] at hnames
    rw [Disk.map_entry_write]
    exact hnames
  · obtain ⟨g, hg, -, -, hsame⟩ := Disk.getElem?_write hf
    rw [hsame (by omega)]
    exact h.old i g hi hg
  · obtain ⟨g, hg, hsynced, hle, -⟩ := Disk.getElem?_write hf
    have := h.le i g hg
    omega
  · obtain ⟨g, hg, -, -, hsame⟩ := Disk.getElem?_write hf
    rw [hsame (Nat.ne_of_lt hi)]
    exact h.closed i g hi hg

/-- The flusher's part: nothing is written to a file that is sealed, and
what becomes a closed segment is. Five of its transitions touch a file. A
sync seals the active one, which is why the creation behind it may rely on
it; the sync of the directory closes it; a write goes to the active file,
which is not sealed then. For all others the files stay. -/
private theorem flusher (h : Live base disk m)
    (hsim : Sim base log hand rest disk m)
    (hs : FlusherStep cfg n disk m disk' m') : Live base disk' m' := by
  cases hs with
  | sync hpc =>
      have hgoto := (h.sync m.seg.file).goto
        { m with pc := .rotate .sync .cut } rfl rfl (by rw [hpc]; rfl)
        (by intro hcase; cases hcase)
      refine { hgoto with active := fun _ f hf => ?_ }
      obtain ⟨g, -, -, -, hsynced⟩ := Disk.getElem?_sync hf
      exact hsynced rfl
  | create hpc hcreate =>
      obtain ⟨rfl, -⟩ := Disk.create_eq hcreate
      exact h.create hsim hpc
  | syncDir hpc => exact h.syncDir hsim hpc
  | chunk hpc hmore => exact h.write hsim hpc
  | finalSync hpc =>
      exact (h.sync m.seg.file).goto _ rfl rfl (by rw [hpc]; rfl)
        (by intro hcase; cases hcase)
  | @store why closed hpc =>
      cases why <;>
        exact h.goto _ rfl rfl (by rw [hpc]; rfl) (by intro hcase; cases hcase)
  | top hpc | sampleCut hpc | taken hpc _ | serveCut hpc _ | leave hpc _
    | again hpc _ | full hpc _ | room hpc _ | setFile hpc | wrote hpc _
    | publish hpc | clear hpc | finish hpc =>
      exact h.goto _ rfl rfl (by rw [hpc]; rfl) (by intro hcase; cases hcase)

/-- Every step but a removal keeps it so. -/
theorem step (h : Live base disk m) (hsim : Sim base log hand rest disk m)
    {a : Action} (hr : a.remover = none)
    (hs : Wal.step cfg a (disk, m) = some (disk', m')) :
    Live base disk' m' := by
  by_cases ha : ∃ n, a = .flusher n
  · obtain ⟨n, rfl⟩ := ha
    exact h.flusher hsim (.of_step hs)
  · have hno : ∀ n, a ≠ .flusher n := fun n he => ha ⟨n, he⟩
    obtain ⟨hk, -, -⟩ := step_keeps hno hs
    have hseg : m'.seg = m.seg := hk.seg
    have hpc : m'.pc = m.pc := hk.pc
    have hmove : ∀ {d : Disk}, Live base d m → Live base d m' := fun h =>
      h.goto m' (by rw [hseg]) (by rw [hseg]) (by rw [hpc])
        (by rw [hpc]; exact id)
    obtain ⟨-, hdisk⟩ := step_others hno hr hs
    rcases hdisk with rfl | ⟨file, rfl⟩
    · exact hmove h
    · exact hmove (h.sync file)

end Live

/-- The contents of a file created since the log was opened. -/
theorem Sim.file_cases {base i : Nat} {log : Log} {hand rest : List WalRecord}
    {disk : Disk} {m : Machine} {f : LogFile}
    (h : Sim base log hand rest disk m) (hf : disk[base + i]? = some f) :
    (i < log.closed.length ∧ ∃ part ∈ log.closed, f.bytes = logBytes part)
      ∨ (i = log.closed.length
        ∧ f.bytes = logBytes log.active ++ m.spare.take m.pc.done)
      ∨ (log.closed.length < i ∧ f.bytes = []) := by
  have hget : ((disk.map LogFile.bytes).drop base)[i]? = some f.bytes := by
    rw [List.getElem?_drop, List.getElem?_map, hf]
    rfl
  rw [h.bytes] at hget
  rcases Nat.lt_trichotomy i log.closed.length with hlt | heq | hgt
  · rw [List.getElem?_append_left (by simpa using hlt),
      List.getElem?_map, Option.map_eq_some_iff] at hget
    obtain ⟨part, hpart, hbytes⟩ := hget
    exact .inl ⟨hlt, part, List.mem_of_getElem? hpart, hbytes.symm⟩
  · rw [List.getElem?_append_right (by simp [heq]), List.length_map, heq,
      Nat.sub_self, List.getElem?_cons_zero, Option.some.injEq] at hget
    exact .inr (.inl ⟨heq, hget.symm⟩)
  · rw [List.getElem?_append_right (by simp; omega), List.length_map] at hget
    obtain ⟨k, hk⟩ : ∃ k, i - log.closed.length = k + 1 :=
      ⟨i - log.closed.length - 1, by omega⟩
    rw [hk, List.getElem?_cons_succ] at hget
    exact .inr (.inr ⟨hgt,
      List.eq_of_mem_replicate (List.mem_of_getElem? hget)⟩)

/-- A running log is sound. A file with another above it is one of the older
files, a closed segment, or the active one while the next has just been
created; the first two are whole and synced by `Live`, and so is the third,
being sealed, with no batch half written. What is left is the last file,
which has records and a part of the batch. -/
theorem Live.sound {base : Nat} {log : Log} {hand rest : List WalRecord}
    {disk : Disk} {m : Machine} (h : Live base disk m)
    (hsim : Sim base log hand rest disk m) : disk.Sound := by
  have hasc : Ascending LogFile.id disk := by
    have := h.names.asc
    rw [Ascending, List.pairwise_map] at this
    exact this
  have hactive : ∀ rec ∈ log.active ++ hand, rec.Accepted := by
    intro rec hrec
    refine hsim.accepted rec ?_
    rw [Log.accepted, Log.flushed, hsim.pending]
    simp only [List.mem_append] at hrec ⊢
    rcases hrec with hrec | hrec
    · exact .inl (.inr hrec)
    · exact .inr (.inl hrec)
  have hclosed : ∀ part ∈ log.closed, ∀ rec ∈ part, rec.Accepted := by
    intro part hpart rec hrec
    refine hsim.accepted rec ?_
    rw [Log.accepted, Log.flushed]
    exact List.mem_append_left _ (List.mem_append_left _
      (List.mem_flatten_of_mem hpart hrec))
  -- a file with another above it is old, closed, or sealed
  have hbelow : ∀ f ∈ disk, ∀ g ∈ disk, f.id < g.id →
      ∃ i, disk[i]? = some f ∧ i < m.seg.file + m.pc.fresh := by
    intro f hf g hg hlt
    obtain ⟨i, hi, rfl⟩ := List.mem_iff_getElem.mp hf
    obtain ⟨j, hj, rfl⟩ := List.mem_iff_getElem.mp hg
    refine ⟨i, List.getElem?_eq_getElem hi, ?_⟩
    have hij : i < j := by
      by_contra hge
      rcases Nat.lt_or_ge j i with hji | hji
      · have := List.pairwise_iff_getElem.mp hasc j i hj hi hji
        omega
      · have : i = j := by omega
        subst this
        omega
    have := hsim.size
    have := hsim.file
    omega
  -- a second file is there only while the active one is sealed
  have hfresh : m.pc.fresh = 0 ∨ (m.pc.fresh = 1 ∧ m.pc.sealed = true
      ∧ m.pc.done = 0) := by
    cases m.pc with
    | rotate stage why =>
        cases stage <;> first | exact .inl rfl | exact .inr ⟨rfl, rfl, rfl⟩
    | _ => exact .inl rfl
  refine ⟨fun f hf => ?_, hasc, fun f hf => ?_, fun f hf => ?_,
    fun f hf g hg hlt => ?_, fun f hf g hg hlt => ?_⟩
  · exact h.names.linked f.entry (List.mem_map_of_mem hf)
  · obtain ⟨i, hi⟩ := List.mem_iff_getElem?.mp hf
    rcases Nat.lt_or_ge i base with hlt | hge
    · exact (h.old i f hlt hi).cut
    · obtain ⟨j, rfl⟩ := Nat.exists_eq_add_of_le hge
      rcases hsim.file_cases hi with ⟨-, part, hpart, hb⟩ | ⟨-, hb⟩ | ⟨-, hb⟩
      · exact ⟨part, hclosed part hpart, by rw [hb]⟩
      · refine ⟨log.active ++ hand, hactive, ?_⟩
        rw [hb, logBytes_append, ← hsim.hand_eq, ← List.append_assoc]
        exact List.prefix_append _ _
      · exact ⟨[], by simp, by rw [hb]; exact List.nil_prefix⟩
  · obtain ⟨i, hi⟩ := List.mem_iff_getElem?.mp hf
    exact h.le i f hi
  · obtain ⟨i, hi, hlt'⟩ := hbelow f hf g hg hlt
    rcases Nat.lt_or_ge i base with hold | hge
    · exact h.old i f hold hi
    · obtain ⟨j, rfl⟩ := Nat.exists_eq_add_of_le hge
      have hfile := hsim.file
      rcases hsim.file_cases hi with ⟨-, part, hpart, hb⟩ | ⟨hj, hb⟩ | ⟨-, hb⟩
      · exact ⟨part, hclosed part hpart, hb⟩
      · refine ⟨log.active, fun rec hrec =>
          hactive rec (List.mem_append_left _ hrec), ?_⟩
        rcases hfresh with h0 | ⟨-, -, hdone⟩
        · omega
        · rw [hb, hdone]
          simp
      · exact ⟨[], by simp, hb⟩
  · obtain ⟨i, hi, hlt'⟩ := hbelow f hf g hg hlt
    rcases Nat.lt_or_ge i m.seg.file with hlow | hge
    · exact h.closed i f hlow hi
    · rcases hfresh with h0 | ⟨h1, hsealed, -⟩
      · omega
      · have : i = m.seg.file := by omega
        exact h.active hsealed f (this ▸ hi)

-- ============================================================ while it opens

namespace Disk.Sound

variable {disk disk' : Disk} {id : Nat}

/-- The last file has the highest id. -/
theorem le_last (h : disk.Sound) {f : LogFile}
    (hf : disk.getLast? = some f) : ∀ g ∈ disk, g.id ≤ f.id := by
  intro g hg
  obtain ⟨front, rfl⟩ := List.getLast?_eq_some_iff.mp hf
  rcases List.mem_append.mp hg with hg | hg
  · exact Nat.le_of_lt
      ((List.pairwise_append.mp h.asc).2.2 g hg f List.mem_cons_self)
  · rw [List.mem_singleton.mp hg]

theorem eq_of_id (h : disk.Sound) {f g : LogFile} (hf : f ∈ disk)
    (hg : g ∈ disk) (hid : f.id = g.id) : f = g := by
  have hnd : (disk.map LogFile.id).Nodup :=
    (List.pairwise_map.mpr h.asc).imp Nat.ne_of_lt
  exact List.inj_on_of_nodup_map hnd hf hg hid

/-- Only the file with the highest id changes, in contents or in what is
synced. Soundness asks nothing else of that file than to be a cut of
accepted records, and of the others nothing new. -/
theorem map_last (h : disk.Sound) (change : LogFile → LogFile)
    (hid : ∀ f, (change f).id = f.id)
    (hlinked : ∀ f, (change f).linked = f.linked)
    (hstay : ∀ f ∈ disk, (∃ g ∈ disk, f.id < g.id) →
      (change f).bytes = f.bytes ∧ (change f).synced = f.synced)
    (hlast : ∀ f ∈ disk, (∀ g ∈ disk, g.id ≤ f.id) →
      (change f).Cut ∧ (change f).synced ≤ (change f).bytes.length) :
    Disk.Sound (disk.map change) := by
  have hfront : ∀ f ∈ disk, ∀ g ∈ disk, f.id < g.id →
      (change f).Full ∧ (change f).synced = (change f).bytes.length := by
    intro f hf g hg hlt
    obtain ⟨hbytes, hsynced⟩ := hstay f hf ⟨g, hg, hlt⟩
    obtain ⟨recs, hacc, hfull⟩ := h.full f hf g hg hlt
    refine ⟨⟨recs, hacc, hbytes.trans hfull⟩, ?_⟩
    rw [hbytes, hsynced]
    exact h.synced f hf g hg hlt
  have hone : ∀ f ∈ disk,
      (change f).Cut ∧ (change f).synced ≤ (change f).bytes.length := by
    intro f hf
    by_cases hg : ∃ g ∈ disk, f.id < g.id
    · obtain ⟨g, hg, hlt⟩ := hg
      obtain ⟨hfull, hsynced⟩ := hfront f hf g hg hlt
      exact ⟨hfull.cut, Nat.le_of_eq hsynced⟩
    · exact hlast f hf fun g hg' =>
        Nat.le_of_not_lt fun hlt => hg ⟨g, hg', hlt⟩
  refine ⟨?_, ?_, ?_, ?_, ?_, ?_⟩
  · rw [List.forall_mem_map]
    exact fun f hf => (hlinked f).trans (h.linked f hf)
  · refine List.pairwise_map.mpr (h.asc.imp ?_)
    intro a b hab
    rwa [hid, hid]
  · rw [List.forall_mem_map]
    exact fun f hf => (hone f hf).1
  · rw [List.forall_mem_map]
    exact fun f hf => (hone f hf).2
  · simp only [List.forall_mem_map, hid]
    exact fun f hf g hg hlt => (hfront f hf g hg hlt).1
  · simp only [List.forall_mem_map, hid]
    exact fun f hf g hg hlt => (hfront f hf g hg hlt).2

/-- A file below another one is not the one a call is about. -/
private theorem others (hle : ∀ g ∈ disk, g.id ≤ id) {f : LogFile}
    (hlt : ∃ g ∈ disk, f.id < g.id) : (f.linked && f.id == id) = false := by
  obtain ⟨g, hg, hlt⟩ := hlt
  have := hle g hg
  simp only [Bool.and_eq_false_imp, beq_eq_false_iff_ne]
  intro _
  omega

private theorem named (h : disk.Sound) {f : LogFile} (hf : f ∈ disk)
    (hid : f.id = id) : (f.linked && f.id == id) = true := by
  rw [h.linked f hf, hid]
  simp

/-- The last file is cut behind its whole records, and is whole. Only the
file with the id changes, and the offset is where the scan of its bytes has
ended. -/
theorem setLen (h : disk.Sound) {offset : Nat} (hle : ∀ g ∈ disk, g.id ≤ id)
    (hoffset : ∀ f ∈ disk, f.id = id →
      offset = (records.scan f.bytes).used.length) :
    (disk.setLen id offset).Sound
      ∧ ((∃ f ∈ disk, f.id = id) → ∃ f ∈ disk.setLen id offset, f.id = id)
      ∧ (∀ g ∈ disk.setLen id offset, g.id ≤ id)
      ∧ ∀ f ∈ disk.setLen id offset, f.id = id → f.Full := by
  have hcut : ∀ f ∈ disk, f.id = id →
      Wal.setLen f.bytes offset = (records.scan f.bytes).used := by
    intro f hf hid
    have hpre := records.used_prefix f.bytes
    rw [hoffset f hf hid, Wal.setLen, ← List.prefix_iff_eq_take.mp hpre,
      Nat.sub_eq_zero_of_le hpre.length_le, List.replicate_zero,
      List.append_nil]
  refine ⟨h.map_last _ (fun f => by split <;> rfl)
    (fun f => by split <;> rfl) (fun f hf hlt => ?_) (fun f hf hmax => ?_),
    ?_, ?_, ?_⟩
  · rw [if_neg (by simp [others hle hlt])]
    exact ⟨rfl, rfl⟩
  · by_cases hid : f.id = id
    · rw [if_pos (h.named hf hid)]
      refine ⟨(full_used (h.cut f hf) (hcut f hf hid)).cut, ?_⟩
      show min f.synced offset ≤ (Wal.setLen f.bytes offset).length
      rw [hcut f hf hid, ← hoffset f hf hid]
      exact Nat.min_le_right _ _
    · rw [if_neg (by simp [hid])]
      exact ⟨h.cut f hf, h.le f hf⟩
  · rintro ⟨f, hf, hid⟩
    exact ⟨_, List.mem_map_of_mem hf, by split <;> exact hid⟩
  · rw [Disk.setLen, List.forall_mem_map]
    intro f hf
    split <;> exact hle f hf
  · rw [Disk.setLen, List.forall_mem_map]
    intro f hf hid
    have hid' : f.id = id := by
      revert hid
      split <;> exact fun hid => hid
    rw [if_pos (h.named hf hid')]
    exact full_used (h.cut f hf) (hcut f hf hid')

/-- The last file is synced, and stays the last. -/
theorem syncAll (h : disk.Sound) (hle : ∀ g ∈ disk, g.id ≤ id)
    (hfull : ∀ f ∈ disk, f.id = id → f.Full) :
    (disk.syncAll id).Sound ∧ (∀ f ∈ disk.syncAll id, f.id ≤ id)
      ∧ ((∃ f ∈ disk, f.id = id) → ∀ f ∈ disk.syncAll id,
        (∀ g ∈ disk.syncAll id, g.id ≤ f.id) → f.Full) := by
  have hsame : ∀ f : LogFile,
      (if f.linked && f.id == id then
        { f with synced := f.bytes.length } else f).id = f.id
      ∧ (if f.linked && f.id == id then
        { f with synced := f.bytes.length } else f).bytes = f.bytes := by
    intro f
    split <;> exact ⟨rfl, rfl⟩
  refine ⟨h.map_last _ (fun f => (hsame f).1) (fun f => by split <;> rfl)
    (fun f hf hlt => ?_) (fun f hf hmax => ?_), ?_, ?_⟩
  · rw [if_neg (by simp [others hle hlt])]
    exact ⟨rfl, rfl⟩
  · split
    · exact ⟨h.cut f hf, Nat.le_refl _⟩
    · exact ⟨h.cut f hf, h.le f hf⟩
  · rw [Disk.syncAll, List.forall_mem_map]
    intro f hf
    rw [(hsame f).1]
    exact hle f hf
  · rintro ⟨f₀, hf₀, hid₀⟩
    simp only [Disk.syncAll, List.forall_mem_map, hsame]
    intro f hf hmax
    have hid : f.id = id :=
      Nat.le_antisymm (hle f hf) (hid₀ ▸ hmax f₀ hf₀)
    obtain ⟨recs, hacc, hbytes⟩ := hfull f hf hid
    exact ⟨recs, hacc, (hsame f).2.trans hbytes⟩

theorem syncDir (h : disk.Sound) : disk.syncDir.Sound :=
  h.map_last (fun f => { f with durable := true }) (fun _ => rfl)
    (fun _ => rfl) (fun _ _ _ => ⟨rfl, rfl⟩)
    fun f hf _ => ⟨h.cut f hf, h.le f hf⟩

/-- A segment is created behind files that are all whole and synced. -/
theorem create (h : disk.Sound) {next : Nat}
    (hnext : ∀ f ∈ disk, f.id < next)
    (hfull : ∀ f ∈ disk, (∀ g ∈ disk, g.id ≤ f.id) → f.Full)
    (hsynced : disk.LastSynced) :
    Disk.Sound (disk ++ [{ id := next }]) := by
  have hfront : ∀ f ∈ disk, f.Full ∧ f.synced = f.bytes.length := by
    intro f hf
    by_cases hg : ∃ g ∈ disk, f.id < g.id
    · obtain ⟨g, hg, hlt⟩ := hg
      exact ⟨h.full f hf g hg hlt, h.synced f hf g hg hlt⟩
    · have hmax : ∀ g ∈ disk, g.id ≤ f.id := fun g hg' =>
        Nat.le_of_not_lt fun hlt => hg ⟨g, hg', hlt⟩
      exact ⟨hfull f hf hmax, hsynced f hf hmax⟩
  -- the new file is the last one
  have hcases : ∀ f ∈ disk ++ [{ id := next }],
      f ∈ disk ∨ f = { id := next } := by
    intro f hf
    rwa [List.mem_append, List.mem_singleton] at hf
  have hnew : LogFile.Full { id := next } := ⟨[], by simp, rfl⟩
  have hall : ∀ f ∈ disk ++ [{ id := next }],
      f.Full ∧ f.synced = f.bytes.length := by
    intro f hf
    rcases hcases f hf with hf | rfl
    · exact hfront f hf
    · exact ⟨hnew, rfl⟩
  refine ⟨fun f hf => ?_, ?_, fun f hf => (hall f hf).1.cut,
    fun f hf => Nat.le_of_eq (hall f hf).2, fun f hf g _ _ => (hall f hf).1,
    fun f hf g _ _ => (hall f hf).2⟩
  · rcases hcases f hf with hf | rfl
    · exact h.linked f hf
    · rfl
  · refine List.pairwise_append.mpr
      ⟨h.asc, List.pairwise_singleton _ _, fun a ha b hb => ?_⟩
    rw [List.mem_singleton.mp hb]
    exact hnext a ha

end Disk.Sound

/-- What a process knows of the files while it opens the log, and while it
runs it. -/
def Phase.Ok (disk : Disk) : Phase → Prop
  | .down => True
  | .opening (.setLen id offset next) => next = id + 1
      ∧ (∃ f ∈ disk, f.id = id) ∧ (∀ g ∈ disk, g.id ≤ id)
      ∧ ∀ f ∈ disk, f.id = id →
        offset = (records.scan f.bytes).used.length
  | .opening (.syncAll id next) => next = id + 1
      ∧ (∃ f ∈ disk, f.id = id) ∧ (∀ g ∈ disk, g.id ≤ id)
      ∧ ∀ f ∈ disk, f.id = id → f.Full
  | .opening (.create next) => (∀ f ∈ disk, f.id < next)
      ∧ ∀ f ∈ disk, (∀ g ∈ disk, g.id ≤ f.id) → f.Full
  | .opening (.syncDir id file) =>
      ∃ before : Disk, disk = before ++ [{ id := id }]
        ∧ file = before.length
  | .running m => ∃ base log hand rest,
      Sim base log hand rest disk m ∧ Live base disk m

structure Process.Ok (p : Process) : Prop where
  sound : p.disk.Sound
  phase : p.phase.Ok p.disk

namespace Process.Ok

variable {cfg : WalConfig} {p p' : Process}

/-- What `replay` of a sound directory leaves to do. -/
theorem replay_next {disk : Disk} (h : disk.Sound)
    (reads : Nat → Nat → Nat) :
    ∃ report, (Wal.replay recording reads disk.dir []).1 = .ok report
      ∧ Opening.next report = match disk.getLast? with
        | none => .create 1
        | some f =>
            if (records.scan f.bytes).stop = none then .create (f.id + 1)
            else .setLen f.id (records.scan f.bytes).used.length
              (f.id + 1) := by
  obtain ⟨recs, hrec⟩ := h.recovers
  refine ⟨_, by rw [replay_ok recording reads (ids_nodup h.dir_ascending)
    hrec], ?_⟩
  rw [Opening.next]
  simp only [reportOf, torn, h.list_dir, List.getLast?_map]
  cases disk.getLast? with
  | none => rfl
  | some f =>
      simp only [Option.map_some, Option.bind_some]
      by_cases hstop : (records.scan f.bytes).stop = none
      · rw [if_pos hstop, if_pos hstop]
        rfl
      · rw [if_neg hstop, if_neg hstop]
        rfl

theorem step_replay (cfg : WalConfig) {disk : Disk} (h : disk.Sound)
    (reads : Nat → Nat → Nat) :
    Process.step cfg (.replay reads) ⟨disk, .down⟩
      = some ⟨disk, .opening (match disk.getLast? with
        | none => .create 1
        | some f =>
            if (records.scan f.bytes).stop = none then .create (f.id + 1)
            else .setLen f.id (records.scan f.bytes).used.length
              (f.id + 1))⟩ := by
  obtain ⟨report, hr, hnext⟩ := replay_next h reads
  simp only [Process.step, hr, hnext]

/-- Behind `replay`: what is to be cut is cut off the last file. -/
theorem replayed {disk : Disk} (h : disk.Sound) {reads : Nat → Nat → Nat}
    {report : RecoveryReport}
    (hr : (Wal.replay recording reads disk.dir []).1 = .ok report) :
    (Phase.opening (.next report)).Ok disk := by
  obtain ⟨report', hr', hnext⟩ := replay_next h reads
  rw [hr] at hr'
  cases hr'
  rw [hnext]
  cases hlast : disk.getLast? with
  | none =>
      rw [List.getLast?_eq_none_iff] at hlast
      subst hlast
      exact ⟨by simp, by simp⟩
  | some f =>
      have hle := h.le_last hlast
      have hmem := List.mem_of_getLast? hlast
      simp only
      by_cases hstop : (records.scan f.bytes).stop = none
      · rw [if_pos hstop]
        refine ⟨fun g hg => Nat.lt_succ_of_le (hle g hg), fun g hg hmax => ?_⟩
        have hid : g.id = f.id := Nat.le_antisymm (hle g hg) (hmax f hmem)
        rw [h.eq_of_id hg hmem hid]
        exact Disk.Sound.full_used (h.cut f hmem)
          (Lib.Framing.stop_eq_none.mp hstop).symm
      · rw [if_neg hstop]
        refine ⟨rfl, ⟨f, hmem, rfl⟩, hle, fun g hg hid => ?_⟩
        rw [h.eq_of_id hg hmem hid]

/-- Behind `sync_dir`: the log runs. The files in front of the one that was
created have lower ids, so by soundness they are whole and synced, which is
what `Live` asks of the older files. -/
theorem started {before : Disk} {id : Nat}
    (h : Disk.Sound (before ++ [{ id := id }] : Disk).syncDir) :
    (Phase.running (.start id before.length)).Ok
      (before ++ [{ id := id }] : Disk).syncDir := by
  have hcat : Disk.syncDir (before ++ [{ id := id }])
      = Disk.syncDir before ++ [{ id := id, durable := true }] := by
    simp [Disk.syncDir]
  have hlen : (Disk.syncDir before).length = before.length :=
    Disk.length_syncDir before
  have hsim := Sim.start (Disk.syncDir before)
    { id := id, durable := true } rfl
  rw [← hcat, hlen] at hsim
  refine ⟨before.length, _, [], [], hsim, ?_⟩
  rw [hcat] at h ⊢
  have hasc := List.pairwise_append.mp h.asc
  -- the id of the new file is above all others
  have hbelow : ∀ f ∈ Disk.syncDir before, f.id < id := fun f hf =>
    hasc.2.2 f hf _ List.mem_cons_self
  have hold : ∀ {i f}, i < before.length →
      (Disk.syncDir before ++ [{ id := id, durable := true }])[i]? = some f →
      f ∈ Disk.syncDir before := by
    intro i f hi hf
    rw [List.getElem?_append_left (by omega)] at hf
    exact List.mem_of_getElem? hf
  refine ⟨⟨?_, ?_, ?_⟩, fun i f hi hf => ?_, fun i f hf => ?_,
    fun i f hi hf => ?_, by intro hcase; cases hcase⟩
  · rw [List.forall_mem_map]
    exact h.linked
  · exact List.pairwise_map.mpr h.asc
  · rw [List.forall_mem_map]
    intro f hf
    show f.id < id + 1
    rcases List.mem_append.mp hf with hf | hf
    · exact Nat.lt_succ_of_lt (hbelow f hf)
    · rw [List.mem_singleton.mp hf]
      exact Nat.lt_succ_self _
  · have hmem := hold hi hf
    exact h.full f (List.mem_append_left _ hmem) _
      (List.mem_append_right _ List.mem_cons_self) (hbelow f hmem)
  · exact h.le f (List.mem_of_getElem? hf)
  · have hmem := hold hi hf
    exact h.synced f (List.mem_append_left _ hmem) _
      (List.mem_append_right _ List.mem_cons_self) (hbelow f hmem)

/-- Every step keeps the directory sound, if the last file is synced
whenever `Wal::open` creates the next. Each event is allowed in one phase
only, and there the case is one of the lemmas above; a process that stops
leaves the files as they are. -/
theorem step (h : p.Ok) {e : Event} (hs : p.step cfg e = some p')
    (hc : e = .create → p.disk.LastSynced) : p'.Ok := by
  obtain ⟨disk, phase⟩ := p
  obtain ⟨hsound, hphase⟩ := h
  simp only at hsound hphase hc
  cases e with
  | replay reads =>
      cases phase with
      | down =>
          simp only [Process.step] at hs
          split at hs
          · cases hs
            exact ⟨hsound, trivial⟩
          · rename_i report hr
            cases hs
            exact ⟨hsound, replayed hsound hr⟩
      | _ => cases hs
  | setLen =>
      cases phase with
      | opening stage =>
          cases stage with
          | setLen id offset next =>
              cases hs
              obtain ⟨rfl, hin, hle, hoffset⟩ := hphase
              obtain ⟨hsound', hin', hle', hfull⟩ := hsound.setLen hle hoffset
              exact ⟨hsound', rfl, hin' hin, hle', hfull⟩
          | _ => cases hs
      | _ => cases hs
  | syncAll =>
      cases phase with
      | opening stage =>
          cases stage with
          | syncAll id next =>
              cases hs
              obtain ⟨rfl, hin, hle, hfull⟩ := hphase
              obtain ⟨hsound', hle', hfull'⟩ := hsound.syncAll hle hfull
              exact ⟨hsound', fun f hf => Nat.lt_succ_of_le (hle' f hf),
                hfull' hin⟩
          | _ => cases hs
      | _ => cases hs
  | create =>
      cases phase with
      | opening stage =>
          cases stage with
          | create next =>
              simp only [Process.step] at hs
              rw [Option.map_eq_some_iff] at hs
              obtain ⟨disk', hcreate, rfl⟩ := hs
              obtain ⟨rfl, -⟩ := Disk.create_eq hcreate
              obtain ⟨hnext, hfull⟩ := hphase
              exact ⟨hsound.create hnext hfull (hc rfl), disk, rfl, rfl⟩
          | _ => cases hs
      | _ => cases hs
  | syncDir =>
      cases phase with
      | opening stage =>
          cases stage with
          | syncDir id file =>
              cases hs
              obtain ⟨before, rfl, rfl⟩ := hphase
              have hsound' := hsound.syncDir
              exact ⟨hsound', started hsound'⟩
          | _ => cases hs
      | _ => cases hs
  | act a =>
      cases phase with
      | running m =>
          simp only [Process.step] at hs
          split at hs
          · rename_i hr
            rw [Option.map_eq_some_iff] at hs
            obtain ⟨⟨disk', m'⟩, hstep, rfl⟩ := hs
            obtain ⟨base, log, hand, rest, hsim, hlive⟩ := hphase
            obtain ⟨-, log', -, -, hand', rest', hsim'⟩ := hsim.step hstep
            have hlive' := hlive.step hsim hr hstep
            exact ⟨hlive'.sound hsim', base, log', hand', rest', hsim',
              hlive'⟩
          · cases hs
      | _ => cases hs
  | crash =>
      cases phase <;> cases hs <;> exact ⟨hsound, trivial⟩
  | powerLoss kept =>
      have hloss : (disk.powerLoss kept).map (fun disk => ({ disk } : Process))
          = some p' := by
        cases phase <;> exact hs
      rw [Option.map_eq_some_iff] at hloss
      obtain ⟨disk', hloss, rfl⟩ := hloss
      exact ⟨hsound.powerLoss hloss, trivial⟩

end Process.Ok

-- ================================================================ over runs

section Runs

variable {cfg : WalConfig} {as : List Event} {p : Process}

theorem Process.Ok.stepSynced {e : Event} {p' : Process} (h : p.Ok)
    (hs : p.stepSynced cfg e = some p') : p'.Ok := by
  by_cases he : e = .create
  · subst he
    simp only [Process.stepSynced] at hs
    split at hs
    · rename_i hsynced
      exact h.step hs fun _ => hsynced
    · cases hs
  · have hsame : p.stepSynced cfg e = p.step cfg e := by
      cases e <;> first | rfl | exact absurd rfl he
    exact h.step (hsame ▸ hs) fun h => absurd h he

/-- Processes open the log, run it and stop, by themselves or with the
power, at any step. If the last segment was synced whenever `Wal::open`
created the next, every segment but the last is whole records, and the
log opens. -/
theorem open_recovers (hrun : Run (Process.stepSynced cfg) {} as p) :
    (∀ seg ∈ (list p.disk.dir).dropLast, ∃ recs, Whole seg.bytes recs)
    ∧ ∀ (σ : Type) (ops : ReplaySink σ) (reads : Nat → Nat → Nat) (sink : σ),
        ∃ report, (replay ops reads p.disk.dir sink).1 = .ok report := by
  have hok : p.Ok := Run.invariant (P := fun _ p => p.Ok) ⟨.nil, trivial⟩
    (fun _ h hs => h.stepSynced hs) hrun
  obtain ⟨recs, hrec⟩ := hok.sound.recovers
  refine ⟨(recovers_iff.mp ⟨recs, hrec⟩).1, fun σ ops reads sink => ?_⟩
  exact ⟨_, by
    rw [replay_ok ops reads (ids_nodup hok.sound.dir_ascending) hrec]⟩

/-- A run that goes on with `exec`, from one known state to another. -/
theorem Process.exec_known {step : Event → Process → Option Process}
    {as bs : List Event} {p q : Process} {disk : Disk}
    (hrun : Run step p as q)
    (h : (exec step bs q).map (fun r =>
      (r.disk, match r.phase with | .down => true | _ => false))
      = some (disk, true)) : Run step p (as ++ bs) ⟨disk, .down⟩ := by
  rw [Option.map_eq_some_iff] at h
  obtain ⟨⟨disk', phase⟩, hexec, heq⟩ := h
  simp only [Prod.mk.injEq] at heq
  obtain ⟨rfl, hdown⟩ := heq
  cases phase with
  | down => exact hrun.append (Run.of_exec hexec)
  | _ => cases hdown

/-- A record is being written when the power fails; the log is cut, and
opens. The run appends and writes ten bytes of it, which are no record, so
the replay finds nothing and has something to cut: the events go on through
`set_len` and `sync_all` to the next segment. -/
theorem open_recovers_torn :
    let rec₀ : WalRecord := ⟨[], [⟨7, [⟨1, 2⟩]⟩]⟩
    let reads : Nat → Nat → Nat := fun _ _ => 1
    let first : List Event :=
      [.create, .syncDir, .act (.append rec₀ (.ok 45)), .act (.flusher 0),
        .act (.flusher 0), .act (.flusher 0), .act (.flusher 0),
        .act (.flusher 20), .powerLoss [some 10]]
    let second : List Event := [.setLen, .syncAll, .create, .crash]
    ∃ p, Run (Process.stepSynced ⟨1000, 10⟩) {}
        ([.replay reads] ++ first ++ [.replay reads] ++ second) p
      ∧ p.disk.map LogFile.bytes = [[], []]
      ∧ ∃ report, (replay recording reads p.disk.dir []).1 = .ok report := by
  intro rec₀ reads first second
  let left : LogFile := {
    id := 1
    bytes := (recordBytes rec₀).take 10
    synced := 10
    durable := true }
  let cut : LogFile := { id := 1, durable := true }
  have h₁ : Run (Process.stepSynced ⟨1000, 10⟩) {} [.replay reads]
      ⟨[], .opening (.create 1)⟩ :=
    .cons (Process.Ok.step_replay ⟨1000, 10⟩ .nil reads) .nil
  have h₂ : Run (Process.stepSynced ⟨1000, 10⟩) {} ([.replay reads] ++ first)
      ⟨[left], .down⟩ :=
    Process.exec_known h₁ (by decide +kernel)
  have hok : Process.Ok ⟨[left], .down⟩ := Run.invariant
    (P := fun _ p => p.Ok) ⟨.nil, trivial⟩ (fun _ h hs => h.stepSynced hs) h₂
  -- ten bytes are no record
  have hscan : (records.scan left.bytes).stop ≠ none
      ∧ (records.scan left.bytes).used = [] := by
    decide +kernel
  have hstep := Process.Ok.step_replay ⟨1000, 10⟩ hok.sound reads
  simp only [List.getLast?_singleton, if_neg hscan.1, hscan.2] at hstep
  have h₃ : Run (Process.stepSynced ⟨1000, 10⟩) {}
      ([.replay reads] ++ first ++ [.replay reads] ++ second)
      ⟨[cut, { id := 2 }], .down⟩ :=
    Process.exec_known (.snoc h₂ hstep) (by decide +kernel)
  exact ⟨_, h₃, by decide, (open_recovers h₃).2 _ recording reads []⟩

/-- Without the condition: a process stops with a record written and not
synced, the next one opens the log, which creates a segment behind it,
and a power loss takes the end of the record. Now the torn segment is not
the last, and the log does not open. -/
theorem open_corrupts :
    let rec₀ : WalRecord := ⟨[], [⟨7, [⟨1, 2⟩]⟩]⟩
    let reads : Nat → Nat → Nat := fun _ _ => 1
    let first : List Event :=
      [.create, .syncDir, .act (.append rec₀ (.ok 45)), .act (.flusher 0),
        .act (.flusher 0), .act (.flusher 0), .act (.flusher 0),
        .act (.flusher 45), .act (.flusher 0), .crash]
    let second : List Event := [.create, .syncDir, .powerLoss [some 3, some 0]]
    ∃ p, Run (Process.step ⟨1000, 10⟩) {}
        ([.replay reads] ++ first ++ [.replay reads] ++ second) p
      ∧ ∃ id offset why, (replay recording reads p.disk.dir []).1
        = .error (.corrupt id offset why) := by
  intro rec₀ reads first second
  let whole : LogFile := {
    id := 1
    bytes := recordBytes rec₀
    durable := true }
  let torn : LogFile := {
    id := 1
    bytes := (recordBytes rec₀).take 3
    synced := 3
    durable := true }
  have h₁ : Run (Process.step ⟨1000, 10⟩) {} [.replay reads]
      ⟨[], .opening (.create 1)⟩ :=
    .cons (Process.Ok.step_replay ⟨1000, 10⟩ .nil reads) .nil
  have h₂ : Run (Process.step ⟨1000, 10⟩) {} ([.replay reads] ++ first)
      ⟨[whole], .down⟩ :=
    Process.exec_known h₁ (by decide +kernel)
  have hsound : Disk.Sound [whole] := by
    refine ⟨by decide, List.pairwise_singleton _ _, ?_, by decide, ?_, ?_⟩
    · simp only [List.mem_singleton, forall_eq]
      refine ⟨[rec₀], by decide +kernel, ?_⟩
      rw [logBytes_singleton]
    · simp
    · simp
  have hscan : (records.scan whole.bytes).stop = none := by decide +kernel
  have hstep := Process.Ok.step_replay ⟨1000, 10⟩ hsound reads
  simp only [List.getLast?_singleton, if_pos hscan] at hstep
  have h₃ : Run (Process.step ⟨1000, 10⟩) {}
      ([.replay reads] ++ first ++ [.replay reads] ++ second)
      ⟨[torn, { id := 2, durable := true }], .down⟩ :=
    Process.exec_known (.snoc h₂ hstep) (by decide +kernel)
  have hlist : list (Disk.dir [torn, { id := 2, durable := true }])
      = [⟨1, torn.bytes⟩, ⟨2, []⟩] :=
    list_eq (List.Perm.refl _) (by decide)
  have htorn : (records.scan torn.bytes).stop ≠ none := by decide +kernel
  refine ⟨_, h₃, (replay_error recording reads (by decide) (fun recs h => ?_)
    []).1⟩
  rw [hlist] at h
  obtain ⟨recs', hw⟩ := (recovers_iff.mp ⟨recs, h⟩).1 ⟨1, torn.bytes⟩
    List.mem_cons_self
  exact htorn (whole_iff.mp hw).1

end Runs

end Tsdb.Wal
