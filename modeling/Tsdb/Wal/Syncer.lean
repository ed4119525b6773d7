/-
What the syncer has synced.

`sync_loop` reads the published LSN, then takes the file that is the active
one by then, and syncs it. The file may be newer than the one the LSN is
in, or no longer the active one; but `rotate` syncs a file before it
creates the next, and hands the next to the syncer before anything is
written to it. So a file the syncer can get hold of has, with those before
it, all that was published (`Sealed`), and behind the sync none of it is
lost (`synced_durable`).

# Files only get better

`Disk.Later` is the frame: behind a step every file is no shorter than it
was, and as long as before unless it is the one written to; what is synced
of it is what was, or all. It holds of every step
(`step_later`), and all clauses about files in front of the active one are
carried by it.

# The two invariants

`Sealed` is about the flusher: all files in front of the active one are
synced, the active one too while it is being closed, and the file the
syncer can get is the active one, or the one before it as long as nothing
has been written to the active one (`handle`, `empty`). So what is
published ends within the file the syncer can get (`Sealed.published`).

`SyncerPc.Knows` is about the syncer, by where it stands: the LSN it has
read is published; the file it has taken ends behind that LSN; what it has
synced reaches to it. From the second to the third is the sync itself, of
a file that may have been closed in the meantime, and then was synced
before. `Reached` counts bytes over the files, and `Later` does not take
any away.

# The power loss

Files that are synced are left as they are, and of the one behind them at
least what is synced is left (`powerLoss_synced`). That is a prefix of
what was logged, up to the LSN at least.
-/
import Tsdb.Wal.Crash

namespace Tsdb.Wal

open Lib (Bytes Run exec)

-- ================================================================= the files

/-- A file behind a step: it is no shorter, and as long as it was unless it
is written to, and what is synced is what was, or all. -/
structure LogFile.Next (f f' : LogFile) (busy : Prop) : Prop where
  bytes : f.bytes.length ≤ f'.bytes.length
  still : ¬busy → f'.bytes.length = f.bytes.length
  synced : f'.synced = f.synced ∨ f'.synced = f'.bytes.length
  durable : f.durable = true → f'.durable = true

theorem LogFile.Next.refl (f : LogFile) (busy : Prop) : f.Next f busy :=
  ⟨Nat.le_refl _, fun _ => rfl, .inl rfl, fun h => h⟩

/-- The files behind a step: those that were there, and new ones. -/
structure Disk.Later (disk : Disk) (busy : Nat → Prop) (disk' : Disk) :
    Prop where
  kept : ∀ (i : Nat) (f : LogFile), disk[i]? = some f →
    ∃ f', disk'[i]? = some f' ∧ f.Next f' (busy i)
  new : ∀ (i : Nat) (f' : LogFile), disk.length ≤ i →
    disk'[i]? = some f' → f'.synced = 0

/-- The flusher is within `write_all`. -/
def FlusherPc.writing : FlusherPc → Bool
  | .write _ _ => true
  | _ => false

namespace Disk.Later

variable {disk disk' : Disk} {busy : Nat → Prop}

theorem refl (disk : Disk) : disk.Later busy disk := by
  refine ⟨fun i f hf => ⟨f, hf, .refl f _⟩, fun i f' hi hf => ?_⟩
  rw [List.getElem?_eq_none hi] at hf
  cases hf

/-- A change of each file by itself. -/
theorem map (change : Nat → LogFile → LogFile)
    (hget : ∀ i : Nat, disk'[i]? = disk[i]?.map (change i))
    (hchange : ∀ (i : Nat) (f : LogFile), f.Next (change i f) (busy i)) :
    disk.Later busy disk' := by
  refine ⟨fun i f hf => ⟨change i f, ?_, hchange i f⟩, fun i f' hi hf => ?_⟩
  · rw [hget, hf]
    rfl
  · rw [hget, List.getElem?_eq_none hi] at hf
    cases hf

theorem sync (disk : Disk) (file : Nat) : disk.Later busy (disk.sync file) := by
  refine map (fun i f => if file = i then _ else f)
    (fun i => List.getElem?_modify _ _ _ _) fun i f => ?_
  split
  · exact ⟨Nat.le_refl _, fun _ => rfl, .inr rfl, fun h => h⟩
  · exact .refl f _

theorem syncDir (disk : Disk) : disk.Later busy disk.syncDir :=
  map (fun _ f => { f with durable := true })
    (fun _ => List.getElem?_map ..)
    fun _ _ => ⟨Nat.le_refl _, fun _ => rfl, .inl rfl, fun _ => rfl⟩

theorem create {id : Nat} (h : disk.create id = some disk') :
    disk.Later busy disk' := by
  obtain ⟨rfl, -⟩ := Disk.create_eq h
  refine ⟨fun i f hf => ⟨f, ?_, .refl f _⟩, fun i f' hi hf => ?_⟩
  · obtain ⟨hi, -⟩ := List.getElem?_eq_some_iff.mp hf
    rwa [List.getElem?_append_left hi]
  · rw [List.getElem?_append_right hi] at hf
    rw [List.mem_singleton.mp (List.mem_of_getElem? hf)]

theorem unlink {id : Nat} (h : disk.unlink id = some disk') :
    disk.Later busy disk' := by
  rw [Disk.unlink_eq h]
  refine map (fun _ f => if f.linked && f.id == id then _ else f)
    (fun _ => List.getElem?_map ..) fun i f => ?_
  split
  · exact ⟨Nat.le_refl _, fun _ => rfl, .inl rfl, fun h => h⟩
  · exact .refl f _

theorem write (disk : Disk) {file : Nat} (hbusy : busy file) (pos : Nat)
    (bs : Bytes) : disk.Later busy (disk.write file pos bs) := by
  refine map (fun i f => if file = i then _ else f)
    (fun i => List.getElem?_modify _ _ _ _) fun i f => ?_
  split
  · rename_i hi
    refine ⟨?_, fun hidle => absurd (hi ▸ hbusy) hidle, .inl rfl,
      fun h => h⟩
    simp only [List.length_append, List.length_take, List.length_replicate,
      List.length_drop]
    omega
  · exact .refl f _

end Disk.Later

section

variable {cfg : WalConfig} {base : Nat} {log : Log}
  {hand rest : List WalRecord} {disk disk' : Disk} {m m' : Machine}
  {a : Action} {n : Nat}

/-- The flusher writes to the active file, and nobody else to any. Removals
take names, which is not looked at here, and syncs and the creation of a
file fit the frame as they are. -/
theorem step_later (hs : Wal.step cfg a (disk, m) = some (disk', m')) :
    disk.Later (fun i => i = m.seg.file ∧ m.pc.writing = true) disk' := by
  by_cases ha : ∃ n, a = .flusher n
  · obtain ⟨n, rfl⟩ := ha
    have hs' : FlusherStep cfg n disk m disk' m' := .of_step hs
    cases hs' with
    | sync hpc => exact .sync _ _
    | finalSync hpc => exact .sync _ _
    | create hpc hcreate => exact .create hcreate
    | syncDir hpc => exact .syncDir _
    | chunk hpc hmore => exact .write _ ⟨rfl, by rw [hpc]; rfl⟩ _ _
    | _ => exact .refl _
  · have hno : ∀ n, a ≠ .flusher n := fun n he => ha ⟨n, he⟩
    cases hr : a.remover with
    | none =>
        obtain ⟨-, rfl | ⟨file, rfl⟩⟩ := step_others hno hr hs
        · exact .refl _
        · exact .sync _ _
    | some caller =>
        cases a with
        | removeFile caller id =>
            simp only [Wal.step] at hs
            split at hs
            · split at hs
              · obtain ⟨d, hd, heq⟩ := Option.map_eq_some_iff.mp hs
                cases heq
                exact .unlink hd
              · cases hs
            · cases hs
        | removeBound | removeList | removeFail | removeReturn =>
            simp only [Wal.step] at hs
            repeat' split at hs
            all_goals
              cases hs
              try exact .refl _
        | _ => cases hr

end

/-- Who is not the flusher leaves the file for the syncer, and who is not
the syncer leaves the syncer. The flusher hands over a file in one
transition of `rotate`, behind the sync of the directory. -/
theorem step_syncFile {cfg : WalConfig} {disk disk' : Disk} {m m' : Machine}
    {a : Action} (ha : ∀ n, a ≠ .flusher n)
    (hs : step cfg a (disk, m) = some (disk', m')) :
    m'.shared.syncFile = m.shared.syncFile
      ∧ ((∀ due, a ≠ .syncer due) → m'.syncer = m.syncer) := by
  cases a with
  | append rec result =>
      obtain ⟨-, -, -, rfl⟩ := step_append hs
      exact ⟨rfl, fun _ => rfl⟩
  | flusher n => exact absurd rfl (ha n)
  | syncer due =>
      refine ⟨?_, fun hno => absurd rfl (hno due)⟩
      cases hpc : m.syncer <;> simp only [step, syncerStep, hpc] at hs
      all_goals
        try split at hs
        all_goals
          cases hs
          try rfl
  | close =>
      simp only [step] at hs
      cases hs
      exact ⟨rfl, fun _ => rfl⟩
  | removeFile caller id =>
      simp only [step] at hs
      split at hs
      · split at hs
        · obtain ⟨d, hd, heq⟩ := Option.map_eq_some_iff.mp hs
          cases heq
          exact ⟨rfl, fun _ => rfl⟩
        · cases hs
      · cases hs
  | _ =>
      simp only [step] at hs
      repeat' split at hs
      all_goals
        cases hs
        try exact ⟨rfl, fun _ => rfl⟩

namespace LogFile.Next

variable {f f' : LogFile} {busy : Prop}

theorem within (h : f.Next f' busy) (hf : f.synced ≤ f.bytes.length) :
    f'.synced ≤ f'.bytes.length := by
  have := h.bytes
  rcases h.synced with heq | heq <;> omega

theorem synced_le (h : f.Next f' busy) (hf : f.synced ≤ f.bytes.length) :
    f.synced ≤ f'.synced := by
  have := h.bytes
  rcases h.synced with heq | heq <;> omega

theorem full (h : f.Next f' busy) (hidle : ¬busy)
    (hf : f.synced = f.bytes.length) : f'.synced = f'.bytes.length := by
  have := h.still hidle
  rcases h.synced with heq | heq <;> omega

end LogFile.Next

/-- What a file was before the step. -/
theorem Disk.Later.before {disk disk' : Disk} {busy : Nat → Prop} {i : Nat}
    {f' : LogFile} (h : disk.Later busy disk') (hi : i < disk.length)
    (hf' : disk'[i]? = some f') :
    ∃ f, disk[i]? = some f ∧ f.Next f' (busy i) := by
  obtain ⟨f'', hf'', hnext⟩ := h.kept i _ (List.getElem?_eq_getElem hi)
  rw [hf', Option.some.injEq] at hf''
  exact ⟨_, List.getElem?_eq_getElem hi, hf'' ▸ hnext⟩

-- =============================================================== the handle

/-- The flusher has the next file already, and the syncer not yet. -/
def FlusherPc.swapping : FlusherPc → Bool
  | .rotate (.setFile _) _ => true
  | _ => false

theorem FlusherPc.idle_of_sealed {pc : FlusherPc} (h : pc.sealed = true) :
    ¬pc.writing = true := by
  cases pc with
  | write e done => cases h
  | _ => exact Bool.false_ne_true

/-- The files created since the log was opened are synced up to the active
one, which the syncer has at hand, or the one before it as long as nothing
is in the active one. -/
structure Sealed (base : Nat) (disk : Disk) (m : Machine) : Prop where
  within : ∀ (k : Nat) (f : LogFile), disk[base + k]? = some f →
    f.synced ≤ f.bytes.length
  entered : ∀ (k : Nat) (f : LogFile), base + k ≤ m.seg.file →
    disk[base + k]? = some f → f.durable = true
  closed : ∀ (k : Nat) (f : LogFile), base + k < m.seg.file →
    disk[base + k]? = some f → f.synced = f.bytes.length
  active : m.pc.sealed = true → ∀ f : LogFile, disk[m.seg.file]? = some f →
    f.synced = f.bytes.length
  handle : m.shared.syncFile + (if m.pc.swapping then 1 else 0) = m.seg.file
  first : base ≤ m.shared.syncFile
  empty : m.pc.swapping = true → m.seg.written = 0

namespace Sealed

variable {cfg : WalConfig} {base : Nat} {log : Log}
  {hand rest : List WalRecord} {disk disk' : Disk} {m m' : Machine}
  {a : Action} {n : Nat}

theorem start (before : Disk) (id : Nat) :
    Sealed before.length (before ++ [{ id, durable := true }])
      (.start id before.length) where
  within k f hf := by
    rw [List.getElem?_append_right (Nat.le_add_right _ _)] at hf
    rw [List.mem_singleton.mp (List.mem_of_getElem? hf)]
    exact Nat.le_refl _
  entered k f _ hf := by
    rw [List.getElem?_append_right (Nat.le_add_right _ _)] at hf
    rw [List.mem_singleton.mp (List.mem_of_getElem? hf)]
  closed k f hlt _ := by
    have : before.length + k < before.length := hlt
    omega
  active h := by cases h
  handle := rfl
  first := Nat.le_refl _
  empty h := by cases h

/-- The flusher stays with its file, and the syncer with the one it has.
What was synced in front of the active file is synced still, and the active
file may be longer, but not while it is sealed. -/
private theorem later (h : Sealed base disk m)
    (hsize : m.seg.file < disk.length)
    (hlater : disk.Later (fun i => i = m.seg.file ∧ m.pc.writing = true) disk')
    (hfile : m'.seg.file = m.seg.file)
    (hsync : m'.shared.syncFile = m.shared.syncFile)
    (hswap : m'.pc.swapping = m.pc.swapping)
    (hsealed : m'.pc.sealed = true → m.pc.sealed = true)
    (hempty : m'.pc.swapping = true → m'.seg.written = m.seg.written) :
    Sealed base disk' m' where
  within k f' hf' := by
    by_cases hlt : base + k < disk.length
    · obtain ⟨f, hf, hnext⟩ := hlater.before hlt hf'
      exact hnext.within (h.within k f hf)
    · rw [hlater.new _ f' (Nat.le_of_not_lt hlt) hf']
      exact Nat.zero_le _
  entered k f' hle hf' := by
    rw [hfile] at hle
    obtain ⟨f, hf, hnext⟩ := hlater.before (by omega) hf'
    exact hnext.durable (h.entered k f hle hf)
  closed k f' hlt hf' := by
    rw [hfile] at hlt
    obtain ⟨f, hf, hnext⟩ := hlater.before (by omega) hf'
    exact hnext.full (fun hbusy => by omega) (h.closed k f hlt hf)
  active hs f' hf' := by
    rw [hfile] at hf'
    obtain ⟨f, hf, hnext⟩ := hlater.before hsize hf'
    exact hnext.full
      (fun hbusy => FlusherPc.idle_of_sealed (hsealed hs) hbusy.2)
      (h.active (hsealed hs) f hf)
  handle := by
    rw [hsync, hswap, hfile]
    exact h.handle
  first := by
    rw [hsync]
    exact h.first
  empty hs := by
    rw [hempty hs]
    exact h.empty (hswap ▸ hs)

/-- The flusher's part. Its sync seals the active file. With the sync of the
directory the next file becomes the active one and has no bytes, while the
syncer still has the one before, which is closed and synced; then the next
is handed over, and only after that something is written to it. -/
private theorem flusher (h : Sealed base disk m)
    (hsim : Sim base log hand rest disk m)
    (hs : Wal.step cfg (.flusher n) (disk, m) = some (disk', m')) :
    Sealed base disk' m' := by
  have hlater := step_later hs
  have hsize : m.seg.file < disk.length := by
    have := hsim.size
    have := hsim.file
    omega
  have hs' : FlusherStep cfg n disk m disk' m' := .of_step hs
  cases hs' with
  | @sync why hpc =>
      have hlater' : Sealed base _ { m with pc := .top } :=
        h.later hsize hlater rfl rfl (by rw [hpc]; rfl)
          (fun hs => by cases hs) fun _ => rfl
      refine { hlater' with active := fun _ f hf => ?_ }
      obtain ⟨g, -, -, -, hsynced⟩ := Disk.getElem?_sync hf
      exact hsynced rfl
  | @syncDir why file hpc =>
      have hfile : file = m.seg.file + 1 := by
        rw [hsim.file]
        exact hsim.freshFile file why hpc
      have hsize' : file < disk.length := by
        have := hsim.size
        rw [hpc] at this
        have := hsim.file
        simp only [FlusherPc.fresh] at *
        omega
      have hidle : ¬m.pc.writing = true := by
        rw [hpc]
        exact Bool.false_ne_true
      have hlater' : Sealed base _ { m with pc := .top } :=
        h.later hsize hlater rfl rfl (by rw [hpc]; rfl)
          (fun hs => by cases hs) fun _ => rfl
      refine ⟨hlater'.within, fun k f _ hf => ?_, fun k f' hlt hf' => ?_,
        (fun hs => by cases hs), ?_, h.first, fun _ => rfl⟩
      · rw [Disk.syncDir, List.getElem?_map] at hf
        obtain ⟨g, -, rfl⟩ := Option.map_eq_some_iff.mp hf
        rfl
      · -- what was the active segment is closed now
        have hlt' : base + k < file := hlt
        obtain ⟨f, hf, hnext⟩ := hlater.before (by omega) hf'
        refine hnext.full (fun hbusy => hidle hbusy.2) ?_
        by_cases hclosed : base + k < m.seg.file
        · exact h.closed k f hclosed hf
        · have hactive : base + k = m.seg.file := by omega
          exact h.active (by rw [hpc]; rfl) f (hactive ▸ hf)
      · have hhandle := h.handle
        rw [hpc] at hhandle
        show m.shared.syncFile + 1 = file
        rw [hfile, ← hhandle]
        rfl
  -- the syncer is handed the new file, which is still empty
  | @setFile why closed hpc =>
      refine { h with
        active := fun hs => by cases hs
        handle := rfl
        first := ?_
        empty := fun hs => by cases hs }
      have := h.first
      have := h.handle
      show base ≤ m.seg.file
      omega
  | @store why closed hpc =>
      refine h.later hsize hlater rfl rfl ?_ ?_ fun _ => rfl
      · rw [hpc]
        cases why <;> rfl
      · intro hs
        cases why <;> cases hs
  | create hpc hcreate =>
      exact h.later hsize hlater rfl rfl (by rw [hpc]; rfl)
        (fun _ => by rw [hpc]; rfl) fun _ => rfl
  | wrote hpc hall =>
      exact h.later hsize hlater rfl rfl (by rw [hpc]; rfl)
        (fun hs => by cases hs) fun hs => by cases hs
  | top hpc | sampleCut hpc | taken hpc _ | serveCut hpc _ | leave hpc _
    | again hpc _ | full hpc _ | room hpc _ | chunk hpc _
    | publish hpc | clear hpc | finish hpc | finalSync hpc =>
      exact h.later hsize hlater rfl rfl (by rw [hpc]; rfl)
        (fun hs => by cases hs) fun _ => rfl

/-- Every step. -/
theorem step (h : Sealed base disk m) (hsim : Sim base log hand rest disk m)
    (hs : Wal.step cfg a (disk, m) = some (disk', m')) :
    Sealed base disk' m' := by
  by_cases ha : ∃ n, a = .flusher n
  · obtain ⟨n, rfl⟩ := ha
    exact h.flusher hsim hs
  · have hno : ∀ n, a ≠ .flusher n := fun n he => ha ⟨n, he⟩
    obtain ⟨hk, -, -⟩ := step_keeps hno hs
    have hseg : m'.seg = m.seg := hk.seg
    have hpc : m'.pc = m.pc := hk.pc
    have hsize : m.seg.file < disk.length := by
      have := hsim.size
      have := hsim.file
      omega
    exact h.later hsize (step_later hs) (by rw [hseg])
      (step_syncFile hno hs).1 (by rw [hpc])
      (fun hsealed => hpc ▸ hsealed) fun _ => by rw [hseg]

end Sealed

-- ================================================================ the syncer

section

variable {cfg : WalConfig} {base : Nat} {log : Log}
  {hand rest : List WalRecord} {disk disk' : Disk} {m m' : Machine}
  {a : Action} {n : Nat}

/-- Bytes in the first `k` files that were created since the log was
opened. -/
def Disk.upTo (disk : Disk) (base k : Nat) : Nat :=
  (fileBytes ((disk.drop base).take k)).length

theorem Disk.upTo_succ {k : Nat} {f : LogFile}
    (hf : disk[base + k]? = some f) :
    disk.upTo base (k + 1) = disk.upTo base k + f.bytes.length := by
  unfold upTo
  rw [List.take_add_one, List.getElem?_drop, hf]
  simp [fileBytes]

/-- There is no less in them behind a step. -/
theorem Disk.Later.upTo {busy : Nat → Prop} (h : disk.Later busy disk')
    (base : Nat) {k : Nat} (hk : base + k ≤ disk.length) :
    disk.upTo base k ≤ disk'.upTo base k := by
  induction k with
  | zero => exact Nat.zero_le _
  | succ k ih =>
      have hf : disk[base + k]? = some disk[base + k] :=
        List.getElem?_eq_getElem (by omega)
      obtain ⟨f', hf', hnext⟩ := h.kept _ _ hf
      rw [Disk.upTo_succ hf, Disk.upTo_succ hf']
      exact Nat.add_le_add (ih (by omega)) hnext.bytes

/-- What has been synced reaches to this LSN. -/
def Reached (base : Nat) (disk : Disk) (m : Machine) (w : Nat) : Prop :=
  ∃ (k : Nat) (f : LogFile), base + k ≤ m.seg.file
    ∧ disk[base + k]? = some f ∧ w ≤ disk.upTo base k + f.synced

/-- What the syncer knows: the LSN it has read is published, the file it has
taken ends behind it, and what it has synced reaches to it. -/
def SyncerPc.Knows (base : Nat) (disk : Disk) (m : Machine) :
    SyncerPc → Prop
  | .top last => Reached base disk m last
  | .parked last => Reached base disk m last
  | .fetch w => w ≤ m.shared.written
  | .sync w file => ∃ k, file = base + k ∧ file ≤ m.seg.file
      ∧ w ≤ disk.upTo base (k + 1)
  | .exited => True

/-- The file the syncer can take ends behind what is published. -/
theorem Sealed.published (h : Sealed base disk m)
    (hsim : Sim base log hand rest disk m) :
    ∃ k, m.shared.syncFile = base + k ∧ m.shared.syncFile ≤ m.seg.file
      ∧ m.shared.written ≤ disk.upTo base (k + 1) := by
  have hupTo : ∀ k, disk.upTo base k
      = (((disk.map LogFile.bytes).drop base).take k).flatten.length := by
    intro k
    unfold Disk.upTo fileBytes
    rw [List.map_take, List.map_drop]
  have hfile := hsim.file
  have hhandle := h.handle
  have hfirst := h.first
  have hwritten : m.shared.written ≤ (logBytes log.closed.flatten).length
      + (logBytes log.active).length := by
    rw [hsim.written, ← List.length_append, ← logBytes_append]
    exact hsim.sound
  rw [logBytes_flatten] at hwritten
  cases hswap : m.pc.swapping with
  | false =>
      rw [hswap, if_neg Bool.false_ne_true] at hhandle
      refine ⟨log.closed.length, by omega, by omega, ?_⟩
      rw [hupTo, hsim.bytes, List.take_append, List.length_map,
        Nat.add_sub_cancel_left, List.take_of_length_le (by simp),
        List.flatten_append, List.length_append]
      simp only [List.take_succ_cons, List.take_zero, List.flatten_singleton,
        List.length_append]
      omega
  | true =>
      rw [hswap, if_pos rfl] at hhandle
      have hempty := h.empty hswap
      rw [hsim.pos] at hempty
      refine ⟨log.closed.length - 1, by omega, by omega, ?_⟩
      rw [hupTo, hsim.bytes, Nat.sub_add_cancel (by omega),
        List.take_left' (List.length_map _)]
      omega

namespace SyncerPc.Knows

/-- The syncer does nothing. -/
private theorem later {pc : SyncerPc} (h : pc.Knows base disk m)
    (hw : ∀ (k : Nat) (f : LogFile), disk[base + k]? = some f →
      f.synced ≤ f.bytes.length)
    (hsize : m.seg.file < disk.length) {busy : Nat → Prop}
    (hlater : disk.Later busy disk') (hfile : m.seg.file ≤ m'.seg.file)
    (hwritten : m.shared.written ≤ m'.shared.written) :
    pc.Knows base disk' m' := by
  have hreached : ∀ {w}, Reached base disk m w → Reached base disk' m' w := by
    intro w hw'
    obtain ⟨k, f, hk, hf, hle⟩ := hw'
    obtain ⟨f', hf', hnext⟩ := hlater.kept _ _ hf
    have hupTo := hlater.upTo base (k := k) (by omega)
    have hsynced := hnext.synced_le (hw k f hf)
    exact ⟨k, f', by omega, hf', by omega⟩
  cases pc with
  | top last => exact hreached h
  | parked last => exact hreached h
  | fetch w => exact Nat.le_trans h hwritten
  | sync w file =>
      obtain ⟨k, rfl, hk, hle⟩ := h
      exact ⟨k, rfl, Nat.le_trans hk hfile,
        Nat.le_trans hle (hlater.upTo base (by omega))⟩
  | exited => trivial

/-- Whatever step is taken. A step that is not the syncer's only adds to
what is known, since files and the published LSN only grow. The syncer's own
steps go from one stage to the next: it reads the LSN; it takes the file,
which ends behind what is published (`Sealed.published`); it syncs it, and
with the files in front, which are synced, all bytes up to the LSN are. -/
theorem step (h : m.syncer.Knows base disk m) (hsealed : Sealed base disk m)
    (hsim : Sim base log hand rest disk m)
    (hs : Wal.step cfg a (disk, m) = some (disk', m')) :
    m'.syncer.Knows base disk' m' := by
  have hlater := step_later hs
  have hsize : m.seg.file < disk.length := by
    have := hsim.size
    have := hsim.file
    omega
  have hwritten : m.shared.written ≤ m'.shared.written :=
    written_mono (.snoc .nil hs)
  by_cases ha : ∃ n, a = .flusher n
  · obtain ⟨n, rfl⟩ := ha
    have hs' : FlusherStep cfg n disk m disk' m' := .of_step hs
    have hfile : m.seg.file ≤ m'.seg.file := by
      cases hs' with
      | @syncDir why file hpc =>
          have hfresh := hsim.freshFile file why hpc
          have := hsim.file
          show m.seg.file ≤ file
          omega
      | _ => exact Nat.le_refl _
    have hsyncer : m'.syncer = m.syncer := by
      cases hs' <;> rfl
    rw [hsyncer]
    exact h.later hsealed.within hsize hlater hfile hwritten
  · have hno : ∀ n, a ≠ .flusher n := fun n he => ha ⟨n, he⟩
    obtain ⟨hkeeps, -, -⟩ := step_keeps hno hs
    have hseg : m'.seg = m.seg := hkeeps.seg
    have hfile : m.seg.file ≤ m'.seg.file := by
      rw [hseg]
    by_cases hd : ∃ due, a = .syncer due
    · obtain ⟨due, rfl⟩ := hd
      simp only [Wal.step] at hs
      cases hpc : m.syncer with
      | top last =>
          rw [hpc] at h
          simp only [syncerStep, hpc] at hs
          split at hs
          · cases hs
            trivial
          · cases hs
            exact h
      | parked last =>
          rw [hpc] at h
          simp only [syncerStep, hpc] at hs
          split at hs
          · cases hs
            exact Nat.le_refl _
          · cases hs
            exact h
      | fetch w =>
          rw [hpc] at h
          simp only [syncerStep, hpc] at hs
          cases hs
          obtain ⟨k, hfile, hle, hpublished⟩ := hsealed.published hsim
          exact ⟨k, hfile, hle, Nat.le_trans h hpublished⟩
      | sync w file =>
          rw [hpc] at h
          obtain ⟨k, rfl, hk, hle⟩ := h
          simp only [syncerStep, hpc] at hs
          cases hs
          -- the file that is synced has what was published, and all before it
          obtain ⟨f, hf, -⟩ := hlater.kept _ _
            (List.getElem?_eq_getElem (show base + k < disk.length by omega))
          obtain ⟨g, -, -, -, hsynced⟩ := Disk.getElem?_sync hf
          have hupTo := hlater.upTo base (k := k + 1) (by omega)
          rw [Disk.upTo_succ hf] at hupTo
          have hall := hsynced rfl
          exact ⟨k, f, hk, hf, by omega⟩
      | exited =>
          simp only [syncerStep, hpc] at hs
          cases hs
    · have hsyncer := (step_syncFile hno hs).2 fun due he => hd ⟨due, he⟩
      rw [hsyncer]
      exact h.later hsealed.within hsize hlater hfile hwritten

end SyncerPc.Knows

end

-- ============================================================== a power loss

/-- Of files that are synced, and one behind them, a power loss leaves what
is synced. The induction is on the files in front: each is named on disk and
loses no byte. -/
theorem Disk.powerLoss_synced {files files' : Disk} {kept : List (Option Nat)}
    (h : files.powerLoss kept = some files') {k : Nat} {f : LogFile}
    (hf : files[k]? = some f) (hdurable : f.durable = true)
    (hsynced : ∀ (i : Nat) (g : LogFile), i < k → files[i]? = some g →
      g.durable = true ∧ g.synced = g.bytes.length) :
    fileBytes (files.take k) ++ f.bytes.take f.synced <+: fileBytes files' := by
  induction files generalizing kept files' k with
  | nil => cases hf
  | cons g files ih =>
      have hg : g.durable = true := by
        cases k with
        | zero =>
            cases hf
            exact hdurable
        | succ k => exact (hsynced 0 g (Nat.succ_pos k) rfl).1
      cases kept with
      | nil => cases h
      | cons keep kept =>
          cases keep with
          | none =>
              rw [powerLoss, if_pos hg] at h
              cases h
          | some n =>
              rw [powerLoss] at h
              split at h
              · rename_i hn
                obtain ⟨files', hloss, rfl⟩ := Option.map_eq_some_iff.mp h
                cases k with
                | zero =>
                    cases hf
                    show f.bytes.take f.synced <+: f.bytes.take n ++ _
                    refine List.IsPrefix.trans ?_ (List.prefix_append _ _)
                    exact List.take_prefix_take_left hn.1
                | succ k =>
                    have hall := (hsynced 0 g (Nat.succ_pos k) rfl).2
                    have hrest := ih hloss hf fun i g' hi hg' =>
                      hsynced (i + 1) g' (Nat.succ_lt_succ hi) hg'
                    have hwhole : g.bytes.take n = g.bytes :=
                      List.take_of_length_le (hall ▸ hn.1)
                    show (g.bytes ++ fileBytes (files.take k))
                        ++ f.bytes.take f.synced
                      <+: g.bytes.take n ++ fileBytes files'
                    rw [hwhole, List.append_assoc]
                    exact (List.prefix_append_right_inj _).mpr hrest
              · cases h

/-- What the syncer has last synced to, between two rounds. -/
def SyncerPc.last : SyncerPc → Option Nat
  | .top last => some last
  | .parked last => some last
  | _ => none

/-- The invariants of a run. -/
theorem FromOpen.syncing {cfg : WalConfig} {before : Disk} {as : List Action}
    {disk : Disk} {m : Machine} (hrun : FromOpen cfg before as disk m) :
    Sealed before.length disk m
      ∧ m.syncer.Knows before.length disk m := by
  refine Run.invariant (P := fun _ (s : Disk × Machine) =>
    Sealed before.length s.1 s.2 ∧ s.2.syncer.Knows before.length s.1 s.2)
    ?_ ?_ hrun
  · refine ⟨.start before _, 0, { id := firstId before, durable := true },
      Nat.le_refl _, ?_, Nat.zero_le _⟩
    show (before ++ [_])[before.length + 0]? = _
    rw [List.getElem?_append_right (Nat.le_add_right _ _)]
    simp
  · intro as s a s' hrun' hinv hs
    obtain ⟨log, hand, rest, -, -, hsim⟩ := FromOpen.sim hrun'
    exact ⟨hinv.1.step hsim hs, hinv.2.step hinv.1 hsim hs⟩

/-- In every run from `Wal::open`, with any number of rotations between the
syncer's steps: the bytes up to the LSN it has last set are bytes that were
logged, and no power loss takes any of them. -/
theorem synced_durable {cfg : WalConfig} {before : Disk} {as : List Action}
    {disk : Disk} {m : Machine} (hrun : FromOpen cfg before as disk m)
    {w : Nat} (hlast : m.syncer.last = some w) :
    w ≤ (logBytes (acceptedIn as)).length
      ∧ ∀ kept files,
        Disk.powerLoss (disk.drop before.length) kept = some files →
        (logBytes (acceptedIn as)).take w <+: fileBytes files := by
  obtain ⟨hsealed, hknows⟩ := FromOpen.syncing hrun
  obtain ⟨log, hand, rest, hacc, -, hsim⟩ := FromOpen.sim hrun
  obtain ⟨k, f, hk, hf, hw⟩ : Reached before.length disk m w := by
    cases hpc : m.syncer with
    | top last =>
        rw [hpc] at hlast hknows
        cases hlast
        exact hknows
    | parked last =>
        rw [hpc] at hlast hknows
        cases hlast
        exact hknows
    | _ =>
        rw [hpc] at hlast
        cases hlast
  have hget : (disk.drop before.length)[k]? = some f := by
    rw [List.getElem?_drop]
    exact hf
  have hwithin := hsealed.within k f hf
  -- what is synced is a prefix of what was logged
  have hsynced : fileBytes ((disk.drop before.length).take k)
      ++ f.bytes.take f.synced <+: logBytes (acceptedIn as) := by
    have hfiles : fileBytes ((disk.drop before.length).take (k + 1))
        <+: fileBytes (disk.drop before.length) := by
      unfold fileBytes
      rw [List.map_take]
      exact (List.take_prefix _ _).flatten
    have hlast : fileBytes ((disk.drop before.length).take k)
        ++ f.bytes.take f.synced
        <+: fileBytes ((disk.drop before.length).take (k + 1)) := by
      unfold fileBytes
      rw [List.take_add_one, hget, List.map_append, List.flatten_append,
        List.prefix_append_right_inj]
      show f.bytes.take f.synced <+: [f.bytes].flatten
      rw [List.flatten_singleton]
      exact List.take_prefix _ _
    have hstream := hsim.stream
    rw [hacc, List.append_assoc] at hstream
    rw [← hstream]
    exact (hlast.trans hfiles).trans (List.prefix_append _ _)
  have hlen : w ≤ (fileBytes ((disk.drop before.length).take k)
      ++ f.bytes.take f.synced).length := by
    rw [List.length_append, List.length_take, Nat.min_eq_left hwithin]
    exact hw
  refine ⟨Nat.le_trans hlen hsynced.length_le, fun kept files hloss => ?_⟩
  have hkept := Disk.powerLoss_synced hloss hget (hsealed.entered k f hk hf)
    fun i g hi hg => by
      rw [List.getElem?_drop] at hg
      exact ⟨hsealed.entered i g (by omega) hg,
        hsealed.closed i g (by omega) hg⟩
  refine List.IsPrefix.trans ?_ hkept
  exact List.prefix_of_prefix_length_le (List.take_prefix _ _) hsynced
    (Nat.le_trans (List.length_take_le _ _) hlen)

/-- A record is written, and the syncer reads its LSN; then the segment is
rotated, and a second record is written; the syncer takes the new file and
syncs it. -/
def syncedAcross : List Action :=
  [.append ⟨[], [⟨7, [⟨1, 2⟩]⟩]⟩ (.ok 45)]
    ++ List.replicate 8 (.flusher 100)
    ++ [.syncer true, .syncer true,
      .append ⟨[], [⟨7, [⟨3, 4⟩]⟩]⟩ (.ok 90)]
    ++ List.replicate 13 (.flusher 100)
    ++ [.syncer true, .syncer true]

theorem synced_durable_across :
    ∃ disk m, FromOpen ⟨10, 10⟩ [] syncedAcross disk m
      ∧ m.seg.id = 2 ∧ m.syncer = .top 45
      ∧ ∀ kept files, Disk.powerLoss disk kept = some files →
        (logBytes (acceptedIn syncedAcross)).take 45 <+: fileBytes files := by
  have hsome : (exec (step ⟨10, 10⟩) syncedAcross (opened [])).map
      (fun s => (s.2.seg.id, s.2.syncer)) = some (2, .top 45) := by
    decide +kernel
  obtain ⟨⟨disk, m⟩, hexec, heq⟩ := Option.map_eq_some_iff.mp hsome
  obtain ⟨hid, hsyncer⟩ := Prod.mk.inj heq
  have hrun : FromOpen ⟨10, 10⟩ [] syncedAcross disk m := .of_exec hexec
  obtain ⟨-, hdurable⟩ := synced_durable hrun (w := 45) (by rw [hsyncer]; rfl)
  exact ⟨disk, m, hrun, hid, hsyncer, hdurable⟩

end Tsdb.Wal
