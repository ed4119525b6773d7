/-
The end of a log.

Two facts about steps that the owner of the log can no longer see.

# What is synced does not matter

What a step does to the files and to the log does not depend on what of the
files is synced (`step_same`); that is a matter of power losses. So two
directories that differ in nothing else (`Disk.Same`) stay so, with the
same log over both. Each call of `Tsdb.Wal.Disk` has a lemma, and the three
that take a step (`rotateStep`, `flusherStep`, `syncerStep`) follow by
their cases; the transition function adds the callers, who do not touch
what is synced either.

# A drained log

A log that has nothing left to write (`Machine.Drained`), with nobody
waiting for a cut, does no more than sync, whatever its threads go on to
do (`Quiet.flusher`). `Quiet` is an invariant: the flusher goes round its
loop, finds the buffer empty and no request, and takes nothing; what may
still come is the close, which lets it leave.

# Who needs it

A database that goes out of scope may leave its threads running for a
while, next to an opening of the same directory by somebody else.
`Tsdb.Db.Ownership` shows when that is harmless: a drained log changes
its files by nothing but syncs, and by the first part the new owner cannot
tell. If the log was not drained, it writes to files that the new owner
has read already, and there is a run in which it does.
-/
import Tsdb.Wal.Crash

namespace Tsdb.Wal

variable {cfg : WalConfig} {disk disk' disk₁ disk₁' : Disk}
  {m m' : Machine} {n : Nat}

-- ============================================================ the same files

/-- A file, but for what of it is synced. -/
def LogFile.bare (f : LogFile) : LogFile :=
  { f with synced := 0, durable := false }

/-- The files are the same, but for what of them is synced. -/
def Disk.Same (disk disk₁ : Disk) : Prop :=
  disk.map LogFile.bare = disk₁.map LogFile.bare

instance (disk disk₁ : Disk) : Decidable (disk.Same disk₁) :=
  inferInstanceAs (Decidable (_ = _))

namespace Disk.Same

theorem refl (disk : Disk) : disk.Same disk := rfl

theorem symm (h : disk.Same disk₁) : disk₁.Same disk := Eq.symm h

theorem trans {disk₂ : Disk} (h : disk.Same disk₁) (h' : disk₁.Same disk₂) :
    disk.Same disk₂ :=
  Eq.trans h h'

theorem length (h : disk.Same disk₁) : disk.length = disk₁.length := by
  have hlen := congrArg List.length h
  rwa [List.length_map, List.length_map] at hlen

/-- A change of every file that does not look at what is synced. -/
theorem map {change : LogFile → LogFile}
    (hchange : ∀ f, (change f).bare = (change f.bare).bare)
    (h : disk.Same disk₁) : Disk.Same (disk.map change) (disk₁.map change) := by
  have hbare : ∀ disk : Disk, (disk.map change).map LogFile.bare
      = (disk.map LogFile.bare).map fun f => (change f).bare := by
    intro disk
    rw [List.map_map, List.map_map]
    exact List.map_congr_left fun f _ => hchange f
  unfold Same at h ⊢
  rw [hbare, hbare, h]

/-- And of one of them. -/
theorem modify {change : LogFile → LogFile} (i : Nat)
    (hchange : ∀ f, (change f).bare = (change f.bare).bare)
    (h : disk.Same disk₁) :
    Disk.Same (disk.modify i change) (disk₁.modify i change) := by
  have hbare : ∀ (disk : Disk) (i : Nat),
      (disk.modify i change).map LogFile.bare
        = (disk.map LogFile.bare).modify i fun f => (change f).bare := by
    intro disk
    induction disk with
    | nil => intro i; simp
    | cons f disk ih =>
        intro i
        cases i with
        | zero => simp [← hchange f]
        | succ i => simp [ih i]
  unfold Same at h ⊢
  rw [hbare, hbare, h]

/-- What `read_dir` sees. -/
theorem dir (h : disk.Same disk₁) : disk.dir = disk₁.dir := by
  have hbare : ∀ disk : Disk, disk.dir
      = ((disk.map LogFile.bare).filter LogFile.linked).map
        fun f => ⟨f.id, f.bytes⟩ := by
    intro disk
    rw [List.filter_map, List.map_map]
    rfl
  rw [hbare, hbare, h]

/-- A name is taken or free. -/
theorem named (h : disk.Same disk₁) (id : Nat) :
    (disk.any fun f => f.linked && f.id == id)
      = disk₁.any fun f => f.linked && f.id == id := by
  have hbare : ∀ disk : Disk, (disk.any fun f => f.linked && f.id == id)
      = (disk.map LogFile.bare).any fun f => f.linked && f.id == id := by
    intro disk
    rw [List.any_map]
    rfl
  rw [hbare disk, hbare disk₁, h]

theorem create (h : disk.Same disk₁) (id : Nat) :
    Option.Rel Same (disk.create id) (disk₁.create id) := by
  unfold Disk.create
  rw [← h.named id]
  split
  · exact .none
  · refine .some ?_
    unfold Same at h ⊢
    rw [List.map_append, List.map_append, h]

theorem unlink (h : disk.Same disk₁) (id : Nat) :
    Option.Rel Same (disk.unlink id) (disk₁.unlink id) := by
  unfold Disk.unlink
  rw [← h.named id]
  split
  · refine .some (h.map fun f => ?_)
    show _ = (if f.linked && f.id == id then _ else _ : LogFile).bare
    split <;> rfl
  · exact .none

theorem setLen (h : disk.Same disk₁) (id len : Nat) :
    (disk.setLen id len).Same (disk₁.setLen id len) := by
  refine h.map fun f => ?_
  show _ = (if f.linked && f.id == id then _ else _ : LogFile).bare
  split <;> rfl

theorem syncAll (h : disk.Same disk₁) (id : Nat) :
    (disk.syncAll id).Same (disk₁.syncAll id) := by
  refine h.map fun f => ?_
  show _ = (if f.linked && f.id == id then _ else _ : LogFile).bare
  split <;> rfl

theorem syncDir (h : disk.Same disk₁) : disk.syncDir.Same disk₁.syncDir :=
  h.map fun _ => rfl

theorem sync (h : disk.Same disk₁) (file : Nat) :
    (disk.sync file).Same (disk₁.sync file) :=
  h.modify file fun _ => rfl

theorem write (h : disk.Same disk₁) (file pos : Nat) (bs : Lib.Bytes) :
    (disk.write file pos bs).Same (disk₁.write file pos bs) :=
  h.modify file fun _ => rfl

/-- A sync changes nothing else. -/
theorem of_sync (disk : Disk) (file : Nat) : (disk.sync file).Same disk :=
  map_modify_of disk file fun _ => rfl

end Disk.Same

-- ============================================================= the same steps

/-- The same step: to the same log, with the same files. -/
def SameStep (r r₁ : Option (Disk × Machine)) : Prop :=
  Option.Rel (fun s s₁ => s.1.Same s₁.1 ∧ s.2 = s₁.2) r r₁

theorem rotateStep_same (h : disk.Same disk₁) (m : Machine) (why : RotateFor)
    (stage : RotateStage) :
    SameStep (rotateStep disk m why stage) (rotateStep disk₁ m why stage) := by
  cases stage with
  | sync => exact .some ⟨h.sync m.seg.file, rfl⟩
  | create =>
      unfold rotateStep
      rw [h.length]
      exact Lib.rel_map (h.create (m.seg.id + 1)) fun _ _ hsame => ⟨hsame, rfl⟩
  | syncDir file => exact .some ⟨h.syncDir, rfl⟩
  | setFile closed => exact .some ⟨h, rfl⟩
  | store closed => exact .some ⟨h, rfl⟩

theorem flusherStep_same (h : disk.Same disk₁) (cfg : WalConfig) (n : Nat)
    (m : Machine) :
    SameStep (flusherStep cfg n disk m) (flusherStep cfg n disk₁ m) := by
  cases hpc : m.pc with
  | take closing cutting =>
      simp only [flusherStep, hpc, Inner.take]
      by_cases hbuf : m.shared.buffer.buf = []
      · rw [if_pos hbuf]
        cases cutting <;> cases closing <;> exact .some ⟨h, rfl⟩
      · rw [if_neg hbuf]
        exact .some ⟨h, rfl⟩
  | batch end_ =>
      simp only [flusherStep, hpc]
      split <;> exact .some ⟨h, rfl⟩
  | rotate stage why =>
      simp only [flusherStep, hpc]
      exact rotateStep_same h m why stage
  | write end_ done =>
      simp only [flusherStep, hpc]
      split
      · exact .some ⟨h.write _ _ _, rfl⟩
      · exact .some ⟨h, rfl⟩
  | finalSync =>
      simp only [flusherStep, hpc]
      exact .some ⟨h.sync m.seg.file, rfl⟩
  | exited =>
      simp only [flusherStep, hpc]
      exact .none
  | _ =>
      simp only [flusherStep, hpc]
      exact .some ⟨h, rfl⟩

theorem syncerStep_same (h : disk.Same disk₁) (due : Bool) (m : Machine) :
    SameStep (syncerStep due disk m) (syncerStep due disk₁ m) := by
  cases hpc : m.syncer with
  | sync w file =>
      simp only [syncerStep, hpc]
      exact .some ⟨h.sync file, rfl⟩
  | fetch w =>
      simp only [syncerStep, hpc]
      exact .some ⟨h, rfl⟩
  | exited =>
      simp only [syncerStep, hpc]
      exact .none
  | _ =>
      simp only [syncerStep, hpc]
      split <;> exact .some ⟨h, rfl⟩

/-- Whatever the step is: on two directories that differ in what is synced,
it is allowed in both or in neither, with the same result. The two threads
and the calls on files have been compared above; a listing sees the same
files, and the steps that touch no file are the same outright. -/
theorem step_same (h : disk.Same disk₁) (cfg : WalConfig) (a : Action)
    (m : Machine) :
    SameStep (step cfg a (disk, m)) (step cfg a (disk₁, m)) := by
  cases a with
  | flusher n => exact flusherStep_same h cfg n m
  | syncer due => exact syncerStep_same h due m
  | removeList caller todo =>
      simp only [step]
      rw [h.dir]
      cases m.removing caller with
      | bounded bound =>
          simp only
          split
          · exact .some ⟨h, rfl⟩
          · exact .none
      | _ => exact .none
  | removeFile caller id =>
      simp only [step]
      cases m.removing caller with
      | removing bound todo removed =>
          cases todo with
          | nil => exact .none
          | cons next todo =>
              simp only
              split
              · exact Lib.rel_map (h.unlink id) fun _ _ hsame => ⟨hsame, rfl⟩
              · exact .none
      | _ => exact .none
  | removeFail caller id =>
      simp only [step]
      cases m.removing caller with
      | removing bound todo removed =>
          cases todo with
          | nil => exact .none
          | cons next todo =>
              simp only
              split
              · exact .some ⟨h, rfl⟩
              · exact .none
      | _ => exact .none
  | removeReturn caller removed =>
      simp only [step]
      cases m.removing caller with
      | removing bound todo done =>
          cases todo with
          | nil =>
              simp only
              split
              · exact .some ⟨h, rfl⟩
              · exact .none
          | cons next todo => exact .none
      | _ => exact .none
  | close => exact .some ⟨h, rfl⟩
  | _ =>
      simp only [step]
      split
      · exact .some ⟨h, rfl⟩
      · exact .none

-- =============================================================== a drained log

/-- Only the callers of a cut have its lock. -/
theorem step_serial {a : Action} (ha : a.usesCut = false)
    (hs : step cfg a (disk, m) = some (disk', m')) :
    m'.shared.serial = m.shared.serial := by
  by_cases hflusher : ∃ n, a = .flusher n
  · obtain ⟨n, rfl⟩ := hflusher
    exact (FlusherStep.of_step hs).calls.1
  · obtain ⟨-, -, hcut⟩ :=
      step_keeps (fun n hn => hflusher ⟨n, hn⟩) hs
    exact (hcut ha).2

/-- Of a batch of so many bytes, the flusher has nothing left to write. -/
def FlusherPc.spent (batch : Nat) : FlusherPc → Bool
  | .batch _ => false
  | .rotate _ (.batch _) => false
  | .write _ done => batch ≤ done
  | _ => true

/-- Nothing is on its way to the files. -/
def Machine.Drained (m : Machine) : Prop :=
  m.shared.buffer.buf = [] ∧ m.pc.spent m.spare.length = true

instance (m : Machine) : Decidable m.Drained :=
  inferInstanceAs (Decidable (_ ∧ _))

/-- The flusher is rotating, or is about to make a `write` call. -/
def Machine.writes (m : Machine) : Bool :=
  match m.pc with
  | .rotate _ _ => true
  | .write _ done => done < m.spare.length
  | _ => false

/-- A log that writes no more: it is drained, and nobody has asked for a
cut. -/
structure Quiet (m : Machine) : Prop where
  drained : m.Drained
  unasked : m.shared.cut.requested = false
  uncut : m.pc.cutting = false

namespace Quiet

theorem writes_eq_false (h : Quiet m) : m.writes = false := by
  obtain ⟨⟨-, hspent⟩, -, huncut⟩ := h
  cases hpc : m.pc with
  | rotate stage why =>
      rw [hpc] at hspent huncut
      cases why with
      | batch end_ => cases hspent
      | cut => cases huncut
  | write end_ done =>
      rw [hpc] at hspent
      simpa [Machine.writes, hpc, FlusherPc.spent] using hspent
  | _ => simp only [Machine.writes, hpc]

/-- The flusher goes round, or leaves. -/
theorem flusher (h : Quiet m) (hs : FlusherStep cfg n disk m disk' m') :
    Quiet m' ∧ disk'.Same disk := by
  have hnone := h.writes_eq_false
  obtain ⟨⟨hbuf, hspent⟩, hunasked, huncut⟩ := h
  cases hs with
  | taken _ hmore => exact absurd hbuf hmore
  | serveCut hpc =>
      rw [hpc] at huncut
      cases huncut
  | full hpc | room hpc =>
      rw [hpc] at hspent
      cases hspent
  | sync hpc | create hpc | syncDir hpc | setFile hpc | store hpc =>
      simp only [Machine.writes, hpc] at hnone
      cases hnone
  | chunk hpc hmore =>
      simp only [Machine.writes, hpc, decide_eq_false_iff_not] at hnone
      exact absurd hmore hnone
  | finish hpc =>
      rw [hpc] at huncut
      cases huncut
  | sampleCut hpc => exact ⟨⟨⟨hbuf, rfl⟩, hunasked, hunasked⟩, .refl disk⟩
  | finalSync hpc =>
      exact ⟨⟨⟨hbuf, rfl⟩, hunasked, rfl⟩, .of_sync disk m.seg.file⟩
  | _ => exact ⟨⟨⟨hbuf, rfl⟩, hunasked, rfl⟩, .refl disk⟩

theorem syncer {due : Bool} (h : Quiet m)
    (hs : syncerStep due disk m = some (disk', m')) :
    Quiet m' ∧ disk'.Same disk := by
  obtain ⟨hdrained, hunasked, huncut⟩ := h
  cases hpc : m.syncer with
  | sync w file =>
      simp only [syncerStep, hpc] at hs
      cases hs
      exact ⟨⟨hdrained, hunasked, huncut⟩, .of_sync disk file⟩
  | fetch w =>
      simp only [syncerStep, hpc] at hs
      cases hs
      exact ⟨⟨hdrained, hunasked, huncut⟩, .refl disk⟩
  | exited =>
      simp only [syncerStep, hpc] at hs
      cases hs
  | _ =>
      simp only [syncerStep, hpc] at hs
      split at hs <;> cases hs <;>
        exact ⟨⟨hdrained, hunasked, huncut⟩, .refl disk⟩

/-- The buffer is closed. -/
theorem close (h : Quiet m)
    (hs : step cfg .close (disk, m) = some (disk', m')) :
    Quiet m' ∧ disk'.Same disk := by
  simp only [step] at hs
  cases hs
  exact ⟨⟨h.drained, h.unasked, h.uncut⟩, .refl disk⟩

end Quiet

end Tsdb.Wal
