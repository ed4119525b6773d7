/-
What a power loss leaves of an open log.

# What is certain

A log that runs over files a power loss would take nothing of keeps all but
the last of its files so, and of the last what has been synced (`Secure`).
How much that is, the LSN says that the syncer has last set, or a cut
(`Anchored`).

`Anchored` goes back to the run since `Wal::open`, and adds three things
to it: how many records were accepted, that the files found were certain
by then, and an LSN `sure` up to which the files are synced. It is kept by
every step, `sure` only grows by what the syncer reports
(`Anchored.synced`), and it gives `Secure` of any state (`secure`).
`Secure` speaks of the files and the machine alone, so it is what may be
carried to a directory with other names in it (`Secure.relinked`).

# What is left

Of a secure log a power loss takes records off the end, and none whose
bytes were certain (`Journal.outage`): only the active file can be cut, and
a file behind it is not created before the active one is synced.

The directory is split at the active file. What is in front is left as it
is (`Disk.Certain.powerLoss`). There are then two cases. With no file
behind it, the active one is cut to a number of bytes that is at least
what was synced; its whole records are the first of those not in closed
files, and any record that ends within the synced bytes is one of them
(`Log.within`, `last_left`). In a rotation the next file is there: the
active one has been synced and is whole, and the next is empty or gone
(`created_left`). Either way the records left are a prefix of the retained
log, and what is missing are records behind `sure`.

# Files that were removed

The directory of such a log may have the names of removed files in it
again, which is `Tsdb.Wal.Relink`: the statement is about the shadow, too.
-/
import Tsdb.Wal.Drained
import Tsdb.Wal.Relink
import Tsdb.Wal.Settling

namespace Tsdb.Wal

open Lib (Ascending Bytes Run exec)

variable {disk disk' : Disk} {kept : List (Option Nat)}

-- ============================================================ certain files

/-- A power loss would take nothing of these files. -/
def Disk.Certain (disk : Disk) : Prop :=
  ∀ f ∈ disk, f.durable = true ∧ f.synced = f.bytes.length

/-- All of them is written back. -/
def Disk.writeBack (disk : Disk) : Disk :=
  disk.map fun f => { f with synced := f.bytes.length, durable := true }

namespace Disk

theorem certain_writeBack (disk : Disk) : disk.writeBack.Certain := by
  unfold writeBack Certain
  rw [List.forall_mem_map]
  exact fun f _ => ⟨rfl, rfl⟩

theorem writeBack_same (disk : Disk) : disk.writeBack.Same disk := by
  unfold writeBack Same
  rw [List.map_map]
  rfl

/-- So is what `Wal::open` has synced of them. -/
theorem Certain.syncAll (h : disk.Certain) (id : Nat) :
    (disk.syncAll id).Certain := by
  unfold Disk.syncAll Certain
  rw [List.forall_mem_map]
  intro f hf
  split
  · exact ⟨(h f hf).1, rfl⟩
  · exact h f hf

theorem Certain.syncDir (h : disk.Certain) : disk.syncDir = disk := by
  unfold Disk.syncDir
  conv_rhs => rw [← List.map_id disk]
  refine List.map_congr_left fun f hf => ?_
  rw [← (h f hf).1]
  rfl

theorem powerLoss_nil (hloss : Disk.powerLoss [] kept = some disk') :
    disk' = [] := by
  cases kept with
  | nil =>
      cases hloss
      rfl
  | cons keep kept => cases hloss

/-- A power loss on the first file and on the others. -/
theorem powerLoss_cons {f : LogFile}
    (hloss : Disk.powerLoss (f :: disk) kept = some disk') :
    ∃ kept' rest, disk.powerLoss kept' = some rest
      ∧ ((f.durable = false ∧ kept = none :: kept' ∧ disk' = rest)
        ∨ ∃ n, f.synced ≤ n ∧ n ≤ f.bytes.length ∧ kept = some n :: kept'
          ∧ disk' = { f with
              bytes := f.bytes.take n, synced := n, durable := true }
            :: rest) := by
  cases kept with
  | nil => cases hloss
  | cons keep kept =>
      cases keep with
      | none =>
          rw [powerLoss] at hloss
          split at hloss
          · cases hloss
          · rename_i hlost
            exact ⟨kept, disk', hloss, .inl ⟨by simpa using hlost, rfl, rfl⟩⟩
      | some n =>
          rw [powerLoss] at hloss
          split at hloss
          · rename_i hn
            obtain ⟨rest, hrest, rfl⟩ := Option.map_eq_some_iff.mp hloss
            exact ⟨kept, rest, hrest, .inr ⟨n, hn.1, hn.2, rfl, rfl⟩⟩
          · cases hloss

/-- On some files and on those behind them. -/
theorem powerLoss_append {front back : Disk}
    (hloss : Disk.powerLoss (front ++ back) kept = some disk') :
    ∃ kept₁ kept₂ front' back', front.powerLoss kept₁ = some front'
      ∧ back.powerLoss kept₂ = some back' ∧ disk' = front' ++ back' := by
  induction front generalizing kept disk' with
  | nil => exact ⟨[], kept, [], disk', rfl, hloss, rfl⟩
  | cons f front ih =>
      obtain ⟨kept', rest, hrest, hfirst⟩ := powerLoss_cons hloss
      obtain ⟨kept₁, kept₂, front', back', hfront, hback, rfl⟩ := ih hrest
      rcases hfirst with ⟨hlost, -, rfl⟩ | ⟨n, hsynced, hle, -, rfl⟩
      · refine ⟨none :: kept₁, kept₂, front', back', ?_, hback, rfl⟩
        rw [powerLoss, if_neg (by simp [hlost])]
        exact hfront
      · refine ⟨some n :: kept₁, kept₂, _, back', ?_, hback,
          (List.cons_append ..).symm⟩
        rw [powerLoss, if_pos ⟨hsynced, hle⟩, hfront]
        rfl

/-- What is left is certain. -/
theorem certain_powerLoss (hloss : disk.powerLoss kept = some disk') :
    disk'.Certain := by
  induction disk generalizing kept disk' with
  | nil =>
      cases kept with
      | nil =>
          cases hloss
          intro f hf
          cases hf
      | cons keep kept => cases hloss
  | cons f disk ih =>
      obtain ⟨kept', rest, hrest, hfirst⟩ := powerLoss_cons hloss
      rcases hfirst with ⟨-, -, rfl⟩ | ⟨n, -, hle, -, rfl⟩
      · exact ih hrest
      · refine List.forall_mem_cons.mpr ⟨⟨rfl, ?_⟩, ih hrest⟩
        show n = (f.bytes.take n).length
        rw [List.length_take, Nat.min_eq_left hle]

/-- Of certain files it is all of them. -/
theorem Certain.powerLoss (h : disk.Certain)
    (hloss : Disk.powerLoss disk kept = some disk') : Disk.Same disk' disk := by
  induction disk generalizing kept disk' with
  | nil =>
      cases kept with
      | nil =>
          cases hloss
          exact .refl _
      | cons keep kept => cases hloss
  | cons f disk ih =>
      obtain ⟨⟨hdurable, hsynced⟩, hothers⟩ := List.forall_mem_cons.mp h
      obtain ⟨kept', rest, hrest, hfirst⟩ := powerLoss_cons hloss
      rcases hfirst with ⟨hlost, -, -⟩ | ⟨n, hn, -, -, rfl⟩
      · rw [hdurable] at hlost
        cases hlost
      · have hwhole : f.bytes.take n = f.bytes :=
          List.take_of_length_le (hsynced ▸ hn)
        have hsame := ih hothers hrest
        unfold Same at hsame ⊢
        rw [List.map_cons, List.map_cons, hsame, hwhole]
        rfl

end Disk

/-- What a replay finds does not depend on what is synced. -/
theorem Disk.AtRest.same {recs : List WalRecord} (h : disk.AtRest recs)
    (hsame : Disk.Same disk' disk) : disk'.AtRest recs where
  asc := by
    have hids : ∀ disk : Disk, (disk.filter LogFile.linked).map LogFile.id
        = disk.dir.map SegmentFile.id := by
      intro disk
      unfold Disk.dir
      rw [List.map_map]
      rfl
    have hasc : ((disk.filter LogFile.linked).map LogFile.id).Pairwise
        (· < ·) := List.pairwise_map.mpr h.asc
    rw [hids, ← hsame.dir, ← hids] at hasc
    exact List.pairwise_map.mp hasc
  recovers := by
    rw [hsame.dir]
    exact h.recovers

/-- A file that has been cut is no longer than what was synced of it. -/
theorem Opening.Holds.certain_setLen {recs : List WalRecord}
    {id offset next : Nat} (h : Holds disk recs (.setLen id offset next))
    (hcertain : disk.Certain) : (disk.setLen id offset).Certain := by
  obtain ⟨hrest, -, seg, hlast, rfl, rfl⟩ := h
  have hpre := records.used_prefix seg.bytes
  have hmem : seg ∈ disk.dir :=
    (list_perm _).subset (List.mem_of_getLast? hlast)
  unfold Disk.setLen Disk.Certain
  rw [List.forall_mem_map]
  intro f hf
  obtain ⟨hdurable, hsynced⟩ := hcertain f hf
  split
  · rename_i hnamed
    rw [Bool.and_eq_true, beq_iff_eq] at hnamed
    have hsame : (⟨f.id, f.bytes⟩ : SegmentFile) = seg :=
      List.inj_on_of_nodup_map hrest.nodup (List.mem_map_of_mem
        (List.mem_filter.mpr ⟨hf, hnamed.1⟩)) hmem hnamed.2
    have hbytes : f.bytes = seg.bytes := congrArg SegmentFile.bytes hsame
    refine ⟨hdurable, ?_⟩
    have hle := hpre.length_le
    show min f.synced _ = (Wal.setLen f.bytes _).length
    unfold Wal.setLen
    rw [hsynced, hbytes, List.length_append, List.length_take,
      List.length_replicate]
    omega
  · exact ⟨hdurable, hsynced⟩

-- ============================================================= an open log

section

variable {cfg : WalConfig} {base sure count : Nat} {log : Log}
  {hand rest : List WalRecord} {m m' : Machine} {a : Action} {f : LogFile}

/-- Every closed file is certain, and the active one as far as the log is up
to the LSN `sure`, and all of it if there is another behind it. -/
structure Secure (sure : Nat) (disk : Disk) (m : Machine) : Prop where
  closed : ∀ (i : Nat) (f : LogFile), i < m.seg.file → disk[i]? = some f →
    f.durable = true ∧ f.synced = f.bytes.length
  active : ∀ f : LogFile, disk[m.seg.file]? = some f →
    f.durable = true ∧ f.synced ≤ f.bytes.length
  sealed : m.pc.fresh ≠ 0 → ∀ f : LogFile, disk[m.seg.file]? = some f →
    f.synced = f.bytes.length
  sure : ∀ f : LogFile, disk[m.seg.file]? = some f →
    sure + m.hand.length + m.shared.buffer.buf.length + f.bytes.length
      ≤ m.shared.buffer.end_ + f.synced

/-- A running log over files that were certain when it was opened: it has
accepted `count` records, and what has been synced reaches to `sure`. -/
def Anchored (cfg : WalConfig) (sure count : Nat) (disk : Disk)
    (m : Machine) : Prop :=
  ∃ before as, before.Certain ∧ FromOpen cfg before as disk m
    ∧ (acceptedIn as).length = count ∧ Reached before.length disk m sure

/-- Files may be gone from the directory, and removed ones back. -/
theorem Secure.relinked (h : Secure sure disk m)
    (hsame : disk'.Relinked disk) : Secure sure disk' m.calm := by
  refine ⟨fun i f' hi hf' => ?_, fun f' hf' => ?_, fun hfresh f' hf' => ?_,
    fun f' hf' => ?_⟩
  all_goals
    obtain ⟨f, b, hf, rfl⟩ := hsame.getElem? hf'
  · exact h.closed i f hi hf
  · exact h.active f hf
  · exact h.sealed hfresh f hf
  · exact h.sure f hf

/-- The log in front of the active file, that file, the batch in hand and
the buffer are all there is. -/
theorem Sim.lengths (h : Sim base log hand rest disk m)
    (hf : disk[m.seg.file]? = some f) :
    (logBytes log.closed.flatten).length + f.bytes.length + m.hand.length
      + m.shared.buffer.buf.length = m.shared.buffer.end_ := by
  have hbytes : f.bytes = logBytes log.active ++ m.spare.take m.pc.done := by
    rw [h.file] at hf
    rcases h.file_cases hf with ⟨hlt, -⟩ | ⟨-, hb⟩ | ⟨hlt, -⟩
    · exact absurd hlt (Nat.lt_irrefl _)
    · exact hb
    · exact absurd hlt (Nat.lt_irrefl _)
  have hhand := congrArg List.length h.hand_eq
  rw [h.end_, h.buf, hbytes, Log.accepted, Log.flushed, h.pending]
  simp only [logBytes_append, List.length_append] at hhand ⊢
  omega

/-- Files from one place on and from another hold the same if it is as
much. -/
private theorem flatten_drop_eq {files : List Bytes} {i j : Nat}
    (h : (files.drop i).flatten.length = (files.drop j).flatten.length) :
    (files.drop i).flatten = (files.drop j).flatten := by
  have hsuffix : ∀ i, (files.drop i).flatten <:+ files.flatten :=
    fun i => (List.drop_suffix i files).flatten
  exact (List.suffix_of_suffix_length_le (hsuffix i) (hsuffix j)
    (Nat.le_of_eq h)).eq_of_length h

/-- The files behind the first ones, that batch and the buffer hold what was
accepted. -/
theorem Sim.accepted_bytes (h : Sim base log hand rest disk m) :
    logBytes log.accepted = ((disk.map LogFile.bytes).drop base).flatten
      ++ (m.hand ++ m.shared.buffer.buf) := by
  have hnone : ∀ n, (List.replicate n ([] : Bytes)).flatten = [] := by
    intro n
    rw [List.flatten_eq_nil_iff]
    exact fun b hb => List.eq_of_mem_replicate hb
  rw [h.bytes, List.flatten_append, List.flatten_cons, hnone, List.append_nil,
    ← logBytes_flatten, h.buf, Log.accepted, Log.flushed, h.pending]
  simp only [logBytes_append, List.append_assoc]
  rw [← List.append_assoc (m.spare.take m.pc.done), h.hand_eq]

/-- So files and machine tell how many records were accepted. -/
theorem Sim.accepted_length {base' : Nat} {log' : Log}
    {hand' rest' : List WalRecord} (h : Sim base log hand rest disk m)
    (h' : Sim base' log' hand' rest' disk m) :
    log.accepted.length = log'.accepted.length := by
  have hcount : ∀ {recs : List WalRecord}, (∀ rec ∈ recs, rec.Accepted) →
      recs.length = (records.scan (logBytes recs)).items.length := by
    intro recs haccepted
    have hdecodes := (Whole.accepted haccepted).scan
    rw [hdecodes.length_eq, List.length_map]
  have hbytes : logBytes log.accepted = logBytes log'.accepted := by
    have hlen := h.end_.symm.trans h'.end_
    rw [h.accepted_bytes, h'.accepted_bytes] at hlen ⊢
    simp only [List.length_append, Nat.add_right_cancel_iff] at hlen
    rw [flatten_drop_eq hlen]
  rw [hcount h.accepted, hcount h'.accepted, hbytes]

/-- The closed files hold the closed part of the log. -/
theorem Sim.upTo_closed (h : Sim base log hand rest disk m) :
    disk.upTo base log.closed.length
      = (logBytes log.closed.flatten).length := by
  unfold Disk.upTo fileBytes
  rw [List.map_take, List.map_drop, h.bytes,
    List.take_left' (List.length_map _), logBytes_flatten]

theorem Disk.upTo_mono (disk : Disk) (base : Nat) {k k' : Nat} (h : k ≤ k') :
    disk.upTo base k ≤ disk.upTo base k' := by
  unfold upTo fileBytes
  rw [List.map_take, List.map_take]
  have hpre : ((disk.drop base).map LogFile.bytes).take k
      <+: ((disk.drop base).map LogFile.bytes).take k' :=
    List.take_prefix_take_left h
  exact hpre.flatten.length_le

/-- The flusher goes to newer files only. -/
theorem Sim.file_mono (h : Sim base log hand rest disk m)
    (hs : Wal.step cfg a (disk, m) = some (disk', m')) :
    m.seg.file ≤ m'.seg.file := by
  by_cases ha : ∃ n, a = .flusher n
  · obtain ⟨n, rfl⟩ := ha
    have hs' : FlusherStep cfg n disk m disk' m' := .of_step hs
    cases hs' with
    | @syncDir why file hpc =>
        have hfresh := h.freshFile file why hpc
        have := h.file
        show m.seg.file ≤ file
        omega
    | _ => exact Nat.le_refl _
  · obtain ⟨hkeeps, -, -⟩ := step_keeps (fun n he => ha ⟨n, he⟩) hs
    have hseg : m'.seg = m.seg := hkeeps.seg
    rw [hseg]

/-- What has been synced stays so. -/
theorem Reached.step {w : Nat} (h : Reached base disk m w)
    (hsealed : Sealed base disk m) (hsim : Sim base log hand rest disk m)
    (hs : Wal.step cfg a (disk, m) = some (disk', m')) :
    Reached base disk' m' w := by
  obtain ⟨k, f, hk, hf, hle⟩ := h
  have hlater := step_later hs
  obtain ⟨f', hf', hnext⟩ := hlater.kept _ _ hf
  have hsize := (List.getElem?_eq_some_iff.mp hf).1
  have hupTo := hlater.upTo base (k := k) (by omega)
  have hsynced := hnext.synced_le (hsealed.within k f hf)
  have hfile := hsim.file_mono hs
  exact ⟨k, f', by omega, hf', by omega⟩

/-- The files that were there when the log was opened stay certain. -/
theorem FromOpen.old_certain {before : Disk} {as : List Action}
    (hbefore : before.Certain) (hrun : FromOpen cfg before as disk m) :
    ∀ (i : Nat) (f : LogFile), i < before.length → disk[i]? = some f →
      f.durable = true ∧ f.synced = f.bytes.length := by
  refine Run.invariant (P := fun _ (s : Disk × Machine) =>
    ∀ (i : Nat) (f : LogFile), i < before.length → s.1[i]? = some f →
      f.durable = true ∧ f.synced = f.bytes.length) ?_ ?_ hrun
  · intro i f hi hf
    replace hf : (before ++ [_])[i]? = some f := hf
    rw [List.getElem?_append_left hi] at hf
    exact hbefore f (List.mem_of_getElem? hf)
  · rintro as ⟨disk, m⟩ a ⟨disk', m'⟩ hrun h hs i f' hi hf'
    obtain ⟨log, hand, rest, -, -, hsim⟩ := FromOpen.sim hrun
    have hsize := hsim.size
    have hfile := hsim.file
    obtain ⟨f, hf, hnext⟩ := (step_later hs).before (by omega) hf'
    obtain ⟨hdurable, hsynced⟩ := h i f hi hf
    exact ⟨hnext.durable hdurable,
      hnext.full (fun hbusy => by omega) hsynced⟩

namespace Anchored

theorem start {before : Disk} (hbefore : before.Certain) :
    Anchored cfg 0 0 (opened before).1 (opened before).2 := by
  refine ⟨before, [], hbefore, .nil, rfl, 0,
    { id := firstId before, durable := true }, Nat.le_refl _, ?_, Nat.zero_le _⟩
  show (before ++ [_])[before.length + 0]? = _
  rw [List.getElem?_append_right (Nat.le_add_right _ _)]
  simp

theorem step (h : Anchored cfg sure count disk m)
    (hs : Wal.step cfg a (disk, m) = some (disk', m')) :
    Anchored cfg sure (count + a.accepted.length) disk' m' := by
  obtain ⟨before, as, hbefore, hrun, rfl, hreached⟩ := h
  obtain ⟨hsealed, -⟩ := FromOpen.syncing hrun
  obtain ⟨log, hand, rest, -, -, hsim⟩ := FromOpen.sim hrun
  refine ⟨before, _, hbefore, .snoc hrun hs, ?_,
    hreached.step hsealed hsim hs⟩
  rw [acceptedIn_append, acceptedIn_singleton, List.length_append]

/-- More of it is certain. -/
theorem max (h : Anchored cfg sure count disk m) {w : Nat}
    (hw : ∀ before as, before.Certain → FromOpen cfg before as disk m →
      Reached before.length disk m w) :
    Anchored cfg (Nat.max sure w) count disk m := by
  obtain ⟨before, as, hbefore, hrun, hcount, hreached⟩ := h
  refine ⟨before, as, hbefore, hrun, hcount, ?_⟩
  rcases Nat.le_total sure w with hle | hle
  · rw [show Nat.max sure w = w from Nat.max_eq_right hle]
    exact hw before as hbefore hrun
  · rw [show Nat.max sure w = sure from Nat.max_eq_left hle]
    exact hreached

/-- The syncer has synced. -/
theorem synced (h : Anchored cfg sure count disk m) {w file : Nat}
    {due : Bool} (hpc : m.syncer = .sync w file)
    (hs : Wal.step cfg (.syncer due) (disk, m) = some (disk', m')) :
    Anchored cfg (Nat.max sure w) count disk' m' := by
  refine (h.step hs).max fun before as _ hrun => ?_
  obtain ⟨-, hknows⟩ := FromOpen.syncing hrun
  have htop : m'.syncer = .top w := by
    simp only [Wal.step, syncerStep, hpc] at hs
    cases hs
    rfl
  rw [htop] at hknows
  exact hknows

/-- With nothing on its way and nothing in the active file all of the log
is. -/
theorem all (h : Anchored cfg sure count disk m) (hwritten : m.seg.written = 0)
    (hdone : m.spare.take m.pc.done = []) (hhand : m.hand = [])
    (hbuf : m.shared.buffer.buf = []) :
    Anchored cfg (Nat.max sure m.shared.buffer.end_) count disk m := by
  refine h.max fun before as _ hrun => ?_
  obtain ⟨log, hand, rest, -, -, hsim⟩ := FromOpen.sim hrun
  have hlt : m.seg.file < disk.length := by
    have := hsim.size
    have := hsim.file
    omega
  obtain ⟨f, hf⟩ : ∃ f, disk[m.seg.file]? = some f :=
    ⟨_, List.getElem?_eq_getElem hlt⟩
  have hlengths := hsim.lengths hf
  rw [hhand, hbuf] at hlengths
  rw [hsim.file] at hf
  refine ⟨log.closed.length, f, Nat.le_of_eq hsim.file.symm, hf, ?_⟩
  have hempty : f.bytes = [] := by
    rcases hsim.file_cases hf with ⟨hlt, -⟩ | ⟨-, hb⟩ | ⟨-, hb⟩
    · exact absurd hlt (Nat.lt_irrefl _)
    · have hpos := hsim.pos
      rw [hwritten] at hpos
      rw [hb, hdone, List.append_nil]
      exact List.length_eq_zero_iff.mp hpos.symm
    · exact hb
  rw [hempty] at hlengths
  rw [hsim.upTo_closed]
  simp only [List.length_nil] at hlengths
  omega

/-- So it is secure. What was found when the log was opened is certain
still, and `Sealed` says the rest of the closed files and of the active one;
what the syncer had synced of a file that is closed by now is less than all
of it, so `sure` is counted from the active file. -/
theorem secure (h : Anchored cfg sure count disk m) : Secure sure disk m := by
  obtain ⟨before, as, hbefore, hrun, -, hreached⟩ := h
  obtain ⟨hsealed, -⟩ := FromOpen.syncing hrun
  obtain ⟨log, hand, rest, -, -, hsim⟩ := FromOpen.sim hrun
  have hold := FromOpen.old_certain hbefore hrun
  have hfile := hsim.file
  refine ⟨fun i f hi hf => ?_, fun f hf => ?_, fun hfresh f hf => ?_,
    fun f hf => ?_⟩
  · rcases Nat.lt_or_ge i before.length with hlt | hge
    · exact hold i f hlt hf
    · obtain ⟨k, rfl⟩ := Nat.exists_eq_add_of_le hge
      exact ⟨hsealed.entered k f (Nat.le_of_lt hi) hf, hsealed.closed k f hi hf⟩
  · rw [hfile] at hf
    exact ⟨hsealed.entered _ f (Nat.le_of_eq hfile.symm) hf,
      hsealed.within _ f hf⟩
  · refine hsealed.active ?_ f hf
    cases hpc : m.pc with
    | rotate stage why =>
        rw [hpc] at hfresh
        cases stage with
        | syncDir file => rfl
        | _ => exact absurd rfl hfresh
    | _ =>
        rw [hpc] at hfresh
        exact absurd rfl hfresh
  · have hlengths := hsim.lengths hf
    obtain ⟨k, g, hk, hg, hle⟩ := hreached
    -- what the syncer had of an earlier file, it has all of it by now
    have hcovered : sure ≤ (logBytes log.closed.flatten).length + f.synced := by
      rw [← hsim.upTo_closed]
      rcases Nat.lt_or_eq_of_le hk with hlt | heq
      · have hfull := hsealed.closed k g hlt hg
        have hmono := disk.upTo_mono before.length
          (show k + 1 ≤ log.closed.length by omega)
        rw [Disk.upTo_succ hg] at hmono
        omega
      · rw [heq, hf] at hg
        cases hg
        have hkc : k = log.closed.length := by omega
        rw [← hkc]
        exact hle
    omega

/-- Files and machine tell how many records that are. -/
theorem counted (h : Anchored cfg sure count disk m) :
    ∃ base log hand rest, Sim base log hand rest disk m
      ∧ log.accepted.length = count := by
  obtain ⟨before, as, -, hrun, hcount, -⟩ := h
  obtain ⟨log, hand, rest, hacc, -, hsim⟩ := FromOpen.sim hrun
  exact ⟨_, log, hand, rest, hsim, hacc ▸ hcount⟩

/-- What the flusher leaves is certain. -/
theorem exited (h : Anchored cfg sure count disk m) (hpc : m.pc = .exited) :
    disk.Certain := by
  obtain ⟨before, as, hbefore, hrun, -, -⟩ := h
  intro f hf
  obtain ⟨i, hi⟩ := List.mem_iff_getElem?.mp hf
  rcases Nat.lt_or_ge i before.length with hlt | hge
  · exact FromOpen.old_certain hbefore hrun i f hlt hi
  · obtain ⟨k, rfl⟩ := Nat.exists_eq_add_of_le hge
    refine FromOpen.synced hrun hpc f (List.mem_of_getElem? (i := k) ?_)
    rw [List.getElem?_drop]
    exact hi

end Anchored

end

-- ============================================================== what is left

/-- The directory with a file in front that has been cut. -/
theorem Disk.dir_cut {f : LogFile} (hlinked : f.linked = true) (n : Nat)
    (disk : Disk) :
    Disk.dir ({ f with
      bytes := f.bytes.take n, synced := n, durable := true } :: disk)
      = ⟨f.id, f.bytes.take n⟩ :: disk.dir := by
  unfold Disk.dir
  rw [List.filter_cons_of_pos (p := LogFile.linked) (a := { f with
    bytes := f.bytes.take n, synced := n, durable := true }) hlinked,
    List.map_cons]

/-- Of the names in a directory some are left, in their order. -/
theorem Disk.powerLoss_entries (hloss : disk.powerLoss kept = some disk') :
    (disk'.map LogFile.entry).Sublist (disk.map LogFile.entry) := by
  induction disk generalizing kept disk' with
  | nil =>
      cases kept with
      | nil =>
          cases hloss
          exact .slnil
      | cons keep kept => cases hloss
  | cons f disk ih =>
      obtain ⟨kept', rest, hrest, hfirst⟩ := Disk.powerLoss_cons hloss
      rcases hfirst with ⟨-, -, rfl⟩ | ⟨n, -, -, -, rfl⟩
      · exact (ih hrest).cons _
      · exact (ih hrest).cons_cons _

/-- Order is a matter of the entries. -/
theorem ascending_of_entries
    (hsub : (disk'.map LogFile.entry).Sublist (disk.map LogFile.entry))
    (hasc : Ascending LogFile.id (disk.filter LogFile.linked)) :
    Ascending LogFile.id (disk'.filter LogFile.linked) := by
  have hentries : ∀ disk : Disk,
      Ascending LogFile.id (disk.filter LogFile.linked)
        ↔ (((disk.map LogFile.entry).filter Prod.snd).map Prod.fst).Pairwise
          (· < ·) := by
    intro disk
    rw [List.filter_map, List.map_map]
    exact List.pairwise_map.symm
  rw [hentries] at hasc ⊢
  exact hasc.sublist ((hsub.filter _).map _)

theorem logBytes_take_le (recs : List WalRecord) {i j : Nat} (h : i ≤ j) :
    (logBytes (recs.take i)).length ≤ (logBytes (recs.take j)).length := by
  obtain ⟨more, hmore⟩ := List.take_prefix_take_left (l := recs) h
  rw [← hmore, logBytes_append, List.length_append]
  exact Nat.le_add_right _ _

section

variable {sure : Nat} {old : List (List WalRecord)} {as : List Action}
  {log : Log} {hand rest : List WalRecord} {m : Machine}

/-- If the first `k` records behind the closed part are the last whole ones
in `n` bytes, records that end below them are no more than these. -/
private theorem Log.within {k n i : Nat}
    (hmore : k < (log.active ++ log.pending).length →
      n < (logBytes ((log.active ++ log.pending).take (k + 1))).length)
    (hi : i ≤ log.accepted.length)
    (hle : (logBytes (log.accepted.take i)).length
      ≤ (logBytes log.closed.flatten).length + n) :
    i ≤ log.closed.flatten.length + k := by
  by_contra hlt
  obtain ⟨j, rfl⟩ : ∃ j, i = log.closed.flatten.length + j :=
    ⟨i - log.closed.flatten.length, by omega⟩
  have hsplit : log.accepted
      = log.closed.flatten ++ (log.active ++ log.pending) :=
    List.append_assoc _ _ _
  rw [hsplit, List.length_append] at hi
  rw [hsplit, List.take_length_add_append, logBytes_append,
    List.length_append] at hle
  have hnext := hmore (by omega)
  have hmono := logBytes_take_le (log.active ++ log.pending)
    (show k + 1 ≤ j by omega)
  omega

/-- The active file, cut: its whole records are the first of those that are
not in closed files. Behind the records it has stand a part of the batch,
the rest of it and the buffer, so the next record, if there is one, ends
behind the cut wherever it is. -/
private theorem Journal.active_cut (h : Journal old as log hand rest disk m)
    (hlogged : ∀ rec ∈ log.accepted, rec.logged = rec) {n : Nat}
    (hn : n ≤ (logBytes log.active ++ m.spare.take m.pc.done).length) :
    ∃ k ≤ (log.active ++ log.pending).length,
      Decodes (records.scan
          ((logBytes log.active ++ m.spare.take m.pc.done).take n)).items
        ((log.active ++ log.pending).take k)
      ∧ (k < (log.active ++ log.pending).length →
        n < (logBytes ((log.active ++ log.pending).take (k + 1))).length) := by
  have hpre : logBytes log.active ++ m.spare.take m.pc.done
      <+: logBytes (log.active ++ hand) := by
    rw [logBytes_append, ← h.sim.hand_eq, ← List.append_assoc]
    exact List.prefix_append _ _
  have hall : log.active ++ log.pending = (log.active ++ hand) ++ rest := by
    rw [h.sim.pending, List.append_assoc]
  have hin : ∀ rec ∈ log.active ++ hand, rec ∈ log.accepted := by
    intro rec hrec
    rw [Log.accepted, Log.flushed, List.append_assoc, hall]
    exact List.mem_append_right _ (List.mem_append_left _ hrec)
  obtain ⟨k, hk, -, hnext, -, hdecodes, -⟩ :=
    scan_cut (fun rec hrec => h.sim.accepted rec (hin rec hrec))
      (Nat.le_trans hn hpre.length_le)
  have hsame : ((log.active ++ hand).take k).map WalRecord.logged
      = (log.active ++ hand).take k :=
    (List.map_congr_left fun rec hrec =>
      hlogged rec (hin rec (List.mem_of_mem_take hrec))).trans (List.map_id _)
  have hbytes : (logBytes (log.active ++ hand)).take n
      = (logBytes log.active ++ m.spare.take m.pc.done).take n := by
    obtain ⟨more, hmore⟩ := hpre
    rw [← hmore, List.take_append_of_le_length hn]
  rw [hsame, hbytes] at hdecodes
  refine ⟨k, ?_, ?_, fun hlt => ?_⟩
  · rw [hall]
    exact Nat.le_trans hk (List.prefix_append _ _).length_le
  · rw [hall, List.take_append_of_le_length hk]
    exact hdecodes
  · rw [hall] at hlt ⊢
    rcases Nat.lt_or_ge k (log.active ++ hand).length with hin | hout
    · rw [List.take_append_of_le_length hin]
      exact hnext hin
    · -- the next one has not left the buffer
      obtain rfl := Nat.le_antisymm hk hout
      rw [List.take_length_add_append, logBytes_append, List.length_append]
      have hpos : 0 < (logBytes (rest.take 1)).length := by
        refine logBytes_length_pos fun hnil => ?_
        have hzero := congrArg List.length hnil
        rw [List.length_take, List.length_nil] at hzero
        have hsplit : (log.active ++ hand ++ rest).length
            = (log.active ++ hand).length + rest.length := List.length_append
        omega
      have := hpre.length_le
      omega

/-- The active file is the last: it is left with its first `n` bytes. -/
private theorem Journal.last_left (h : Journal old as log hand rest disk m)
    (hlogged : ∀ rec ∈ log.accepted, rec.logged = rec) {front : Disk}
    {recs : List WalRecord} (hwhole : Intact front.dir recs) {f : LogFile}
    (hlinked : f.linked = true)
    (hbytes : f.bytes = logBytes log.active ++ m.spare.take m.pc.done)
    {n : Nat} (hle : n ≤ f.bytes.length) :
    ∃ k ≤ (log.active ++ log.pending).length,
      Recovers (Disk.dir (front ++ [{ f with
          bytes := f.bytes.take n, synced := n, durable := true }]))
        (recs ++ (log.active ++ log.pending).take k)
      ∧ (k < (log.active ++ log.pending).length →
        n < (logBytes ((log.active ++ log.pending).take (k + 1))).length) := by
  rw [hbytes] at hle
  obtain ⟨k, hk, hdecodes, hmore⟩ := h.active_cut hlogged hle
  refine ⟨k, hk, ?_, hmore⟩
  rw [Disk.dir_append, Disk.dir_cut hlinked, hbytes]
  exact recovers_concat.mpr ⟨_, _, hwhole, hdecodes, rfl⟩

/-- In a rotation the next file has been created: the active one has been
synced, and is left as it is; the next is left empty, or not at all. Either
way a replay finds all that was in the files and nothing else. -/
private theorem Journal.created_left (h : Journal old as log hand rest disk m)
    (hlogged : ∀ rec ∈ log.accepted, rec.logged = rec) {front : Disk}
    {recs : List WalRecord} (hwhole : Intact front.dir recs) {f g : LogFile}
    (hlinked : f.linked = true) (hbytes : f.bytes = logBytes log.active)
    (hnext : g.linked = true) (hempty : g.bytes = [])
    {left : Disk} (hloss : Disk.powerLoss [g] kept = some left) :
    ∃ k ≤ (log.active ++ log.pending).length,
      Recovers (Disk.dir (front ++ { f with
          bytes := f.bytes.take f.bytes.length, synced := f.bytes.length
          durable := true } :: left))
        (recs ++ (log.active ++ log.pending).take k)
      ∧ (k < (log.active ++ log.pending).length → f.bytes.length
        < (logBytes ((log.active ++ log.pending).take (k + 1))).length) := by
  have hactive : Intact [⟨f.id, f.bytes⟩] log.active := by
    refine .single ?_
    show Whole f.bytes _
    rw [hbytes]
    exact h.whole_part hlogged fun rec hrec =>
      List.mem_append_left _ (List.mem_append_right _ hrec)
  have hboth := hwhole.append hactive
  refine ⟨log.active.length, ?_, ?_, fun hlt => ?_⟩
  · rw [List.length_append]
    exact Nat.le_add_right _ _
  · obtain ⟨kept', rest', hnone, hlast⟩ := Disk.powerLoss_cons hloss
    obtain rfl := Disk.powerLoss_nil hnone
    rw [List.take_left, Disk.dir_append, Disk.dir_cut hlinked,
      List.take_length]
    rcases hlast with ⟨-, -, rfl⟩ | ⟨n, -, -, -, rfl⟩
    · exact hboth.recovers
    · have hfresh := (hboth.fresh g.id).recovers
      rw [List.append_assoc] at hfresh
      rw [Disk.dir_cut hnext, hempty, List.take_nil]
      exact hfresh
  · -- what is certain ends with it
    rw [List.take_length_add_append, logBytes_append, List.length_append,
      ← hbytes]
    refine Nat.lt_add_of_pos_right (logBytes_length_pos fun hnil => ?_)
    have hzero := congrArg List.length hnil
    rw [List.length_take, List.length_nil] at hzero
    rw [List.length_append] at hlt
    omega

/-- A power loss takes records off the end of a secure log, and none that
ends below what is certain. The files in front of the active one are on
disk, so they are left whole; of the active one its synced bytes are left,
and those hold every record that is certain.

The records lost are counted from the end, since the ones that were removed
are in front of those retained and not in front of those accepted. -/
theorem Journal.outage (h : Journal old as log hand rest disk m)
    (hlogged : ∀ rec ∈ log.accepted, rec.logged = rec)
    (hsecure : Secure sure disk m)
    (hloss : disk.powerLoss kept = some disk') :
    ∃ k ≤ (log.recs old disk).length,
      disk'.AtRest ((log.recs old disk).take k)
        ∧ ∀ i ≤ log.accepted.length,
          (logBytes (log.accepted.take i)).length ≤ sure →
          (log.recs old disk).length - k ≤ log.accepted.length - i := by
  have hasc := ascending_of_entries (Disk.powerLoss_entries hloss) h.ascending
  obtain ⟨f, fresh, hfiles, hbytes, hfresh⟩ := h.back_files
  have hnamed := h.back_named hfiles
  have hlinked : f.linked = true := hnamed f List.mem_cons_self
  -- the files in front, the active one, and perhaps the next
  have hdisk : disk = disk.take (old.length + log.closed.length)
      ++ f :: fresh := by
    rw [← hfiles, List.take_append_drop]
  have hat : disk[m.seg.file]? = some f := by
    have hget : (disk.drop (old.length + log.closed.length))[0]?
        = disk[old.length + log.closed.length + 0]? := List.getElem?_drop
    rw [hfiles, Nat.add_zero, ← h.sim.file] at hget
    exact hget.symm
  -- the files in front are left as they are
  obtain ⟨kept₁, kept₂, front', back', hfront, hback, hdisk'⟩ :
      ∃ kept₁ kept₂ front' back',
        Disk.powerLoss (disk.take (old.length + log.closed.length)) kept₁
          = some front'
        ∧ Disk.powerLoss (f :: fresh) kept₂ = some back'
        ∧ disk' = front' ++ back' := by
    rw [hdisk] at hloss
    exact Disk.powerLoss_append hloss
  have hcertain : Disk.Certain
      (disk.take (old.length + log.closed.length)) := by
    intro g hg
    obtain ⟨i, hi⟩ := List.mem_iff_getElem?.mp hg
    rw [List.getElem?_take] at hi
    split at hi
    · rename_i hlt
      exact hsecure.closed i g (h.sim.file ▸ hlt) hi
    · cases hi
  have hwhole := Intact.of_whole (h.front_whole hlogged)
  rw [← (hcertain.powerLoss hfront).dir] at hwhole
  -- the active file is left, with what of it was synced
  obtain ⟨kept₃, fresh', hrest, hfirst⟩ := Disk.powerLoss_cons hback
  obtain ⟨hdurable, -⟩ := hsecure.active f hat
  rcases hfirst with ⟨hlost, -, -⟩ | ⟨n, hsynced, hle, -, rfl⟩
  · rw [hdurable] at hlost
    cases hlost
  have hsure : sure ≤ (logBytes log.closed.flatten).length + n := by
    have hlengths := h.sim.lengths hat
    have := hsecure.sure f hat
    omega
  subst hdisk'
  obtain ⟨k, hk, hrecovers, hmore⟩ : ∃ k ≤ (log.active ++ log.pending).length,
      Recovers (Disk.dir (front' ++ { f with
          bytes := f.bytes.take n, synced := n, durable := true } :: fresh'))
        (retained ((disk.take (old.length + log.closed.length)).map
          LogFile.linked) (old ++ log.closed)
          ++ (log.active ++ log.pending).take k)
      ∧ (k < (log.active ++ log.pending).length →
        n < (logBytes ((log.active ++ log.pending).take (k + 1))).length) := by
    -- nothing behind the active file, or the file of a rotation
    rcases m.pc.fresh_cases with h₀ | ⟨h₁, hdone⟩
    · rw [h₀, List.replicate_zero, List.map_eq_nil_iff] at hfresh
      subst hfresh
      obtain rfl := Disk.powerLoss_nil hrest
      exact h.last_left hlogged hwhole hlinked hbytes hle
    · rw [h₁, List.replicate_one, List.map_eq_singleton_iff] at hfresh
      obtain ⟨g, rfl, hempty⟩ := hfresh
      obtain rfl : n = f.bytes.length := by
        have := hsecure.sealed (by rw [h₁]; exact Nat.one_ne_zero) f hat
        omega
      rw [hdone, List.take_zero, List.append_nil] at hbytes
      exact h.created_left hlogged hwhole hlinked hbytes
        (hnamed g (List.mem_cons_of_mem _ List.mem_cons_self)) hempty hrest
  -- and these are the first `k` behind the files in front
  rw [h.recs_split]
  refine ⟨(retained ((disk.take (old.length + log.closed.length)).map
    LogFile.linked) (old ++ log.closed)).length + k,
    ?_, ⟨hasc, ?_⟩, fun i hi hi' => ?_⟩
  · rw [List.length_append]
    exact Nat.add_le_add_left hk _
  · rw [Disk.list_dir hasc, List.take_length_add_append]
    exact hrecovers
  · have hin := Log.within hmore hi (Nat.le_trans hi' hsure)
    have hlen : log.accepted.length = log.closed.flatten.length
        + (log.active ++ log.pending).length := by
      rw [Log.accepted, Log.flushed, List.append_assoc, List.length_append]
    rw [List.length_append, hlen]
    omega

end

end Tsdb.Wal
