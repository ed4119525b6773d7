/-
Files that have been removed, and may be back.

`remove_through` syncs the directory behind its last file. Until then the
directory on disk is the one that was synced before, and a power loss may
put any of the removed files back (`Disk.back`).

# The shadow

The log's threads never ask for a file that has been removed. So next to the
log runs another one, with the same threads, over a directory in which all
of these files are still there, and in which nobody has called
`remove_through` (`Machine.calm`): every step of a thread is a step of both
(`step_calm`). What a power loss puts back, it has all of.

# How the two are kept together

`Disk.back named back` gives their names to the files at the positions
`back`, as far as the directory had named them when it was last synced;
with all of them it is the shadow. Calls that do not look at names commute
with it (`shadow_modify`, and `Relinked` for projections). Two do look.
`create` asks whether a name is taken, and the files that are back are
below the active segment while the new one is above (`Gone`). `unlink`
is only called by `remove_through`, which the shadow does not do; in the
log itself it only enlarges the difference.

Every choice of files lies below the shadow (`still_back`): the same
files, of which some may have been removed. A journal over the shadow
(`Tsdb.Wal.Retained`) is therefore one over what a power loss leaves, with
fewer names. When the directory is synced, nothing is to be put back any
more, and the shadow is the directory itself (`Unremoved`).

`Tsdb.Wal.Outage` has the power loss, and `Tsdb.Db.Outage` the checkpoint
between whose steps it happens.
-/
import Tsdb.Wal.AtRest

namespace Tsdb.Wal

open Lib (Ascending Bytes exec)

variable {cfg : WalConfig} {named : List Bool} {disk disk' : Disk}
  {m m' : Machine} {a : Action} {f : LogFile}

-- ============================================================ the directory

def LogFile.link (f : LogFile) (b : Bool) : LogFile := { f with linked := b }

/-- The same files, whichever of them the directory names. -/
def Disk.Relinked (disk' disk : Disk) : Prop :=
  disk'.map (·.link false) = disk.map (·.link false)

/-- Which files the directory names. -/
def Disk.names (disk : Disk) : List Bool := disk.map LogFile.linked

/-- The files, with some back: those of the positions `back` that the
directory has named when it was last synced. -/
def Disk.back (named : List Bool) (back : Nat → Bool) (disk : Disk) : Disk :=
  disk.mapIdx fun i f =>
    f.link (f.linked || (back i && named.getD i false))

/-- With all of them back. -/
def Disk.shadow (named : List Bool) (disk : Disk) : Disk :=
  disk.back named fun _ => true

/-- Nothing has been removed since the directory was last synced. -/
def Disk.Unremoved (named : List Bool) (disk : Disk) : Prop :=
  ∀ (i : Nat) (f : LogFile), disk[i]? = some f → named.getD i false = true →
    f.linked = true

/-- What has been removed since was below the active segment. -/
def Gone (named : List Bool) (disk : Disk) (m : Machine) : Prop :=
  ∀ (i : Nat) (f : LogFile), disk[i]? = some f → named.getD i false = true →
    f.linked = false → f.id < m.shared.activeSegment

namespace Disk

theorem getElem?_back (back : Nat → Bool) (i : Nat) :
    (disk.back named back)[i]? = disk[i]?.map fun f =>
      f.link (f.linked || (back i && named.getD i false)) := by
  unfold Disk.back
  rw [List.getElem?_mapIdx]

@[simp] theorem length_back (back : Nat → Bool) :
    (disk.back named back).length = disk.length :=
  List.length_mapIdx

theorem relinked_back (named : List Bool) (back : Nat → Bool) :
    (disk.back named back).Relinked disk := by
  refine List.ext_getElem? fun i => ?_
  rw [List.getElem?_map, getElem?_back, List.getElem?_map, Option.map_map]
  rfl

theorem relinked_unlink {id : Nat} (h : disk.unlink id = some disk') :
    disk'.Relinked disk :=
  map_unlink h fun _ => rfl

namespace Relinked

/-- A projection that does not look at the names. -/
theorem map_eq {β : Type} {g : LogFile → β} (h : disk'.Relinked disk)
    (hg : ∀ f, g (f.link false) = g f) : disk'.map g = disk.map g := by
  have hcomp : g ∘ (·.link false) = g := funext hg
  rw [← hcomp, ← List.map_map, ← List.map_map, h]

theorem getElem? {i : Nat} {f' : LogFile} (h : disk'.Relinked disk)
    (hf' : disk'[i]? = some f') :
    ∃ f b, disk[i]? = some f ∧ f' = f.link b := by
  have hat := congrArg (·[i]?) h
  simp only [List.getElem?_map, hf', Option.map_some] at hat
  obtain ⟨f, hf, heq⟩ := Option.map_eq_some_iff.mp hat.symm
  refine ⟨f, f'.linked, hf, ?_⟩
  show (f'.link false).link f'.linked = (f.link false).link f'.linked
  exact congrArg (LogFile.link · f'.linked) heq.symm

end Relinked

/-- Every choice lies below the shadow. -/
theorem still_back (back : Nat → Bool) :
    Still (disk.back named back) (disk.shadow named) := by
  refine List.forall₂_iff_get.mpr ⟨by simp [shadow], fun i hi hi' => ?_⟩
  have hlt : i < disk.length := length_back back ▸ hi
  simp only [shadow, Disk.back, List.get_eq_getElem, List.getElem_mapIdx]
  refine ⟨rfl, rfl, fun hlinked => ?_⟩
  show (disk[i].linked || (true && named.getD i false)) = true
  replace hlinked : (disk[i].linked || (back i && named.getD i false)) = true :=
    hlinked
  rw [Bool.or_eq_true, Bool.and_eq_true] at hlinked
  rw [Bool.true_and, Bool.or_eq_true]
  exact hlinked.imp_right And.right

theorem Unremoved.back (h : disk.Unremoved named) (back : Nat → Bool) :
    disk.back named back = disk := by
  refine List.ext_getElem? fun i => ?_
  rw [getElem?_back]
  cases hf : disk[i]? with
  | none => rfl
  | some f =>
      rw [Option.map_some, Option.some.injEq]
      have hsame : (f.linked || (back i && named.getD i false)) = f.linked := by
        cases hnamed : named.getD i false with
        | true => rw [h i f hf hnamed, Bool.true_or]
        | false => rw [Bool.and_false, Bool.or_false]
      rw [hsame]
      rfl

/-- It has just been synced. -/
theorem unremoved_names (disk : Disk) : disk.Unremoved disk.names := by
  intro i f hf hnamed
  unfold names at hnamed
  rw [List.getD_eq_getElem?_getD, List.getElem?_map, hf] at hnamed
  exact hnamed

/-- The names stay, and perhaps there is another. -/
theorem Unremoved.entries (h : disk.Unremoved named)
    (hnew : disk'.names = disk.names ∨ disk'.names = disk.names ++ [true]) :
    disk'.Unremoved named := by
  intro i f' hf' hnamed
  have hat : disk'.names[i]? = some f'.linked := by
    unfold names
    rw [List.getElem?_map, hf']
    rfl
  have hold : ∀ b, disk.names[i]? = some b → b = true := by
    intro b hb
    unfold names at hb
    rw [List.getElem?_map, Option.map_eq_some_iff] at hb
    obtain ⟨f, hf, rfl⟩ := hb
    exact h i f hf hnamed
  rcases hnew with heq | heq
  · rw [heq] at hat
    exact hold _ hat
  · rw [heq] at hat
    rcases Nat.lt_or_ge i disk.names.length with hlt | hge
    · rw [List.getElem?_append_left hlt] at hat
      exact hold _ hat
    · rw [List.getElem?_append_right hge] at hat
      have := List.mem_of_getElem? hat
      exact List.mem_singleton.mp this

theorem Unremoved.gone (h : disk.Unremoved named) (m : Machine) :
    Gone named disk m := by
  intro i f hf hnamed hlinked
  rw [h i f hf hnamed] at hlinked
  cases hlinked

/-- What the shadow of fewer names has, that of more has, too. -/
theorem still_shadow (h : Still disk' disk) :
    Still (disk'.shadow named) (disk.shadow named) := by
  obtain ⟨hlen, hall⟩ := List.forall₂_iff_get.mp h
  refine List.forall₂_iff_get.mpr ⟨by simp [shadow, hlen], fun i hi hi' => ?_⟩
  have hlt : i < disk'.length := length_back (fun _ => true) ▸ hi
  have hlt' : i < disk.length := hlen ▸ hlt
  have hf : (disk'[i]).Still disk[i] := hall i hlt hlt'
  simp only [shadow, Disk.back, List.get_eq_getElem, List.getElem_mapIdx]
  refine ⟨hf.id, hf.bytes, fun hlinked => ?_⟩
  replace hlinked : (disk'[i].linked || (true && named.getD i false)) = true :=
    hlinked
  show (disk[i].linked || (true && named.getD i false)) = true
  rw [Bool.or_eq_true] at hlinked ⊢
  exact hlinked.imp_left hf.linked

/-- A change of one file that does not look at the names. -/
theorem shadow_modify (change : LogFile → LogFile)
    (hchange : ∀ (f : LogFile) (b : Bool),
      change (f.link b) = (change f).link b)
    (hlinked : ∀ f, (change f).linked = f.linked) (file : Nat) :
    shadow named (disk.modify file change)
      = (disk.shadow named).modify file change := by
  refine List.ext_getElem? fun i => ?_
  unfold shadow
  rw [getElem?_back, List.getElem?_modify, List.getElem?_modify,
    getElem?_back]
  cases disk[i]? with
  | none => rfl
  | some f =>
      by_cases hi : file = i
      · simp only [hi, if_true, Option.map_eq_map, Option.map_some, hlinked,
          hchange]
      · simp only [if_neg hi, Option.map_eq_map, Option.map_some]

theorem shadow_sync (file : Nat) :
    shadow named (disk.sync file) = (disk.shadow named).sync file :=
  shadow_modify (fun f => { f with synced := f.bytes.length })
    (fun _ _ => rfl) (fun _ => rfl) file

theorem shadow_write (file pos : Nat) (bs : Bytes) :
    shadow named (disk.write file pos bs)
      = (disk.shadow named).write file pos bs :=
  shadow_modify (fun f => { f with
      bytes := f.bytes.take pos ++ List.replicate (pos - f.bytes.length) 0
        ++ bs ++ f.bytes.drop (pos + bs.length) })
    (fun _ _ => rfl) (fun _ => rfl) file

theorem shadow_syncDir :
    shadow named disk.syncDir = (disk.shadow named).syncDir := by
  refine List.ext_getElem? fun i => ?_
  unfold shadow syncDir
  rw [getElem?_back, List.getElem?_map, List.getElem?_map, getElem?_back,
    Option.map_map, Option.map_map]
  rfl

/-- A file behind them. -/
theorem shadow_concat (hlen : named.length ≤ disk.length) :
    shadow named (disk ++ [f]) = disk.shadow named ++ [f] := by
  have hnone : named.getD disk.length false = false := by
    rw [List.getD_eq_getElem?_getD, List.getElem?_eq_none hlen]
    rfl
  unfold shadow Disk.back
  rw [List.mapIdx_concat, hnone, Bool.and_false, Bool.or_false]
  rfl

end Disk

theorem Still.map_eq {β : Type} {g : LogFile → β}
    (h : Still disk' disk)
    (hg : ∀ {f' f : LogFile}, f'.Still f → g f' = g f) :
    disk'.map g = disk.map g := by
  induction h with
  | nil => rfl
  | cons hf _ ih => rw [List.map_cons, List.map_cons, hg hf, ih]

-- =============================================================== the shadow

/-- The machine, with nobody in `remove_through`. -/
def Machine.calm (m : Machine) : Machine :=
  { m with removing := fun _ => .idle }

/-- Is this a step of the log's threads, or of a caller that waits? -/
def Action.serves : Action → Bool
  | .flusher _ => true
  | .syncer _ => true
  | .waitReturn _ => true
  | _ => false

namespace Journal

variable {old : List (List WalRecord)} {as : List Action} {log : Log}
  {hand rest : List WalRecord}

theorem calm (h : Journal old as log hand rest disk m) :
    Journal old as log hand rest disk m.calm where
  sim := h.sim.frame rfl rfl rfl rfl rfl rfl rfl rfl rfl
  accepted := h.accepted
  cuts := ⟨h.cuts.wants, h.cuts.requested, h.cuts.drained, h.cuts.served,
    h.cuts.answered, h.cuts.fresh⟩
  removal := by
    refine ⟨h.removal.positive, fun j bound hb => ?_,
      fun j bound todo removed hr => ?_, h.removal.kept⟩
    · cases hb
    · cases hr
  closing := ⟨h.closing.seen, h.closing.ended⟩
  clearing := by
    refine ⟨h.clearing.started, h.clearing.published,
      fun j bound todo removed hr => ?_⟩
    cases hr
  old := h.old

/-- Files below the active segment may be gone. Of the joined invariants
only those about names look at this: the older files keep their parts as
long as they are named, lists are complete still, and the retained log has
fewer parts, in their order. -/
theorem still (h : Journal old as log hand rest disk m)
    (hstill : Still disk' disk)
    (hgone : ∀ (i : Nat) (f f' : LogFile), disk[i]? = some f →
      disk'[i]? = some f' → f.linked = true → f'.linked = false →
      f.id < m.shared.activeSegment) :
    Journal old as log hand rest disk' m
      ∧ (log.recs old disk').Sublist (log.recs old disk) := by
  have hids : disk'.map LogFile.id = disk.map LogFile.id :=
    hstill.map_eq fun hf => hf.id
  have hbytes : disk'.map LogFile.bytes = disk.map LogFile.bytes :=
    hstill.map_eq fun hf => hf.bytes
  have hat : ∀ {i : Nat} {f' : LogFile}, disk'[i]? = some f' →
      ∃ f, disk[i]? = some f ∧ f'.Still f := by
    intro i f' hf'
    obtain ⟨hlen, hall⟩ := List.forall₂_iff_get.mp hstill
    obtain ⟨hlt, rfl⟩ := List.getElem?_eq_some_iff.mp hf'
    exact ⟨_, List.getElem?_eq_getElem (hlen ▸ hlt), hall i hlt (hlen ▸ hlt)⟩
  refine ⟨⟨h.sim.frame hids hbytes rfl rfl rfl rfl rfl rfl rfl, h.accepted,
    h.cuts, { h.removal with kept := fun e he hlinked => ?_ }, h.closing,
    ⟨h.clearing.started, h.clearing.published,
      fun j bound todo removed hr e he hlinked hle => ?_⟩,
    h.old.still (List.forall₂_take _ hstill)⟩,
    retained_sublist hstill.flags _⟩
  · obtain ⟨i, hi⟩ := List.mem_iff_getElem?.mp he
    rw [List.getElem?_drop, List.getElem?_map, Option.map_eq_some_iff] at hi
    obtain ⟨f', hf', rfl⟩ := hi
    obtain ⟨f, hf, hsame⟩ := hat hf'
    cases hnamed : f.linked with
    -- an older file, or one created since: its part stays or goes as a whole
    | true =>
        show f'.id < _
        rw [hsame.id]
        exact hgone _ f f' hf hf' hnamed hlinked
    | false =>
        refine h.removal.kept f'.entry (List.mem_iff_getElem?.mpr ⟨i, ?_⟩)
          hlinked
        rw [List.getElem?_drop, List.getElem?_map, hf]
        show some (f.id, f.linked) = some (f'.id, f'.linked)
        rw [hsame.id, hnamed, show f'.linked = false from hlinked]
  · obtain ⟨f', hf', rfl⟩ := List.mem_map.mp he
    obtain ⟨i, hi⟩ := List.mem_iff_getElem?.mp hf'
    obtain ⟨f, hf, hsame⟩ := hat hi
    refine h.clearing.listed j bound todo removed hr f'.entry
      (List.mem_map.mpr ⟨f, List.mem_of_getElem? hf, ?_⟩) hlinked hle
    show (f.id, f.linked) = (f'.id, f'.linked)
    rw [hsame.id, hsame.linked hlinked, show f'.linked = true from hlinked]

/-- The next segment is new to the directory. -/
theorem create (h : Journal old as log hand rest disk m)
    {why : RotateFor} (hpc : m.pc = .rotate .create why) :
    disk.create (m.seg.id + 1)
      = some (disk ++ [{ id := m.seg.id + 1 }]) := by
  have hsize := h.sim.size
  have hid := h.sim.id
  have hfresh : m.pc.fresh = 0 := by rw [hpc]; rfl
  unfold Log.activeId at hid
  unfold Disk.create
  rw [if_neg]
  intro hany
  obtain ⟨f, hf, hnamed⟩ := List.any_eq_true.mp hany
  rw [Bool.and_eq_true, beq_iff_eq] at hnamed
  obtain ⟨i, hi⟩ := List.mem_iff_getElem?.mp hf
  have hlt := (List.getElem?_eq_some_iff.mp hi).1
  rcases Nat.lt_or_ge i old.length with hold | hnew
  · have hbelow := h.old.below f
      (List.mem_of_getElem? (by rw [List.getElem?_take_of_lt hold]; exact hi))
      hnamed.1
    omega
  · obtain ⟨j, rfl⟩ := Nat.exists_eq_add_of_le hnew
    have := h.id_at hi
    omega

end Journal

section

variable {n : Nat}

/-- The flusher over the shadow. It looks at names once, when it creates the
next file; in every other transition it handles the file it has open, by its
place, and both directories have it there. -/
private theorem flusherStep_calm (hlen : named.length ≤ disk.length)
    (hcreate : ∀ why, m.pc = .rotate .create why →
      (disk.shadow named).create (m.seg.id + 1)
        = some (disk.shadow named ++ [{ id := m.seg.id + 1 }]))
    (hs : FlusherStep cfg n disk m disk' m') :
    flusherStep cfg n (disk.shadow named) m.calm
      = some (disk'.shadow named, m'.calm) := by
  cases hs with
  | taken hpc hbuf =>
      simp only [flusherStep, Machine.calm, hpc, Inner.take, if_neg hbuf]
  | serveCut hpc hbuf | leave hpc hbuf | again hpc hbuf =>
      simp only [flusherStep, Machine.calm, hpc, Inner.take, if_pos hbuf]
      rfl
  | full hpc hfull =>
      simp only [flusherStep, Machine.calm, hpc]
      rw [if_pos hfull]
  | room hpc hroom =>
      simp only [flusherStep, Machine.calm, hpc]
      rw [if_neg (Nat.not_le_of_gt hroom)]
  | sync hpc =>
      simp only [flusherStep, Machine.calm, hpc, rotateStep]
      rw [Disk.shadow_sync]
  | finalSync hpc =>
      simp only [flusherStep, Machine.calm, hpc]
      rw [Disk.shadow_sync]
  | @create why _ hpc hdisk =>
      obtain ⟨rfl, -⟩ := Disk.create_eq hdisk
      simp only [flusherStep, Machine.calm, hpc, rotateStep]
      rw [hcreate why hpc, Option.map_some, Disk.shadow_concat hlen,
        Disk.shadow, Disk.length_back]
  | syncDir hpc =>
      simp only [flusherStep, Machine.calm, hpc, rotateStep]
      rw [Disk.shadow_syncDir]
  | chunk hpc hmore =>
      simp only [flusherStep, Machine.calm, hpc]
      rw [if_pos hmore]
      rw [Disk.shadow_write]
  | wrote hpc hall =>
      simp only [flusherStep, Machine.calm, hpc]
      rw [if_neg (Nat.not_lt_of_le hall)]
  | top hpc | sampleCut hpc | publish hpc | clear hpc | finish hpc
  | setFile hpc | store hpc =>
      simp only [flusherStep, Machine.calm, hpc, rotateStep]

/-- A thread's step is one of the shadow, too. The syncer and whoever waits
for an LSN do not look at names, and the flusher's creation finds its name
free in the shadow by the journal over it. -/
theorem step_calm {old : List (List WalRecord)} {as : List Action} {log : Log}
    {hand rest : List WalRecord}
    (h : Journal old as log hand rest (disk.shadow named) m.calm)
    (hlen : named.length ≤ disk.length) (ha : a.serves = true)
    (hs : step cfg a (disk, m) = some (disk', m')) :
    step cfg a (disk.shadow named, m.calm)
      = some (disk'.shadow named, m'.calm) := by
  cases a with
  | flusher n =>
      exact flusherStep_calm hlen (fun why hpc => h.create hpc)
        (FlusherStep.of_step hs)
  | syncer due =>
      cases hpc : m.syncer with
      | top last =>
          simp only [step, syncerStep, Machine.calm, hpc] at hs ⊢
          split at hs
          all_goals
            rename_i hclosed
            cases hs
            first | rw [if_pos hclosed] | rw [if_neg hclosed]
      | parked last =>
          simp only [step, syncerStep, Machine.calm, hpc] at hs ⊢
          split at hs
          all_goals
            rename_i hdue
            cases hs
            first | rw [if_pos hdue] | rw [if_neg hdue]
      | fetch w =>
          simp only [step, syncerStep, Machine.calm, hpc] at hs ⊢
          cases hs
          rfl
      | sync w file =>
          simp only [step, syncerStep, Machine.calm, hpc] at hs ⊢
          cases hs
          rw [Disk.shadow_sync]
      | exited =>
          simp only [step, syncerStep, hpc] at hs
          cases hs
  | waitReturn lsn =>
      simp only [step] at hs ⊢
      split at hs
      · rename_i hle
        cases hs
        exact if_pos hle
      · cases hs
  | _ => cases ha

end

end Tsdb.Wal
