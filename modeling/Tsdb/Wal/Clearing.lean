/-
What becomes of the entries of the log directory while a log runs.

Files are created with an id above all others and removed by name; nothing
else touches an entry, and the files that `Wal::open` found are never
written to. A call of `remove_through` lists the directory once, and still
has every file up to its bound on its list when it gets to removing them,
since none can come that low (`Clearing`).

# The files

`Still files' files`: the same files in the same places, with the same
bytes, of which some may have lost their names. `Disk.Grows` says what a
step other than a removal does to a directory: the files that were there
when the log was opened are still the same, and the entries are what they
were, or there is one more. It is proved for each call of `Tsdb.Wal.Disk`
and then, in `Disk.Grows.of_step`, for every step, by the frame for the
steps of others and by the flusher's one `create`.

# The calls of `remove_through`

Between its listing and its removals a call knows a bound and a list.
Rotations may create files meanwhile and other calls may remove some. The
new file is above the active segment, and the bound is below it, so
`Clearing.listed` is kept: every named file up to the bound is on the
list. A removal by anyone makes fewer files of which that has to be said.
When the list is empty there is then no named file up to the bound left,
whoever removed it. That is how a checkpoint knows that the log is rid of
what it has flushed (`Journal.cleared` in `Tsdb.Wal.Retained`).

The other two clauses follow the answer of a cut: it is below the active
segment, and not below the last file that `Wal::open` found. With them the
bound of the checkpoint's removal is the answer itself.

# Shape of the proof

`Clearing.step` goes by who takes the step. The flusher may publish an
answer (`published_step`) and may create a file; a caller of
`remove_through` moves on in its own call (`listed_call`), and the lists
of all others are looked at through `Disk.Grows` (`listed_step`). The
invariant starts with nothing listed and nothing answered.
-/
import Tsdb.Wal.Crash

namespace Tsdb.Wal

open Lib (Bytes)

-- ================================================================== the files

/-- The same file, named if it still is. -/
structure LogFile.Still (f' f : LogFile) : Prop where
  id : f'.id = f.id
  bytes : f'.bytes = f.bytes
  linked : f'.linked = true → f.linked = true

/-- The same files, of which some may have been removed. -/
abbrev Still (files' files : List LogFile) : Prop :=
  List.Forall₂ LogFile.Still files' files

namespace Still

variable {files files' : List LogFile}

theorem refl (files : List LogFile) : Still files files :=
  List.forall₂_same.mpr fun _ _ => ⟨rfl, rfl, id⟩

theorem map (files : List LogFile) {change : LogFile → LogFile}
    (h : ∀ f, (change f).Still f) : Still (files.map change) files := by
  rw [Still, List.forall₂_map_left_iff, List.forall₂_same]
  exact fun f _ => h f

theorem modify (files : List LogFile) (file : Nat)
    {change : LogFile → LogFile} (h : ∀ f, (change f).Still f) :
    Still (files.modify file change) files := by
  induction files generalizing file with
  | nil => simp
  | cons f files ih =>
      cases file with
      | zero => exact .cons (h f) (refl files)
      | succ file => exact .cons ⟨rfl, rfl, id⟩ (ih file)

theorem unlink {disk disk' : Disk} {id : Nat}
    (h : disk.unlink id = some disk') : Still disk' disk := by
  rw [Disk.unlink_eq h]
  refine map disk fun f => ?_
  split
  · exact ⟨rfl, rfl, nofun⟩
  · exact ⟨rfl, rfl, fun hlinked => hlinked⟩

theorem flags (h : Still files' files) :
    List.Forall₂ (fun b' b : Bool => b' = true → b = true)
      (files'.map LogFile.linked) (files.map LogFile.linked) := by
  rw [List.forall₂_map_left_iff, List.forall₂_map_right_iff]
  exact h.imp fun _ _ hf => hf.linked

theorem ids (h : Still files' files) :
    ((files'.filter LogFile.linked).map LogFile.id).Sublist
      ((files.filter LogFile.linked).map LogFile.id) := by
  induction h with
  | nil => exact .refl _
  | @cons f' f files' files hf _ ih =>
      cases hf' : f'.linked with
      | true =>
          rw [List.filter_cons_of_pos hf',
            List.filter_cons_of_pos (hf.linked hf'), List.map_cons,
            List.map_cons, hf.id]
          exact ih.cons_cons _
      | false =>
          rw [List.filter_cons_of_neg (by simp [hf'])]
          refine ih.trans ?_
          exact ((List.sublist_cons_self f files).filter _).map _

end Still

-- ============================================================= the directory

variable {cfg : WalConfig} {log : Log} {hand rest : List WalRecord}
  {disk disk' : Disk} {m m' : Machine} {a : Action} {pc : RemovePc}

/-- The old files stay what they are, and the directory may have got an
entry. -/
structure Disk.Grows (base next : Nat) (disk disk' : Disk) : Prop where
  old : Still (disk'.take base) (disk.take base)
  entries : disk'.map LogFile.entry = disk.map LogFile.entry
    ∨ disk'.map LogFile.entry = disk.map LogFile.entry ++ [(next, true)]

namespace Disk.Grows

variable {base next : Nat}

theorem refl (disk : Disk) : disk.Grows base next disk :=
  ⟨.refl _, .inl rfl⟩

theorem flags (h : disk.Grows base next disk') :
    disk'.map LogFile.linked = disk.map LogFile.linked
      ∨ disk'.map LogFile.linked = disk.map LogFile.linked ++ [true] := by
  have hsnd : ∀ disk : Disk,
      (disk.map LogFile.entry).map Prod.snd = disk.map LogFile.linked := by
    intro disk
    rw [List.map_map]
    rfl
  rw [← hsnd, ← hsnd]
  rcases h.entries with heq | heq
  · rw [heq]
    exact .inl rfl
  · rw [heq, List.map_append]
    exact .inr rfl

theorem sync (disk : Disk) (file : Nat) :
    disk.Grows base next (disk.sync file) :=
  ⟨List.forall₂_take _
    (Still.modify disk file fun _ => ⟨rfl, rfl, fun h => h⟩),
    .inl (Disk.map_entry_sync _ _)⟩

theorem syncDir (disk : Disk) : disk.Grows base next disk.syncDir :=
  ⟨List.forall₂_take _ (Still.map disk fun _ => ⟨rfl, rfl, fun h => h⟩),
    .inl (Disk.map_entry_syncDir _)⟩

/-- A write to a file that is not old. -/
theorem write (disk : Disk) {file : Nat} (hfile : base ≤ file) (pos : Nat)
    (bs : Bytes) : disk.Grows base next (disk.write file pos bs) := by
  refine ⟨?_, .inl (Disk.map_entry_write _ _ _ _)⟩
  have hsame : (disk.write file pos bs).take base = disk.take base := by
    refine List.ext_getElem? fun i => ?_
    by_cases hi : i < base
    · rw [List.getElem?_take_of_lt hi, List.getElem?_take_of_lt hi]
      exact List.getElem?_modify_ne _ _ (by omega)
    · rw [List.getElem?_take_eq_none (by omega),
        List.getElem?_take_eq_none (by omega)]
  rw [hsame]
  exact .refl _

theorem create (hbase : base ≤ disk.length)
    (h : disk.create next = some disk') : disk.Grows base next disk' := by
  obtain ⟨rfl, -⟩ := Disk.create_eq h
  refine ⟨?_, .inr ?_⟩
  · rw [List.take_append_of_le_length hbase]
    exact .refl _
  · rw [List.map_append]
    rfl

/-- No step but a removal takes a file away. The flusher syncs files, writes
to the active one, which is not old, and creates the next, whose id is the
one behind the active segment's; everyone else leaves the files alone, up to
a sync. -/
theorem of_step (hsim : Sim base log hand rest disk m)
    (ha : ∀ j id, a ≠ .removeFile j id)
    (hs : step cfg a (disk, m) = some (disk', m')) :
    disk.Grows base (m.seg.id + 1) disk' := by
  by_cases hflusher : ∃ n, a = .flusher n
  · obtain ⟨n, rfl⟩ := hflusher
    have hs' : FlusherStep cfg n disk m disk' m' := .of_step hs
    cases hs' with
    | sync hpc => exact .sync disk _
    | finalSync hpc => exact .sync disk _
    | syncDir hpc => exact .syncDir disk
    | chunk hpc hmore =>
        refine .write disk ?_ _ _
        rw [hsim.file]
        exact Nat.le_add_right _ _
    | create hpc hcreate =>
        refine .create ?_ hcreate
        rw [hsim.size]
        omega
    | _ => exact .refl _
  · have hno : ∀ n, a ≠ .flusher n := fun n he => hflusher ⟨n, he⟩
    cases hr : a.remover with
    | none =>
        obtain ⟨-, hdisk⟩ := step_others hno hr hs
        rcases hdisk with rfl | ⟨file, rfl⟩
        · exact .refl _
        · exact .sync disk file
    | some j =>
        -- a call of `remove_through` that removes nothing
        cases a with
        | removeFile j id => exact absurd rfl (ha j id)
        | removeBound j id bound =>
            simp only [step] at hs
            split at hs <;> cases hs
            exact .refl _
        | removeList j todo =>
            simp only [step] at hs
            split at hs
            · split at hs <;> cases hs
              exact .refl _
            · cases hs
        | removeFail j id =>
            simp only [step] at hs
            split at hs
            · split at hs <;> cases hs
              exact .refl _
            · cases hs
        | removeReturn j removed =>
            simp only [step] at hs
            split at hs
            · split at hs <;> cases hs
              exact .refl _
            · cases hs
        | _ => cases hr

end Disk.Grows

/-- What is still named behind a removal was named, and is not what was
removed. -/
theorem Disk.named_unlink {id : Nat} (h : disk.unlink id = some disk')
    {e : Nat × Bool} (he : e ∈ disk'.map LogFile.entry)
    (hlinked : e.2 = true) : e ∈ disk.map LogFile.entry ∧ e.1 ≠ id := by
  rw [Disk.unlink_eq h, List.map_map] at he
  obtain ⟨f, hf, rfl⟩ := List.mem_map.mp he
  simp only [Function.comp_apply] at hlinked ⊢
  split at hlinked
  · cases hlinked
  · rename_i hno
    rw [if_neg hno]
    refine ⟨List.mem_map_of_mem hf, fun hid => hno ?_⟩
    have hlinked' : f.linked = true := hlinked
    have hid' : f.id = id := hid
    simp [hlinked', hid']

/-- The id of the active segment only grows. -/
theorem active_mono {base : Nat} (hsim : Sim base log hand rest disk m)
    (hs : step cfg a (disk, m) = some (disk', m')) :
    m.shared.activeSegment ≤ m'.shared.activeSegment := by
  by_cases hflusher : ∃ n, a = .flusher n
  · obtain ⟨n, rfl⟩ := hflusher
    have hs' : FlusherStep cfg n disk m disk' m' := .of_step hs
    cases hs' with
    | @store why closed hpc =>
        have hid := hsim.rotated closed (by rw [hpc]; rfl)
        have hactive := hsim.activeSegment
        show m.shared.activeSegment ≤ closed + 1
        omega
    | _ => exact Nat.le_refl _
  · obtain ⟨hk, -, -⟩ := step_keeps (fun n he => hflusher ⟨n, he⟩) hs
    exact Nat.le_of_eq hk.activeSegment.symm

/-- A cut is answered below the active segment, and a call of
`remove_through` has all files up to its bound on its list. -/
structure Clearing (first : Nat) (disk : Disk) (m : Machine) : Prop where
  started : first ≤ m.shared.activeSegment
  published : ∀ c, m.shared.cut.closed = some c →
    first ≤ c + 1 ∧ c < m.shared.activeSegment
  listed : ∀ j bound todo removed,
    m.removing j = .removing bound todo removed →
    ∀ e ∈ disk.map LogFile.entry, e.2 = true → e.1 ≤ bound → e.1 ∈ todo

namespace Clearing

theorem start (before : Disk) (file : LogFile) :
    Clearing file.id (before ++ [file]) (.start file.id before.length) where
  started := Nat.le_refl _
  published c hc := by cases hc
  listed j bound todo removed hr := by cases hr

/-- A request forgets the answer before it, and the flusher publishes a new
one only behind a rotation, when the id above it has become that of the
active segment. From there on the active id only grows. -/
private theorem published_step (h : Clearing log.first disk m) {base : Nat}
    (hsim : Sim base log hand rest disk m)
    (hs : Wal.step cfg a (disk, m) = some (disk', m')) :
    ∀ c, m'.shared.cut.closed = some c →
      log.first ≤ c + 1 ∧ c < m'.shared.activeSegment := by
  intro c hc
  have hmono := active_mono hsim hs
  have hgrow : m.shared.cut.closed = some c →
      log.first ≤ c + 1 ∧ c < m'.shared.activeSegment := fun hc =>
    ⟨(h.published c hc).1, Nat.lt_of_lt_of_le (h.published c hc).2 hmono⟩
  by_cases hflusher : ∃ n, a = .flusher n
  · obtain ⟨n, rfl⟩ := hflusher
    have hs' : FlusherStep cfg n disk m disk' m' := .of_step hs
    cases hs' with
    | @finish closed hpc =>
        cases hc
        -- the active segment has been published
        have hid := hsim.rotated c (by rw [hpc]; rfl)
        have hactive := hsim.activeSegment
        rw [hpc] at hactive
        have hseg := hsim.id
        unfold Log.activeId at hseg
        show log.first ≤ c + 1 ∧ c < m.shared.activeSegment
        simp only [FlusherPc.lagging, Bool.false_eq_true, if_false] at hactive
        omega
    | _ => exact hgrow hc
  · obtain ⟨-, -, hcut⟩ := step_keeps (fun n he => hflusher ⟨n, he⟩) hs
    -- of the callers only those of a cut touch the answer
    cases huses : a.usesCut with
    | false =>
        obtain ⟨hsame, -⟩ := hcut huses
        rw [hsame] at hc
        exact hgrow hc
    | true =>
        cases a with
        | cutLock caller =>
            simp only [Wal.step] at hs
            split at hs <;> cases hs
            exact h.published c hc
        | cutRequest caller =>
            simp only [Wal.step] at hs
            split at hs <;> cases hs
            cases hc
        | cutReturn caller closed =>
            simp only [Wal.step] at hs
            split at hs <;> cases hs
            cases hc
        | _ => cases huses

/-- A call moves on: what it has on its list is all there is. -/
private theorem listed_call (h : Clearing log.first disk m) (i : Nat)
    (hpc : ∀ bound todo removed, pc = .removing bound todo removed →
      ∀ e ∈ disk.map LogFile.entry, e.2 = true → e.1 ≤ bound → e.1 ∈ todo) :
    ∀ j bound todo removed,
      (m.setRemoving i pc).removing j = .removing bound todo removed →
      ∀ e ∈ disk.map LogFile.entry, e.2 = true → e.1 ≤ bound →
        e.1 ∈ todo := by
  intro j bound todo removed hr
  unfold Machine.setRemoving at hr
  simp only at hr
  split at hr
  · exact hpc bound todo removed hr
  · exact h.listed j bound todo removed hr

/-- A list stays complete. The two steps that matter are the listing itself,
which reads every named file up to the bound, and a removal, which takes one
id off the list and off the directory. For all others nothing comes into the
directory but the file of a rotation, and its id is above every bound. -/
private theorem listed_step (h : Clearing log.first disk m) {base : Nat}
    (hsim : Sim base log hand rest disk m) (hrem : RemovalInv base disk m)
    (hs : Wal.step cfg a (disk, m) = some (disk', m')) :
    ∀ j bound todo removed, m'.removing j = .removing bound todo removed →
      ∀ e ∈ disk'.map LogFile.entry, e.2 = true → e.1 ≤ bound →
        e.1 ∈ todo := by
  -- nothing comes into the directory but above the active segment
  have hgrows : m'.removing = m.removing →
      disk.Grows base (m.seg.id + 1) disk' →
      ∀ j bound todo removed, m'.removing j = .removing bound todo removed →
        ∀ e ∈ disk'.map LogFile.entry, e.2 = true → e.1 ≤ bound →
          e.1 ∈ todo := by
    intro hremoving hgrows j bound todo removed hr e he hlinked hle
    rw [hremoving] at hr
    have hold := h.listed j bound todo removed hr e
    -- the entries are the same, or there is that of a new file
    rcases hgrows.entries with heq | heq
    · rw [heq] at he
      exact hold he hlinked hle
    · rw [heq, List.mem_append, List.mem_singleton] at he
      rcases he with he | rfl
      · exact hold he hlinked hle
      · have hbound := (hrem.todo j bound todo removed hr).1
        have hactive := hsim.activeSegment
        simp only at hle
        omega
  cases a with
  | flusher n =>
      have hs' : FlusherStep cfg n disk m disk' m' := .of_step hs
      refine hgrows ?_ (.of_step hsim (by simp) hs)
      cases hs' <;> rfl
  | removeBound i id bound =>
      simp only [Wal.step] at hs
      split at hs <;> cases hs
      exact h.listed_call i (by simp)
  | removeList i todo =>
      simp only [Wal.step] at hs
      split at hs
      · split at hs <;> cases hs
        rename_i heq
        -- what has just been listed is all there is up to the bound
        refine h.listed_call i ?_
        intro bound' todo' removed' hpc e he hlinked hle
        cases hpc
        obtain ⟨f, hf, rfl⟩ := List.mem_map.mp he
        rw [heq, List.mem_filter]
        refine ⟨List.mem_map.mpr ⟨⟨f.id, f.bytes⟩, ?_, rfl⟩, by simpa using hle⟩
        refine (list_perm _).symm.subset ?_
        exact List.mem_map.mpr
          ⟨f, List.mem_filter.mpr ⟨hf, hlinked⟩, rfl⟩
      · cases hs
  | removeFile i id =>
      simp only [Wal.step] at hs
      split at hs
      · rename_i bound next todo removed hpc
        split at hs
        · rename_i hnext
          obtain ⟨d, hd, heq⟩ := Option.map_eq_some_iff.mp hs
          obtain ⟨rfl, rfl⟩ := Prod.mk.inj heq
          intro j bound' todo' removed' hr e he hlinked hle
          obtain ⟨hmem, hne⟩ := Disk.named_unlink hd he hlinked
          -- whose list is it: that of the call which removes, or another one?
          unfold Machine.setRemoving at hr
          simp only at hr
          split at hr
          · cases hr
            have := h.listed i _ _ _ hpc e hmem hlinked hle
            rcases List.mem_cons.mp this with heq | hin
            · exact absurd (heq.trans hnext) hne
            · exact hin
          · exact h.listed j bound' todo' removed' hr e hmem hlinked hle
        · cases hs
      · cases hs
  | removeFail i id =>
      simp only [Wal.step] at hs
      split at hs
      · split at hs <;> cases hs
        exact h.listed_call i (by simp)
      · cases hs
  | removeReturn i removed =>
      simp only [Wal.step] at hs
      split at hs
      · split at hs <;> cases hs
        exact h.listed_call i (by simp)
      · cases hs
  | _ =>
      exact hgrows (step_others (by simp) rfl hs).1
        (.of_step hsim (by simp) hs)

/-- Every step keeps the three clauses, each by its own lemma. -/
theorem step (h : Clearing log.first disk m) {base : Nat}
    (hsim : Sim base log hand rest disk m) (hrem : RemovalInv base disk m)
    (hs : Wal.step cfg a (disk, m) = some (disk', m')) :
    Clearing log.first disk' m' where
  started := Nat.le_trans h.started (active_mono hsim hs)
  published := h.published_step hsim hs
  listed := h.listed_step hsim hrem hs

/-- More may be removed. -/
theorem unlink (h : Clearing log.first disk m) {id : Nat}
    (hunlink : disk.unlink id = some disk') : Clearing log.first disk' m where
  started := h.started
  published := h.published
  listed j bound todo removed hr e he hlinked hle := by
    exact h.listed j bound todo removed hr e
      (Disk.named_unlink hunlink he hlinked).1 hlinked hle

end Clearing
end Tsdb.Wal
