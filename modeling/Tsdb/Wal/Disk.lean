/-
The log directory on disk (`storage/wal/segment.rs` and the calls it
makes).

# A file

Files live in the order of their creation, with an index for the handle
an open file is; `linked` says that the directory still names it, so a
removed file keeps its bytes. `synced` counts the bytes a power loss
cannot take, and `durable` says the same of the directory entry.

A removal does not shift the other files, which is why a file is a place
in a list and not an entry of a map: the flusher holds the place of the
active segment over many steps of others. What a reader of the directory
sees is `dir`, the linked files, and `Tsdb.Wal.Reader` is about that.

# The calls

`create` and `unlink` fail as the system's do, when the name is taken and
when it is gone; a write goes to a position, because the flusher keeps
one. `sync` is `sync_data` of a file, `syncDir` the one of the directory.
A power loss is not a call; what it leaves is in `Tsdb.Wal.Crash`.

# Frames

Every operation changes one projection of the files and leaves the
others: their ids, their bytes, what is linked. The lemmas say which,
each of the whole list under `map`, so that an invariant that speaks of
`map id` or `map bytes` is carried over a call by a rewrite and never by
a look at single files.
-/
import Tsdb.Wal.Recovery

namespace Tsdb.Wal

open Lib (Bytes)

-- ============================================================== the disk

structure LogFile where
  id : Nat
  bytes : Bytes := []
  synced : Nat := 0
  durable : Bool := false
  linked : Bool := true
deriving DecidableEq, Repr

abbrev Disk := List LogFile

namespace Disk

/-- What `read_dir` sees. -/
def dir (disk : Disk) : Dir :=
  (disk.filter LogFile.linked).map fun f => ⟨f.id, f.bytes⟩

/-- `create_new`: fails if the name is taken. -/
def create (disk : Disk) (id : Nat) : Option Disk :=
  if disk.any fun f => f.linked && f.id == id then none
  else some (disk ++ [{ id := id }])

/-- `segment::sync_dir`. -/
def syncDir (disk : Disk) : Disk := disk.map fun f => { f with durable := true }

/-- Write at a position of an open file; a hole reads as zeros. -/
def write (disk : Disk) (file pos : Nat) (bs : Bytes) : Disk :=
  disk.modify file fun f =>
    { f with
      bytes := f.bytes.take pos ++ List.replicate (pos - f.bytes.length) 0
        ++ bs ++ f.bytes.drop (pos + bs.length) }

/-- `sync_data`: everything written so far. -/
def sync (disk : Disk) (file : Nat) : Disk :=
  disk.modify file fun f => { f with synced := f.bytes.length }

/-- `remove_file`: fails if the name is gone. -/
def unlink (disk : Disk) (id : Nat) : Option Disk :=
  if disk.any fun f => f.linked && f.id == id then
    some (disk.map fun f =>
      if f.linked && f.id == id then { f with linked := false } else f)
  else none

end Disk

/-- A `map` that ignores what a `modify` changes. -/
theorem map_modify_of {α β : Type} {g : α → β} {f : α → α}
    (l : List α) (i : Nat) (h : ∀ a, g (f a) = g a) :
    (l.modify i f).map g = l.map g := by
  induction l generalizing i with
  | nil => simp
  | cons a l ih =>
      cases i with
      | zero => simp [h]
      | succ i => simp [ih]

namespace Disk

variable (disk : Disk)

@[simp] theorem map_id_syncDir :
    disk.syncDir.map LogFile.id = disk.map LogFile.id := by
  simp [syncDir]

@[simp] theorem map_bytes_syncDir :
    disk.syncDir.map LogFile.bytes = disk.map LogFile.bytes := by
  simp [syncDir]

@[simp] theorem length_syncDir : disk.syncDir.length = disk.length := by
  simp [syncDir]

@[simp] theorem map_id_sync (file : Nat) :
    (disk.sync file).map LogFile.id = disk.map LogFile.id :=
  map_modify_of disk file fun _ => rfl

@[simp] theorem map_bytes_sync (file : Nat) :
    (disk.sync file).map LogFile.bytes = disk.map LogFile.bytes :=
  map_modify_of disk file fun _ => rfl

@[simp] theorem length_sync (file : Nat) :
    (disk.sync file).length = disk.length := by
  simp [sync]

@[simp] theorem map_id_write (file pos : Nat) (bs : Bytes) :
    (disk.write file pos bs).map LogFile.id = disk.map LogFile.id :=
  map_modify_of disk file fun _ => rfl

@[simp] theorem length_write (file pos : Nat) (bs : Bytes) :
    (disk.write file pos bs).length = disk.length := by
  simp [write]

/-- A write at the end of a file appends to it. -/
theorem map_bytes_write {l r : List Bytes} {old : Bytes}
    (h : disk.map LogFile.bytes = l ++ old :: r) (bs : Bytes) :
    (disk.write l.length old.length bs).map LogFile.bytes
      = l ++ (old ++ bs) :: r := by
  induction l generalizing disk with
  | nil =>
      cases disk with
      | nil => cases h
      | cons f disk =>
          simp only [List.map_cons, List.nil_append, List.cons.injEq] at h
          obtain ⟨rfl, rfl⟩ := h
          simp [write]
  | cons b l ih =>
      cases disk with
      | nil => cases h
      | cons f disk =>
          simp only [List.map_cons, List.cons_append, List.cons.injEq] at h
          obtain ⟨rfl, h⟩ := h
          have hrest := ih disk h
          simp only [write] at hrest
          simp only [write, List.length_cons, List.modify_succ_cons,
            List.map_cons, hrest, List.cons_append]

theorem create_eq {disk disk' : Disk} {id : Nat}
    (h : disk.create id = some disk') :
    disk' = disk ++ [{ id := id }]
      ∧ ∀ f ∈ disk, f.linked = true → f.id ≠ id := by
  rw [create] at h
  split at h
  · cases h
  · rename_i hany
    refine ⟨by cases h; rfl, fun f hf hl he => hany ?_⟩
    rw [List.any_eq_true]
    exact ⟨f, hf, by simp [hl, he]⟩

theorem unlink_eq {disk disk' : Disk} {id : Nat}
    (h : disk.unlink id = some disk') :
    disk' = disk.map fun f =>
      if f.linked && f.id == id then { f with linked := false } else f := by
  rw [unlink] at h
  split at h
  · cases h
    rfl
  · cases h

theorem map_unlink {β : Type} {g : LogFile → β} {disk disk' : Disk}
    {id : Nat} (h : disk.unlink id = some disk')
    (hg : ∀ f : LogFile, g { f with linked := false } = g f) :
    disk'.map g = disk.map g := by
  rw [unlink_eq h, List.map_map]
  refine List.map_congr_left fun f _ => ?_
  simp only [Function.comp_apply]
  split
  · exact hg f
  · rfl

end Disk

end Tsdb.Wal
