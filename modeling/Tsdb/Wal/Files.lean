/-
What becomes of the files of the log.

A file keeps its name and the whole records at its front for as long as it
has its name, and a file with another behind it is not written to any more
(`Disk.Becomes`). The ids ascend in the order of creation, over the files
of every process, removed or not, and the last file has its name
(`Disk.InOrder`): so the id of the next one has never been used.

# What becomes of one file

`LogFile.Becomes` is a preorder on files with three kinds of step: bytes
are appended, a torn end is cut off, or the name goes. The first two are
about the whole records at the front, the part of the file that a scan
uses. Appending bytes never makes fewer of them, since a frame is
recognised by its own bytes, and a cut is made exactly behind them. Only
the last file is ever appended to or cut.

# Ids that are never used again

`Wal::open` takes the id above those it finds, and what it finds are the
named files. That this is above all ids ever used needs the last file to
be named: then it is the last one listed (`InOrder.list_getLast?`), and
all others are below it. A removal goes up to a cut and the cut is below
the active segment, so the file removed is never the last (`last_ne`).

# The steps

A running log writes at the end of its last file or creates another
(`files_step`), and may remove some below (`files_unlink`); the stages of
`Wal::open` cut, sync and create (`files_setLen`, `files_syncAll`,
`files_create`). `Tsdb.Db.Directory` collects them over the runs of the
whole system, through any number of processes.
-/
import Tsdb.Wal.AtRest

namespace Tsdb.Wal

open Lib (Ascending Bytes)

variable {disk disk' disk₁ : Disk}

-- ================================================================ the files

structure LogFile.Becomes (f f' : LogFile) : Prop where
  id : f'.id = f.id
  linked : f'.linked = true → f.linked = true
  used : (records.scan f.bytes).used <+: (records.scan f'.bytes).used

/-- The files are still there, in their order, and all but the last as they
were. -/
structure Disk.Becomes (disk disk' : Disk) : Prop where
  size : disk.length ≤ disk'.length
  files : ∀ i f, disk[i]? = some f → ∃ f', disk'[i]? = some f'
    ∧ f.Becomes f' ∧ (i + 1 < disk.length → f'.bytes = f.bytes)

/-- Ids ascend in the order of creation, and the last file is named. -/
structure Disk.InOrder (disk : Disk) : Prop where
  asc : Ascending LogFile.id disk
  last : ∀ f ∈ disk.getLast?, f.linked = true

namespace LogFile.Becomes

variable {f f' f₁ : LogFile}

theorem refl (f : LogFile) : f.Becomes f :=
  ⟨rfl, fun h => h, List.prefix_rfl⟩

theorem trans (h : f.Becomes f₁) (h' : f₁.Becomes f') : f.Becomes f' where
  id := h'.id.trans h.id
  linked hf' := h.linked (h'.linked hf')
  used := h.used.trans h'.used

theorem of_still (h : f'.Still f) : f.Becomes f' where
  id := h.id
  linked := h.linked
  used := by rw [h.bytes]

/-- A file is appended to. -/
theorem appended (hid : f'.id = f.id) (hlinked : f'.linked = f.linked)
    {bs : Bytes} (hbytes : f'.bytes = f.bytes ++ bs) : f.Becomes f' where
  id := hid
  linked h := hlinked ▸ h
  used := by
    rw [hbytes]
    exact records.used_mono f.bytes bs

/-- Its torn end is cut off. -/
theorem cut (hid : f'.id = f.id) (hlinked : f'.linked = f.linked)
    (hbytes : f'.bytes = (records.scan f.bytes).used) : f.Becomes f' where
  id := hid
  linked h := hlinked ▸ h
  used := by
    rw [hbytes, (records.scan_framed f.bytes).scan]

end LogFile.Becomes

namespace Disk.Becomes

theorem refl (disk : Disk) : disk.Becomes disk where
  size := Nat.le_refl _
  files _ f hf := ⟨f, hf, .refl f, fun _ => rfl⟩

theorem trans (h : disk.Becomes disk₁) (h' : disk₁.Becomes disk') :
    disk.Becomes disk' where
  size := Nat.le_trans h.size h'.size
  files i f hf := by
    obtain ⟨f₁, hf₁, hbecomes, hsame⟩ := h.files i f hf
    obtain ⟨f', hf', hbecomes', hsame'⟩ := h'.files i f₁ hf₁
    refine ⟨f', hf', hbecomes.trans hbecomes', fun hlt => ?_⟩
    exact (hsame' (Nat.lt_of_lt_of_le hlt h.size)).trans (hsame hlt)

/-- Files are removed, or synced. -/
theorem of_still (h : Still disk' disk) : disk.Becomes disk' where
  size := Nat.le_of_eq h.length_eq.symm
  files i f hf := by
    have hlt : i < disk'.length := by
      rw [h.length_eq]
      exact (List.getElem?_eq_some_iff.mp hf).1
    have hstill := (List.forall₂_iff_get.mp h).2 i hlt
      (List.getElem?_eq_some_iff.mp hf).1
    rw [List.get_eq_getElem, List.get_eq_getElem,
      (List.getElem?_eq_some_iff.mp hf).2] at hstill
    exact ⟨_, List.getElem?_eq_getElem hlt, .of_still hstill,
      fun _ => hstill.bytes⟩

theorem concat (disk : Disk) (f : LogFile) :
    disk.Becomes (disk ++ [f] : Disk) where
  size := by
    rw [List.length_append]
    exact Nat.le_add_right _ _
  files i g hg := by
    refine ⟨g, ?_, .refl g, fun _ => rfl⟩
    rw [List.getElem?_append_left (List.getElem?_eq_some_iff.mp hg).1]
    exact hg

/-- Something happens to the last file. -/
theorem last {front : Disk} {f f' : LogFile} (h : f.Becomes f') :
    Disk.Becomes (front ++ [f]) (front ++ [f']) where
  size := by
    rw [List.length_append, List.length_append]
    exact Nat.le_refl _
  files i g hg := by
    rcases Nat.lt_or_ge i front.length with hlt | hge
    · rw [List.getElem?_append_left hlt] at hg ⊢
      exact ⟨g, hg, .refl g, fun _ => rfl⟩
    · have hi : i = front.length := by
        have := (List.getElem?_eq_some_iff.mp hg).1
        rw [List.length_append, List.length_singleton] at this
        omega
      subst hi
      rw [List.getElem?_concat_length] at hg ⊢
      cases hg
      refine ⟨f', rfl, h, fun hlt => ?_⟩
      rw [List.length_append, List.length_singleton] at hlt
      omega

end Disk.Becomes

-- ================================================================ the names

namespace Disk.InOrder

theorem nil : Disk.InOrder [] where
  asc := List.Pairwise.nil
  last f hf := by cases hf

/-- It depends on the entries only. -/
theorem congr (h : disk.InOrder)
    (hentries : disk'.map LogFile.entry = disk.map LogFile.entry) :
    disk'.InOrder where
  asc := by
    have hids : disk'.map LogFile.id = disk.map LogFile.id := by
      have hfst := congrArg (List.map Prod.fst) hentries
      rwa [List.map_map, List.map_map] at hfst
    have hasc : (disk.map LogFile.id).Pairwise (· < ·) :=
      List.pairwise_map.mpr h.asc
    rw [← hids] at hasc
    exact List.pairwise_map.mp hasc
  last f hf := by
    have hlast := congrArg List.getLast? hentries
    rw [List.getLast?_map, List.getLast?_map, hf] at hlast
    obtain ⟨g, hg, hentry⟩ := Option.map_eq_some_iff.mp hlast.symm
    rw [← (Prod.mk.inj hentry).2]
    exact h.last g hg

/-- A file above all others. -/
theorem concat (h : disk.InOrder) {next : Nat}
    (hnext : ∀ f ∈ disk, f.id < next) :
    Disk.InOrder (disk ++ [{ id := next }]) where
  asc := List.pairwise_append.mpr ⟨h.asc, List.pairwise_singleton _ _,
    fun f hf g hg => by
      rw [List.mem_singleton.mp hg]
      exact hnext f hf⟩
  last f hf := by
    rw [List.getLast?_concat] at hf
    cases hf
    rfl

/-- A file that is not the last is removed. -/
theorem unlink (h : disk.InOrder) {id : Nat}
    (hid : ∀ f ∈ disk.getLast?, f.id ≠ id)
    (hunlink : disk.unlink id = some disk') : disk'.InOrder where
  asc := by
    have hids : disk'.map LogFile.id = disk.map LogFile.id :=
      Disk.map_unlink hunlink fun _ => rfl
    have hasc : (disk.map LogFile.id).Pairwise (· < ·) :=
      List.pairwise_map.mpr h.asc
    rw [← hids] at hasc
    exact List.pairwise_map.mp hasc
  last f hf := by
    rw [Disk.unlink_eq hunlink, List.getLast?_map] at hf
    obtain ⟨g, hg, rfl⟩ := Option.map_eq_some_iff.mp hf
    have hne := hid g hg
    rw [if_neg (by simp [hne])]
    exact h.last g hg

/-- The last file a listing finds is the last that was created. -/
theorem list_getLast? (h : disk.InOrder) :
    (list disk.dir).getLast?
      = disk.getLast?.map fun f => ⟨f.id, f.bytes⟩ := by
  have hasc : Ascending LogFile.id (disk.filter LogFile.linked) :=
    h.asc.sublist List.filter_sublist
  rw [Disk.list_dir hasc]
  cases hlast : disk.getLast? with
  | none =>
      rw [List.getLast?_eq_none_iff.mp hlast]
      rfl
  | some f =>
      obtain ⟨front, rfl⟩ := List.getLast?_eq_some_iff.mp hlast
      have hlinked := h.last f hlast
      unfold Disk.dir
      rw [List.filter_append, List.filter_cons_of_pos hlinked,
        List.filter_nil, List.map_append, List.map_singleton,
        List.getLast?_concat]
      rfl

/-- So the id of the next one is new. -/
theorem lt_nextId (h : disk.InOrder) :
    ∀ f ∈ disk, f.id < nextId disk.lastId := by
  intro f hf
  unfold Disk.lastId
  rw [h.list_getLast?]
  obtain ⟨front, last, rfl⟩ : ∃ front last, disk = front ++ [last] :=
    ⟨_, _, (List.dropLast_concat_getLast (by rintro rfl; cases hf)).symm⟩
  rw [List.getLast?_concat]
  show f.id < last.id + 1
  rcases List.mem_append.mp hf with hf | hf
  · exact Nat.lt_succ_of_lt
      ((List.pairwise_append.mp h.asc).2.2 f hf last List.mem_cons_self)
  · rw [List.mem_singleton.mp hf]
    exact Nat.lt_succ_self _

end Disk.InOrder

-- ============================================================= the running log

/-- A file with the entries and bytes it had. -/
theorem Still.of_maps
    (hentries : disk'.map LogFile.entry = disk.map LogFile.entry)
    (hbytes : disk'.map LogFile.bytes = disk.map LogFile.bytes) :
    Still disk' disk := by
  have hlen : disk'.length = disk.length := by
    simpa using congrArg List.length hbytes
  refine List.forall₂_iff_get.mpr ⟨hlen, fun i hi hi' => ?_⟩
  have hentry := congrArg (fun l : List (Nat × Bool) => l[i]?) hentries
  have hbyte := congrArg (fun l : List Bytes => l[i]?) hbytes
  simp only [List.getElem?_map, List.getElem?_eq_getElem hi,
    List.getElem?_eq_getElem hi', Option.map_some, Option.some.injEq,
    LogFile.entry, Prod.mk.injEq] at hentry hbyte
  exact ⟨hentry.1, hbyte, fun hlinked => hentry.2 ▸ hlinked⟩

/-- Files that are synced, say. -/
theorem Disk.InOrder.same (hin : disk.InOrder)
    (hentries : disk'.map LogFile.entry = disk.map LogFile.entry)
    (hbytes : disk'.map LogFile.bytes = disk.map LogFile.bytes) :
    disk.Becomes disk' ∧ disk'.InOrder :=
  ⟨.of_still (.of_maps hentries hbytes), hin.congr hentries⟩

namespace Journal

variable {cfg : WalConfig} {old : List (List WalRecord)} {as : List Action}
  {log : Log} {hand rest : List WalRecord} {m m' : Machine} {a : Action}

/-- The last file is the active one, or the one behind it. -/
theorem last_file (h : Journal old as log hand rest disk m) :
    ∃ front f, disk = front ++ [f]
      ∧ front.length = old.length + log.closed.length + m.pc.fresh
      ∧ f.id = log.activeId + m.pc.fresh := by
  have hsize := h.sim.size
  have hne : disk ≠ [] := by
    intro hnil
    rw [hnil, List.length_nil] at hsize
    omega
  have hcat := List.dropLast_concat_getLast hne
  have hlen : disk.dropLast.length
      = old.length + log.closed.length + m.pc.fresh := by
    rw [List.length_dropLast]
    omega
  refine ⟨disk.dropLast, disk.getLast hne, hcat.symm, hlen, ?_⟩
  have hat : disk[old.length + (log.closed.length + m.pc.fresh)]?
      = some (disk.getLast hne) := by
    conv_lhs => rw [← hcat]
    rw [← Nat.add_assoc, ← hlen, List.getElem?_concat_length]
  rw [h.id_at hat]
  unfold Log.activeId
  omega

/-- So a file below the active segment is not the last. -/
theorem last_ne (h : Journal old as log hand rest disk m) {id : Nat}
    (hid : id < m.shared.activeSegment) :
    ∀ f ∈ disk.getLast?, f.id ≠ id := by
  obtain ⟨front, f, rfl, -, hlast⟩ := h.last_file
  intro g hg
  rw [List.getLast?_concat] at hg
  cases hg
  have hactive := h.sim.activeSegment
  rw [h.sim.id] at hactive
  omega

/-- What a call writes goes to the end of the last file. -/
private theorem chunk_becomes (h : Journal old as log hand rest disk m)
    {e done : Nat} (hpc : m.pc = .write e done) (bs : Bytes) :
    disk.Becomes (disk.write m.seg.file (m.seg.written + done) bs) := by
  obtain ⟨front, f, rfl, hlen, -⟩ := h.last_file
  have hfresh : m.pc.fresh = 0 := by rw [hpc]; rfl
  rw [hfresh, Nat.add_zero] at hlen
  obtain ⟨active, fresh, hfiles, hbytes, -⟩ := h.back_files
  rw [← hlen, List.drop_left] at hfiles
  obtain ⟨rfl, -⟩ := List.cons.inj hfiles
  rw [hpc] at hbytes
  have hinside : done ≤ m.spare.length := by
    have hle := h.sim.inside
    rwa [hpc] at hle
  have hpos : m.seg.written + done = f.bytes.length := by
    rw [hbytes, List.length_append, List.length_take, h.sim.pos]
    show _ = _ + min done m.spare.length
    rw [Nat.min_eq_left hinside]
  unfold Disk.write
  rw [h.sim.file, ← hlen, List.modify_eq_take_drop, List.take_left,
    List.drop_left, List.modifyHead_cons]
  refine .last (.appended rfl rfl (?_ : _ = f.bytes ++ bs))
  show _ ++ List.replicate _ _ ++ bs ++ _ = _
  rw [hpos, List.take_length, Nat.sub_self, List.replicate_zero,
    List.append_nil, List.drop_of_length_le (Nat.le_add_right _ _),
    List.append_nil]

/-- What a step makes of the files. The flusher writes at the end of the
active file, which is the last while it does, or creates another with the
next id; a removal takes a file below the active segment, which is not the
last; and everyone else leaves entries and bytes alone. -/
theorem files_step (h : Journal old as log hand rest disk m)
    (hin : disk.InOrder) (hs : Wal.step cfg a (disk, m) = some (disk', m')) :
    disk.Becomes disk' ∧ disk'.InOrder := by
  by_cases hflusher : ∃ n, a = .flusher n
  · obtain ⟨n, rfl⟩ := hflusher
    cases FlusherStep.of_step hs with
    | sync hpc =>
        exact hin.same (Disk.map_entry_sync _ _) (Disk.map_bytes_sync _ _)
    | finalSync hpc =>
        exact hin.same (Disk.map_entry_sync _ _) (Disk.map_bytes_sync _ _)
    | syncDir hpc =>
        exact hin.same (Disk.map_entry_syncDir _) (Disk.map_bytes_syncDir _)
    | @create why _ hpc hcreate =>
        obtain ⟨rfl, -⟩ := Disk.create_eq hcreate
        refine ⟨.concat disk _, hin.concat fun f hf => ?_⟩
        obtain ⟨front, last, rfl, -, hid⟩ := h.last_file
        -- the active file has been the last one so far
        have hfresh : m.pc.fresh = 0 := by rw [hpc]; rfl
        rw [h.sim.id]
        rcases List.mem_append.mp hf with hf | hf
        · have hlt := (List.pairwise_append.mp hin.asc).2.2 f hf last
            List.mem_cons_self
          omega
        · rw [List.mem_singleton.mp hf]
          omega
    | chunk hpc hmore =>
        exact ⟨h.chunk_becomes hpc _, hin.congr (Disk.map_entry_write _ _ _ _)⟩
    | _ => exact hin.same rfl rfl
  · by_cases hremove : ∃ caller id, a = .removeFile caller id
    · obtain ⟨caller, id, rfl⟩ := hremove
      obtain ⟨bound, todo, removed, hpc, hunlink, -⟩ := step_removeFile hs
      obtain ⟨hlt, hle⟩ := h.removal.todo caller bound _ _ hpc
      -- what a call removes is below the active segment
      have hid : id < m.shared.activeSegment :=
        Nat.lt_of_le_of_lt (hle id List.mem_cons_self) hlt
      exact ⟨.of_still (.unlink hunlink), hin.unlink (h.last_ne hid) hunlink⟩
    · obtain ⟨hkeeps, -, -⟩ :=
        step_keeps (fun n hn => hflusher ⟨n, hn⟩) hs
      refine hin.same ?_ hkeeps.bytes
      have hgrows := Disk.Grows.of_step h.sim
        (fun caller id ha => hremove ⟨caller, id, ha⟩) hs
      rcases hgrows.entries with heq | heq
      · exact heq
      · have hlen := congrArg List.length heq
        have hlen' := congrArg List.length hkeeps.ids
        rw [List.length_append, List.length_map, List.length_map] at hlen
        rw [List.length_map, List.length_map] at hlen'
        simp only at hlen'
        rw [hlen'] at hlen
        simp at hlen

/-- Files below the active segment are removed. -/
theorem files_unlink (h : Journal old as log hand rest disk m)
    (hin : disk.InOrder) {removed : List Nat}
    (hids : ∀ id ∈ removed, id < m.shared.activeSegment)
    (hunlink : removed.foldlM Disk.unlink disk = some disk') :
    disk.Becomes disk' ∧ disk'.InOrder := by
  induction removed generalizing disk with
  | nil =>
      cases hunlink
      exact ⟨.refl _, hin⟩
  | cons id removed ih =>
      obtain ⟨disk₁, hone, hrest⟩ := Option.bind_eq_some_iff.mp hunlink
      have hid := hids id List.mem_cons_self
      obtain ⟨h₁, -⟩ := h.unlink hid hone
      obtain ⟨hbecomes, hin'⟩ := ih h₁ (hin.unlink (h.last_ne hid) hone)
        (fun j hj => hids j (List.mem_cons_of_mem _ hj)) hrest
      exact ⟨.trans (.of_still (.unlink hone)) hbecomes, hin'⟩

end Journal

-- ============================================================== the opening

namespace Opening.Holds

variable {recs : List WalRecord} {id offset next : Nat}

/-- The torn end is cut off the last file. Its whole records are what the
cut leaves, and no other file has its id. -/
theorem files_setLen (h : Holds disk recs (.setLen id offset next))
    (hin : disk.InOrder) :
    disk.Becomes (disk.setLen id offset)
      ∧ (disk.setLen id offset).InOrder := by
  obtain ⟨hrest, -, seg, hlast, rfl, rfl⟩ := h
  have hentries : (disk.setLen seg.id
      (records.scan seg.bytes).used.length).map LogFile.entry
      = disk.map LogFile.entry := by
    unfold Disk.setLen
    rw [List.map_map]
    refine List.map_congr_left fun f _ => ?_
    simp only [Function.comp_apply]
    split <;> rfl
  refine ⟨?_, hin.congr hentries⟩
  rw [hin.list_getLast?] at hlast
  obtain ⟨f, hf, rfl⟩ := Option.map_eq_some_iff.mp hlast
  obtain ⟨front, rfl⟩ := List.getLast?_eq_some_iff.mp hf
  have hlinked := hin.last f hf
  have hfront : ∀ g ∈ front, g.id ≠ f.id := fun g hg => Nat.ne_of_lt
    ((List.pairwise_append.mp hin.asc).2.2 g hg f List.mem_cons_self)
  unfold Disk.setLen
  rw [List.map_append, List.map_singleton]
  have hsame : (front.map fun g =>
      if g.linked && g.id == f.id then
        { g with
          bytes := Wal.setLen g.bytes (records.scan f.bytes).used.length
          synced := min g.synced (records.scan f.bytes).used.length }
      else g) = front := by
    conv_rhs => rw [← List.map_id front]
    refine List.map_congr_left fun g hg => ?_
    rw [if_neg (by simp [hfront g hg])]
    rfl
  simp only at hsame ⊢
  rw [hsame, if_pos (by simp [hlinked])]
  refine .last (.cut rfl rfl ?_)
  have hpre := records.used_prefix f.bytes
  show Wal.setLen f.bytes (records.scan f.bytes).used.length = _
  unfold Wal.setLen
  rw [← List.prefix_iff_eq_take.mp hpre, Nat.sub_eq_zero_of_le hpre.length_le,
    List.replicate_zero, List.append_nil]

/-- It is synced. -/
theorem files_syncAll (hin : disk.InOrder) (id : Nat) :
    disk.Becomes (disk.syncAll id) ∧ (disk.syncAll id).InOrder := by
  unfold Disk.syncAll
  refine hin.same ?_ ?_
  · rw [List.map_map]
    refine List.map_congr_left fun f _ => ?_
    simp only [Function.comp_apply]
    split <;> rfl
  · rw [List.map_map]
    refine List.map_congr_left fun f _ => ?_
    simp only [Function.comp_apply]
    split <;> rfl

/-- The next one is created. -/
theorem files_create (h : Holds disk recs (.create next)) (hin : disk.InOrder)
    (hcreate : disk.create next = some disk') :
    disk.Becomes disk' ∧ disk'.InOrder := by
  obtain ⟨rfl, -⟩ := Disk.create_eq hcreate
  obtain ⟨rfl, -⟩ := h
  exact ⟨.concat disk _, hin.concat hin.lt_nextId⟩

end Opening.Holds

end Tsdb.Wal
