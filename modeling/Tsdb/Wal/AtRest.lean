/-
The log between two processes: what one leaves behind, and what the next
makes of it (`Wal::open`).

A process stops with its files as they are: what was in them is found
again, with some of what was in hand (`Journal.crash`), and with all of it
once the flusher has left (`Journal.exited`). Every stage of `Wal::open`
leaves the records it has read where they are, up to the segment it creates
and the log that then runs (`Opening.Holds`).

# From a running log to a directory

`Disk.AtRest disk recs`: a replay of the named files finds `recs`. To get
there from `Journal` the named files are split at the active one. Those in
front are whole (`front_whole`): old files by `OldFiles`, closed segments
because `Sim` has their bytes. Behind them are the active file, with as
much of the batch as has been written, and perhaps a file that was just
created and is empty (`back_files`). A prefix of encoded records scans to
whole records and a leftover, so the active file may stand last; if there
is an empty file behind it, the flusher was rotating and had no batch
half written (`FlusherPc.fresh_cases`).

The records found are those of the files and a prefix of those in hand;
`Journal.crash` states how they compare with what was retained, and
`Journal.exited` has equality, since nothing is in hand.

# From a directory to a running log

`Opening.Holds` is what is known at each stage of `Wal::open`. The records
do not change on the way. Up to the cut they are what is at the front of
the last file, and behind it they are all that is in the files, so the
files are intact and have their parts (`Intact.parts`). The file created
has the id above all that are named, and starts the journal of the next
process, with everything that was read as its old files.
-/
import Tsdb.Wal.Retained

namespace Tsdb.Wal

open Lib (Ascending Bytes exec)

variable {old : List (List WalRecord)} {as : List Action} {log : Log}
  {hand rest : List WalRecord} {disk : Disk} {m : Machine}

-- ================================================================== at rest

/-- A directory nobody writes to: the records a replay finds. -/
structure Disk.AtRest (disk : Disk) (recs : List WalRecord) : Prop where
  asc : Ascending LogFile.id (disk.filter LogFile.linked)
  recovers : Recovers (list disk.dir) recs

/-- The directory lists its files as they are. -/
theorem Disk.list_dir
    (hasc : Ascending LogFile.id (disk.filter LogFile.linked)) :
    list disk.dir = disk.dir :=
  list_eq (List.Perm.refl _) (List.pairwise_map.mpr hasc)

/-- Whole files are an intact directory. -/
theorem Intact.of_whole {files : Disk} {parts : List (List WalRecord)}
    (h : List.Forall₂ (fun (f : LogFile) part =>
      f.linked = true → Whole f.bytes part) files parts) :
    Intact files.dir (retained (files.map LogFile.linked) parts) := by
  induction h with
  | nil => exact .nil
  | @cons f part files parts hf _ ih =>
      unfold Disk.dir at ih ⊢
      cases hlinked : f.linked with
      | true =>
          rw [List.filter_cons_of_pos hlinked, List.map_cons, List.map_cons,
            hlinked]
          exact .cons (hf hlinked) ih
      | false =>
          rw [List.filter_cons_of_neg (by simp [hlinked]), List.map_cons,
            hlinked]
          exact ih

theorem Disk.dir_append (disk disk' : Disk) :
    Disk.dir (disk ++ disk') = disk.dir ++ disk'.dir := by
  unfold Disk.dir
  rw [List.filter_append, List.map_append]

/-- Files that hold the encoded parts are whole. -/
private theorem whole_of_bytes {files : List LogFile}
    {parts : List (List WalRecord)}
    (hbytes : files.map LogFile.bytes = parts.map logBytes)
    (hwhole : ∀ part ∈ parts, Whole (logBytes part) part) :
    List.Forall₂ (fun (f : LogFile) part =>
      f.linked = true → Whole f.bytes part) files parts := by
  induction parts generalizing files with
  | nil =>
      rw [List.map_nil, List.map_eq_nil_iff] at hbytes
      rw [hbytes]
      exact .nil
  | cons part parts ih =>
      obtain ⟨f, files, rfl, hf, hrest⟩ := List.map_eq_cons_iff.mp hbytes
      refine .cons (fun _ => ?_)
        (ih hrest fun part hpart => hwhole part (List.mem_cons_of_mem _ hpart))
      rw [hf]
      exact hwhole part List.mem_cons_self

/-- A file fresh from `create` means that the active one has all of its
batch. -/
theorem FlusherPc.fresh_cases (pc : FlusherPc) :
    pc.fresh = 0 ∨ pc.fresh = 1 ∧ pc.done = 0 := by
  cases pc with
  | rotate stage why =>
      cases stage <;> first | exact .inl rfl | exact .inr ⟨rfl, rfl⟩
  | _ => exact .inl rfl

namespace Journal

/-- What reads back as it was accepted. -/
theorem whole_part (h : Journal old as log hand rest disk m)
    (hlogged : ∀ rec ∈ log.accepted, rec.logged = rec)
    {part : List WalRecord} (hpart : ∀ rec ∈ part, rec ∈ log.accepted) :
    Whole (logBytes part) part := by
  have hwhole := Whole.accepted fun rec hrec =>
    h.sim.accepted rec (hpart rec hrec)
  have hid : part.map WalRecord.logged = part :=
    (List.map_congr_left fun rec hrec => hlogged rec (hpart rec hrec)).trans
      (List.map_id _)
  rwa [hid] at hwhole

/-- The old files and the closed segments are whole. -/
theorem front_whole (h : Journal old as log hand rest disk m)
    (hlogged : ∀ rec ∈ log.accepted, rec.logged = rec) :
    List.Forall₂ (fun (f : LogFile) part =>
      f.linked = true → Whole f.bytes part)
      (disk.take (old.length + log.closed.length)) (old ++ log.closed) := by
  rw [List.take_add]
  refine List.rel_append h.old.whole (whole_of_bytes ?_ fun part hpart =>
    h.whole_part hlogged fun rec hrec => ?_)
  · have hbytes := h.sim.front_bytes (Nat.le_refl _)
    rwa [List.take_length] at hbytes
  · exact List.mem_append_left _ (List.mem_append_left _
      (List.mem_flatten_of_mem hpart hrec))

/-- The active file, and perhaps the next. -/
theorem back_files (h : Journal old as log hand rest disk m) :
    ∃ f fresh, disk.drop (old.length + log.closed.length) = f :: fresh
      ∧ f.bytes = logBytes log.active ++ m.spare.take m.pc.done
      ∧ fresh.map LogFile.bytes = List.replicate m.pc.fresh [] := by
  have hbytes := congrArg (List.drop log.closed.length) h.sim.bytes
  rw [List.drop_drop, List.drop_left' (by simp), ← List.map_drop] at hbytes
  obtain ⟨f, fresh, hfiles, hf, hfresh⟩ := List.map_eq_cons_iff.mp hbytes
  exact ⟨f, fresh, hfiles, hf, hfresh⟩

/-- They have their names. -/
theorem back_named (h : Journal old as log hand rest disk m)
    {files : Disk}
    (hfiles : disk.drop (old.length + log.closed.length) = files) :
    ∀ g ∈ files, g.linked = true := by
  intro g hg
  refine h.named g.linked ?_
  rw [← List.map_drop, hfiles]
  exact List.mem_map_of_mem hg

/-- The named files have ascending ids. -/
theorem ascending (h : Journal old as log hand rest disk m) :
    Ascending LogFile.id (disk.filter LogFile.linked) := by
  conv => rw [← List.take_append_drop old.length disk]
  rw [List.filter_append]
  refine List.pairwise_append.mpr ⟨h.old.asc, ?_, fun f hf g hg => ?_⟩
  · refine List.Pairwise.sublist List.filter_sublist ?_
    refine List.pairwise_map.mp ?_
    rw [List.map_drop, h.sim.ids]
    exact List.pairwise_lt_range'
  · obtain ⟨hf, hlinked⟩ := List.mem_filter.mp hf
    obtain ⟨i, hi⟩ := List.mem_iff_getElem?.mp (List.mem_filter.mp hg).1
    rw [List.getElem?_drop] at hi
    have hbelow := h.old.below f hf hlinked
    have hid := h.id_at hi
    omega

/-- The old files and the closed segments, then the rest of the log. -/
theorem recs_split (h : Journal old as log hand rest disk m) :
    log.recs old disk
      = retained ((disk.take (old.length + log.closed.length)).map
          LogFile.linked) (old ++ log.closed)
        ++ (log.active ++ log.pending) := by
  have hsize := h.base_le
  unfold Log.recs Log.parts
  rw [← List.append_assoc, retained_open ?_ ?_, List.flatten_singleton,
    List.length_append, List.map_take]
  · rw [List.length_append, List.length_map]
    exact hsize
  · rw [List.length_append]
    exact h.named

/-- The directory: files that are whole, the active one, and perhaps the
next. -/
private theorem dir_split (h : Journal old as log hand rest disk m)
    (hlogged : ∀ rec ∈ log.accepted, rec.logged = rec) :
    ∃ whole front f fresh, Intact whole front
      ∧ disk.dir = whole ++ ((f :: fresh).map fun (g : LogFile) =>
        (⟨g.id, g.bytes⟩ : SegmentFile))
      ∧ log.recs old disk = front ++ (log.active ++ log.pending)
      ∧ f.bytes = logBytes log.active ++ m.spare.take m.pc.done
      ∧ fresh.map LogFile.bytes = List.replicate m.pc.fresh [] := by
  obtain ⟨f, fresh, hfiles, hbytes, hfresh⟩ := h.back_files
  have hnamed := h.back_named hfiles
  have hdisk : disk = disk.take (old.length + log.closed.length)
      ++ f :: fresh := by
    rw [← hfiles, List.take_append_drop]
  refine ⟨_, _, f, fresh, Intact.of_whole (h.front_whole hlogged), ?_,
    h.recs_split, hbytes, hfresh⟩
  conv_lhs => rw [hdisk, Disk.dir_append]
  congr 1
  unfold Disk.dir
  rw [List.filter_eq_self.mpr hnamed]

/-- When the process stops, all that was in files is found again, with some
of what was in hand. If the active file is the last, its bytes are those of
its records and of a part of the batch: a scan finds whole records, at least
those that were there before the batch, and cuts the rest. If another file
has been created, there is no batch half written, and both files are whole. -/
theorem crash (h : Journal old as log hand rest disk m)
    (hlogged : ∀ rec ∈ log.accepted, rec.logged = rec) :
    ∃ k, (log.recs old disk).length - log.pending.length ≤ k
      ∧ k ≤ (log.recs old disk).length
      ∧ disk.AtRest ((log.recs old disk).take k) := by
  obtain ⟨whole, front, f, fresh, hfront, hdir, hsplit, hbytes, hfresh⟩ :=
    h.dir_split hlogged
  have hactive : ∀ rec ∈ log.active, rec ∈ log.accepted := fun rec hrec =>
    List.mem_append_left _ (List.mem_append_right _ hrec)
  rw [hsplit]
  simp only [List.length_append]
  rcases m.pc.fresh_cases with h₀ | ⟨h₁, hdone⟩
  · -- the active file is the last, and may be cut
    rw [h₀, List.replicate_zero, List.map_eq_nil_iff] at hfresh
    subst hfresh
    have hpre : f.bytes <+: logBytes (log.active ++ hand) := by
      rw [hbytes, logBytes_append, ← h.sim.hand_eq, ← List.append_assoc]
      exact List.prefix_append _ _
    have hin : ∀ rec ∈ log.active ++ hand, rec ∈ log.accepted := by
      intro rec hrec
      rcases List.mem_append.mp hrec with hrec | hrec
      · exact hactive rec hrec
      · unfold Log.accepted
        rw [h.sim.pending]
        exact List.mem_append_right _ (List.mem_append_left _ hrec)
    -- the file is a cut of the records it has and those in hand
    obtain ⟨k, hk, -, hnext, -, hdecodes, -⟩ :=
      scan_cut (fun rec hrec => h.sim.accepted rec (hin rec hrec))
        hpre.length_le
    rw [← List.prefix_iff_eq_take.mp hpre] at hdecodes
    have hsame : ((log.active ++ hand).take k).map WalRecord.logged
        = (log.active ++ hand).take k :=
      (List.map_congr_left fun rec hrec =>
        hlogged rec (hin rec (List.mem_of_mem_take hrec))).trans
        (List.map_id _)
    rw [hsame] at hdecodes
    -- nothing of the active segment is lost
    have hge : log.active.length ≤ k := by
      by_contra hlt
      have hlt' : k < (log.active ++ hand).length := by
        rw [List.length_append]
        omega
      have hcut := hnext hlt'
      rw [List.take_append_of_le_length (by omega)] at hcut
      have hle : (logBytes (log.active.take (k + 1))).length
          ≤ (logBytes log.active).length := by
        conv_rhs => rw [← List.take_append_drop (k + 1) log.active,
          logBytes_append, List.length_append]
        omega
      rw [hbytes, List.length_append] at hcut
      omega
    have hpending : log.pending.length = hand.length + rest.length := by
      rw [h.sim.pending, List.length_append]
    rw [List.length_append] at hk
    refine ⟨front.length + k, by omega, by omega, h.ascending, ?_⟩
    rw [Disk.list_dir h.ascending, hdir, List.map_singleton, recovers_concat]
    refine ⟨front, _, hfront, hdecodes, ?_⟩
    rw [List.take_length_add_append, h.sim.pending, ← List.append_assoc,
      List.take_append_of_le_length (by rw [List.length_append]; exact hk)]
  · -- a file has been created, and the active one is whole
    rw [h₁, List.replicate_one, List.map_eq_singleton_iff] at hfresh
    obtain ⟨g, rfl, hg⟩ := hfresh
    rw [hdone, List.take_zero, List.append_nil] at hbytes
    have hwhole := h.whole_part hlogged hactive
    rw [← hbytes] at hwhole
    refine ⟨front.length + log.active.length, by omega, by omega,
      h.ascending, ?_⟩
    rw [Disk.list_dir h.ascending, hdir, List.take_length_add_append,
      List.take_left, List.map_cons, List.map_singleton, hg]
    have hactive' : Intact [⟨f.id, f.bytes⟩] log.active := .single hwhole
    have := hfront.append (hactive'.fresh g.id)
    exact this.recovers

/-- Once the flusher has left, everything is in files. -/
theorem exited (h : Journal old as log hand rest disk m)
    (hpc : m.pc = .exited) : log.pending = [] := by
  refine h.sim.pending_nil (h.closing.ended ?_).2 ?_
  · rw [hpc]
    rfl
  · rw [hpc]
    rfl

end Journal

-- ======================================================= the retained log

/-- The bytes of an open log: those of its files, in their order, of the
batch in hand, and of the buffer. -/
def retainedBytes (disk : Disk) (m : Machine) : Bytes :=
  (list disk.dir).flatMap SegmentFile.bytes ++ m.hand ++ m.shared.buffer.buf

theorem Intact.whole {segs : List SegmentFile} {recs : List WalRecord}
    (h : Intact segs recs) : Whole (segs.flatMap SegmentFile.bytes) recs := by
  induction h with
  | nil => exact .nil
  | cons hwhole _ ih => exact hwhole.append ih

/-- They are whole records, those that are retained. -/
theorem Journal.whole (h : Journal old as log hand rest disk m)
    (hlogged : ∀ rec ∈ log.accepted, rec.logged = rec) :
    Whole (retainedBytes disk m) (log.recs old disk) := by
  obtain ⟨whole, front, f, fresh, hfront, hdir, hsplit, hbytes, hfresh⟩ :=
    h.dir_split hlogged
  have hback : ((f :: fresh).map fun (g : LogFile) =>
      (⟨g.id, g.bytes⟩ : SegmentFile)).flatMap SegmentFile.bytes
      = logBytes log.active ++ m.spare.take m.pc.done := by
    have hnone : ((fresh.map fun (g : LogFile) =>
        (⟨g.id, g.bytes⟩ : SegmentFile)).flatMap SegmentFile.bytes) = [] := by
      show ((fresh.map fun (g : LogFile) =>
        (⟨g.id, g.bytes⟩ : SegmentFile)).map SegmentFile.bytes).flatten = []
      rw [List.map_map]
      show (fresh.map LogFile.bytes).flatten = []
      rw [hfresh]
      simp
    rw [List.map_cons, List.flatMap_cons, hnone, List.append_nil]
    exact hbytes
  have hall : retainedBytes disk m = whole.flatMap SegmentFile.bytes
      ++ logBytes (log.active ++ log.pending) := by
    unfold retainedBytes
    rw [Disk.list_dir h.ascending, hdir, List.flatMap_append, hback,
      h.sim.buf, h.sim.pending, logBytes_append, logBytes_append,
      ← h.sim.hand_eq]
    simp only [List.append_assoc]
  rw [hall, hsplit]
  refine hfront.whole.append (h.whole_part hlogged fun rec hrec => ?_)
  unfold Log.accepted Log.flushed
  rcases List.mem_append.mp hrec with hrec | hrec
  · exact List.mem_append_left _ (List.mem_append_right _ hrec)
  · exact List.mem_append_right _ hrec

-- ============================================================== the opening

/-- Every file of an intact directory has its part. -/
theorem Intact.parts {files : Disk} {recs : List WalRecord}
    (h : Intact files.dir recs) :
    ∃ old, List.Forall₂ (fun (f : LogFile) part =>
        f.linked = true → Whole f.bytes part) files old
      ∧ retained (files.map LogFile.linked) old = recs := by
  induction files generalizing recs with
  | nil =>
      cases h
      exact ⟨[], .nil, rfl⟩
  | cons f files ih =>
      unfold Disk.dir at h ih
      cases hlinked : f.linked with
      | true =>
          rw [List.filter_cons_of_pos hlinked, List.map_cons] at h
          cases h with
          | @cons _ _ part recs' hwhole hrest =>
              obtain ⟨old, hold, heq⟩ := ih hrest
              refine ⟨part :: old, .cons (fun _ => hwhole) hold, ?_⟩
              rw [List.map_cons, hlinked, ← heq]
              rfl
      | false =>
          rw [List.filter_cons_of_neg (by simp [hlinked])] at h
          obtain ⟨old, hold, heq⟩ := ih h
          refine ⟨[] :: old, .cons (fun hf => ?_) hold, ?_⟩
          · rw [hlinked] at hf
            cases hf
          · rw [List.map_cons, hlinked]
            exact heq

/-- The id of the last segment in a directory. -/
def Disk.lastId (disk : Disk) : Option Nat :=
  (list disk.dir).getLast?.map SegmentFile.id

/-- What holds at a stage of `Wal::open`, with the records it has read. -/
def Opening.Holds (disk : Disk) (recs : List WalRecord) : Opening → Prop
  | .setLen id offset next => disk.AtRest recs ∧ next = nextId disk.lastId
      ∧ ∃ seg, (list disk.dir).getLast? = some seg ∧ seg.id = id
        ∧ offset = (records.scan seg.bytes).used.length
  | .syncAll _ next => next = nextId disk.lastId
      ∧ Ascending LogFile.id (disk.filter LogFile.linked)
      ∧ Intact (list disk.dir) recs
  | .create next => next = nextId disk.lastId
      ∧ Ascending LogFile.id (disk.filter LogFile.linked)
      ∧ Intact (list disk.dir) recs
  | .syncDir id file => ∃ before old, disk = before ++ [{ id }]
      ∧ file = before.length ∧ 0 < id ∧ OldFiles id before old
      ∧ retained (before.map LogFile.linked) old = recs

namespace Disk.AtRest

variable {recs : List WalRecord}

theorem nodup (h : disk.AtRest recs) :
    (disk.dir.map SegmentFile.id).Nodup :=
  ids_nodup (List.pairwise_map.mpr h.asc)

/-- An empty directory has no records. -/
theorem nothing (h : disk.AtRest recs) (hlast : disk.lastId = none) :
    recs = [] := by
  have hrecovers := h.recovers
  have hnil : list disk.dir = [] := by
    unfold Disk.lastId at hlast
    rwa [Option.map_eq_none_iff, List.getLast?_eq_none_iff] at hlast
  rw [hnil] at hrecovers
  cases hrecovers
  rfl

/-- Replay reads the records, and goes on to the next stage: to the cut if
the last file has a torn end, else at once to the creation of the next file,
and then all files are whole. -/
theorem replayed (h : disk.AtRest recs) {σ : Type} (ops : ReplaySink σ)
    (reads : Nat → Nat → Nat) (sink : σ) :
    ∃ report dir, replay ops reads disk.dir sink
        = (.ok report, dir, (Resolver.applyAll ops ({}, sink) recs).2)
      ∧ report.lastSegment = disk.lastId
      ∧ (Opening.next report).Holds disk recs := by
  refine ⟨_, _, replay_ok ops reads h.nodup h.recovers sink, rfl, ?_⟩
  have hnext : nextId (reportOf ops disk.dir recs sink).lastSegment
      = nextId disk.lastId := rfl
  unfold Opening.next
  rw [hnext]
  cases hlast : (list disk.dir).getLast? with
  | none =>
      have htorn : (reportOf ops disk.dir recs sink).truncated = none := by
        unfold reportOf torn
        rw [hlast]
        rfl
      rw [htorn]
      refine ⟨rfl, h.asc, ?_⟩
      have hnil := List.getLast?_eq_none_iff.mp hlast
      have hrecovers := h.recovers
      rw [hnil] at hrecovers ⊢
      cases hrecovers
      exact .nil
  | some seg =>
      by_cases hstop : (records.scan seg.bytes).stop = none
      · have htorn : (reportOf ops disk.dir recs sink).truncated = none := by
          unfold reportOf torn
          rw [hlast, Option.bind_some]
          exact if_pos hstop
        rw [htorn]
        refine ⟨rfl, h.asc, ?_⟩
        have hrepaired := Recovers.repaired h.nodup h.recovers
        rwa [repair_of_stop h.nodup hlast hstop] at hrepaired
      · have htorn : (reportOf ops disk.dir recs sink).truncated
            = some (seg.id, (records.scan seg.bytes).used.length,
              seg.bytes.length - (records.scan seg.bytes).used.length) := by
          unfold reportOf torn
          rw [hlast, Option.bind_some]
          exact if_neg hstop
        rw [htorn]
        exact ⟨h, rfl, seg, hlast, rfl, rfl⟩

end Disk.AtRest

namespace Opening.Holds

variable {recs : List WalRecord} {id offset next file : Nat}

/-- Cutting the torn end off the last file repairs the directory: it is the
same map over the named files, since only the last one has its id. -/
private theorem dir_setLen
    (hasc : Ascending LogFile.id (disk.filter LogFile.linked))
    {seg : SegmentFile} (hlast : (list disk.dir).getLast? = some seg) :
    (disk.setLen seg.id (records.scan seg.bytes).used.length).dir
      = repair disk.dir := by
  have hnd : (disk.dir.map SegmentFile.id).Nodup :=
    ids_nodup (List.pairwise_map.mpr hasc)
  have hmem : seg ∈ disk.dir :=
    (list_perm _).subset (List.mem_of_getLast? hlast)
  have hlinked :
      (disk.setLen seg.id (records.scan seg.bytes).used.length).filter
        LogFile.linked
      = (disk.filter LogFile.linked).map fun f =>
        if f.linked && f.id == seg.id then
          { f with
            bytes := Wal.setLen f.bytes (records.scan seg.bytes).used.length
            synced := min f.synced (records.scan seg.bytes).used.length }
        else f := by
    unfold Disk.setLen
    rw [List.filter_map]
    congr 1
    refine List.filter_congr fun f _ => ?_
    show LogFile.linked (if _ then _ else _) = f.linked
    split <;> rfl
  unfold repair
  rw [hlast]
  show List.map _ (List.filter _ _) = List.map _ (List.map _ (List.filter _ _))
  rw [hlinked, List.map_map, List.map_map]
  refine List.map_congr_left fun f hf => ?_
  obtain ⟨hf, hnamed⟩ := List.mem_filter.mp hf
  simp only [Function.comp_apply, hnamed, Bool.true_and, beq_iff_eq]
  -- no two named files have one id
  by_cases hid : f.id = seg.id
  · rw [if_pos hid, if_pos hid]
    have hsame : (⟨f.id, f.bytes⟩ : SegmentFile) = seg :=
      List.inj_on_of_nodup_map hnd
        (List.mem_map_of_mem (List.mem_filter.mpr ⟨hf, hnamed⟩)) hmem hid
    have hpre := records.used_prefix seg.bytes
    have hbytes : f.bytes = seg.bytes := congrArg SegmentFile.bytes hsame
    unfold SegmentFile.cutTorn Wal.setLen
    simp only
    rw [hbytes, ← List.prefix_iff_eq_take.mp hpre,
      Nat.sub_eq_zero_of_le hpre.length_le, List.replicate_zero,
      List.append_nil]
  · rw [if_neg hid, if_neg hid]

/-- A change of files that keeps their entries keeps the order. -/
private theorem asc_map {change : LogFile → LogFile}
    (hid : ∀ f, (change f).id = f.id)
    (hlinked : ∀ f, (change f).linked = f.linked)
    (hasc : Ascending LogFile.id (disk.filter LogFile.linked)) :
    Ascending LogFile.id
      ((List.map change disk : Disk).filter LogFile.linked) := by
  rw [List.filter_map]
  refine List.pairwise_map.mpr ?_
  have hsame : disk.filter (LogFile.linked ∘ change)
      = disk.filter LogFile.linked :=
    List.filter_congr fun f _ => hlinked f
  rw [hsame]
  refine hasc.imp fun hlt => ?_
  rwa [hid, hid]

theorem setLen (h : Holds disk recs (.setLen id offset next)) :
    Holds (disk.setLen id offset) recs (.syncAll id next) := by
  obtain ⟨hrest, rfl, seg, hlast, rfl, rfl⟩ := h
  have hdir := dir_setLen hrest.asc hlast
  refine ⟨?_, asc_map ?_ ?_ hrest.asc, ?_⟩
  · unfold Disk.lastId
    rw [hdir]
    obtain ⟨front, hcat⟩ := List.getLast?_eq_some_iff.mp hlast
    rw [list_repair hrest.nodup hcat, hcat]
    simp [SegmentFile.cutTorn]
  · intro f
    split <;> rfl
  · intro f
    split <;> rfl
  · rw [hdir]
    exact Recovers.repaired hrest.nodup hrest.recovers

theorem syncAll (h : Holds disk recs (.syncAll id next)) :
    Holds (disk.syncAll id) recs (.create next) := by
  obtain ⟨hnext, hasc, hintact⟩ := h
  have hdir : (disk.syncAll id).dir = disk.dir := by
    unfold Disk.dir Disk.syncAll
    rw [List.filter_map, List.map_map]
    have hsame : disk.filter (LogFile.linked ∘ fun f =>
        if f.linked && f.id == id then
          { f with synced := f.bytes.length } else f)
        = disk.filter LogFile.linked := by
      refine List.filter_congr fun f _ => ?_
      show LogFile.linked (if _ then _ else _) = f.linked
      split <;> rfl
    rw [hsame]
    refine List.map_congr_left fun f _ => ?_
    simp only [Function.comp_apply]
    split <;> rfl
  refine ⟨?_, asc_map ?_ ?_ hasc, ?_⟩
  · unfold Disk.lastId
    rw [hdir]
    exact hnext
  · intro f
    split <;> rfl
  · intro f
    split <;> rfl
  · rw [hdir]
    exact hintact

/-- The next id is above all that are named. -/
theorem lt_next (h : Holds disk recs (.create next)) :
    0 < next ∧ ∀ f ∈ disk, f.linked = true → f.id < next := by
  obtain ⟨rfl, hasc, -⟩ := h
  unfold Disk.lastId nextId
  rw [Disk.list_dir hasc]
  constructor
  · split <;> omega
  · intro f hf hlinked
    have hmem : (⟨f.id, f.bytes⟩ : SegmentFile) ∈ disk.dir :=
      List.mem_map_of_mem (List.mem_filter.mpr ⟨hf, hlinked⟩)
    cases hlast : disk.dir.getLast? with
    | none =>
        rw [List.getLast?_eq_none_iff.mp hlast] at hmem
        cases hmem
    | some seg =>
        obtain ⟨front, hcat⟩ := List.getLast?_eq_some_iff.mp hlast
        have hdir : Ascending SegmentFile.id disk.dir :=
          List.pairwise_map.mpr hasc
        rw [hcat] at hmem hdir
        show f.id < seg.id + 1
        rcases List.mem_append.mp hmem with hmem | hmem
        · have hlt := (List.pairwise_append.mp hdir).2.2 _ hmem seg
            List.mem_cons_self
          exact Nat.lt_succ_of_lt hlt
        · rw [← List.mem_singleton.mp hmem]
          exact Nat.lt_succ_self _

/-- The next segment is created. -/
theorem create (h : Holds disk recs (.create next)) :
    disk.create next = some (disk ++ [{ id := next }])
      ∧ Holds (disk ++ [{ id := next }]) recs
        (.syncDir next disk.length) := by
  obtain ⟨hpos, hbelow⟩ := h.lt_next
  obtain ⟨-, hasc, hintact⟩ := h
  rw [Disk.list_dir hasc] at hintact
  obtain ⟨old, hwhole, hrecs⟩ := hintact.parts
  constructor
  · unfold Disk.create
    rw [if_neg]
    intro hany
    obtain ⟨f, hf, hnamed⟩ := List.any_eq_true.mp hany
    rw [Bool.and_eq_true, beq_iff_eq] at hnamed
    have := hbelow f hf hnamed.1
    omega
  · exact ⟨disk, old, rfl, rfl, hpos, ⟨hwhole, hasc, hbelow⟩, hrecs⟩

/-- A process that stops in `Wal::open` leaves the records where they
were. -/
theorem atRest {stage : Opening} (h : Holds disk recs stage) :
    disk.AtRest recs := by
  cases stage with
  | setLen id offset next => exact h.1
  | syncAll id next => exact ⟨h.2.1, h.2.2.recovers⟩
  | create next => exact ⟨h.2.1, h.2.2.recovers⟩
  | syncDir id file =>
      obtain ⟨before, old, rfl, -, -, hold, hrecs⟩ := h
      have hasc : Ascending LogFile.id
          ((before ++ [{ id := id }] : Disk).filter LogFile.linked) := by
        rw [List.filter_append]
        refine List.pairwise_append.mpr ⟨hold.asc, ?_, fun f hf g hg => ?_⟩
        · exact List.Pairwise.filter _ (List.pairwise_singleton _ _)
        · obtain ⟨hf, hlinked⟩ := List.mem_filter.mp hf
          rw [List.mem_singleton.mp (List.mem_filter.mp hg).1]
          exact hold.below f hf hlinked
      refine ⟨hasc, ?_⟩
      have hintact := Intact.of_whole hold.whole
      rw [hrecs] at hintact
      rw [Disk.list_dir hasc, Disk.dir_append]
      exact (hintact.fresh id).recovers

/-- The log that then runs has the records behind it. -/
theorem syncDir (h : Holds disk recs (.syncDir id file)) :
    ∃ old, Journal old [] { first := id } [] [] disk.syncDir
        (.start id file)
      ∧ Log.recs { first := id } old disk.syncDir = recs := by
  obtain ⟨before, old, rfl, rfl, hpos, hold, hrecs⟩ := h
  have hdisk : Disk.syncDir (before ++ [{ id := id }])
      = (Disk.syncDir before) ++ [{ id := id, durable := true }] := by
    unfold Disk.syncDir
    rw [List.map_append]
    rfl
  have hstill : Still (Disk.syncDir before) before :=
    .map before fun _ => ⟨rfl, rfl, fun hlinked => hlinked⟩
  have hlen : old.length = (Disk.syncDir before).length := by
    rw [Disk.length_syncDir, hold.whole.length_eq]
  have hbefore : before.length = (Disk.syncDir before).length :=
    (Disk.length_syncDir before).symm
  have hflags : (Disk.syncDir before).map LogFile.linked
      = before.map LogFile.linked := by
    unfold Disk.syncDir
    rw [List.map_map]
    rfl
  rw [hdisk]
  refine ⟨old, ⟨?_, rfl, .start id _ _, ?_, .start id _, ?_, ?_⟩, ?_⟩
  · rw [hlen, hbefore]
    exact Sim.start (Disk.syncDir before) { id := id, durable := true } rfl
  · rw [hlen, hbefore]
    exact RemovalInv.start (Disk.syncDir before) hpos
  · rw [hbefore]
    exact Clearing.start (Disk.syncDir before) { id := id, durable := true }
  · rw [hlen, List.take_left]
    exact hold.still hstill
  · unfold Log.recs Log.parts
    rw [List.map_append, retained_append, hflags, hrecs]
    · exact List.append_nil recs
    · rw [List.length_map, hlen]

end Opening.Holds

end Tsdb.Wal
