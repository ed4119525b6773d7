/-
What the pipeline guarantees, in every run from `Wal::open`, whatever the
interleaving (`pipeline`): the files created since, the batch in hand and
the buffer hold the accepted records, once each and in order; an LSN is
the offset behind its record; what is published, and so what a waiter was
told, is in the files; and after `close` everything is.

# From the simulation to the guarantees

A run from `Wal::open` has a log behind it (`FromOpen.sim`), which has
accepted the records that the run's appends were answered for. Each part
of `pipeline` is then read off `Sim`:

- the stream: bytes of the files, the rest of the batch and the buffer,
  one after the other, are the bytes of the accepted records
  (`Sim.stream`). The batch is in the file as far as `done` says, so the
  piece that is in the file and the piece that is not are put together
  (`hand_eq`);
- whole files: between two writes `done` is zero or all, and every file is
  the bytes of some records (`files_whole`);
- an LSN: the append was answered with the end of the buffer, and the end
  of the buffer is the length of all accepted bytes at that moment
  (`FromOpen.lsn_eq`). Later appends go behind, so the record keeps its
  offset;
- waiting: `written` only grows, a waiter returns when it has reached the
  LSN, and it is never ahead of the files (`wait_le`).

After `close`, the flusher that is joined has left its loop, and it does
not come back (`exited_run`): with the buffer closed and empty, the files
have everything.
-/
import Tsdb.Wal.Pipeline

namespace Tsdb.Wal

open Lib (Bytes Run exec)
open Log (Move)

-- ======================================================== reading the files

/-- The contents of files, one after the other. -/
def fileBytes (files : List LogFile) : Bytes :=
  (files.map LogFile.bytes).flatten

namespace Sim

variable {base : Nat} {log : Log} {hand rest : List WalRecord}
  {disk : Disk} {m : Machine}

/-- The files hold what is flushed, and what of the batch in hand has been
written. -/
theorem fileBytes_eq (h : Sim base log hand rest disk m) :
    fileBytes (disk.drop base)
      = logBytes log.flushed ++ m.spare.take m.pc.done := by
  rw [fileBytes, List.map_drop, h.bytes, Log.flushed, logBytes_append,
    logBytes_flatten]
  simp

/-- What has been written of the batch, and what has not, is the batch. By
where the flusher stands: while it writes the vector has all of the batch,
and in any other place nothing of it is in the file. -/
theorem hand_eq (h : Sim base log hand rest disk m) :
    m.spare.take m.pc.done ++ m.hand = logBytes hand := by
  have hheld := h.held
  have hidle := h.idle
  have hswept := h.swept
  unfold Machine.hand
  cases hpc : m.pc with
  | write e done =>
      rw [hpc] at hheld
      obtain ⟨hspare, -⟩ := hheld e rfl
      rw [← hspare]
      exact List.take_append_drop _ _
  | batch e =>
      rw [hpc] at hheld
      obtain ⟨hspare, -⟩ := hheld e rfl
      rw [← hspare]
      rfl
  | rotate stage why =>
      rw [hpc] at hheld hidle hswept
      cases why with
      | batch e =>
          obtain ⟨hspare, -⟩ := hheld e rfl
          rw [← hspare]
          rfl
      | cut =>
          rw [hidle rfl, hswept rfl]
          rfl
  | publish e =>
      rw [hpc] at hidle
      rw [hidle rfl]
      rfl
  | clear =>
      rw [hpc] at hidle
      rw [hidle rfl]
      rfl
  | _ =>
      rw [hpc] at hidle hswept
      rw [hidle rfl, hswept rfl]
      rfl

/-- Files, hand and buffer hold what was accepted. -/
theorem stream (h : Sim base log hand rest disk m) :
    fileBytes (disk.drop base) ++ m.hand ++ m.shared.buffer.buf
      = logBytes log.accepted := by
  rw [h.fileBytes_eq, h.buf, List.append_assoc (logBytes _), h.hand_eq,
    Log.accepted, h.pending, logBytes_append, logBytes_append,
    List.append_assoc]

/-- Between two writes every file is whole records. -/
theorem files_whole (h : Sim base log hand rest disk m)
    (hdone : m.pc.done = 0) :
    ∃ parts : List (List WalRecord),
      (disk.drop base).map LogFile.bytes = parts.map logBytes
        ∧ parts.flatten = log.flushed := by
  refine ⟨log.closed ++ log.active :: List.replicate m.pc.fresh [], ?_, ?_⟩
  · rw [List.map_drop, h.bytes, hdone]
    simp
  · simp [Log.flushed]

end Sim

-- ======================================================= over runs

section Runs

variable {cfg : WalConfig} {before : Disk} {as : List Action} {disk : Disk}
  {m : Machine}

/-- The id of the segment `Wal::open` creates behind the files it
found. -/
def firstId (before : Disk) : Nat :=
  nextId ((list before.dir).getLast?.map SegmentFile.id)

/-- The files and the log as `Wal::open` leaves them. -/
def opened (before : Disk) : Disk × Machine :=
  (before ++ [{ id := firstId before, durable := true }],
    .start (firstId before) before.length)

/-- Runs from `Wal::open`. -/
abbrev FromOpen (cfg : WalConfig) (before : Disk) (as : List Action)
    (disk : Disk) (m : Machine) : Prop :=
  Run (step cfg) (opened before) as (disk, m)

/-- The log behind a run from `Wal::open`. -/
theorem FromOpen.sim (hrun : FromOpen cfg before as disk m) :
    ∃ log hand rest, log.accepted = acceptedIn as
      ∧ log.first = firstId before
      ∧ Sim before.length log hand rest disk m := by
  obtain ⟨moves, log, hand, rest, hexec, happ, h⟩ := simulates
    (Sim.start before { id := firstId before, durable := true } rfl) hrun
  refine ⟨log, hand, rest, ?_, ?_, h⟩
  · rw [Log.exec_accepted hexec, happ]
    rfl
  · exact Log.exec_first hexec

/-- What was published stays published. -/
theorem written_mono {s s' : Disk × Machine}
    (hrun : Run (step cfg) s as s') :
    s.2.shared.written ≤ s'.2.shared.written := by
  induction hrun with
  | nil => exact Nat.le_refl _
  | @snoc as s₁ s₂ a _ hs ih =>
      refine Nat.le_trans ih ?_
      by_cases ha : ∃ n, a = .flusher n
      · obtain ⟨n, rfl⟩ := ha
        have hs' : FlusherStep cfg n s₁.1 s₁.2 s₂.1 s₂.2 := .of_step hs
        obtain ⟨d₂, m₂⟩ := s₂
        cases hs' with
        | publish hpc =>
            show s₁.2.shared.written ≤ advance _ _
            unfold advance
            split <;> omega
        | _ => exact Nat.le_refl _
      · obtain ⟨hk, -, -⟩ := step_keeps (fun n he => ha ⟨n, he⟩) hs
        exact Nat.le_of_eq hk.written.symm

/-- A waiter is told the truth. -/
theorem wait_le {s s' : Disk × Machine} {lsn : Nat}
    (hrun : Run (step cfg) s as s') (hwait : .waitReturn lsn ∈ as) :
    lsn ≤ s'.2.shared.written := by
  obtain ⟨pre, post, rfl⟩ := List.append_of_mem hwait
  obtain ⟨s₁, -, hrest⟩ := hrun.split
  obtain ⟨s₂, hs, hpost⟩ := hrest.uncons
  refine Nat.le_trans ?_ (written_mono hpost)
  simp only [step] at hs
  split at hs
  · rename_i hle
    cases hs
    exact hle
  · cases hs

/-- The flusher does not come back. -/
theorem exited_run {s s' : Disk × Machine} (h : s.2.pc = .exited)
    (hrun : Run (step cfg) s as s') : s'.2.pc = .exited := by
  induction hrun with
  | nil => exact h
  | @snoc as s₁ s₂ a _ hs ih =>
      by_cases ha : ∃ n, a = .flusher n
      · obtain ⟨n, rfl⟩ := ha
        simp only [step, flusherStep, ih] at hs
        cases hs
      · obtain ⟨hk, -, -⟩ := step_keeps (fun n he => ha ⟨n, he⟩) hs
        rw [hk.pc, ih]

/-- The LSN of an append is the offset behind its record. -/
theorem FromOpen.lsn_eq {pre post : List Action} {rec : WalRecord}
    {lsn : Nat} (hrun : FromOpen cfg before
      (pre ++ .append rec (.ok lsn) :: post) disk m) :
    lsn = (logBytes (acceptedIn (pre ++ [.append rec (.ok lsn)]))).length := by
  obtain ⟨s₁, hpre, hrest⟩ := Run.split hrun
  obtain ⟨s₂, hs, -⟩ := hrest.uncons
  obtain ⟨log, hand, rest, hacc, -, h⟩ := FromOpen.sim hpre
  obtain ⟨moves, log', hexec, happ, hlsn, -⟩ := h.append hs
  have hlog : log'.accepted
      = acceptedIn (pre ++ [.append rec (.ok lsn)]) := by
    rw [Log.exec_accepted hexec, hacc, happ, acceptedIn_append,
      acceptedIn_singleton]
  rw [← hlog]
  exact hlsn lsn rfl

theorem accepted_ok {rec : WalRecord} (h : rec.isEmpty = false)
    (lsn : Nat) :
    (Action.append rec (.ok lsn)).accepted = [rec] := by
  simp [Action.accepted, h]

/-- The same for a record with data: the offset behind what was accepted
before, and itself. -/
theorem FromOpen.offset {pre post : List Action} {rec : WalRecord}
    {lsn : Nat} (hrun : FromOpen cfg before
      (pre ++ .append rec (.ok lsn) :: post) disk m)
    (hne : rec.isEmpty = false) :
    lsn = (logBytes (acceptedIn pre ++ [rec])).length := by
  have := FromOpen.lsn_eq hrun
  rwa [acceptedIn_append, acceptedIn_singleton, accepted_ok hne] at this

/-- Between the LSNs of two records lies the second. -/
theorem FromOpen.lsn_lt {pre mid post : List Action} {rec rec' : WalRecord}
    {lsn lsn' : Nat} (hrun : FromOpen cfg before
      (pre ++ .append rec (.ok lsn)
        :: (mid ++ .append rec' (.ok lsn') :: post)) disk m)
    (hne : rec'.isEmpty = false) : lsn < lsn' := by
  have hrun' : FromOpen cfg before
      ((pre ++ .append rec (.ok lsn) :: mid)
        ++ .append rec' (.ok lsn') :: post) disk m := by
    rw [List.append_assoc]
    exact hrun
  rw [FromOpen.lsn_eq hrun, FromOpen.lsn_eq hrun']
  simp only [acceptedIn_append, acceptedIn_singleton, accepted_ok hne,
    logBytes_append, List.length_append, logBytes_singleton]
  have hpos := recordBytes_length_pos rec'
  have hcons : acceptedIn (.append rec (.ok lsn) :: mid)
      = (Action.append rec (.ok lsn)).accepted ++ acceptedIn mid := by
    rw [← acceptedIn_singleton, ← acceptedIn_append]
    rfl
  rw [hcons, logBytes_append, List.length_append]
  omega

/-- What ends within the files is in them: two prefixes of the stream, the
record's end being the shorter one. -/
theorem FromOpen.within (hrun : FromOpen cfg before as disk m)
    {pre post : List Action} {rec : WalRecord} {lsn : Nat}
    (has : as = pre ++ .append rec (.ok lsn) :: post)
    (hne : rec.isEmpty = false)
    (hle : lsn ≤ (fileBytes (disk.drop before.length)).length) :
    logBytes (acceptedIn pre ++ [rec])
      <+: fileBytes (disk.drop before.length) := by
  obtain ⟨log, hand, rest, hacc, -, h⟩ := FromOpen.sim hrun
  have hfiles : fileBytes (disk.drop before.length)
      <+: logBytes (acceptedIn as) := by
    rw [← hacc, ← h.stream, List.append_assoc]
    exact List.prefix_append _ _
  have hrecord : logBytes (acceptedIn pre ++ [rec])
      <+: logBytes (acceptedIn as) := by
    have hcons : acceptedIn as
        = (acceptedIn pre ++ [rec]) ++ acceptedIn post := by
      rw [has, ← accepted_ok hne lsn, ← acceptedIn_singleton,
        ← acceptedIn_append, ← acceptedIn_append, List.append_assoc]
      rfl
    rw [hcons, logBytes_append _ (acceptedIn post)]
    exact List.prefix_append _ _
  refine List.prefix_of_prefix_length_le hrecord hfiles ?_
  subst has
  rw [← hrun.offset hne]
  exact hle

/-- `close` returns to a flusher that has exited. -/
private theorem step_closeReturn {s s' : Disk × Machine}
    (hs : step cfg .closeReturn s = some s') :
    s' = s ∧ s.2.pc = .exited := by
  simp only [step] at hs
  split at hs
  · rename_i hcond
    cases hs
    exact ⟨rfl, hcond.1⟩
  · cases hs

/-- Behind it the files hold everything: nothing is in hand any more, and the
buffer is empty. -/
theorem FromOpen.closed_whole (hrun : FromOpen cfg before as disk m)
    (hmem : .closeReturn ∈ as) :
    fileBytes (disk.drop before.length) = logBytes (acceptedIn as) := by
  obtain ⟨log, hand, rest, hacc, -, h⟩ := FromOpen.sim hrun
  have hexited : m.pc = .exited := by
    obtain ⟨pre, post, rfl⟩ := List.append_of_mem hmem
    obtain ⟨s₁, -, hrest⟩ := Run.split hrun
    obtain ⟨s₂, hs, hpost⟩ := hrest.uncons
    obtain ⟨rfl, hpc⟩ := step_closeReturn hs
    exact exited_run hpc hpost
  have hclosing : Closing m := Closing.run (Closing.start _ _) hrun
  obtain ⟨-, hbuf⟩ := hclosing.ended (by rw [hexited]; rfl)
  have hhand : m.hand = [] := by
    rw [Machine.hand, hexited]
    simp only
    rw [h.swept (by rw [hexited]; rfl)]
    rfl
  have hstream := h.stream
  rw [hacc, hhand, hbuf, List.append_nil, List.append_nil] at hstream
  exact hstream

/-- And nothing more is accepted. -/
theorem FromOpen.closed_nothing {pre post : List Action}
    (hrun : FromOpen cfg before (pre ++ .closeReturn :: post) disk m) :
    acceptedIn post = [] := by
  obtain ⟨s₁, hpre, hrest⟩ := Run.split hrun
  obtain ⟨s₂, hs, hpost⟩ := hrest.uncons
  obtain ⟨rfl, hpc⟩ := step_closeReturn hs
  have hclosing : Closing s₂.2 := Closing.run (Closing.start _ _) hpre
  exact (Closing.closed_run
    (hclosing.ended (by rw [hpc]; rfl)).1 hpost).2

/-- In every run from `Wal::open`: the files created since (with ids that
count up from the first), the batch in hand and the buffer hold the accepted
records in order; the LSN of a record is the offset behind it, so LSNs
increase; between two writes every file is whole records; what is published
is in the files, and so is every record whose LSN was waited for; after
`close` has returned the files hold everything, and nothing more is
accepted.

All of it is read off the log behind the run. A record whose LSN is within
the files is a prefix of the stream that is no longer than the part of it in
the files, so it lies in that part. -/
theorem pipeline (hrun : FromOpen cfg before as disk m) :
    let files := disk.drop before.length
    files.map LogFile.id = List.range' (firstId before) files.length
    ∧ fileBytes files ++ m.hand ++ m.shared.buffer.buf
      = logBytes (acceptedIn as)
    ∧ (∀ pre rec lsn post, as = pre ++ .append rec (.ok lsn) :: post →
        rec.isEmpty = false →
        lsn = (logBytes (acceptedIn pre ++ [rec])).length)
    ∧ (∀ pre rec lsn mid rec' lsn' post,
        as = pre ++ .append rec (.ok lsn)
          :: (mid ++ .append rec' (.ok lsn') :: post) →
        rec'.isEmpty = false → lsn < lsn')
    ∧ ((∀ end_ done, m.pc ≠ .write end_ done) →
        ∃ parts : List (List WalRecord),
          files.map LogFile.bytes = parts.map logBytes
          ∧ parts.flatten <+: acceptedIn as)
    ∧ m.shared.written ≤ (fileBytes files).length
    ∧ (∀ pre rec lsn post lsn',
        as = pre ++ .append rec (.ok lsn) :: post →
        rec.isEmpty = false → .waitReturn lsn' ∈ as → lsn ≤ lsn' →
        logBytes (acceptedIn pre ++ [rec]) <+: fileBytes files)
    ∧ (.closeReturn ∈ as → fileBytes files = logBytes (acceptedIn as))
    ∧ ∀ pre post, as = pre ++ .closeReturn :: post →
        acceptedIn post = [] := by
  intro files
  obtain ⟨log, hand, rest, hacc, hfirst, h⟩ := FromOpen.sim hrun
  have hwritten : m.shared.written ≤ (fileBytes files).length := by
    rw [h.written, h.fileBytes_eq, List.length_append]
    exact Nat.le_trans h.sound (Nat.le_add_right _ _)
  refine ⟨?_, ?_, ?_, ?_, ?_, hwritten, ?_, hrun.closed_whole, ?_⟩
  · have hlen : files.length = log.closed.length + 1 + m.pc.fresh := by
      have := h.size
      rw [List.length_drop]
      omega
    rw [List.map_drop, h.ids, hfirst, hlen]
  · rw [← hacc]
    exact h.stream
  · rintro pre rec lsn post rfl hne
    exact hrun.offset hne
  · rintro pre rec lsn mid rec' lsn' post rfl hne
    exact hrun.lsn_lt hne
  · intro hpc
    obtain ⟨parts, hparts, hflat⟩ := h.files_whole (by
      cases hm : m.pc <;> first | rfl | exact absurd hm (hpc _ _))
    refine ⟨parts, hparts, ?_⟩
    rw [hflat, ← hacc]
    exact List.prefix_append _ _
  · rintro pre rec lsn post lsn' has hne hwait hle
    exact hrun.within has hne
      (Nat.le_trans hle (Nat.le_trans (wait_le hrun hwait) hwritten))
  · rintro pre post rfl
    exact hrun.closed_nothing

/-- A record appended, written in two pieces and waited for; then
`close`. -/
theorem pipeline_once :
    let rec₀ : WalRecord := ⟨[], [⟨7, [⟨1, 2⟩]⟩]⟩
    let as : List Action :=
      [.append rec₀ (.ok 45), .flusher 0, .flusher 0, .flusher 0, .flusher 0,
        .flusher 40, .flusher 40, .flusher 0, .flusher 0, .waitReturn 45,
        .flusher 0, .close, .flusher 0, .flusher 0, .flusher 0, .flusher 0,
        .syncer true, .closeReturn]
    ∃ disk m, FromOpen ⟨1000, 10⟩ [] as disk m
      ∧ fileBytes disk = logBytes (acceptedIn as)
      ∧ logBytes [rec₀] <+: fileBytes disk := by
  intro rec₀ as
  have hsome : (exec (step ⟨1000, 10⟩) as
      (opened [])).isSome = true := by
    decide +kernel
  obtain ⟨⟨disk, m⟩, hexec⟩ := Option.isSome_iff_exists.mp hsome
  have hrun : FromOpen ⟨1000, 10⟩ [] as disk m := Run.of_exec hexec
  obtain ⟨-, -, -, -, -, -, hwait, hclose, -⟩ := pipeline hrun
  exact ⟨disk, m, hrun, hclose (by decide), hwait [] rec₀ 45 _ 45 rfl rfl
    (by decide) (Nat.le_refl _)⟩

end Runs

end Tsdb.Wal
