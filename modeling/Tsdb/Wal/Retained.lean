/-
The retained log: the records of the files that are still there, of the
batch in hand and of the buffer, in the order they were accepted
(`Log.recs`).

# What becomes of it

An append adds its record, a removal takes files off it, and nothing else
changes it (`Journal.step`, `Journal.removeFile`): a record that is taken,
written, or closed with its segment is only elsewhere. A removal up to a
cut that has all of it leaves nothing (`Journal.cleared`).

# Flags and parts

A log is a list of parts, one for each file and what is pending behind the
last, and a directory a list of flags, set for the files it names.
`retained` keeps the parts whose flag is set. Its lemmas are inductions
over the two lists and say all that the journal needs: flags behind the
last part do not matter, fewer flags keep a sublist, and from a file on
that is named every part counts, which is what makes a move of the log
invisible (`retained_move`): moves happen behind the active segment, and
that is never removed.

# The old files

Files that `Wal::open` found stand in front of those it creates. They are
never written to, so each keeps its part for as long as it is named
(`OldFiles`).

# The journal

`Journal` is the invariant of an open log, the conjunction of those proved
so far: the simulation, the cut, the removal, the closing, the lists of
`Tsdb.Wal.Clearing`, and the old files. Each has a step lemma of its own,
and `Journal.step` calls them one after the other. What the database knows
of its log it knows from this.
-/
import Tsdb.Wal.Clearing

namespace Tsdb.Wal

open Lib (Ascending Run exec)

-- ============================================================ flags and parts

/-- The records of the parts whose flag is set. -/
def retained : List Bool → List (List WalRecord) → List WalRecord
  | true :: flags, part :: parts => part ++ retained flags parts
  | false :: flags, _ :: parts => retained flags parts
  | _, _ => []

section Retained

variable {flags flags' more : List Bool} {parts parts' : List (List WalRecord)}

@[simp] theorem retained_nil_left (parts : List (List WalRecord)) :
    retained [] parts = [] := by
  unfold retained
  rfl

@[simp] theorem retained_nil (flags : List Bool) :
    retained flags [] = [] := by
  cases flags with
  | nil => rfl
  | cons b flags => cases b <;> rfl

theorem retained_append (hlen : flags.length = parts.length) :
    retained (flags ++ flags') (parts ++ parts')
      = retained flags parts ++ retained flags' parts' := by
  induction flags generalizing parts with
  | nil =>
      cases parts with
      | nil => rfl
      | cons part parts => cases hlen
  | cons b flags ih =>
      cases parts with
      | nil => cases hlen
      | cons part parts =>
          have hrest := ih (Nat.succ.inj hlen)
          cases b with
          | true =>
              show part ++ retained (flags ++ flags') (parts ++ parts') = _
              rw [hrest, ← List.append_assoc]
              rfl
          | false => exact hrest

/-- Flags behind the last part do not matter. -/
theorem retained_more (hlen : parts.length ≤ flags.length)
    (more : List Bool) :
    retained (flags ++ more) parts = retained flags parts := by
  induction parts generalizing flags with
  | nil => simp
  | cons part parts ih =>
      cases flags with
      | nil => cases hlen
      | cons b flags =>
          have hrest := ih (Nat.le_of_succ_le_succ hlen)
          cases b with
          | true => exact congrArg (part ++ ·) hrest
          | false => exact hrest

/-- With all flags set, every part counts. -/
theorem retained_all (hall : ∀ b ∈ flags, b = true)
    (hlen : parts.length ≤ flags.length) :
    retained flags parts = parts.flatten := by
  induction parts generalizing flags with
  | nil => simp
  | cons part parts ih =>
      cases flags with
      | nil => cases hlen
      | cons b flags =>
          rw [hall b List.mem_cons_self]
          exact congrArg (part ++ ·)
            (ih (fun b hb => hall b (List.mem_cons_of_mem _ hb))
              (Nat.le_of_succ_le_succ hlen))

/-- With fewer flags set, fewer records are left. -/
theorem retained_sublist
    (h : List.Forall₂ (fun b' b : Bool => b' = true → b = true) flags' flags)
    (parts : List (List WalRecord)) :
    (retained flags' parts).Sublist (retained flags parts) := by
  induction h generalizing parts with
  | nil => exact .refl _
  | @cons b' b flags' flags hb _ ih =>
      cases parts with
      | nil => simp
      | cons part parts =>
          have hrest := ih parts
          cases b' with
          | true =>
              rw [hb rfl]
              exact (List.Sublist.refl part).append hrest
          | false =>
              cases b with
              | true => exact hrest.trans (List.sublist_append_right _ _)
              | false => exact hrest

/-- From a point on where all flags are set, every part counts. -/
theorem retained_open {closed : List (List WalRecord)}
    (hlen : closed.length + parts.length ≤ flags.length)
    (hopen : ∀ b ∈ flags.drop closed.length, b = true) :
    retained flags (closed ++ parts)
      = retained (flags.take closed.length) closed ++ parts.flatten := by
  have htake : (flags.take closed.length).length = closed.length := by
    rw [List.length_take]
    omega
  conv_lhs => rw [← List.take_append_drop closed.length flags]
  rw [retained_append htake, retained_all hopen]
  rw [List.length_drop]
  omega

/-- Nothing is left where no part with its flag set has a record. -/
theorem retained_eq_nil (h : ∀ (i : Nat) (part : List WalRecord),
    flags[i]? = some true → parts[i]? = some part → part = []) :
    retained flags parts = [] := by
  induction flags generalizing parts with
  | nil => simp
  | cons b flags ih =>
      cases parts with
      | nil => simp
      | cons part parts =>
          have hrest : retained flags parts = [] :=
            ih fun i part hi hpart => h (i + 1) part hi hpart
          cases b with
          | true =>
              have hpart := h 0 part rfl rfl
              show part ++ retained flags parts = []
              rw [hpart, hrest]
              rfl
          | false => exact hrest

end Retained

namespace Log

variable {log log' : Log} {flags : List Bool} {mv : Move}

/-- The records of a log, by segment; what is pending is to follow what is
in the active one. -/
def parts (log : Log) : List (List WalRecord) :=
  log.closed ++ [log.active ++ log.pending]

/-- A move that accepts a record adds it, and no other changes what is
retained. The flags in front of the active segment meet the same closed
parts on both sides; from there on every flag is set, so what is retained is
the concatenation, which a move only divides in another way. -/
theorem retained_move (h : move mv log = some log')
    (hlen : log'.closed.length + 1 ≤ flags.length)
    (hopen : ∀ b ∈ flags.drop log.closed.length, b = true) :
    retained flags log'.parts = retained flags log.parts ++ appended [mv] := by
  have hold : log.closed.length ≤ log'.closed.length :=
    (closed_move h).length_le
  have hbefore : retained flags log.parts
      = retained (flags.take log.closed.length) log.closed
        ++ (log.active ++ log.pending) := by
    unfold parts
    rw [retained_open _ hopen, List.flatten_singleton]
    show log.closed.length + 1 ≤ _
    omega
  rw [hbefore, List.append_assoc]
  -- what was in front of the active segment stays where it is
  cases mv with
  | append rec =>
      cases h
      unfold parts
      rw [retained_open hlen hopen, List.flatten_singleton]
      simp [appended]
  | write n =>
      cases h
      unfold parts
      rw [retained_open hlen hopen, List.flatten_singleton]
      simp [appended]
  | rotate =>
      cases h
      unfold parts
      rw [List.append_assoc, retained_open _ hopen]
      · simp [appended]
      · rw [List.length_append] at hlen
        exact hlen
  | publish lsn =>
      simp only [move] at h
      split at h
      · cases h
        unfold parts
        rw [retained_open hlen hopen, List.flatten_singleton]
        simp [appended]
      · cases h

theorem retained_exec {mvs : List Move} (h : exec move mvs log = some log')
    (hlen : log'.closed.length + 1 ≤ flags.length)
    (hopen : ∀ b ∈ flags.drop log.closed.length, b = true) :
    retained flags log'.parts
      = retained flags log.parts ++ appended mvs := by
  induction mvs generalizing log with
  | nil =>
      cases h
      exact (List.append_nil _).symm
  | cons mv mvs ih =>
      obtain ⟨log₁, hmv, hrest⟩ := Option.bind_eq_some_iff.mp h
      have hfirst := (closed_move hmv).length_le
      have hlast := (exec_closed hrest).length_le
      have happ : appended (mv :: mvs) = appended [mv] ++ appended mvs :=
        appended_append [mv] mvs
      rw [ih hrest, retained_move hmv (by omega) hopen, happ,
        List.append_assoc]
      intro b hb
      refine hopen b ?_
      exact (List.drop_subset_drop_left flags hfirst) hb

/-- With all that was accepted in the segments up to `c`, there is nothing
behind them. -/
theorem behind_through {c : Nat} (h : log.through c = log.accepted) :
    (log.closed.drop (c + 1 - log.first)).flatten = []
      ∧ log.active = [] ∧ log.pending = [] := by
  have hsplit : log.accepted = log.through c
      ++ ((log.closed.drop (c + 1 - log.first)).flatten
        ++ (log.active ++ log.pending)) := by
    unfold accepted flushed through
    conv_lhs => rw [← List.take_append_drop (c + 1 - log.first) log.closed]
    rw [List.flatten_append]
    simp only [List.append_assoc]
  rw [h, List.self_eq_append_right, List.append_eq_nil_iff,
    List.append_eq_nil_iff] at hsplit
  exact hsplit

end Log

-- ============================================================== the old files

/-- Files found by `Wal::open`, whole and below the id `first`, with the
records of each that is named. -/
structure OldFiles (first : Nat) (files : List LogFile)
    (old : List (List WalRecord)) : Prop where
  whole : List.Forall₂ (fun (f : LogFile) part =>
    f.linked = true → Whole f.bytes part) files old
  asc : Ascending LogFile.id (files.filter LogFile.linked)
  below : ∀ f ∈ files, f.linked = true → f.id < first

/-- So they are when some are removed. -/
theorem OldFiles.still {first : Nat} {files files' : List LogFile}
    {old : List (List WalRecord)} (h : OldFiles first files old)
    (hstill : Still files' files) : OldFiles first files' old where
  whole := by
    have hwhole := h.whole
    clear h
    induction hstill generalizing old with
    | nil =>
        cases hwhole
        exact .nil
    | cons hf _ ih =>
        cases hwhole with
        | cons hw hrest =>
            refine .cons (fun hlinked => ?_) (ih hrest)
            rw [hf.bytes]
            exact hw (hf.linked hlinked)
  asc := by
    have hasc : ((files.filter LogFile.linked).map LogFile.id).Pairwise
        (· < ·) := List.pairwise_map.mpr h.asc
    exact List.pairwise_map.mp (hasc.sublist hstill.ids)
  below := by
    have hbelow := h.below
    clear h
    induction hstill with
    | nil => exact hbelow
    | @cons f' f files' files hf _ ih =>
        intro g hg hlinked
        rcases List.mem_cons.mp hg with rfl | hg
        · rw [hf.id]
          exact hbelow f List.mem_cons_self (hf.linked hlinked)
        · exact ih (fun f hf => hbelow f (List.mem_cons_of_mem _ hf)) g hg
            hlinked

-- ================================================================ the journal

variable {cfg : WalConfig} {old : List (List WalRecord)} {as : List Action}
  {log log' : Log} {hand rest : List WalRecord} {disk disk' : Disk}
  {m m' : Machine} {a : Action}

/-- The log of an open database: the old files, those created since, and
what is on its way to them. -/
structure Journal (old : List (List WalRecord)) (as : List Action)
    (log : Log) (hand rest : List WalRecord) (disk : Disk) (m : Machine) :
    Prop where
  sim : Sim old.length log hand rest disk m
  accepted : log.accepted = acceptedIn as
  cuts : CutInv as log m
  removal : RemovalInv old.length disk m
  closing : Closing m
  clearing : Clearing log.first disk m
  old : OldFiles log.first (disk.take old.length) old

/-- The retained log. -/
def Log.recs (log : Log) (old : List (List WalRecord)) (disk : Disk) :
    List WalRecord :=
  retained (disk.map LogFile.linked) (old ++ log.parts)

namespace Journal

/-- Ids count up behind the old files. -/
theorem id_at (h : Journal old as log hand rest disk m) {i : Nat}
    {f : LogFile} (hf : disk[old.length + i]? = some f) :
    f.id = log.first + i := by
  have hids := congrArg (fun ids : List Nat => ids[i]?) h.sim.ids
  have hlt : i < log.closed.length + 1 + m.pc.fresh := by
    have hsize := h.sim.size
    have hlt := (List.getElem?_eq_some_iff.mp hf).1
    omega
  simp only [List.getElem?_drop, List.getElem?_map, hf, Option.map_some,
    List.getElem?_range' hlt, Option.some.injEq] at hids
  omega

/-- The active segment and those above it are named. -/
theorem named (h : Journal old as log hand rest disk m) :
    ∀ b ∈ (disk.map LogFile.linked).drop (old.length + log.closed.length),
      b = true := by
  intro b hb
  obtain ⟨i, hi⟩ := List.mem_iff_getElem?.mp hb
  rw [List.getElem?_drop, List.getElem?_map, Option.map_eq_some_iff] at hi
  obtain ⟨f, hf, rfl⟩ := hi
  rw [Nat.add_assoc] at hf
  have hid := h.id_at hf
  by_contra hlinked
  have hentry :
      (f.id, f.linked) ∈ (disk.map LogFile.entry).drop old.length := by
    refine List.mem_iff_getElem?.mpr ⟨log.closed.length + i, ?_⟩
    rw [List.getElem?_drop, List.getElem?_map, hf]
    rfl
  have hlt := h.removal.kept _ hentry (by simpa using hlinked)
  have hactive := h.sim.activeSegment
  have hseg := h.sim.id
  unfold Log.activeId at hseg
  show False
  simp only at hlt
  omega

theorem base_le (h : Journal old as log hand rest disk m) :
    old.length + log.closed.length + 1 ≤ disk.length := by
  rw [h.sim.size]
  exact Nat.le_add_right _ _

/-- The records of the old files, and those of the others. -/
theorem recs_eq (h : Journal old as log hand rest disk m) (log' : Log) :
    log'.recs old disk
      = retained ((disk.map LogFile.linked).take old.length) old
        ++ retained ((disk.map LogFile.linked).drop old.length) log'.parts := by
  have hlen : ((disk.map LogFile.linked).take old.length).length
      = old.length := by
    have := h.base_le
    rw [List.length_take, List.length_map]
    omega
  unfold Log.recs
  conv_lhs => rw [← List.take_append_drop old.length (disk.map LogFile.linked)]
  exact retained_append hlen

/-- Any step but a removal: what it accepts is added. The log makes the
moves of the step, each of the joined invariants is kept by its own lemma,
and what is retained follows the moves, as the flags are the same, with one
more perhaps for a file that has just been created. -/
theorem step (h : Journal old as log hand rest disk m)
    (ha : ∀ j id, a ≠ .removeFile j id)
    (hs : Wal.step cfg a (disk, m) = some (disk', m')) :
    ∃ moves log' hand' rest', exec Log.move moves log = some log'
      ∧ Log.appended moves = a.accepted
      ∧ Journal old (as ++ [a]) log' hand' rest' disk' m'
      ∧ log'.recs old disk' = log.recs old disk ++ a.accepted := by
  obtain ⟨moves, log', hexec, happ, hand', rest', hsim'⟩ := h.sim.step hs
  have hgrows := Disk.Grows.of_step h.sim ha hs
  have hjournal : Journal old (as ++ [a]) log' hand' rest' disk' m' := by
    have hclearing := h.clearing.step h.sim h.removal hs
    refine ⟨hsim', ?_, h.cuts.step h.accepted h.sim hexec hsim' hs,
      h.removal.step h.sim hs, h.closing.step hs, ?_, ?_⟩
    · rw [Log.exec_accepted hexec, h.accepted, happ, acceptedIn_append,
        acceptedIn_singleton]
    · rw [Log.exec_first hexec]
      exact hclearing
    · rw [Log.exec_first hexec]
      exact h.old.still hgrows.old
  refine ⟨moves, log', hand', rest', hexec, happ, hjournal, ?_⟩
  -- the flags of the disk behind the step do for the log in front of it
  have hflags : log.recs old disk
      = retained (disk'.map LogFile.linked) (old ++ log.parts) := by
    unfold Log.recs
    rcases hgrows.flags with heq | heq
    · rw [heq]
    · rw [heq, retained_more]
      have := h.base_le
      unfold Log.parts
      rw [List.length_append, List.length_append, List.length_singleton,
        List.length_map]
      omega
  have hbase : old.length ≤ disk'.length := by
    have := hjournal.base_le
    omega
  -- the active segment and what is behind it are named
  have hopen : ∀ b ∈ ((disk'.map LogFile.linked).drop old.length).drop
      log.closed.length, b = true := by
    intro b hb
    rw [List.drop_drop] at hb
    rcases hgrows.flags with heq | heq
    · rw [heq] at hb
      exact h.named b hb
    · have := h.base_le
      rw [heq, List.drop_append_of_le_length (by rw [List.length_map]; omega),
        List.mem_append, List.mem_singleton] at hb
      exact hb.elim (h.named b) id
  rw [hflags]
  show log'.recs old disk' = log.recs old disk' ++ _
  rw [hjournal.recs_eq, hjournal.recs_eq, List.append_assoc, ← happ]
  congr 1
  refine Log.retained_exec hexec ?_ hopen
  have := hjournal.base_le
  rw [List.length_drop, List.length_map]
  omega

/-- A file below the active segment is removed. -/
theorem unlink (h : Journal old as log hand rest disk m) {id : Nat}
    (hid : id < m.shared.activeSegment)
    (hunlink : disk.unlink id = some disk') :
    Journal old as log hand rest disk' m
      ∧ (log.recs old disk').Sublist (log.recs old disk) := by
  have hstill := Still.unlink hunlink
  refine ⟨⟨?_, h.accepted, h.cuts, ?_, h.closing, h.clearing.unlink hunlink,
    ?_⟩, ?_⟩
  · exact h.sim.frame (Disk.map_unlink hunlink fun _ => rfl)
      (Disk.map_unlink hunlink fun _ => rfl) rfl rfl rfl rfl rfl rfl rfl
  · refine { h.removal with kept := fun e he hlinked => ?_ }
    rcases Disk.mem_entry_unlink hunlink he with he | rfl
    · exact h.removal.kept e he hlinked
    · exact hid
  · exact h.old.still (List.forall₂_take _ hstill)
  · exact retained_sublist hstill.flags _

/-- So are any number of them. -/
theorem unlink_all (h : Journal old as log hand rest disk m)
    {removed : List Nat} (hids : ∀ id ∈ removed, id < m.shared.activeSegment)
    (hunlink : removed.foldlM Disk.unlink disk = some disk') :
    Journal old as log hand rest disk' m
      ∧ (log.recs old disk').Sublist (log.recs old disk) := by
  induction removed generalizing disk with
  | nil =>
      cases hunlink
      exact ⟨h, .refl _⟩
  | cons id removed ih =>
      obtain ⟨disk₁, hone, hrest⟩ := Option.bind_eq_some_iff.mp hunlink
      obtain ⟨h₁, hsub₁⟩ := h.unlink (hids id List.mem_cons_self) hone
      obtain ⟨h₂, hsub₂⟩ :=
        ih h₁ (fun j hj => hids j (List.mem_cons_of_mem _ hj)) hrest
      exact ⟨h₂, hsub₂.trans hsub₁⟩

/-- A removal takes its file off the log. -/
theorem removeFile (h : Journal old as log hand rest disk m) {j id : Nat}
    (hs : Wal.step cfg (.removeFile j id) (disk, m) = some (disk', m')) :
    Journal old (as ++ [.removeFile j id]) log hand rest disk' m'
      ∧ (log.recs old disk').Sublist (log.recs old disk) := by
  obtain ⟨hunlink, hid, hsim'⟩ : disk.unlink id = some disk'
      ∧ id < m.shared.activeSegment
      ∧ Sim old.length log hand rest disk' m' := by
    simp only [Wal.step] at hs
    split at hs
    · rename_i bound next todo removed hpc
      split at hs
      · rename_i hnext
        obtain ⟨d, hd, heq⟩ := Option.map_eq_some_iff.mp hs
        obtain ⟨rfl, rfl⟩ := Prod.mk.inj heq
        obtain ⟨hlt, hle⟩ := h.removal.todo j bound _ _ hpc
        have hbound := hle next List.mem_cons_self
        refine ⟨hd, by omega, ?_⟩
        exact h.sim.frame (Disk.map_unlink hd fun _ => rfl)
          (Disk.map_unlink hd fun _ => rfl) rfl rfl rfl rfl rfl rfl rfl
      · cases hs
    · cases hs
  obtain ⟨hgone, hsub⟩ := h.unlink hid hunlink
  have hexec : exec Log.move [] log = some log := rfl
  refine ⟨⟨hsim', ?_, h.cuts.step h.accepted h.sim hexec hsim' hs,
    h.removal.step h.sim hs, h.closing.step hs,
    h.clearing.step h.sim h.removal hs, hgone.old⟩, hsub⟩
  rw [h.accepted, acceptedIn_append, acceptedIn_singleton]
  exact (List.append_nil _).symm

/-- Once every file up to `c` is gone, and all was accepted in front of
that, nothing is left. -/
theorem cleared (h : Journal old as log hand rest disk m) {c : Nat}
    (hfirst : log.first ≤ c + 1) (hthrough : log.through c = log.accepted)
    (hgone : ∀ e ∈ disk.map LogFile.entry, e.2 = true → c < e.1) :
    log.recs old disk = [] := by
  obtain ⟨hclosed, hactive, hpending⟩ := Log.behind_through hthrough
  refine retained_eq_nil fun i part hi hpart => ?_
  rw [List.getElem?_map, Option.map_eq_some_iff] at hi
  obtain ⟨f, hf, hlinked⟩ := hi
  have hlt := hgone f.entry
    (List.mem_map_of_mem (List.mem_of_getElem? hf)) hlinked
  have hlt : c < f.id := hlt
  by_cases hold : i < old.length
  · have hbelow := h.old.below f
      (List.mem_of_getElem? (by rw [List.getElem?_take_of_lt hold]; exact hf))
      hlinked
    omega
  · obtain ⟨j, rfl⟩ := Nat.exists_eq_add_of_le (Nat.le_of_not_lt hold)
    rw [List.getElem?_append_right (Nat.le_add_right _ _),
      Nat.add_sub_cancel_left] at hpart
    have hid := h.id_at hf
    by_cases hj : j < log.closed.length
    · unfold Log.parts at hpart
      rw [List.getElem?_append_left hj] at hpart
      refine List.flatten_eq_nil_iff.mp hclosed part ?_
      refine List.mem_iff_getElem?.mpr ⟨j - (c + 1 - log.first), ?_⟩
      rw [List.getElem?_drop, ← hpart]
      congr 1
      omega
    · unfold Log.parts at hpart
      rw [List.getElem?_append_right (Nat.le_of_not_lt hj)] at hpart
      have := List.mem_of_getElem? hpart
      rw [List.mem_singleton.mp this, hactive, hpending]
      rfl

end Journal

end Tsdb.Wal
