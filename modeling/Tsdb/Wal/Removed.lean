/-
What a removal does to the files, and with it the guarantees of
`Wal::cut` (`separation`).

The calls of `remove_through` were explained by their actions in
`Removal.lean`: which files a call listed, in which state, and that it
asked for just these to be removed. Here the same is said of the files
themselves, over any interleaving with writers, rotations and other calls.

# A file in a run

`Sim.file_step` is the one case analysis. No step touches the id of a file
or shortens it (the flusher writes at the end of the active segment, which
is where `Sim` has its position), and none takes it out of the directory
but the `removeFile` that carries its id. By induction on the steps
(`FromOpen.file_run`) a file is in the directory at the end of a run if
and only if it was at the start and no call removed its id in between.

# A removed id

Ids are never used twice while the log is open: a removed id is below the
active segment when it goes, that only grows, and the file a rotation
creates has a greater id (`Retired`). So once a call has returned, no file
in the directory has an id it removed, whatever was created since.

# The guarantees

`separation` puts together what the other modules have: records accepted
before the request of a cut and after its return (`Separation.lean`),
what a call has listed and asked for (`Removal.lean`), and here that the
listed files are gone and all others are there with what was in them.
Against a system whose `remove_file` did nothing it would be false, and
so it would be if a file were taken that nobody listed.
-/
import Tsdb.Wal.Clearing

namespace Tsdb.Wal

open Lib (Run exec)

-- ==================================================== a file in a run

namespace Disk

/-- A write at the end of a file, from the files around it. -/
private theorem getElem?_writeEnd {disk : Disk} {file k : Nat} {f g : LogFile}
    (hf : disk[k]? = some f) (hg : disk[file]? = some g) (bs : Lib.Bytes) :
    ∃ f', (disk.write file g.bytes.length bs)[k]? = some f'
      ∧ f.bytes <+: f'.bytes := by
  rw [write]
  by_cases hk : file = k
  · subst hk
    obtain rfl := Option.some.inj (hf.symm.trans hg)
    rw [List.getElem?_modify_eq, hf]
    refine ⟨_, rfl, ?_⟩
    show f.bytes <+: f.bytes.take f.bytes.length ++ _ ++ bs ++ _
    rw [List.take_length, List.append_assoc, List.append_assoc]
    exact List.prefix_append _ _
  · rw [List.getElem?_modify_ne _ _ hk, hf]
    exact ⟨f, rfl, List.prefix_rfl⟩

private theorem getElem?_unlink {disk disk' : Disk} {id k : Nat} {f : LogFile}
    (h : disk.unlink id = some disk') (hf : disk[k]? = some f) :
    ∃ f', disk'[k]? = some f' ∧ f'.id = f.id ∧ f'.bytes = f.bytes
      ∧ (f'.linked = true ↔ f.linked = true ∧ f.id ≠ id) := by
  rw [unlink_eq h, List.getElem?_map, hf]
  refine ⟨_, rfl, ?_⟩
  by_cases hid : f.id = id
  · cases hl : f.linked <;> simp [hid, hl]
  · simp [hid]

/-- A file whose entry nobody touches. -/
private theorem Grows.entry {base next : Nat} {disk disk' : Disk}
    (h : disk.Grows base next disk') {k : Nat} {f : LogFile}
    (hf : disk[k]? = some f) : ∃ f', disk'[k]? = some f'
      ∧ f'.id = f.id ∧ f'.linked = f.linked := by
  have hat : (disk'.map LogFile.entry)[k]? = some f.entry := by
    have hold : (disk.map LogFile.entry)[k]? = some f.entry := by
      rw [List.getElem?_map, hf]
      rfl
    rcases h.entries with heq | heq
    · rw [heq]
      exact hold
    · rw [heq, List.getElem?_append_left
        (List.getElem?_eq_some_iff.mp hold).1]
      exact hold
  rw [List.getElem?_map, Option.map_eq_some_iff] at hat
  obtain ⟨f', hf', hentry⟩ := hat
  exact ⟨f', hf', congrArg Prod.fst hentry, congrArg Prod.snd hentry⟩

end Disk

namespace Sim

variable {cfg : WalConfig} {base : Nat} {log : Log}
  {hand rest : List WalRecord} {disk disk' : Disk} {m m' : Machine}
  {a : Action}

/-- The flusher writes at the end of the active segment. -/
private theorem active_end (h : Sim base log hand rest disk m)
    (hfresh : m.pc.fresh = 0) :
    ∃ g, disk[m.seg.file]? = some g
      ∧ g.bytes.length = m.seg.written + m.pc.done := by
  have hbytes := h.bytes
  rw [hfresh, List.replicate_zero] at hbytes
  have hat : (disk.map LogFile.bytes)[m.seg.file]?
      = some (logBytes log.active ++ m.spare.take m.pc.done) := by
    rw [h.file, ← List.getElem?_drop, hbytes,
      List.getElem?_append_right (by simp)]
    simp
  rw [List.getElem?_map, Option.map_eq_some_iff] at hat
  obtain ⟨g, hg, hgbytes⟩ := hat
  refine ⟨g, hg, ?_⟩
  have := h.inside
  rw [hgbytes, List.length_append, List.length_take, h.pos]
  omega

/-- A step writes at the end of a file or not at all. -/
private theorem bytes_step (h : Sim base log hand rest disk m)
    (hs : Wal.step cfg a (disk, m) = some (disk', m')) {k : Nat}
    {f : LogFile} (hf : disk[k]? = some f) :
    ∃ f', disk'[k]? = some f' ∧ f.bytes <+: f'.bytes := by
  have hsame : disk'.map LogFile.bytes = disk.map LogFile.bytes →
      ∃ f', disk'[k]? = some f' ∧ f.bytes <+: f'.bytes := by
    intro heq
    have hat := congrArg (·[k]?) heq
    simp only [List.getElem?_map, hf, Option.map_some] at hat
    obtain ⟨f', hf', hbytes⟩ := Option.map_eq_some_iff.mp hat
    exact ⟨f', hf', by rw [hbytes]⟩
  by_cases hflusher : ∃ n, a = .flusher n
  · obtain ⟨n, rfl⟩ := hflusher
    cases FlusherStep.of_step hs with
    | sync hpc => exact hsame (Disk.map_bytes_sync _ _)
    | finalSync hpc => exact hsame (Disk.map_bytes_sync _ _)
    | syncDir hpc => exact hsame (Disk.map_bytes_syncDir _)
    | create hpc hcreate =>
        obtain ⟨rfl, -⟩ := Disk.create_eq hcreate
        refine ⟨f, ?_, List.prefix_rfl⟩
        rw [List.getElem?_append_left (List.getElem?_eq_some_iff.mp hf).1]
        exact hf
    | chunk hpc hmore =>
        obtain ⟨g, hg, hend⟩ := h.active_end (by rw [hpc]; rfl)
        rw [hpc, FlusherPc.done] at hend
        rw [← hend]
        obtain ⟨f', hf', hbytes⟩ := Disk.getElem?_writeEnd hf hg _
        exact ⟨f', hf', hbytes⟩
    | _ => exact hsame rfl
  · obtain ⟨hkeeps, -, -⟩ := step_keeps (fun n hn => hflusher ⟨n, hn⟩) hs
    exact hsame hkeeps.bytes

/-- A step keeps a file's id and what is written in it, and takes it out
of the directory only by removing that id. -/
theorem file_step (h : Sim base log hand rest disk m)
    (hs : Wal.step cfg a (disk, m) = some (disk', m')) {k : Nat}
    {f : LogFile} (hf : disk[k]? = some f) :
    ∃ f', disk'[k]? = some f' ∧ f'.id = f.id ∧ f.bytes <+: f'.bytes
      ∧ (f'.linked = true
        ↔ f.linked = true ∧ ∀ j, a ≠ .removeFile j f.id) := by
  by_cases hfile : ∃ j id, a = .removeFile j id
  · obtain ⟨j, id, rfl⟩ := hfile
    obtain ⟨-, -, -, -, hunlink, -⟩ := step_removeFile hs
    obtain ⟨f', hf', hid, hbytes, hlinked⟩ :=
      Disk.getElem?_unlink hunlink hf
    refine ⟨f', hf', hid, by rw [hbytes], hlinked.trans ?_⟩
    refine and_congr_right fun _ => ⟨?_, ?_⟩
    · rintro hne i heq
      cases heq
      exact hne rfl
    · rintro hno rfl
      exact hno j rfl
  · have hno : ∀ j id, a ≠ .removeFile j id := fun j id h => hfile ⟨j, id, h⟩
    obtain ⟨f', hf', hid, hlinked⟩ := (Disk.Grows.of_step h hno hs).entry hf
    obtain ⟨_, hsame, hbytes⟩ := h.bytes_step hs hf
    cases hf'.symm.trans hsame
    refine ⟨f', hf', hid, hbytes, ?_⟩
    rw [hlinked]
    exact ⟨fun hl => ⟨hl, fun j => hno j f.id⟩, And.left⟩

end Sim

section Runs

variable {cfg : WalConfig} {before : Disk} {as : List Action} {disk : Disk}
  {m : Machine}

/-- What becomes of a file in a run: it keeps its id and what is written in
it, and it is in the directory until a call removes that id. -/
theorem FromOpen.file_run {t t' : List Action} {disk₁ : Disk} {m₁ : Machine}
    (hfrom : FromOpen cfg before t disk₁ m₁)
    (hrun : Run (step cfg) (disk₁, m₁) t' (disk, m)) {k : Nat}
    {f₁ : LogFile} (hf₁ : disk₁[k]? = some f₁) :
    ∃ f, disk[k]? = some f ∧ f.id = f₁.id ∧ f₁.bytes <+: f.bytes
      ∧ (f.linked = true
        ↔ f₁.linked = true ∧ ∀ j, .removeFile j f₁.id ∉ t') := by
  -- on the steps of the run; `Sim` holds wherever they start
  refine Run.invariant
    (P := fun t' s => ∃ f, s.1[k]? = some f ∧ f.id = f₁.id
      ∧ f₁.bytes <+: f.bytes
      ∧ (f.linked = true
        ↔ f₁.linked = true ∧ ∀ j, .removeFile j f₁.id ∉ t'))
    ⟨f₁, hf₁, rfl, List.prefix_rfl, by simp⟩ ?_ hrun
  rintro t' ⟨disk₂, m₂⟩ a ⟨disk₃, m₃⟩ hrun ⟨f, hf, hid, hbytes, hlinked⟩ hs
  obtain ⟨log, hand, rest, -, -, hsim⟩ := FromOpen.sim (hfrom.append hrun)
  obtain ⟨f', hf', hid', hbytes', hlinked'⟩ := hsim.file_step hs hf
  refine ⟨f', hf', hid'.trans hid, hbytes.trans hbytes', ?_⟩
  rw [hlinked', hlinked, hid, and_assoc, ← forall_and]
  refine and_congr_right fun _ => forall_congr' fun j => ?_
  rw [List.mem_append, List.mem_singleton, not_or, eq_comm]

-- ======================================================== a removed id

/-- A removed id is below the active segment, and no file in the directory
has it. -/
def Retired (as : List Action) (disk : Disk) (m : Machine) : Prop :=
  ∀ j id, .removeFile j id ∈ as → id < m.shared.activeSegment
    ∧ ∀ f ∈ disk, f.linked = true → f.id ≠ id

namespace Retired

variable {base : Nat} {log : Log} {hand rest : List WalRecord}
  {disk' : Disk} {m' : Machine} {a : Action}

/-- A removal takes every file of its id, and adds no other. -/
private theorem removeFile (h : Retired as disk m)
    (hrem : RemovalInv base disk m) {j id : Nat}
    (hs : Wal.step cfg (.removeFile j id) (disk, m) = some (disk', m')) :
    Retired (as ++ [.removeFile j id]) disk' m' := by
  obtain ⟨bound, todo, removed, hpc, hunlink, rfl⟩ := step_removeFile hs
  obtain ⟨hlt, hle⟩ := hrem.todo j bound _ _ hpc
  have hnamed : ∀ f ∈ disk', f.linked = true →
      f.id ≠ id ∧ ∃ g ∈ disk, g.linked = true ∧ g.id = f.id := by
    rw [Disk.unlink_eq hunlink]
    intro f hf hlinked
    obtain ⟨g, hg, rfl⟩ := List.mem_map.mp hf
    split at hlinked
    · cases hlinked
    · rename_i hkept
      rw [if_neg hkept]
      refine ⟨fun hid => hkept ?_, g, hg, hlinked, rfl⟩
      simp [hlinked, hid]
  intro i id' hmem
  rcases List.mem_append.mp hmem with hmem | hmem
  · obtain ⟨hid', hgone⟩ := h i id' hmem
    refine ⟨hid', fun f hf hlinked => ?_⟩
    obtain ⟨-, g, hg, hglinked, hgid⟩ := hnamed f hf hlinked
    exact hgid ▸ hgone g hg hglinked
  · cases List.mem_singleton.mp hmem
    exact ⟨Nat.lt_of_le_of_lt (hle id List.mem_cons_self) hlt,
      fun f hf hlinked => (hnamed f hf hlinked).1⟩

/-- Any other step may add a file, which has the id behind the active
one. -/
private theorem others (h : Retired as disk m)
    (hsim : Sim base log hand rest disk m)
    (ha : ∀ j id, a ≠ .removeFile j id)
    (hs : Wal.step cfg a (disk, m) = some (disk', m')) :
    Retired (as ++ [a]) disk' m' := by
  intro j id hmem
  have hold : .removeFile j id ∈ as := by
    rcases List.mem_append.mp hmem with hmem | hmem
    · exact hmem
    · exact absurd (List.mem_singleton.mp hmem).symm (ha j id)
  obtain ⟨hid, hgone⟩ := h j id hold
  refine ⟨Nat.lt_of_lt_of_le hid (active_mono hsim hs), fun f hf hlinked => ?_⟩
  have hentry : (f.id, true) ∈ disk.map LogFile.entry
      ∨ f.id = m.seg.id + 1 := by
    have hmem : (f.id, true) ∈ disk'.map LogFile.entry :=
      hlinked ▸ List.mem_map_of_mem (f := LogFile.entry) hf
    rcases (Disk.Grows.of_step hsim ha hs).entries with heq | heq
    · exact .inl (heq ▸ hmem)
    · rw [heq, List.mem_append, List.mem_singleton] at hmem
      exact hmem.imp_right (congrArg Prod.fst)
  rcases hentry with hentry | hnew
  · obtain ⟨g, hg, heq⟩ := List.mem_map.mp hentry
    have hgid : g.id = f.id := congrArg Prod.fst heq
    exact hgid ▸ hgone g hg (congrArg Prod.snd heq)
  · have := hsim.activeSegment
    omega

theorem run (hrun : FromOpen cfg before as disk m) : Retired as disk m := by
  refine Run.invariant (P := fun as s => Retired as s.1 s.2)
    (by intro j id hmem; cases hmem) ?_ hrun
  rintro as ⟨disk, m⟩ a ⟨disk', m'⟩ hrun h hs
  by_cases hfile : ∃ j id, a = .removeFile j id
  · obtain ⟨j, id, rfl⟩ := hfile
    exact h.removeFile (FromOpen.removal hrun) hs
  · obtain ⟨log, hand, rest, -, -, hsim⟩ := FromOpen.sim hrun
    exact h.others hsim (fun j id ha => hfile ⟨j, id, ha⟩) hs

end Retired

/-- What a call that returned has removed is in the directory no more,
neither under its own file nor under a later one. -/
theorem FromOpen.removed_gone {t t' : List Action} {j : Nat}
    {removed : List Nat}
    (hrun : FromOpen cfg before (t ++ .removeReturn j removed :: t') disk m) :
    ∀ f ∈ disk, f.linked = true → f.id ∉ removed := by
  obtain ⟨u, arg, bound, v, w, _, _, _, _, rfl, -, -, -, -, -, hw⟩ :=
    FromOpen.removed hrun
  intro f hf hlinked hmem
  have hasked : .removeFile j f.id ∈ w := by
    have : Action.removeFile j f.id ∈ removed.map (.removeFile j) :=
      List.mem_map_of_mem hmem
    rw [← hw] at this
    exact (List.mem_filter.mp this).1
  obtain ⟨-, hgone⟩ := Retired.run hrun j f.id (by simp [hasked])
  exact hgone f hf hlinked rfl

-- ======================================================== the guarantees

/-- In every run from `Wal::open`, when a cut has returned `c`: every
record accepted before the cut was requested lies in a segment up to `c`;
every record accepted after it returned lies, once it is in the files,
behind `c`; later cuts return more. A file that a call of
`remove_through` removes has an id up to what the call was asked for and
below the active id it read, so none of a record accepted after a cut
returned `c` goes when `c` is what is asked for; a call that returns has
removed what it found up to that bound and nothing else, and no file that
is there afterwards has one of these ids; every file keeps its id and what
is written in it, and stays in the directory until a call removes that id;
and the segment the flusher writes to is always there.

The records and the cuts are `Separation.lean`'s, over the ghost log that
`Sim` keeps beside the files. The calls are explained by their own actions
(`Asked`), and what those do to the files is said by `FromOpen.file_run`
and `Retired`, each an induction on the steps. -/
theorem separation (hrun : FromOpen cfg before as disk m) :
    let files := disk.drop before.length
    (∀ (t₁ t₂ t₃ pre post : List Action) (i c lsn : Nat) (rec : WalRecord),
      as = t₁ ++ .cutRequest i :: (t₂ ++ .cutReturn i c :: t₃) →
      (∀ c', .cutReturn i c' ∉ t₂) →
      t₁ = pre ++ .append rec (.ok lsn) :: post → rec.isEmpty = false →
      ∃ f, LiesIn files lsn rec f ∧ f.id ≤ c)
    ∧ (∀ (t pre post : List Action) (i c lsn : Nat) (rec : WalRecord),
        as = t ++ .cutReturn i c :: (pre ++ .append rec (.ok lsn) :: post) →
        rec.isEmpty = false →
        (lsn ≤ (fileBytes files).length → ∃ f, LiesIn files lsn rec f)
        ∧ ∀ f, LiesIn files lsn rec f → c < f.id)
    ∧ (∀ (t₁ t₂ t₃ : List Action) (i j c c' : Nat),
        as = t₁ ++ .cutReturn i c :: (t₂ ++ .cutReturn j c' :: t₃) → c < c')
    ∧ (∀ (t pre post u v w : List Action) (i j c lsn bound id : Nat)
          (rec : WalRecord) (f : LogFile),
        as = t ++ .cutReturn i c :: (pre ++ .append rec (.ok lsn) :: post) →
        rec.isEmpty = false →
        as = u ++ .removeBound j c bound :: (v ++ .removeFile j id :: w) →
        (∀ arg' bound', .removeBound j arg' bound' ∉ v) →
        LiesIn files lsn rec f → f.id ≠ id)
    ∧ (∀ (t t' : List Action) (j id : Nat), as = t ++ .removeFile j id :: t' →
        ∃ u arg bound v disk₁ m₁, t = u ++ .removeBound j arg bound :: v
          ∧ (∀ arg' bound', .removeBound j arg' bound' ∉ v)
          ∧ FromOpen cfg before u disk₁ m₁
          ∧ bound = min arg (m₁.shared.activeSegment - 1) ∧ id ≤ bound)
    ∧ (∀ (t t' : List Action) (j : Nat) (removed : List Nat),
        as = t ++ .removeReturn j removed :: t' →
        ∃ u arg bound v w disk₁ m₁ disk₂ m₂,
          t = u ++ .removeBound j arg bound
            :: (v ++ .removeList j removed :: w)
          ∧ FromOpen cfg before u disk₁ m₁
          ∧ bound = min arg (m₁.shared.activeSegment - 1)
          ∧ FromOpen cfg before (u ++ .removeBound j arg bound :: v) disk₂ m₂
          ∧ removed
            = ((list disk₂.dir).map SegmentFile.id).filter (· ≤ bound)
          ∧ (∀ a ∈ v, a.remover ≠ some j)
          ∧ w.filter (·.remover = some j) = removed.map (.removeFile j)
          ∧ ∀ f ∈ disk, f.linked = true → f.id ∉ removed)
    ∧ (∀ (t t' : List Action) (disk₁ : Disk) (m₁ : Machine) (k : Nat)
          (f₁ : LogFile),
        as = t ++ t' → FromOpen cfg before t disk₁ m₁ →
        disk₁[k]? = some f₁ →
        ∃ f, disk[k]? = some f ∧ f.id = f₁.id ∧ f₁.bytes <+: f.bytes
          ∧ (f.linked = true
            ↔ f₁.linked = true ∧ ∀ j, .removeFile j f₁.id ∉ t'))
    ∧ ∃ f, disk[m.seg.file]? = some f ∧ f.id = m.seg.id
        ∧ f.linked = true := by
  intro files
  refine ⟨?_, ?_, ?_, ?_, ?_, ?_, ?_, FromOpen.active_linked hrun⟩
  · rintro t₁ t₂ t₃ pre post i c lsn rec rfl hno hpre hne
    exact FromOpen.before_cut hno hpre hne hrun
  · rintro t pre post i c lsn rec rfl hne
    refine ⟨fun hle => ?_, fun f hf => FromOpen.after_cut hne hrun hf⟩
    have hcat : t ++ .cutReturn i c :: (pre ++ .append rec (.ok lsn) :: post)
        = (t ++ .cutReturn i c :: pre) ++ .append rec (.ok lsn) :: post := by
      simp
    rw [hcat] at hrun
    exact FromOpen.lies hne hrun hle
  · rintro t₁ t₂ t₃ i j c c' rfl
    exact FromOpen.cuts_increase hrun
  · rintro t pre post u v w i j c lsn bound id rec f rfl hne heq hno hf
    have hlt := FromOpen.after_cut hne hrun hf
    rw [heq] at hrun
    have hle := FromOpen.removes_le hno hrun
    omega
  · rintro t t' j id rfl
    exact FromOpen.removes hrun
  · rintro t t' j removed rfl
    obtain ⟨u, arg, bound, v, w, d₁, m₁, d₂, m₂, ht, hu, hbound, hv, hlisted,
      hothers, hw⟩ := FromOpen.removed hrun
    exact ⟨u, arg, bound, v, w, d₁, m₁, d₂, m₂, ht, hu, hbound, hv, hlisted,
      hothers, hw, FromOpen.removed_gone hrun⟩
  · rintro t t' disk₁ m₁ k f₁ rfl hfrom hf₁
    obtain ⟨s₁, ht, hrest⟩ := Run.split hrun
    cases Run.unique ht hfrom
    exact FromOpen.file_run hfrom hrest hf₁

/-- A record, a cut, another record, and the removal of the segment the cut
returned: its file is gone, and the other is there with the second record in
it. The run computes, but for the listing, which is sorted: of two files in
order it is what they are. -/
theorem separation_once :
    let rec₀ : WalRecord := ⟨[], [⟨7, [⟨1, 2⟩]⟩]⟩
    let rec₁ : WalRecord := ⟨[], [⟨7, [⟨2, 3⟩]⟩]⟩
    let as : List Action :=
      .cutLock 0 :: .append rec₀ (.ok 45) :: .cutRequest 0
        :: (List.replicate 18 (.flusher 50)
          ++ .cutReturn 0 1 :: .append rec₁ (.ok 90)
            :: (List.replicate 7 (.flusher 50) ++ [.removeBound 0 1 1]))
    ∃ disk m, FromOpen ⟨1000, 10⟩ []
        (as ++ [.removeList 0 [1], .removeFile 0 1, .removeReturn 0 [1]])
        disk m
      ∧ (∃ f, LiesIn disk 45 rec₀ f ∧ f.id ≤ 1)
      ∧ (∃ f, LiesIn disk 90 rec₁ f ∧ 1 < f.id)
      ∧ (∀ f ∈ disk, f.linked = true → f.id ≠ 1)
      ∧ ∃ f, disk[1]? = some f ∧ f.id = 2 ∧ recordBytes rec₁ <+: f.bytes
        ∧ f.linked = true := by
  intro rec₀ rec₁ as
  have hexec : ((exec (step ⟨1000, 10⟩) as (opened [])).map fun s =>
      (s.1.dir.map SegmentFile.id, s.2.removing 0, (s.1.unlink 1).isSome,
        (fileBytes s.1).length,
        s.1[1]?.any fun f =>
          f.id == 2 && f.bytes == recordBytes rec₁ && f.linked))
      = some ([1, 2], .bounded 1, true, 90, true) := by
    decide +kernel
  rw [Option.map_eq_some_iff] at hexec
  obtain ⟨⟨disk, m⟩, hexec, heq⟩ := hexec
  simp only [Prod.mk.injEq] at heq
  obtain ⟨hids, hpc, hunlink, hlen, hsecond⟩ := heq
  obtain ⟨disk', hdisk'⟩ := Option.isSome_iff_exists.mp hunlink
  -- the listing sees both files, in order
  have hlist : list disk.dir = disk.dir := by
    refine list_eq (List.Perm.refl _) (List.pairwise_map.mp ?_)
    rw [hids]
    decide
  let m₁ := m.setRemoving 0 (.removing 1 [1] [])
  let m₂ := m₁.setRemoving 0 (.removing 1 [] [1])
  have hstep₁ : step ⟨1000, 10⟩ (.removeList 0 [1]) (disk, m)
      = some (disk, m₁) := by
    simp only [step, hpc, hlist, hids]
    rfl
  have hstep₂ : step ⟨1000, 10⟩ (.removeFile 0 1) (disk, m₁)
      = some (disk', m₂) := by
    simp [step, m₁, m₂, Machine.setRemoving, hdisk']
  have hstep₃ : step ⟨1000, 10⟩ (.removeReturn 0 [1]) (disk', m₂)
      = some (disk', m₂.setRemoving 0 .idle) := by
    simp [step, m₂, Machine.setRemoving]
  have hrun : FromOpen ⟨1000, 10⟩ []
      (as ++ [.removeList 0 [1], .removeFile 0 1, .removeReturn 0 [1]])
      disk' (m₂.setRemoving 0 .idle) := by
    have hcalls : Run (step ⟨1000, 10⟩) (disk, m)
        [.removeList 0 [1], .removeFile 0 1, .removeReturn 0 [1]]
        (disk', m₂.setRemoving 0 .idle) :=
      .cons hstep₁ (.cons hstep₂ (.cons hstep₃ .nil))
    exact (Run.of_exec hexec).append hcalls
  obtain ⟨hbefore, hafter, -, -, -, hreturn, hfile, -⟩ := separation hrun
  refine ⟨disk', _, hrun, hbefore [.cutLock 0, .append rec₀ (.ok 45)]
    (List.replicate 18 (.flusher 50)) _ [.cutLock 0] [] 0 1 45 rec₀ rfl
    (by simp) rfl (by decide), ?_, ?_, ?_⟩
  · obtain ⟨hlies, hapart⟩ := hafter (.cutLock 0 :: .append rec₀ (.ok 45)
      :: .cutRequest 0 :: List.replicate 18 (.flusher 50)) [] _ 0 1 90 rec₁
      rfl (by decide)
    obtain ⟨f, hf⟩ := hlies (by
      show 90 ≤ (fileBytes disk').length
      rw [fileBytes, Disk.map_unlink hdisk' fun _ => rfl, ← fileBytes, hlen])
    exact ⟨f, hf, hapart f hf⟩
  · obtain ⟨_, _, _, _, _, _, _, _, _, -, -, -, -, -, -, -, hgone⟩ :=
      hreturn (as ++ [.removeList 0 [1], .removeFile 0 1]) [] 0 [1] (by simp)
    intro f hf hlinked hid
    exact hgone f hf hlinked (by rw [hid]; exact List.mem_cons_self)
  · obtain ⟨f₁, hf₁, heq⟩ := (Option.any_eq_true _ _).mp hsecond
    simp only [Bool.and_eq_true, beq_iff_eq] at heq
    obtain ⟨⟨hid, hbytes⟩, hlinked⟩ := heq
    obtain ⟨f, hf, hfid, hkept, hstays⟩ :=
      hfile as [.removeList 0 [1], .removeFile 0 1, .removeReturn 0 [1]]
        disk m 1 f₁ rfl (Run.of_exec hexec) hf₁
    refine ⟨f, hf, hfid.trans hid, hbytes ▸ hkept, hstays.mpr ⟨hlinked, ?_⟩⟩
    simp [hid]

end Runs

end Tsdb.Wal
