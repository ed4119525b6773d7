/-
What `remove_through` asks to be removed, and that it never asks for the
segment being written to. `Removed.lean` says what becomes of the files,
and collects the guarantees of `Wal::cut`.

# The bound

A call reads the id of the active segment once and stays below it. The id
only grows, so whatever is removed stays below the id of the active
segment (`RemovalInv`), and the file being written to has that id or the
next. `RemovalInv.step` goes through the steps: only `store` moves the
active id, and it moves it up; only the steps of a call touch a bound or a
list, and they keep to what the call has read. For the steps of everyone
else there is a frame (`step_others`): they move no call, and to the
entries of the directory they do nothing.

# The call

`Asked cfg before as j pc`: where the call of `j` stands is explained by
its own steps in the run: the bound it read and from which state, the
files it saw and in which state, and those of them it has removed. Calls
run side by side, so the run is cut at the steps of `j`
(`Action.remover`) and whatever others did stands in between
(`Asked.others`). Each step of `j` adds one piece to the explanation,
which is the case analysis of `Asked.step`; `Asked.run` is the induction,
for all callers at once.

What a run says about a removal (`FromOpen.removes`), or about a call that
returned (`FromOpen.removed`), is read off it. The explanation of a call
goes back to its last reading of a bound, and the run may be cut there in
one way only (`last_eq`); so the bound of a call is at most what it was
asked for (`FromOpen.removes_le`).
-/
import Tsdb.Wal.Separation

namespace Tsdb.Wal

open Lib (Run exec)

-- ============================================================== the bound

/-- What the directory says of a file: its name, and whether it is
there. -/
def LogFile.entry (f : LogFile) : Nat × Bool := (f.id, f.linked)

namespace Disk

/-- A `modify` of the bytes leaves the entries. -/
private theorem map_entry_modify (disk : Disk) (file : Nat)
    {f : LogFile → LogFile} (h : ∀ a, (f a).entry = a.entry) :
    (disk.modify file f).map LogFile.entry = disk.map LogFile.entry := by
  induction disk generalizing file with
  | nil => simp
  | cons a l ih =>
      cases file with
      | zero => simp [h]
      | succ file => simp [ih]

theorem map_entry_sync (disk : Disk) (file : Nat) :
    (disk.sync file).map LogFile.entry = disk.map LogFile.entry :=
  map_entry_modify disk file fun _ => rfl

theorem map_entry_write (disk : Disk) (file pos : Nat) (bs : Lib.Bytes) :
    (disk.write file pos bs).map LogFile.entry = disk.map LogFile.entry :=
  map_entry_modify disk file fun _ => rfl

theorem map_entry_syncDir (disk : Disk) :
    disk.syncDir.map LogFile.entry = disk.map LogFile.entry := by
  simp [syncDir, LogFile.entry]

/-- A removal changes the entry it names. -/
theorem mem_entry_unlink {disk disk' : Disk} {id base : Nat}
    {e : Nat × Bool} (h : disk.unlink id = some disk')
    (he : e ∈ (disk'.map LogFile.entry).drop base) :
    e ∈ (disk.map LogFile.entry).drop base ∨ e = (id, false) := by
  rw [unlink_eq h, ← List.map_drop, List.mem_map] at he
  obtain ⟨g, hg, rfl⟩ := he
  rw [← List.map_drop, List.mem_map] at hg
  obtain ⟨f, hf, rfl⟩ := hg
  split
  · rename_i hnamed
    simp only [Bool.and_eq_true, beq_iff_eq] at hnamed
    exact .inr (by rw [LogFile.entry, hnamed.2])
  · rw [← List.map_drop]
    exact .inl (List.mem_map_of_mem hf)

end Disk

/-- The call of `remove_through` an action belongs to. -/
def Action.remover : Action → Option Nat
  | .removeBound caller _ _ => some caller
  | .removeList caller _ => some caller
  | .removeFile caller _ => some caller
  | .removeFail caller _ => some caller
  | .removeReturn caller _ => some caller
  | _ => none

/-- Only these calls move calls, and but for them and the flusher nothing
happens to the files, except that they may be synced. -/
theorem step_others {cfg : WalConfig} {disk disk' : Disk} {m m' : Machine}
    {a : Action} (ha : ∀ n, a ≠ .flusher n) (hr : a.remover = none)
    (h : step cfg a (disk, m) = some (disk', m')) :
    m'.removing = m.removing
      ∧ (disk' = disk ∨ ∃ file, disk' = disk.sync file) := by
  cases a with
  | append rec result =>
      obtain ⟨-, -, rfl, rfl⟩ := step_append h
      exact ⟨rfl, .inl rfl⟩
  | flusher n => exact absurd rfl (ha n)
  | syncer =>
      cases hpc : m.syncer with
      | sync w file =>
          simp only [step, syncerStep, hpc] at h
          cases h
          exact ⟨rfl, .inr ⟨file, rfl⟩⟩
      | _ =>
          simp only [step, syncerStep, hpc] at h
          try split at h
          all_goals
            cases h
            try exact ⟨rfl, .inl rfl⟩
  | close =>
      simp only [step] at h
      cases h
      exact ⟨rfl, .inl rfl⟩
  | cutLock _ | cutRequest _ | cutReturn _ _ | waitReturn _ | closeReturn =>
      simp only [step] at h
      split at h <;> cases h
      exact ⟨rfl, .inl rfl⟩
  | _ => cases hr

/-- A call of `remove_through` takes the next file on its list. -/
theorem step_removeFile {cfg : WalConfig} {disk disk' : Disk}
    {m m' : Machine} {caller id : Nat}
    (hs : step cfg (.removeFile caller id) (disk, m) = some (disk', m')) :
    ∃ bound todo removed,
      m.removing caller = .removing bound (id :: todo) removed
        ∧ disk.unlink id = some disk'
        ∧ m' = m.setRemoving caller
          (.removing bound todo (removed ++ [id])) := by
  simp only [step] at hs
  split at hs
  · rename_i bound next todo removed hcall
    split at hs
    · rename_i hnext
      obtain ⟨d, hunlink, heq⟩ := Option.map_eq_some_iff.mp hs
      cases heq
      exact ⟨bound, todo, removed, hnext ▸ hcall, hunlink, rfl⟩
    · cases hs
  · cases hs

/-- Calls stay below the active segment, and so does what they removed. -/
structure RemovalInv (base : Nat) (disk : Disk) (m : Machine) : Prop where
  positive : 0 < m.shared.activeSegment
  bounded : ∀ j bound, m.removing j = .bounded bound →
    bound < m.shared.activeSegment
  todo : ∀ j bound todo removed, m.removing j = .removing bound todo removed →
    bound < m.shared.activeSegment ∧ ∀ id ∈ todo, id ≤ bound
  kept : ∀ e ∈ (disk.map LogFile.entry).drop base,
    e.2 = false → e.1 < m.shared.activeSegment

namespace RemovalInv

variable {cfg : WalConfig} {base : Nat} {log : Log}
  {hand rest : List WalRecord} {disk disk' : Disk} {m m' : Machine} {n : Nat}

theorem start (before : Disk) {id : Nat} (hid : 0 < id) :
    RemovalInv before.length (before ++ [{ id, durable := true }])
      (.start id before.length) where
  positive := hid
  bounded := by intro j bound hcase; cases hcase
  todo := by intro j bound todo removed hcase; cases hcase
  kept := by
    intro e he hlinked
    simp only [List.map_append, List.drop_append, List.length_map,
      Nat.sub_self, List.drop_zero, List.map_singleton] at he
    rw [List.drop_eq_nil_of_le (by simp), List.nil_append,
      List.mem_singleton] at he
    subst he
    cases hlinked

/-- A step that removes nothing, and is nobody's call. -/
theorem frame (h : RemovalInv base disk m)
    (hentries : ∀ e ∈ (disk'.map LogFile.entry).drop base,
      e ∈ (disk.map LogFile.entry).drop base ∨ e.2 = true)
    (hremoving : m'.removing = m.removing)
    (hactive : m.shared.activeSegment ≤ m'.shared.activeSegment) :
    RemovalInv base disk' m' where
  positive := Nat.lt_of_lt_of_le h.positive hactive
  bounded j bound hb :=
    Nat.lt_of_lt_of_le (h.bounded j bound (hremoving ▸ hb)) hactive
  todo j bound todo removed hr := by
    obtain ⟨hlt, hle⟩ := h.todo j bound todo removed (hremoving ▸ hr)
    exact ⟨Nat.lt_of_lt_of_le hlt hactive, hle⟩
  kept e he hlinked := by
    rcases hentries e he with he | he
    · exact Nat.lt_of_lt_of_le (h.kept e he hlinked) hactive
    · rw [hlinked] at he
      cases he

/-- The flusher removes nothing, and the active id grows. -/
private theorem flusher (h : RemovalInv base disk m)
    (hsim : Sim base log hand rest disk m)
    (hs : FlusherStep cfg n disk m disk' m') : RemovalInv base disk' m' := by
  have hsame : ∀ {d : Disk}, d.map LogFile.entry = disk.map LogFile.entry →
      ∀ e ∈ (d.map LogFile.entry).drop base,
        e ∈ (disk.map LogFile.entry).drop base ∨ e.2 = true :=
    fun heq e he => .inl (heq ▸ he)
  cases hs with
  | sync hpc =>
      exact h.frame (hsame (Disk.map_entry_sync _ _)) rfl (Nat.le_refl _)
  | finalSync hpc =>
      exact h.frame (hsame (Disk.map_entry_sync _ _)) rfl (Nat.le_refl _)
  | syncDir hpc =>
      exact h.frame (hsame (Disk.map_entry_syncDir _)) rfl (Nat.le_refl _)
  | chunk hpc hmore =>
      exact h.frame (hsame (Disk.map_entry_write _ _ _ _)) rfl (Nat.le_refl _)
  | create hpc hcreate =>
      obtain ⟨rfl, -⟩ := Disk.create_eq hcreate
      refine h.frame (fun e he => ?_) rfl (Nat.le_refl _)
      rw [List.map_append, List.drop_append, List.mem_append] at he
      refine he.imp id fun he => ?_
      rw [List.mem_singleton.mp (List.mem_of_mem_drop he)]
      rfl
  | @store why closed hpc =>
      refine h.frame (hsame rfl) rfl ?_
      have hid := hsim.rotated closed (by rw [hpc]; rfl)
      have hactive := hsim.activeSegment
      rw [hpc, FlusherPc.lagging, if_pos rfl] at hactive
      show _ ≤ closed + 1
      omega
  | _ => exact h.frame (hsame rfl) rfl (Nat.le_refl _)

/-- A call moves on, with a bound that is below the active segment. -/
private theorem call (h : RemovalInv base disk m) (j : Nat) (pc : RemovePc)
    (hbounded : ∀ bound, pc = .bounded bound →
      bound < m.shared.activeSegment)
    (htodo : ∀ bound todo removed, pc = .removing bound todo removed →
      bound < m.shared.activeSegment ∧ ∀ id ∈ todo, id ≤ bound) :
    RemovalInv base disk (m.setRemoving j pc) where
  positive := h.positive
  bounded i bound hb := by
    simp only [Machine.setRemoving] at hb
    split at hb
    · exact hbounded bound hb
    · exact h.bounded i bound hb
  todo i bound todo removed hr := by
    simp only [Machine.setRemoving] at hr
    split at hr
    · exact htodo bound todo removed hr
    · exact h.todo i bound todo removed hr
  kept := h.kept

/-- The bound is kept. A call that reads the active id keeps below it, its
list is cut at the bound, a removal takes the first id of a list, and the
active id never falls. -/
theorem step (h : RemovalInv base disk m)
    (hsim : Sim base log hand rest disk m) {a : Action}
    (hs : Wal.step cfg a (disk, m) = some (disk', m')) :
    RemovalInv base disk' m' := by
  cases a with
  | flusher n => exact h.flusher hsim (.of_step hs)
  | removeBound j id bound =>
      simp only [Wal.step] at hs
      split at hs <;> cases hs
      rename_i hcond
      refine h.call j _ ?_ (by intro bound todo removed hcase; cases hcase)
      intro _ hcase
      cases hcase
      have := h.positive
      omega
  | removeList j todo =>
      simp only [Wal.step] at hs
      split at hs
      · rename_i bound hpc
        split at hs <;> cases hs
        rename_i heq
        refine h.call j _ (by intro bound hcase; cases hcase) ?_
        intro _ _ _ hcase
        cases hcase
        refine ⟨h.bounded j bound hpc, fun id hid => ?_⟩
        rw [heq, List.mem_filter] at hid
        exact of_decide_eq_true hid.2
      · cases hs
  | removeFile j id =>
      obtain ⟨bound, todo, removed, hpc, hd, rfl⟩ := step_removeFile hs
      obtain ⟨hlt, hle⟩ := h.todo j bound _ _ hpc
      have hcall := h.call j (.removing bound todo (removed ++ [id]))
        (by intro bound hcase; cases hcase) (by
          intro _ _ _ hcase
          cases hcase
          exact ⟨hlt, fun id hid => hle id (List.mem_cons_of_mem _ hid)⟩)
      refine { hcall with kept := fun e he hlinked => ?_ }
      rcases Disk.mem_entry_unlink hd he with he | rfl
      · exact h.kept e he hlinked
      · exact Nat.lt_of_le_of_lt (hle id List.mem_cons_self) hlt
  | removeFail j id =>
      simp only [Wal.step] at hs
      split at hs
      · split at hs <;> cases hs
        exact h.call j _ (by intro bound hcase; cases hcase)
          (by intro bound todo removed hcase; cases hcase)
      · cases hs
  | removeReturn j removed =>
      simp only [Wal.step] at hs
      split at hs
      · split at hs <;> cases hs
        exact h.call j _ (by intro bound hcase; cases hcase)
          (by intro bound todo removed hcase; cases hcase)
      · cases hs
  | _ =>
      obtain ⟨hremoving, hdisk⟩ := step_others (by simp) rfl hs
      -- who is not in a call and not the flusher at most syncs
      have hentries : disk'.map LogFile.entry = disk.map LogFile.entry := by
        rcases hdisk with rfl | ⟨file, rfl⟩
        · rfl
        · exact Disk.map_entry_sync _ _
      refine h.frame (fun e he => .inl (hentries ▸ he)) hremoving ?_
      obtain ⟨hk, -, -⟩ := step_keeps (by simp) hs
      exact Nat.le_of_eq hk.activeSegment.symm

end RemovalInv

section Runs

variable {cfg : WalConfig} {before : Disk} {as : List Action} {disk : Disk}
  {m : Machine}

theorem firstId_pos (before : Disk) : 0 < firstId before := by
  unfold firstId nextId
  split <;> omega

theorem FromOpen.removal (hrun : FromOpen cfg before as disk m) :
    RemovalInv before.length disk m := by
  refine Run.invariant
    (P := fun _ s => RemovalInv before.length s.1 s.2)
    (.start before (firstId_pos before)) ?_ hrun
  rintro as ⟨disk, m⟩ a ⟨disk', m'⟩ hrun h hs
  obtain ⟨log, hand, rest, -, -, hsim⟩ := FromOpen.sim hrun
  exact h.step hsim hs

/-- The segment the flusher writes to is in the directory. -/
theorem FromOpen.active_linked (hrun : FromOpen cfg before as disk m) :
    ∃ f, disk[m.seg.file]? = some f ∧ f.id = m.seg.id ∧ f.linked = true := by
  have hinv := FromOpen.removal hrun
  obtain ⟨log, hand, rest, -, -, h⟩ := FromOpen.sim hrun
  have hlen : log.closed.length < (disk.drop before.length).length := by
    have := h.size
    rw [List.length_drop]
    omega
  obtain ⟨l, f, r, hfiles, hl⟩ :
      ∃ l f r, disk.drop before.length = l ++ f :: r
        ∧ l.length = log.closed.length :=
    ⟨_, _, _, by
      rw [List.getElem_cons_drop hlen, List.take_append_drop], by
      rw [List.length_take]
      omega⟩
  have hid : f.id = m.seg.id := by
    rw [h.id_eq hfiles, hl, h.id, Log.activeId]
  refine ⟨f, ?_, hid, ?_⟩
  · rw [h.file, ← List.getElem?_drop, hfiles, ← hl]
    simp
  · by_contra hlinked
    have hmem : f.entry ∈ (disk.map LogFile.entry).drop before.length := by
      rw [← List.map_drop, hfiles]
      simp
    have := hinv.kept f.entry hmem (by simpa [LogFile.entry] using hlinked)
    have hactive := h.activeSegment
    rw [LogFile.entry, hid] at this
    omega

end Runs

-- =============================================================== the call

/-- What a call of `remove_through` knows, and how it came to know it. -/
def Asked (cfg : WalConfig) (before : Disk) (as : List Action) (j : Nat) :
    RemovePc → Prop
  | .idle => True
  | .bounded bound => ∃ u id v disk m,
      as = u ++ .removeBound j id bound :: v
      ∧ (∀ a ∈ v, a.remover ≠ some j)
      ∧ FromOpen cfg before u disk m
      ∧ bound = min id (m.shared.activeSegment - 1)
  | .removing bound todo removed => ∃ u id v w disk m disk' m',
      as = u ++ .removeBound j id bound
        :: (v ++ .removeList j (removed ++ todo) :: w)
      ∧ (∀ a ∈ v, a.remover ≠ some j)
      ∧ w.filter (·.remover = some j) = removed.map (.removeFile j)
      ∧ FromOpen cfg before u disk m
      ∧ bound = min id (m.shared.activeSegment - 1)
      ∧ FromOpen cfg before (u ++ .removeBound j id bound :: v) disk' m'
      ∧ removed ++ todo
        = ((list disk'.dir).map SegmentFile.id).filter (· ≤ bound)

namespace Asked

variable {cfg : WalConfig} {before : Disk} {as : List Action} {j : Nat}
  {disk disk' : Disk} {m m' : Machine}

/-- Steps of others. -/
theorem others {pc : RemovePc} (h : Asked cfg before as j pc) {a : Action}
    (ha : a.remover ≠ some j) : Asked cfg before (as ++ [a]) j pc := by
  have hsnoc : ∀ {v : List Action}, (∀ b ∈ v, b.remover ≠ some j) →
      ∀ b ∈ v ++ [a], b.remover ≠ some j := by
    intro v hv b hb
    rcases List.mem_append.mp hb with hb | hb
    · exact hv b hb
    · rw [List.mem_singleton.mp hb]
      exact ha
  cases pc with
  | idle => exact trivial
  | bounded bound =>
      obtain ⟨u, id, v, d, n, rfl, hv, hrun, hbound⟩ := h
      exact ⟨u, id, v ++ [a], d, n, by simp, hsnoc hv, hrun, hbound⟩
  | removing bound todo removed =>
      obtain ⟨u, id, v, w, d, n, d', n', rfl, hv, hw, hrun, hbound, hrun',
        htodo⟩ := h
      refine ⟨u, id, v, w ++ [a], d, n, d', n', by simp, hv, ?_, hrun,
        hbound, hrun', htodo⟩
      rw [List.filter_append, hw, List.filter_singleton]
      simp [ha]

/-- Every call is explained by its own steps. A step of another call leaves
the explanation as it is, with the step among those of others; a step of `j`
adds what it did: the bound with the state it was read in, the list with the
state that was listed, or one more removal. -/
theorem step (hrun : FromOpen cfg before as disk m)
    (h : ∀ j, Asked cfg before as j (m.removing j)) {a : Action}
    (hs : Wal.step cfg a (disk, m) = some (disk', m')) (j : Nat) :
    Asked cfg before (as ++ [a]) j (m'.removing j) := by
  -- a step of another call is one of the others
  have hset : ∀ {i pc}, a.remover = some i →
      m'.removing = (m.setRemoving i pc).removing →
      Asked cfg before (as ++ [a]) i pc →
      Asked cfg before (as ++ [a]) j (m'.removing j) := by
    intro i pc ha heq hpc
    rw [heq, Machine.setRemoving]
    by_cases hj : j = i
    · subst hj
      simpa using hpc
    · simp only [if_neg hj]
      refine (h j).others ?_
      rw [ha, Ne, Option.some.injEq]
      exact fun he => hj he.symm
  cases a with
  | removeBound i id bound =>
      simp only [Wal.step] at hs
      split at hs <;> cases hs
      rename_i hcond
      exact hset rfl rfl ⟨as, id, [], disk, m, by simp, by simp, hrun, hcond.2⟩
  | removeList i todo =>
      simp only [Wal.step] at hs
      split at hs
      · rename_i bound hpc
        split at hs <;> cases hs
        rename_i heq
        have hi := h i
        rw [hpc] at hi
        obtain ⟨u, id, v, d, n, rfl, hv, hrun', hbound⟩ := hi
        exact hset rfl rfl ⟨u, id, v, [], d, n, disk, m, by simp, hv, rfl,
          hrun', hbound, hrun, heq⟩
      · cases hs
  | removeFile i id =>
      obtain ⟨bound, todo, removed, hpc, -, rfl⟩ := step_removeFile hs
      have hi := h i
      rw [hpc] at hi
      obtain ⟨u, id₀, v, w, d, n, d', n', rfl, hv, hw, hrun₁, hbound, hrun₂,
        htodo⟩ := hi
      refine hset rfl rfl ⟨u, id₀, v, w ++ [.removeFile i id], d, n, d',
        n', by simp, hv, ?_, hrun₁, hbound, hrun₂, by simpa using htodo⟩
      rw [List.filter_append, hw, List.map_append]
      simp [Action.remover]
  | removeFail i id =>
      simp only [Wal.step] at hs
      split at hs
      · split at hs <;> cases hs
        exact hset rfl rfl trivial
      · cases hs
  | removeReturn i removed =>
      simp only [Wal.step] at hs
      split at hs
      · split at hs <;> cases hs
        exact hset rfl rfl trivial
      · cases hs
  | flusher n =>
      have hs' : FlusherStep cfg n disk m disk' m' := .of_step hs
      have hremoving : m'.removing = m.removing := by cases hs' <;> rfl
      rw [hremoving]
      exact (h j).others (by simp [Action.remover])
  | _ =>
      obtain ⟨hremoving, -⟩ := step_others (by simp) rfl hs
      rw [hremoving]
      exact (h j).others (by simp [Action.remover])

theorem run (hrun : FromOpen cfg before as disk m) (j : Nat) :
    Asked cfg before as j (m.removing j) := by
  revert j
  refine Run.invariant
    (P := fun as s => ∀ j, Asked cfg before as j (s.2.removing j))
    (fun _ => ?_) (fun hrun h hs => step hrun h hs) hrun
  exact trivial

end Asked

-- ======================================================== the guarantees

section Runs

variable {cfg : WalConfig} {before : Disk} {as : List Action} {disk : Disk}
  {m : Machine}

/-- A removed file was named by a call that had read its bound. -/
theorem FromOpen.removes {t t' : List Action} {j id : Nat}
    (hrun : FromOpen cfg before (t ++ .removeFile j id :: t') disk m) :
    ∃ u arg bound v disk₁ m₁, t = u ++ .removeBound j arg bound :: v
      ∧ (∀ arg' bound', .removeBound j arg' bound' ∉ v)
      ∧ FromOpen cfg before u disk₁ m₁
      ∧ bound = min arg (m₁.shared.activeSegment - 1) ∧ id ≤ bound := by
  obtain ⟨s₁, ht, hrest⟩ := Run.split hrun
  obtain ⟨s₂, hs, -⟩ := hrest.uncons
  obtain ⟨bound, todo, removed, hpc, -, -⟩ := step_removeFile hs
  have hasked := Asked.run ht j
  rw [hpc] at hasked
  obtain ⟨u, arg, v, w, d, n, d', n', rfl, hv, hw, hrun₁, hbound, -, htodo⟩ :=
    hasked
  refine ⟨u, arg, bound, _, d, n, rfl, ?_, hrun₁, hbound, ?_⟩
  · -- neither before the listing nor after it
    intro arg' bound' hmem
    rcases List.mem_append.mp hmem with hmem | hmem
    · exact hv _ hmem rfl
    · rcases List.mem_cons.mp hmem with hmem | hmem
      · cases hmem
      · have : Action.removeBound j arg' bound'
            ∈ w.filter (·.remover = some j) := by
          rw [List.mem_filter]
          exact ⟨hmem, by simp [Action.remover]⟩
        rw [hw, List.mem_map] at this
        obtain ⟨_, -, hne⟩ := this
        cases hne
  · have hmem : id ∈ removed ++ id :: todo := by simp
    rw [htodo, List.mem_filter] at hmem
    exact of_decide_eq_true hmem.2

/-- A call that returns has removed what it listed, and it listed what was
there up to its bound. -/
theorem FromOpen.removed {t t' : List Action} {j : Nat} {removed : List Nat}
    (hrun : FromOpen cfg before (t ++ .removeReturn j removed :: t') disk m) :
    ∃ u arg bound v w disk₁ m₁ disk₂ m₂,
      t = u ++ .removeBound j arg bound :: (v ++ .removeList j removed :: w)
      ∧ FromOpen cfg before u disk₁ m₁
      ∧ bound = min arg (m₁.shared.activeSegment - 1)
      ∧ FromOpen cfg before (u ++ .removeBound j arg bound :: v) disk₂ m₂
      ∧ removed
        = ((list disk₂.dir).map SegmentFile.id).filter (· ≤ bound)
      ∧ (∀ a ∈ v, a.remover ≠ some j)
      ∧ w.filter (·.remover = some j) = removed.map (.removeFile j) := by
  obtain ⟨s₁, ht, hrest⟩ := Run.split hrun
  obtain ⟨s₂, hs, -⟩ := hrest.uncons
  have hasked := Asked.run ht j
  simp only [Wal.step] at hs
  split at hs
  · rename_i bound done hpc
    split at hs
    · rename_i hdone
      subst hdone
      rw [hpc] at hasked
      obtain ⟨u, arg, v, w, d, n, d', n', rfl, hv, hw, hrun₁, hbound, hrun₂,
        htodo⟩ := hasked
      rw [List.append_nil] at htodo
      exact ⟨u, arg, bound, v, w, d, n, d', n', by simp, hrun₁, hbound,
        hrun₂, htodo, hv, hw⟩
    · cases hs
  · cases hs

/-- Two ways to find the last element with a property. -/
private theorem last_eq {α : Type} (p : α → Bool)
    {u u' v v' : List α} {x x' : α} (heq : u ++ x :: v = u' ++ x' :: v')
    (hx : p x = true) (hx' : p x' = true) (hv : ∀ a ∈ v, p a = false)
    (hv' : ∀ a ∈ v', p a = false) : x = x' := by
  have hfind : ∀ {u v : List α} {x : α}, p x = true →
      (∀ a ∈ v, p a = false) → (u ++ x :: v).reverse.find? p = some x := by
    intro u v x hx hv
    have hnone : v.reverse.find? p = none := by
      rw [List.find?_eq_none]
      intro a ha
      simp [hv a (List.mem_reverse.mp ha)]
    rw [List.reverse_append, List.reverse_cons, List.append_assoc,
      List.find?_append, hnone]
    simp [hx]
  have h := hfind (u := u) hx hv
  rw [heq, hfind hx' hv', Option.some.injEq] at h
  exact h.symm

/-- The step in which a call of `j` reads its bound. -/
def Action.readsBound (j : Nat) : Action → Bool
  | .removeBound caller _ _ => caller == j
  | _ => false

theorem Action.readsBound_eq_false {j : Nat} {v : List Action}
    (hno : ∀ arg bound, .removeBound j arg bound ∉ v) :
    ∀ a ∈ v, a.readsBound j = false := by
  intro a ha
  cases a with
  | removeBound caller arg bound =>
      rw [readsBound, beq_eq_false_iff_ne]
      rintro rfl
      exact hno arg bound ha
  | _ => rfl

/-- A call removes nothing above what it was asked for. -/
theorem FromOpen.removes_le {u v w : List Action} {j arg bound id : Nat}
    (hno : ∀ arg' bound', .removeBound j arg' bound' ∉ v)
    (hrun : FromOpen cfg before
      (u ++ .removeBound j arg bound :: (v ++ .removeFile j id :: w))
      disk m) : id ≤ arg := by
  have hcat : u ++ .removeBound j arg bound :: (v ++ .removeFile j id :: w)
      = (u ++ .removeBound j arg bound :: v) ++ .removeFile j id :: w := by
    simp
  rw [hcat] at hrun
  obtain ⟨u', arg', bound', v', d, n, heq, hno', -, hbound, hle⟩ :=
    FromOpen.removes hrun
  have hsame := last_eq (Action.readsBound j) heq (beq_self_eq_true j)
    (beq_self_eq_true j) (Action.readsBound_eq_false hno)
    (Action.readsBound_eq_false hno')
  cases hsame
  omega

end Runs

end Tsdb.Wal
