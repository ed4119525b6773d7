/-
A call of the log that is under way can go on, whatever the flusher is in
the middle of.

A request for a cut is open until it is answered (`Awake`), and as long as
nobody closes the buffer the flusher gets nearer to the answer with every
step (`Journal.serve`): `Machine.away` counts them, if a `write` call
writes all it is given. A removal has listed files that are there, each
once (`Listed`), so it can remove them.

# The flusher

No step of the flusher waits for anybody. The one that could fail is the
creation of the next file, and its name is free because all names in the
directory are below it (`Journal.create_ok`); so with the buffer open
the flusher has a step in every state (`flusher_ok`).

`Machine.away` is a number for each place in the loop: with the buffer
empty, the steps to the answer; with something in it, a whole round more,
for the batch has to be written first. While a request is open each step
of the flusher lowers it or answers, which `serve` shows by the flusher's
transitions, one after the other. Appends raise it, so this is about the
flusher running by itself, and that is how the module is used: from any
state there is a continuation in which a call ends
(`Tsdb.Db.Progress`). That calls end under every schedule is another
statement, and `Tsdb.Wal.Settling` has it.

# The removal

A list that was read from the directory has each named file once, and a
step of anybody who does not remove keeps it there (`Listed.grows`). One
removal takes one name, and leaves the others to be removed
(`Disk.unlink_keeps`).
-/
import Tsdb.Wal.AtRest

namespace Tsdb.Wal

open Lib (Ascending)

variable {cfg : WalConfig} {old : List (List WalRecord)} {as : List Action}
  {log : Log} {hand rest : List WalRecord} {disk disk' : Disk}
  {m m' : Machine} {a : Action}

-- ================================================================= the cut

/-- Nobody has closed the buffer, and no request is forgotten. -/
structure Awake (m : Machine) : Prop where
  unclosed : m.shared.buffer.closed = false
  asked : m.shared.waiting = true →
    m.shared.cut.requested = true ∨ ∃ c, m.shared.cut.closed = some c

namespace Awake

theorem start (id file : Nat) : Awake (.start id file) :=
  ⟨rfl, nofun⟩

/-- The flusher answers a request, and leaves the rest alone. -/
private theorem flusher {n : Nat} (h : Awake m)
    (hs : FlusherStep cfg n disk m disk' m') : Awake m' := by
  cases hs with
  | finish hpc => exact ⟨h.unclosed, fun _ => .inr ⟨_, rfl⟩⟩
  | _ => exact ⟨h.unclosed, h.asked⟩

/-- Any step but `close`. A request is open until it is answered, and only
the flusher answers. -/
theorem step (h : Awake m) (ha : a ≠ .close)
    (hs : Wal.step cfg a (disk, m) = some (disk', m')) : Awake m' := by
  cases a with
  | flusher n => exact h.flusher (.of_step hs)
  | close => exact absurd rfl ha
  | append rec result =>
      obtain ⟨-, -, -, rfl⟩ := step_append hs
      refine ⟨?_, h.asked⟩
      show (appendWith cfg m.shared.buffer rec).2.closed = false
      rcases appendWith_cases cfg m.shared.buffer rec
        with ⟨-, heq⟩ | ⟨-, e, heq⟩ | ⟨-, -, -, heq⟩
      · rw [heq]
        exact h.unclosed
      · rw [heq]
        exact h.unclosed
      · rw [heq]
        exact h.unclosed
  | cutLock caller =>
      simp only [Wal.step] at hs
      split at hs <;> cases hs
      exact ⟨h.unclosed, fun hwaiting => by cases hwaiting⟩
  | cutRequest caller =>
      simp only [Wal.step] at hs
      split at hs <;> cases hs
      exact ⟨h.unclosed, fun _ => .inl rfl⟩
  | cutReturn caller closed =>
      simp only [Wal.step] at hs
      split at hs <;> cases hs
      exact ⟨h.unclosed, fun hwaiting => by cases hwaiting⟩
  | _ =>
      obtain ⟨-, hbuffer, hcut⟩ := step_keeps (by simp) hs
      obtain ⟨hcut, hserial⟩ := hcut rfl
      refine ⟨?_, ?_⟩
      · rw [hbuffer rfl]
        exact h.unclosed
      · unfold Shared.waiting
        rw [hserial, hcut]
        exact h.asked

end Awake

/-- Steps of `rotate` to go. -/
def RotateStage.away : RotateStage → Nat
  | .sync => 5
  | .create => 4
  | .syncDir _ => 3
  | .setFile _ => 2
  | .store _ => 1

/-- Steps to the answer to a request, the buffer being empty. -/
def FlusherPc.away (batch : Nat) : FlusherPc → Nat
  | .finish _ => 1
  | .rotate stage .cut => 1 + stage.away
  | .take _ true => 7
  | .sampleCut _ => 8
  | .top => 9
  | .take _ false => 10
  | .clear => 10
  | .publish _ => 11
  | .write _ done => if done < batch then 13 else 12
  | .rotate stage (.batch _) => 13 + stage.away
  | .batch _ => 19
  | .finalSync => 0
  | .exited => 0

/-- With something in the buffer, there is a batch to write first. -/
def Machine.away (m : Machine) : Nat :=
  m.pc.away m.spare.length + if m.shared.buffer.buf = [] then 0 else 13

namespace Journal

/-- The name of the next segment is free. -/
theorem create_ok (h : Journal old as log hand rest disk m)
    (hfresh : m.pc.fresh = 0) :
    ∃ disk', disk.create (m.seg.id + 1) = some disk' := by
  unfold Disk.create
  rw [if_neg]
  · exact ⟨_, rfl⟩
  intro hany
  obtain ⟨f, hf, hnamed⟩ := List.any_eq_true.mp hany
  rw [Bool.and_eq_true, beq_iff_eq] at hnamed
  have hseg : m.seg.id = log.first + log.closed.length := h.sim.id
  obtain ⟨i, hi⟩ := List.mem_iff_getElem?.mp hf
  rcases Nat.lt_or_ge i old.length with hold | hnew
  · have hin : f ∈ disk.take old.length := by
      refine List.mem_iff_getElem?.mpr ⟨i, ?_⟩
      rw [List.getElem?_take_of_lt hold]
      exact hi
    have hbelow := h.old.below f hin hnamed.1
    omega
  · obtain ⟨j, rfl⟩ := Nat.exists_eq_add_of_le hnew
    have hid := h.id_at hi
    have hlt := (List.getElem?_eq_some_iff.mp hi).1
    have hsize := h.sim.size
    omega

/-- The flusher does not wait for anybody. -/
theorem flusher_ok (h : Journal old as log hand rest disk m) (hw : Awake m)
    (n : Nat) :
    ∃ disk' m', Wal.step cfg (.flusher n) (disk, m) = some (disk', m') := by
  show ∃ disk' m', flusherStep cfg n disk m = some (disk', m')
  cases hpc : m.pc with
  | take closing cutting =>
      simp only [flusherStep, hpc, Inner.take]
      by_cases hbuf : m.shared.buffer.buf = []
      · rw [if_pos hbuf]
        cases cutting <;> cases closing <;> exact ⟨_, _, rfl⟩
      · rw [if_neg hbuf]
        exact ⟨_, _, rfl⟩
  | batch end_ =>
      simp only [flusherStep, hpc]
      split <;> exact ⟨_, _, rfl⟩
  | write end_ done =>
      simp only [flusherStep, hpc]
      split <;> exact ⟨_, _, rfl⟩
  | rotate stage why =>
      simp only [flusherStep, hpc]
      cases stage with
      | create =>
          obtain ⟨d, hd⟩ := h.create_ok (by rw [hpc]; rfl)
          rw [rotateStep, hd]
          exact ⟨_, _, rfl⟩
      | _ => exact ⟨_, _, rfl⟩
  | exited =>
      have hclosed := (h.closing.ended (by rw [hpc]; rfl)).1
      rw [hw.unclosed] at hclosed
      cases hclosed
  | _ =>
      simp only [flusherStep, hpc]
      exact ⟨_, _, rfl⟩

/-- While a request is open, the flusher answers it or gets nearer. The
proof goes through its transitions. The two by which it would leave need a
closed buffer; the look at the request sees that it is there; `take` turns
the buffer's bytes into a batch, worth as much; and every other transition
has one step less before it than the one it came from. -/
theorem serve (h : Journal old as log hand rest disk m) (cfg : WalConfig)
    (hw : Awake m) (hreq : m.shared.cut.requested = true) :
    ∃ n disk' m', Wal.step cfg (.flusher n) (disk, m) = some (disk', m')
      ∧ ((∃ c, m'.shared.cut.closed = some c)
        ∨ m'.shared.cut = m.shared.cut ∧ m'.away < m.away) := by
  obtain ⟨disk', m', hs⟩ : ∃ disk' m',
      Wal.step cfg (.flusher m.spare.length) (disk, m) = some (disk', m') :=
    h.flusher_ok hw _
  refine ⟨_, disk', m', hs, ?_⟩
  -- the buffer is open, so the flusher is not on its way out
  have hnotclosing : m.pc.closing ≠ true := by
    intro hclosing
    have hclosed := h.closing.seen hclosing
    rw [hw.unclosed] at hclosed
    cases hclosed
  cases FlusherStep.of_step hs with
  | finish hpc => exact .inl ⟨_, rfl⟩
  | @taken closing cutting hpc hbuf =>
      -- the buffer is swapped for the vector of the last batch, swept
      have hswept := h.sim.swept (by rw [hpc]; rfl)
      refine .inr ⟨rfl, ?_⟩
      unfold Machine.away
      rw [hpc, if_neg hbuf, if_pos hswept]
      cases cutting <;> simp only [FlusherPc.away] <;> omega
  | leave hpc hbuf => exact absurd (by rw [hpc]; rfl) hnotclosing
  | finalSync hpc =>
      have hclosed := (h.closing.ended (by rw [hpc]; rfl)).1
      rw [hw.unclosed] at hclosed
      cases hclosed
  | sampleCut hpc =>
      refine .inr ⟨rfl, ?_⟩
      unfold Machine.away
      rw [hpc, hreq]
      simp only [FlusherPc.away]
      omega
  | chunk hpc hmore =>
      refine .inr ⟨rfl, ?_⟩
      unfold Machine.away
      rw [hpc]
      simp only [FlusherPc.away, List.length_take, List.length_drop]
      rw [if_pos hmore, if_neg (by omega)]
      omega
  | @store why closed hpc =>
      refine .inr ⟨rfl, ?_⟩
      unfold Machine.away
      rw [hpc]
      cases why with
      | cut =>
          simp only [FlusherPc.away, RotateFor.resume, RotateStage.away]
          omega
      | batch end_ =>
          simp only [FlusherPc.away, RotateFor.resume, RotateStage.away]
          split <;> split <;> omega
  | room hpc hroom =>
      refine .inr ⟨rfl, ?_⟩
      unfold Machine.away
      rw [hpc]
      simp only [FlusherPc.away]
      split <;> split <;> omega
  | @wrote end_ done hpc hall =>
      have hdone : ¬ done < m.spare.length := by omega
      refine .inr ⟨rfl, ?_⟩
      unfold Machine.away
      rw [hpc]
      simp only [FlusherPc.away]
      rw [if_neg hdone]
      omega
  | @sync why hpc | @create why _ hpc _ | @syncDir why _ hpc
  | @setFile why _ hpc =>
      refine .inr ⟨rfl, ?_⟩
      unfold Machine.away
      rw [hpc]
      cases why <;> simp only [FlusherPc.away, RotateStage.away] <;> omega
  | _ hpc =>
      refine .inr ⟨rfl, ?_⟩
      unfold Machine.away
      rw [hpc]
      simp only [FlusherPc.away, RotateStage.away]
      omega

end Journal

-- ============================================================ the removal

/-- What a call of `remove_through` has listed is there, each file once. -/
def RemovePc.Listed (disk : Disk) : RemovePc → Prop
  | .removing _ todo _ => todo.Nodup
      ∧ ∀ id ∈ todo, (id, true) ∈ disk.map LogFile.entry
  | _ => True

theorem Disk.unlink_ok {id : Nat} (h : (id, true) ∈ disk.map LogFile.entry) :
    ∃ disk', disk.unlink id = some disk' := by
  obtain ⟨f, hf, heq⟩ := List.mem_map.mp h
  have hid : f.id = id := congrArg Prod.fst heq
  have hlinked : f.linked = true := congrArg Prod.snd heq
  unfold Disk.unlink
  rw [if_pos]
  · exact ⟨_, rfl⟩
  · exact List.any_eq_true.mpr ⟨f, hf, by rw [hid, hlinked]; simp⟩

/-- A removal takes one name. -/
theorem Disk.unlink_keeps {id j : Nat} (h : disk.unlink id = some disk')
    (hj : (j, true) ∈ disk.map LogFile.entry) (hne : j ≠ id) :
    (j, true) ∈ disk'.map LogFile.entry := by
  obtain ⟨f, hf, heq⟩ := List.mem_map.mp hj
  rw [Disk.unlink_eq h, List.map_map]
  refine List.mem_map.mpr ⟨f, hf, ?_⟩
  simp only [Function.comp_apply]
  rw [if_neg]
  · exact heq
  · intro hnamed
    rw [Bool.and_eq_true, beq_iff_eq] at hnamed
    exact hne ((congrArg Prod.fst heq).symm.trans hnamed.2)

namespace RemovePc.Listed

variable {pc : RemovePc}

theorem grows {base next : Nat} (h : pc.Listed disk)
    (hgrows : disk.Grows base next disk') : pc.Listed disk' := by
  cases pc with
  | removing bound todo removed =>
      refine ⟨h.1, fun id hid => ?_⟩
      rcases hgrows.entries with heq | heq
      · rw [heq]
        exact h.2 id hid
      · rw [heq]
        exact List.mem_append_left _ (h.2 id hid)
  | idle => trivial
  | bounded bound => trivial

end RemovePc.Listed

namespace Journal

/-- The listing finds what is there. -/
private theorem listed (h : Journal old as log hand rest disk m)
    (bound : Nat) :
    (RemovePc.removing bound
      (((list disk.dir).map SegmentFile.id).filter (· ≤ bound)) []).Listed
      disk := by
  rw [Disk.list_dir h.ascending]
  have hids : disk.dir.map SegmentFile.id
      = (disk.filter LogFile.linked).map LogFile.id := by
    unfold Disk.dir
    rw [List.map_map]
    rfl
  constructor
  · refine List.Nodup.filter _ ?_
    rw [hids]
    exact (List.pairwise_map.mpr h.ascending).nodup
  · intro id hid
    rw [hids] at hid
    obtain ⟨f, hf, rfl⟩ := List.mem_map.mp (List.mem_filter.mp hid).1
    obtain ⟨hf, hlinked⟩ := List.mem_filter.mp hf
    exact List.mem_map.mpr ⟨f, hf, by rw [LogFile.entry, hlinked]⟩

/-- If nobody else removes anything, what a call has listed stays. Its own
removal takes the first id of the list, which does not come again; a fresh
list is that of the directory; and no other step takes a file away. -/
theorem listed_step (h : Journal old as log hand rest disk m) {j : Nat}
    (hlisted : (m.removing j).Listed disk)
    (ha : ∀ i id, a = .removeFile i id → i = j)
    (hs : Wal.step cfg a (disk, m) = some (disk', m')) :
    (m'.removing j).Listed disk' := by
  -- a call that moves on changes its own list only
  have hset : ∀ (i : Nat) (pc : RemovePc), (i = j → pc.Listed disk) →
      ((m.setRemoving i pc).removing j).Listed disk := by
    intro i pc hpc
    unfold Machine.setRemoving
    simp only
    split
    · rename_i he
      exact hpc he.symm
    · exact hlisted
  cases a with
  | removeFile i id =>
      obtain rfl := ha i id rfl
      simp only [Wal.step] at hs
      split at hs
      · rename_i bound next todo removed hcall
        split at hs
        · rename_i hnext
          subst hnext
          obtain ⟨d, hunlink, heq⟩ := Option.map_eq_some_iff.mp hs
          cases heq
          rw [hcall] at hlisted
          obtain ⟨hnd, hall⟩ := hlisted
          obtain ⟨hnot, hnd⟩ := List.nodup_cons.mp hnd
          show RemovePc.Listed _ (if _ then _ else _)
          rw [if_pos rfl]
          refine ⟨hnd, fun id hid => ?_⟩
          refine Disk.unlink_keeps hunlink (hall id (List.mem_cons_of_mem _ hid))
            ?_
          rintro rfl
          exact hnot hid
        · cases hs
      · cases hs
  | removeBound i id bound =>
      simp only [Wal.step] at hs
      split at hs <;> cases hs
      exact hset i _ fun _ => trivial
  | removeList i todo =>
      simp only [Wal.step] at hs
      split at hs
      · split at hs
        · rename_i htodo
          cases hs
          exact hset i _ fun _ => htodo ▸ h.listed _
        · cases hs
      · cases hs
  | removeFail i id =>
      simp only [Wal.step] at hs
      split at hs
      · split at hs <;> cases hs
        exact hset i _ fun _ => trivial
      · cases hs
  | removeReturn i removed =>
      simp only [Wal.step] at hs
      split at hs
      · split at hs <;> cases hs
        exact hset i _ fun _ => trivial
      · cases hs
  | flusher n =>
      rw [(FlusherStep.of_step hs).calls.2]
      exact hlisted.grows (Disk.Grows.of_step h.sim (by simp) hs)
  | _ =>
      rw [(step_others (by simp) rfl hs).1]
      exact hlisted.grows (Disk.Grows.of_step h.sim (by simp) hs)

end Journal

end Tsdb.Wal
