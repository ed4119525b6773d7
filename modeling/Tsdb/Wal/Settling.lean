/-
The threads of the log come to rest (`flush_loop`, `sync_loop` and `join`
of `storage/wal/flusher.rs`).

# The measure

Left alone, the flusher gets nearer with every step to the place where it
has nothing left to do (`Threads.work`). The measure adds up what is left
of this pass, with its batch written byte by byte if need be, and a whole
pass more for each thing that will bring one about: a batch in the
buffer, a request for a cut, the token. Every step the flusher takes of
its own pays for itself (`own_work`, by its transitions), and unless it
sleeps or has left it has one to take (`own_ok`), because the name of the
next file is free. What it finds at the end it finds without its timeout
(`flusher_settles`); that everything is published then is `Wakeful` of
`Wakeup.lean`, which holds of every state.

# Two batches

A record that comes in while a batch is being written has to wait for
that batch and goes with the next (`published_by_second`). There is no
measure in this one: the LSN the batch in hand carries is at least what
had been reached when the last one was published (`carried_le`).

# The end

Once somebody joins, the flusher does not sleep any more; it leaves, and
behind it the syncer (`close_returns`). The two threads may interleave as
they like, each step of either lowers the sum of the two measures
(`joining_work`), timeouts included, and one of them can move until both
have left (`joining_ok`). The flusher leaves only a closed and empty
buffer, and syncs the active file as its last step. With the rotations'
syncs all files are synced then, under names that are on disk
(`FromOpen.synced`), and have all that was accepted
(`FromOpen.written`). Files that are synced lose nothing in a power loss.
-/
import Tsdb.Wal.Progress
import Tsdb.Wal.Syncer
import Tsdb.Wal.Wakeup

namespace Tsdb.Wal

open Lib (Run exec exec_split)

-- ================================================================ the next file

section

variable {cfg : WalConfig} {before disk disk' : Disk} {as : List Action}
  {m m' : Machine} {a : Action}

/-- A log is opened with an id above those it finds. -/
theorem lt_firstId {f : LogFile} (hf : f ∈ before) (hlinked : f.linked = true) :
    f.id < firstId before := by
  have hmem : ⟨f.id, f.bytes⟩ ∈ list before.dir :=
    (list_perm _).symm.subset (List.mem_map.mpr
      ⟨f, List.mem_filter.mpr ⟨hf, hlinked⟩, rfl⟩)
  have hsorted : (list before.dir).Pairwise fun a b => a.id ≤ b.id := by
    refine (List.pairwise_mergeSort ?_ ?_ before.dir).imp of_decide_eq_true
    · intro a b c hab hbc
      exact decide_eq_true (Nat.le_trans (of_decide_eq_true hab)
        (of_decide_eq_true hbc))
    · intro a b
      simpa using Nat.le_total a.id b.id
  unfold firstId
  cases hlast : (list before.dir).getLast? with
  | none =>
      rw [List.getLast?_eq_none_iff.mp hlast] at hmem
      cases hmem
  | some seg =>
      obtain ⟨front, hcat⟩ := List.getLast?_eq_some_iff.mp hlast
      rw [hcat] at hmem hsorted
      show f.id < seg.id + 1
      rcases List.mem_append.mp hmem with hfront | hsame
      · exact Nat.lt_succ_of_le ((List.pairwise_append.mp hsorted).2.2 _ hfront
          seg List.mem_cons_self)
      · rw [← List.mem_singleton.mp hsame]
        exact Nat.lt_succ_self f.id

/-- What was there when the log was opened keeps its name, if it is not
removed. -/
theorem FromOpen.below (hrun : FromOpen cfg before as disk m) :
    ∀ f ∈ disk.take before.length, f.linked = true →
      f.id < firstId before := by
  refine Run.invariant (P := fun _ (s : Disk × Machine) =>
    ∀ f ∈ s.1.take before.length, f.linked = true → f.id < firstId before)
    ?_ ?_ hrun
  · intro f hf
    rw [show (opened before).1 = before ++ [_] from rfl, List.take_left] at hf
    exact lt_firstId hf
  · rintro as ⟨disk, m⟩ a ⟨disk', m'⟩ hrun h hs
    obtain ⟨log, hand, rest, -, -, hsim⟩ := FromOpen.sim hrun
    have hstill : Still (disk'.take before.length)
        (disk.take before.length) := by
      by_cases ha : ∃ j id, a = .removeFile j id
      · obtain ⟨j, id, rfl⟩ := ha
        simp only [Wal.step] at hs
        split at hs
        · split at hs
          · obtain ⟨d, hunlink, heq⟩ := Option.map_eq_some_iff.mp hs
            cases heq
            exact List.forall₂_take _ (Still.unlink hunlink)
          · cases hs
        · cases hs
      · exact (Disk.Grows.of_step hsim (fun j id he => ha ⟨j, id, he⟩) hs).old
    intro f hf hlinked
    obtain ⟨i, hi⟩ := List.mem_iff_getElem?.mp hf
    obtain ⟨g, hg, hsame⟩ : ∃ g, (disk.take before.length)[i]? = some g
        ∧ f.Still g := by
      have hlt := (List.getElem?_eq_some_iff.mp hi).1
      have hlt' : i < (disk.take before.length).length :=
        hstill.length_eq ▸ hlt
      refine ⟨_, List.getElem?_eq_getElem hlt', ?_⟩
      rw [(List.getElem?_eq_some_iff.mp hi).2.symm]
      exact hstill.get hlt hlt'
    rw [hsame.id]
    exact h g (List.mem_of_getElem? hg) (hsame.linked hlinked)

/-- The flusher never waits for anybody: `create` does not find its name
taken. The name is that of the id behind the active segment's; older files
are below the first id of this log, and those created since end with the
active one. -/
theorem FromOpen.flusher_ok (hrun : FromOpen cfg before as disk m)
    (hpc : m.pc ≠ .exited) (n : Nat) :
    ∃ s', Wal.step cfg (.flusher n) (disk, m) = some s' := by
  obtain ⟨log, hand, rest, -, hfirst, hsim⟩ := FromOpen.sim hrun
  show ∃ s', flusherStep cfg n disk m = some s'
  cases hpc' : m.pc with
  | exited => exact absurd hpc' hpc
  | take closing cutting =>
      simp only [flusherStep, hpc', Inner.take]
      by_cases hbuf : m.shared.buffer.buf = []
      · rw [if_pos hbuf]
        cases cutting <;> cases closing <;> exact ⟨_, rfl⟩
      · rw [if_neg hbuf]
        exact ⟨_, rfl⟩
  | batch end_ =>
      simp only [flusherStep, hpc']
      split <;> exact ⟨_, rfl⟩
  | write end_ done =>
      simp only [flusherStep, hpc']
      split <;> exact ⟨_, rfl⟩
  | rotate stage why =>
      simp only [flusherStep, hpc']
      cases stage with
      | create =>
          have hfree : (disk.any fun f => f.linked && f.id == m.seg.id + 1)
              = false := by
            refine List.any_eq_false.mpr fun f hf hnamed => ?_
            rw [Bool.and_eq_true, beq_iff_eq] at hnamed
            have hseg : m.seg.id = log.first + log.closed.length := hsim.id
            obtain ⟨i, hi⟩ := List.mem_iff_getElem?.mp hf
            -- a file that was found, or one created since
            rcases Nat.lt_or_ge i before.length with hold | hnew
            · have hin : f ∈ disk.take before.length := by
                refine List.mem_iff_getElem?.mpr ⟨i, ?_⟩
                rw [List.getElem?_take_of_lt hold]
                exact hi
              have hbelow := FromOpen.below hrun f hin hnamed.1
              omega
            · have hids := congrArg (·[i - before.length]?) hsim.ids
              simp only [List.getElem?_drop, List.getElem?_map,
                Nat.add_sub_cancel' hnew, hi, Option.map_some] at hids
              have hlt := (List.getElem?_eq_some_iff.mp hids.symm).1
              rw [List.length_range'] at hlt
              rw [List.getElem?_range' hlt, Option.some.injEq] at hids
              rw [hpc'] at hlt
              simp only [FlusherPc.fresh] at hlt
              omega
          obtain ⟨d, hd⟩ : ∃ d, disk.create (m.seg.id + 1) = some d := by
            unfold Disk.create
            rw [if_neg (by rw [hfree]; decide)]
            exact ⟨_, rfl⟩
          rw [rotateStep, hd]
          exact ⟨_, rfl⟩
      | _ => exact ⟨_, rfl⟩
  | _ =>
      simp only [flusherStep, hpc']
      exact ⟨_, rfl⟩

end

-- ================================================================ two batches

section

variable {cfg : WalConfig} {before : Disk} {as : List Action} {disk : Disk}
  {m : Machine} {n : Nat}

/-- Behind a publication, the next batch is taken of a buffer that has
reached what it has reached by then. -/
theorem FromOpen.carried_le {s : Disk × Machine} {bs : List Action}
    (hrun : FromOpen cfg before as disk m) (hnone : m.pc.carried = none)
    (hmore : Run (step cfg) (disk, m) bs s) :
    m.shared.buffer.end_ ≤ s.2.shared.buffer.end_
      ∧ ∀ e, s.2.pc.carried = some e → m.shared.buffer.end_ ≤ e := by
  induction hmore with
  | nil => exact ⟨Nat.le_refl _, fun e he => by rw [hnone] at he; cases he⟩
  | @snoc bs s s' a hbs hs ih =>
      obtain ⟨hend, hcarried⟩ := ih
      obtain ⟨log, hand, rest, -, -, hsim⟩ := FromOpen.sim (hrun.append hbs)
      have hgrows := hsim.end_step hs
      refine ⟨by omega, ?_⟩
      by_cases hflusher : ∃ n, a = .flusher n
      · obtain ⟨n, rfl⟩ := hflusher
        have hs' : FlusherStep cfg n s.1 s.2 s'.1 s'.2 := .of_step hs
        rcases hs'.carried with ⟨-, -, hsome, -⟩ | ⟨e, -, -, -, hgone, -⟩
          | ⟨-, -, hsame, -⟩
        · rw [hsome]
          rintro e he
          cases he
          exact hend
        · rw [hgone]
          exact fun e he => by cases he
        · rw [hsame]
          exact hcarried
      · obtain ⟨hk, -⟩ := step_keeps (fun n he => hflusher ⟨n, he⟩) hs
        rw [hk.pc]
        exact hcarried

/-- What a step that publishes does. -/
theorem publish_step {s s' : Disk × Machine} (hpub : s.2.publishes = true)
    (hs : step cfg (.flusher n) s = some s') :
    s'.2.pc.carried = none ∧ s'.2.shared.buffer = s.2.shared.buffer
      ∧ ∀ e, s.2.pc.carried = some e → e ≤ s'.2.shared.written := by
  have hs' : FlusherStep cfg n s.1 s.2 s'.1 s'.2 := .of_step hs
  rcases hs'.carried with ⟨htakes, -⟩ | ⟨e, htakes, -, he, hnone, hw⟩
    | ⟨-, hno, -⟩
  · unfold Machine.takes at htakes
    unfold Machine.publishes at hpub
    split at htakes
    · rename_i hpc
      rw [hpc] at hpub
      cases hpub
    · cases htakes
  · refine ⟨hnone, hs'.buffer htakes, fun e' he' => ?_⟩
    rw [he] at he'
    cases he'
    rw [hw]
    exact Nat.le_max_right _ _
  · rw [hno] at hpub
    cases hpub

end

/-- A record is published with the second batch behind its append, at the
latest, whatever the threads and the other callers do in between. -/
theorem published_by_second {cfg : WalConfig} {before : Disk}
    {as bs cs : List Action} {s s₁ s₁' s₂ s₂' : Disk × Machine}
    {rec : WalRecord} {lsn n₁ n₂ : Nat}
    (hrun : FromOpen cfg before (as ++ [.append rec (.ok lsn)]) s.1 s.2)
    (hbs : Run (step cfg) s bs s₁) (hpub₁ : s₁.2.publishes = true)
    (hs₁ : step cfg (.flusher n₁) s₁ = some s₁')
    (hcs : Run (step cfg) s₁' cs s₂) (hpub₂ : s₂.2.publishes = true)
    (hs₂ : step cfg (.flusher n₂) s₂ = some s₂') :
    lsn ≤ s₂'.2.shared.written := by
  obtain ⟨hnone, hbuffer, -⟩ := publish_step hpub₁ hs₁
  have hrun₁ := hrun.append hbs
  have hreached : lsn ≤ s₁'.2.shared.buffer.end_ := by
    rw [hbuffer]
    exact FromOpen.reached hrun₁ (List.mem_append_left _
      (List.mem_append_right _ (List.mem_singleton_self _)))
  obtain ⟨-, hcarried⟩ := FromOpen.carried_le (hrun₁.snoc hs₁) hnone hcs
  obtain ⟨e, he⟩ : ∃ e, s₂.2.pc.carried = some e := by
    unfold Machine.publishes at hpub₂
    split at hpub₂
    · rename_i e hpc
      exact ⟨e, by rw [hpc]; rfl⟩
    · cases hpub₂
  obtain ⟨-, -, hpublished⟩ := publish_step hpub₂ hs₂
  exact Nat.le_trans hreached (Nat.le_trans (hcarried e he) (hpublished e he))

/-- A record comes in while the one before it is being written. -/
def comesLate : List Action :=
  .append ⟨[], [⟨7, [⟨1, 2⟩]⟩]⟩ (.ok 45) :: List.replicate 3 (.flusher 100)

theorem published_by_second_late :
    ∃ s bs s', Run (step ⟨1000, 1000⟩) (opened [])
        (comesLate ++ [.append ⟨[], [⟨7, [⟨3, 4⟩]⟩]⟩ (.ok 90)]) s
      ∧ Run (step ⟨1000, 1000⟩) s bs s' ∧ 90 ≤ s'.2.shared.written := by
  have hsome : (exec (step ⟨1000, 1000⟩)
      (comesLate ++ [.append ⟨[], [⟨7, [⟨3, 4⟩]⟩]⟩ (.ok 90)])
      (opened [])).map (fun s =>
        (exec (step ⟨1000, 1000⟩) (List.replicate 3 (.flusher 100)) s).map
          fun s₁ => (s₁.2.publishes,
            (step ⟨1000, 1000⟩ (.flusher 100) s₁).map fun s₁' =>
              (exec (step ⟨1000, 1000⟩) (List.replicate 7 (.flusher 100))
                s₁').map fun s₂ => (s₂.2.publishes,
                  (step ⟨1000, 1000⟩ (.flusher 100) s₂).isSome)))
        = some (some (true, some (some (true, true)))) := by
    decide +kernel
  obtain ⟨s, hs, hrest⟩ := Option.map_eq_some_iff.mp hsome
  obtain ⟨s₁, hbs, hrest⟩ := Option.map_eq_some_iff.mp hrest
  obtain ⟨hpub₁, hrest⟩ := Prod.mk.inj hrest
  obtain ⟨s₁', hs₁, hrest⟩ := Option.map_eq_some_iff.mp hrest
  obtain ⟨s₂, hcs, hrest⟩ := Option.map_eq_some_iff.mp hrest
  obtain ⟨hpub₂, hrest⟩ := Prod.mk.inj hrest
  obtain ⟨s₂', hs₂⟩ := Option.isSome_iff_exists.mp hrest
  have hlater := ((Run.of_exec hbs).snoc hs₁).append
    ((Run.of_exec hcs).snoc hs₂)
  exact ⟨s, _, s₂', .of_exec hs, hlater, published_by_second (.of_exec hs)
    (.of_exec hbs) hpub₁ hs₁ (.of_exec hcs) hpub₂ hs₂⟩

-- ================================================================== the measure

/-- The flusher goes on, and not because of its timeout. -/
def ThreadsAction.own : ThreadsAction → Bool
  | .log (.flusher _) => true
  | .rest timeout => !timeout
  | _ => false

/-- Steps to the end of a pass with a batch of this many bytes, which may
be written byte by byte. -/
def FlusherPc.pass (batch : Nat) : FlusherPc → Nat
  | .exited => 0
  | .finalSync => 1
  | .finish _ => 1
  | .rotate stage .cut => 1 + stage.away
  | .take _ _ => 7
  | .sampleCut _ => 11
  | .top => 12
  | .clear => 15
  | .publish _ => 16
  | .write _ done => 17 + (batch - done)
  | .rotate stage (.batch _) => 17 + batch + stage.away
  | .batch _ => 23 + batch

namespace Threads

/-- Steps to the end of this pass. -/
def pass (s : Threads) : Nat :=
  match s.rest with
  | .parked => 0
  | rest => s.machine.pc.pass s.machine.spare.length + rest.left

/-- Steps until the flusher rests, if nobody gives it more to do: to the
end of this pass, and of those for what is in the buffer, for a cut and for
the token. -/
def work (s : Threads) : Nat :=
  s.pass
    + (if s.machine.shared.buffer.buf = [] then 0
      else 17 + s.machine.shared.buffer.buf.length)
    + (if s.machine.shared.cut.requested then 12 else 0)
    + if s.token then 13 else 0

variable {cfg : WalConfig} {gc : GroupCommit} {before : Disk}
  {as : List Action} {s s' : Threads} {n : Nat}

theorem pass_eq (h : s.rest ≠ .parked) :
    s.pass = s.machine.pc.pass s.machine.spare.length + s.rest.left := by
  unfold pass
  split
  · exact absurd ‹_› h
  · rfl

theorem pass_parked (h : s.rest = .parked) : s.pass = 0 := by
  unfold pass
  rw [h]

/-- A look or a sleep, or a park that the token ends. -/
theorem wake_work {timeout : Bool} (hfits : s.Fits)
    (hpark : s.rest = .parked → s.token = true)
    (hs : s.wake gc timeout = some s') : s'.work < s.work := by
  unfold Fits at hfits
  unfold work
  rcases wake_cases hs with ⟨hpassing, rest, hpassing', hless, rfl⟩
    | ⟨hrest, -, rfl⟩ | ⟨hrest, -, -, rfl⟩ | ⟨hrest, -, rfl⟩
  · have hparked : s.rest ≠ .parked := by
      intro hrest
      rw [hrest] at hpassing
      cases hpassing
    have hparked' : rest ≠ .parked := by
      rintro rfl
      cases hpassing'
    rw [pass_eq hparked, pass_eq (s := { s with rest }) hparked']
    dsimp only
    omega
  · rw [pass_eq (s := s) (by rw [hrest]; decide),
      pass_eq (s := { s with rest := .awake }) (by simp), hrest]
    simp only [Rest.left]
    omega
  · rw [pass_eq (s := s) (by rw [hrest]; decide), pass_parked rfl, hrest]
    simp only [Rest.left]
    omega
  · rw [hrest] at hfits
    have hpc : s.machine.pc = .top := hfits
    rw [pass_parked hrest,
      pass_eq (s := { s with rest := .awake, token := false }) (by simp),
      hpark hrest]
    simp only [hpc, FlusherPc.pass, Rest.left, if_true, Bool.false_eq_true,
      if_false]
    omega

/-- A step of the flusher. -/
theorem flusher_work (hrun : FromOpen cfg before as s.disk s.machine)
    (hs : s.logStep cfg (.flusher n) = some s') : s'.work < s.work := by
  obtain ⟨hrest, disk', m', hstep, rfl⟩ := logStep_flusher hs
  obtain ⟨log, hand, rest, -, -, hsim, hcuts⟩ := FromOpen.cuts hrun
  have hpass := pass_eq (s := s) (by rw [hrest]; decide)
  unfold work
  rw [hpass, hrest]
  cases hstep with
  | taken hpc hbuf =>
      have hspare : s.machine.spare = [] := hsim.swept (by rw [hpc]; rfl)
      simp only [settle, hpc, pass, FlusherPc.pass, Rest.left, hspare,
        if_true, if_neg hbuf]
      omega
  | finish hpc =>
      have hreq : s.machine.shared.cut.requested = true :=
        hcuts.wants (by rw [hpc]; rfl)
      simp only [settle, hpc, pass, FlusherPc.pass, Rest.left, hreq,
        if_true, Bool.false_eq_true, if_false]
      omega
  | chunk hpc hmore =>
      simp only [settle, hpc, pass, FlusherPc.pass, Rest.left,
        List.length_take, List.length_drop]
      omega
  | wrote hpc hall =>
      simp only [settle, hpc, pass, FlusherPc.pass, Rest.left]
      omega
  | @store why closed hpc | @sync why hpc | @create why _ hpc _
  | @syncDir why _ hpc | @setFile why _ hpc =>
      cases why <;> simp only [settle, hpc, pass, FlusherPc.pass,
        Rest.left, RotateStage.away, RotateFor.resume] <;> omega
  | _ hpc =>
      simp only [settle, hpc, pass, FlusherPc.pass, Rest.left,
        RotateStage.away]
      omega

/-- A step of its own. -/
theorem own_work {a : ThreadsAction} {asked : Prop} (h : Wakeful cfg asked s)
    (hrun : FromOpen cfg before as s.disk s.machine) (ha : a.own = true)
    (hs : step cfg gc a s = some s') : s'.work < s.work := by
  cases a with
  | log a =>
      cases a with
      | flusher n => exact flusher_work hrun hs
      | _ => cases ha
  | rest timeout =>
      refine wake_work h.fits (fun hrest => ?_) hs
      rcases wake_cases hs with ⟨hpassing, -⟩ | ⟨hrest', -⟩ | ⟨hrest', -⟩
        | ⟨-, htoken | htimeout, -⟩
      · rw [hrest] at hpassing
        cases hpassing
      · rw [hrest] at hrest'
        cases hrest'
      · rw [hrest] at hrest'
        cases hrest'
      · exact htoken
      · rw [htimeout] at ha
        cases ha
  | _ => cases ha

/-- Unless it sleeps or has left, it has one to take. -/
theorem own_ok (gc : GroupCommit)
    (hrun : FromOpen cfg before as s.disk s.machine) (hasleep : ¬ s.Asleep)
    (hpc : s.machine.pc ≠ .exited) :
    ∃ a s', a.own = true ∧ step cfg gc a s = some s' := by
  by_cases hrest : s.rest = .awake
  · obtain ⟨p, hp⟩ := FromOpen.flusher_ok hrun hpc 0
    obtain ⟨s', hs⟩ : ∃ s', s.logStep cfg (.flusher 0) = some s' := by
      simp only [logStep]
      rw [if_pos hrest, hp]
      exact ⟨_, rfl⟩
    exact ⟨.log (.flusher 0), s', rfl, hs⟩
  · obtain ⟨s', hs⟩ : ∃ s', s.wake gc false = some s' := by
      refine wake_ok gc hrest fun hparked => .inl ?_
      by_contra htoken
      exact hasleep ⟨hparked, by simpa using htoken⟩
    exact ⟨.rest false, s', rfl, hs⟩

/-- What has left has left nothing behind. -/
theorem exited_level (hrun : FromOpen cfg before as s.disk s.machine)
    (hpc : s.machine.pc = .exited) :
    s.machine.shared.buffer.buf = []
      ∧ s.machine.shared.written = s.machine.shared.buffer.end_ := by
  have hbuf := ((Closing.run (.start _ _) hrun).ended (by rw [hpc]; rfl)).2
  have hlevel := FromOpen.level hrun (by rw [hpc]; rfl)
  rw [hbuf] at hlevel
  exact ⟨hbuf, hlevel⟩

end Threads

/-- The flusher alone, and without its timeout, comes to its end or to
sleep, in no more steps than `work` says, however many bytes a `write` call
takes. There nobody in `wait_for` waits for it any more, it does not sleep
over a request for a cut, and it does not sleep when somebody has come to
join.

The bound is `Run.bounded` with `own_work`, that it can go on is `own_ok`,
and what holds at rest is read off `Wakeful`: asleep, the flusher is alert
to nothing, so there is nothing it should be alert to. -/
theorem flusher_settles {cfg : WalConfig} {gc : GroupCommit} {before : Disk}
    {as bs : List ThreadsAction} {s s' : Threads}
    (hrun : Run (Threads.step cfg gc) (.opened before) as s)
    (hhanded : Handed as) (hown : Run (Threads.step cfg gc) s bs s')
    (hbs : ∀ b ∈ bs, b.own = true) :
    bs.length ≤ s.work
      ∧ ((∃ b s'', b.own = true ∧ Threads.step cfg gc b s' = some s'')
        ∨ (s'.machine.pc = .exited
            ∨ s'.Asleep ∧ s'.machine.shared.cut.requested = false
              ∧ s'.joining = false)
          ∧ ∀ w ∈ s'.waits, w.pc = .waiting →
            w.lsn ≤ s'.machine.shared.written) := by
  have hreach : (∃ as, Run (Threads.step cfg gc) (.opened before) as s'
      ∧ Handed as) ∧ bs.length + s'.work ≤ s.work := by
    refine Run.bounded
      (fun s => ∃ as, Run (Threads.step cfg gc) (.opened before) as s
        ∧ Handed as)
      (·.own = true) Threads.work ?_ hown hbs ⟨as, hrun, hhanded⟩
    rintro s a s' ⟨as, hrun, hhanded⟩ ha hs
    have hlog := Threads.run_log hrun
    refine ⟨⟨as ++ [a], .snoc hrun hs, hhanded.append ?_⟩,
      Threads.own_work (.run hrun) hlog ha hs⟩
    rintro lsn level hmem
    rw [← List.mem_singleton.mp hmem] at ha
    cases ha
  obtain ⟨⟨as', hrun', hhanded'⟩, hlen⟩ := hreach
  have hlog := Threads.run_log hrun'
  have hwakeful := Threads.Wakeful.run hrun'
  refine ⟨Nat.le_trans (Nat.le_add_right _ _) hlen, ?_⟩
  by_cases hpc : s'.machine.pc = .exited
  · refine .inr ⟨.inl hpc, fun w hw _ => ?_⟩
    rw [(Threads.exited_level hlog hpc).2]
    exact hwakeful.handed hhanded' w hw
  -- asleep with nothing in sight: it is not wanted for anything
  by_cases hasleep : s'.Asleep
  · obtain ⟨hwaits, hcut, hjoining, -⟩ := hwakeful.asleep hlog hasleep
    exact .inr ⟨.inr ⟨hasleep, hcut, hjoining⟩, hwaits hhanded'⟩
  · obtain ⟨b, s'', hb, hs⟩ := Threads.own_ok gc hlog hasleep hpc
    exact .inl ⟨b, s'', hb, hs⟩

theorem flusher_settles_serving :
    ∃ s s', Run (Threads.step ⟨1000, 1000⟩ ⟨0, 0⟩) (.opened []) asks s
      ∧ Run (Threads.step ⟨1000, 1000⟩ ⟨0, 0⟩) s serves s'
      ∧ s'.Asleep ∧ serves.length ≤ s.work := by
  have hsome : (exec (Threads.step ⟨1000, 1000⟩ ⟨0, 0⟩) (asks ++ serves)
      (.opened [])).map (fun s => decide s.Asleep) = some true := by
    decide +kernel
  obtain ⟨s', hexec, hasleep⟩ := Option.map_eq_some_iff.mp hsome
  obtain ⟨s, hasks, hserves⟩ := exec_split hexec
  refine ⟨s, s', .of_exec hasks, .of_exec hserves, of_decide_eq_true hasleep,
    ?_⟩
  exact (flusher_settles (.of_exec hasks) handed_asks (.of_exec hserves)
    (by decide)).1

-- ================================================================= the end

section

variable {cfg : WalConfig} {before : Disk} {as : List Action} {disk : Disk}
  {m : Machine}

/-- What the flusher leaves is synced, names and all. The file it has last
written to is synced by its last step, and nobody writes behind that; those
in front are sealed. -/
theorem FromOpen.synced (hrun : FromOpen cfg before as disk m)
    (hpc : m.pc = .exited) :
    ∀ f ∈ disk.drop before.length,
      f.durable = true ∧ f.synced = f.bytes.length := by
  -- by induction on the run: the last sync is the last step there is
  have hactive : ∀ f : LogFile, disk[m.seg.file]? = some f →
      f.synced = f.bytes.length := by
    refine Run.invariant (P := fun _ (s : Disk × Machine) =>
      s.2.pc = .exited → ∀ f : LogFile, s.1[s.2.seg.file]? = some f →
        f.synced = f.bytes.length) (fun hcase => by cases hcase) ?_ hrun hpc
    rintro as ⟨disk, m⟩ a ⟨disk', m'⟩ hrun h hs hpc f hf
    obtain ⟨log, hand, rest, -, -, hsim⟩ := FromOpen.sim hrun
    by_cases hflusher : ∃ n, a = .flusher n
    · obtain ⟨n, rfl⟩ := hflusher
      have hs' : FlusherStep cfg n disk m disk' m' := .of_step hs
      cases hs' with
      | finalSync =>
          simp only [Disk.sync, List.getElem?_modify_eq,
            Option.map_eq_map, Option.map_eq_some_iff] at hf
          obtain ⟨g, -, rfl⟩ := hf
          rfl
      | @store why => cases why <;> cases hpc
      | _ => cases hpc
    · obtain ⟨hk, -⟩ := step_keeps (fun n he => hflusher ⟨n, he⟩) hs
      have hpc' : m.pc = .exited := hk.pc.symm.trans hpc
      have hseg : m'.seg = m.seg := hk.seg
      rw [hseg] at hf
      have hlt : m.seg.file < disk.length := by
        rw [hsim.file, hsim.size]
        omega
      obtain ⟨g, hg, hnext⟩ := (step_later hs).before hlt hf
      refine hnext.full (fun hbusy => ?_) (h hpc' g hg)
      rw [hpc'] at hbusy
      cases hbusy.2
  obtain ⟨log, hand, rest, -, -, hsim⟩ := FromOpen.sim hrun
  obtain ⟨hsealed, -⟩ := FromOpen.syncing hrun
  intro f hf
  obtain ⟨k, hk⟩ := List.mem_iff_getElem?.mp hf
  rw [List.getElem?_drop] at hk
  have hlast : before.length + k ≤ m.seg.file := by
    have hlt := (List.getElem?_eq_some_iff.mp hk).1
    have hsize := hsim.size
    rw [hpc] at hsize
    simp only [FlusherPc.fresh] at hsize
    rw [hsim.file]
    omega
  refine ⟨hsealed.entered k f hlast hk, ?_⟩
  rcases Nat.lt_or_eq_of_le hlast with hlt | heq
  · exact hsealed.closed k f hlt hk
  · exact hactive f (heq ▸ hk)

/-- And it is all that was accepted. -/
theorem FromOpen.written (hrun : FromOpen cfg before as disk m)
    (hpc : m.pc = .exited) :
    fileBytes (disk.drop before.length) = logBytes (acceptedIn as) := by
  obtain ⟨log, hand, rest, hacc, -, hsim⟩ := FromOpen.sim hrun
  have hbuf := ((Closing.run (.start _ _) hrun).ended (by rw [hpc]; rfl)).2
  have hhand : m.hand = [] := by
    unfold Machine.hand
    rw [hpc, hsim.swept (by rw [hpc]; rfl)]
    rfl
  have hstream := hsim.stream
  rw [hhand, hbuf, List.append_nil, List.append_nil, hacc] at hstream
  exact hstream

/-- Files that are synced lose nothing. -/
theorem Disk.powerLoss_full {files files' : Disk} {kept : List (Option Nat)}
    (hloss : files.powerLoss kept = some files')
    (hall : ∀ f ∈ files, f.durable = true ∧ f.synced = f.bytes.length) :
    files'.map LogFile.bytes = files.map LogFile.bytes := by
  induction files generalizing kept files' with
  | nil =>
      cases kept with
      | nil =>
          cases hloss
          rfl
      | cons keep kept => cases hloss
  | cons f files ih =>
      obtain ⟨hdurable, hsynced⟩ := hall f List.mem_cons_self
      cases kept with
      | nil => cases hloss
      | cons keep kept =>
          cases keep with
          | none =>
              rw [powerLoss, if_pos hdurable] at hloss
              cases hloss
          | some n =>
              rw [powerLoss] at hloss
              split at hloss
              · rename_i hn
                obtain ⟨files', hrest, rfl⟩ := Option.map_eq_some_iff.mp hloss
                have hwhole : f.bytes.take n = f.bytes :=
                  List.take_of_length_le (hsynced ▸ hn.1)
                rw [List.map_cons, List.map_cons, hwhole,
                  ih hrest fun g hg => hall g (List.mem_cons_of_mem _ hg)]
              · cases hloss

end

/-- Steps of the syncer to its end, once the buffer is closed. -/
def SyncerPc.left : SyncerPc → Nat
  | .parked _ => 4
  | .fetch _ => 3
  | .sync _ _ => 2
  | .top _ => 1
  | .exited => 0

/-- A step of one of the two threads. -/
def ThreadsAction.byThread : ThreadsAction → Bool
  | .log (.flusher _) => true
  | .log (.syncer _) => true
  | .rest _ => true
  | _ => false

namespace Threads

section

variable {cfg : WalConfig} {gc : GroupCommit} {before : Disk}
  {as : List Action} {s s' : Threads} {n : Nat}

/-- A closed log's syncer gets nearer to its end. -/
theorem syncer_left {due : Bool} {disk disk' : Disk} {m m' : Machine}
    (hclosed : m.shared.buffer.closed = true)
    (hs : syncerStep due disk m = some (disk', m')) :
    m'.syncer.left < m.syncer.left ∧ m'.shared = m.shared
      ∧ m'.pc = m.pc ∧ m'.spare = m.spare := by
  cases hpc : m.syncer with
  | top last =>
      simp only [syncerStep, hpc] at hs
      rw [if_pos hclosed] at hs
      cases hs
      exact ⟨Nat.zero_lt_one, rfl, rfl, rfl⟩
  | parked last =>
      simp only [syncerStep, hpc] at hs
      split at hs <;> cases hs <;>
        exact ⟨by simp only [SyncerPc.left]; omega, rfl, rfl, rfl⟩
  | fetch w =>
      simp only [syncerStep, hpc] at hs
      cases hs
      exact ⟨by simp only [SyncerPc.left]; omega, rfl, rfl, rfl⟩
  | sync w file =>
      simp only [syncerStep, hpc] at hs
      cases hs
      exact ⟨by simp only [SyncerPc.left]; omega, rfl, rfl, rfl⟩
  | exited =>
      simp only [syncerStep, hpc] at hs
      cases hs

theorem syncer_ok {due : Bool} {disk : Disk} {m : Machine}
    (h : m.syncer ≠ .exited) : ∃ p, syncerStep due disk m = some p := by
  unfold syncerStep
  cases hpc : m.syncer with
  | exited => exact absurd hpc h
  | _ =>
      dsimp only
      first
        | exact ⟨_, rfl⟩
        | split <;> exact ⟨_, rfl⟩

/-- Once somebody joins, every step of the two threads brings them nearer to
their ends, timeouts or not. The flusher is alert to the close, so it does
not park, and a look or a sleep of its pass counts as before. -/
theorem joining_work {a : ThreadsAction} {asked : Prop}
    (h : Wakeful cfg asked s)
    (hrun : FromOpen cfg before as s.disk s.machine)
    (hjoin : s.joining = true) (ha : a.byThread = true)
    (hs : step cfg gc a s = some s') :
    s'.joining = true
      ∧ s'.work + s'.machine.syncer.left
        < s.work + s.machine.syncer.left := by
  obtain ⟨hclosed, halert⟩ := h.joining hjoin
  cases a with
  | log a =>
      cases a with
      | flusher n =>
          have hwork := flusher_work hrun hs
          obtain ⟨-, disk', m', hstep, rfl⟩ := logStep_flusher hs
          have hsyncer : m'.syncer = s.machine.syncer := by
            cases hstep <;> rfl
          rw [(settle_log _ _ _ _).2, hsyncer]
          refine ⟨(Wakeful.settle_callers _ _ _ _).2.2.2.trans hjoin, ?_⟩
          exact Nat.add_lt_add_right hwork _
      | syncer due =>
          obtain ⟨⟨disk', m'⟩, hstep, rfl⟩ := Option.map_eq_some_iff.mp hs
          obtain ⟨hleft, hshared, hpc, hspare⟩ := syncer_left hclosed hstep
          refine ⟨hjoin, Nat.add_lt_add_of_le_of_lt (Nat.le_of_eq ?_) hleft⟩
          unfold work pass
          rw [hshared, hpc, hspare]
      | _ => cases ha
  | rest timeout =>
      have hwork := wake_work h.fits (fun hparked => halert.resolve_right ?_) hs
      · have hmachine := (wake_log hs).2
        rw [hmachine]
        refine ⟨?_, Nat.add_lt_add_right hwork _⟩
        rcases wake_cases hs with ⟨-, rest, -, -, rfl⟩ | ⟨-, -, rfl⟩
          | ⟨-, -, -, rfl⟩ | ⟨-, -, rfl⟩ <;> exact hjoin
      · unfold heeds
        rw [hparked]
        exact Bool.false_ne_true
  | _ => cases ha

/-- Until both are there, one of them has a step to take. -/
theorem joining_ok (gc : GroupCommit) {asked : Prop} (h : Wakeful cfg asked s)
    (hrun : FromOpen cfg before as s.disk s.machine)
    (hjoin : s.joining = true)
    (hends : ¬(s.machine.pc = .exited ∧ s.machine.syncer = .exited)) :
    ∃ a s', a.byThread = true ∧ step cfg gc a s = some s' := by
  by_cases hpc : s.machine.pc = .exited
  · obtain ⟨p, hp⟩ : ∃ p, syncerStep true s.disk s.machine = some p :=
      syncer_ok fun hsyncer => hends ⟨hpc, hsyncer⟩
    obtain ⟨s', hs⟩ : ∃ s', s.logStep cfg (.syncer true) = some s' := by
      simp only [logStep, Wal.step, hp]
      exact ⟨_, rfl⟩
    exact ⟨.log (.syncer true), s', rfl, hs⟩
  · have hasleep : ¬ s.Asleep := by
      intro hasleep
      have := (h.asleep hrun hasleep).2.2.1
      rw [hjoin] at this
      cases this
    obtain ⟨a, s', ha, hs⟩ := own_ok gc hrun hasleep hpc
    refine ⟨a, s', ?_, hs⟩
    cases a with
    | log a => cases a <;> first | rfl | cases ha
    | rest timeout => rfl
    | _ => cases ha

end

end Threads

/-- From `join` on, the two threads take no more steps than are known in
advance, whatever their timeouts do and however they interleave. They cannot
stop before both have left; then `close` returns, the files hold what was
accepted, and no power loss takes any of it.

The sum of the two measures bounds the steps, by `joining_work`, and
`joining_ok` is that one of the threads can move. At the end nothing is in
hand or in the buffer, so the files have all of the stream, and all of them
are synced. -/
theorem close_returns {cfg : WalConfig} {gc : GroupCommit} {before : Disk}
    {as bs : List ThreadsAction} {s s' : Threads}
    (hrun : Run (Threads.step cfg gc) (.opened before) as s)
    (hjoin : s.joining = true) (hown : Run (Threads.step cfg gc) s bs s')
    (hbs : ∀ b ∈ bs, b.byThread = true) :
    bs.length ≤ s.work + s.machine.syncer.left
      ∧ ((∃ b s'', b.byThread = true ∧ Threads.step cfg gc b s' = some s'')
        ∨ (∃ s'', Threads.step cfg gc (.log .closeReturn) s' = some s'')
          ∧ fileBytes (s'.disk.drop before.length)
            = logBytes (acceptedIn (as.flatMap ThreadsAction.logged))
          ∧ ∀ kept files,
            Disk.powerLoss (s'.disk.drop before.length) kept = some files →
            fileBytes files
              = logBytes (acceptedIn (as.flatMap ThreadsAction.logged))) := by
  have hreach : (∃ as', Run (Threads.step cfg gc) (.opened before) as' s'
      ∧ s'.joining = true
      ∧ acceptedIn (as'.flatMap ThreadsAction.logged)
        = acceptedIn (as.flatMap ThreadsAction.logged))
      ∧ bs.length + (s'.work + s'.machine.syncer.left)
        ≤ s.work + s.machine.syncer.left := by
    refine Run.bounded
      (fun s => ∃ as', Run (Threads.step cfg gc) (.opened before) as' s
        ∧ s.joining = true
        ∧ acceptedIn (as'.flatMap ThreadsAction.logged)
          = acceptedIn (as.flatMap ThreadsAction.logged))
      (·.byThread = true) (fun s => s.work + s.machine.syncer.left) ?_ hown hbs
      ⟨as, hrun, hjoin, rfl⟩
    rintro s a s' ⟨as', hrun, hjoin, hacc⟩ ha hs
    have hwakeful := Threads.Wakeful.run hrun
    obtain ⟨hjoin', hless⟩ :=
      Threads.joining_work hwakeful (Threads.run_log hrun) hjoin ha hs
    refine ⟨⟨as' ++ [a], .snoc hrun hs, hjoin', ?_⟩, hless⟩
    rw [List.flatMap_append, List.flatMap_singleton, acceptedIn_append, hacc]
    refine List.append_right_eq_self.mpr ?_
    cases a with
    | log a => cases a <;> first | rfl | cases ha
    | rest timeout => rfl
    | _ => cases ha
  obtain ⟨⟨as', hrun', hjoin', hacc⟩, hlen⟩ := hreach
  have hlog := Threads.run_log hrun'
  have hwakeful := Threads.Wakeful.run hrun'
  refine ⟨Nat.le_trans (Nat.le_add_right _ _) hlen, ?_⟩
  -- both have left, or one of them goes on
  by_cases hends : s'.machine.pc = .exited ∧ s'.machine.syncer = .exited
  · have hfiles : fileBytes (s'.disk.drop before.length)
        = logBytes (acceptedIn (as.flatMap ThreadsAction.logged)) := by
      rw [← hacc]
      exact FromOpen.written hlog hends.1
    refine .inr ⟨?_, hfiles, fun kept files hloss => ?_⟩
    · simp only [Threads.step, Threads.logStep, Wal.step]
      rw [if_pos hjoin', if_pos hends]
      exact ⟨_, rfl⟩
    · rw [← hfiles]
      unfold fileBytes
      rw [Disk.powerLoss_full hloss (FromOpen.synced hlog hends.1)]
  · obtain ⟨b, s'', hb, hs⟩ :=
      Threads.joining_ok gc hwakeful hlog hjoin' hends
    exact .inl ⟨b, s'', hb, hs⟩

/-- A record is appended, the log is closed, and its threads are joined. -/
def joins : List ThreadsAction :=
  [.log (.append ⟨[], [⟨7, [⟨1, 2⟩]⟩]⟩ (.ok 45)), .log .close, .join]

/-- They leave. -/
def leaves : List ThreadsAction :=
  passing ++ List.replicate 5 (.log (.flusher 100)) ++ .rest false :: passing
    ++ [.log (.flusher 0), .log (.syncer false)]

theorem close_returns_joined :
    ∃ s s', Run (Threads.step ⟨1000, 1000⟩ ⟨0, 0⟩) (.opened []) joins s
      ∧ Run (Threads.step ⟨1000, 1000⟩ ⟨0, 0⟩) s leaves s'
      ∧ s'.machine.pc = .exited ∧ s'.machine.syncer = .exited
      ∧ leaves.length ≤ s.work + s.machine.syncer.left := by
  have hsome : (exec (Threads.step ⟨1000, 1000⟩ ⟨0, 0⟩) joins
      (.opened [])).map (fun s => (s.joining,
        (exec (Threads.step ⟨1000, 1000⟩ ⟨0, 0⟩) leaves s).map
          fun s => (s.machine.pc, s.machine.syncer)))
        = some (true, some (.exited, .exited)) := by
    decide +kernel
  obtain ⟨s, hjoins, heq⟩ := Option.map_eq_some_iff.mp hsome
  obtain ⟨hjoin, hleaves⟩ := Prod.mk.inj heq
  obtain ⟨s', hleaves, hends⟩ := Option.map_eq_some_iff.mp hleaves
  obtain ⟨hpc, hsyncer⟩ := Prod.mk.inj hends
  refine ⟨s, s', .of_exec hjoins, .of_exec hleaves, hpc, hsyncer, ?_⟩
  exact (close_returns (.of_exec hjoins) hjoin (.of_exec hleaves)
    (by decide)).1

end Tsdb.Wal
