/-
Who has the directories: the LOCK file of `SegmentStore::open`, and the
order in which the fields of `Persistence` are dropped.

# Granularity

An instance has LOCK from its `open_with` on. It loses it with its
`Persistence`, of which `disk` is dropped first, and the LOCK file with it;
only then does `wal` close the log and wait for its threads to drain it.
From there on another instance may take LOCK, and open the directories with
the threads of the first still at work. `Instances` are the one that has
had LOCK last, and the logs of those before it. It reads the files in one
step, as in `System.openWith`; their writes come before it or behind it.

# Why the log has to be drained

A log with nothing left to write does no more than sync (`Wal.Quiet`), and
the next instance does not see the difference (`System.step_same`): so
while every instance takes LOCK of a drained log, it is alone
(`exclusive_if_drained`). Nothing in the drop waits for that.

# How it goes

`Alone` is the invariant. There is a system that is told of as if the
drops had returned before LOCK was taken, and the owner is that system,
but for what of the log is synced. A step of the owner is one of both,
with the same result again (`step_same` goes through all of `System.step`;
only the log has anything to do with syncs, and there it is
`Wal.step_same`). A step of a log of those before is a sync, and changes
nothing that is compared. That a log which is dropped has nobody waiting
for a cut, so that drained is enough for `Quiet`, comes from the lock:
only an open database is in a cut (`Phase.Unlocked`).

# The other case

`lock_before_drain` is a run in which the log was not drained. The second
instance lists the log's files, the flusher of the first writes behind
that, and the second removes the file: a write that had been accepted is
in no file any more.
-/
import Tsdb.Db.Emptied
import Tsdb.Db.Restart
import Tsdb.Wal.Drained

namespace Tsdb

open Lib (exec extend)
open Wal (Disk Machine Quiet WalConfig WalError)

variable {json : Json} {cfg : WalConfig} {t : Tale} {s s' s₁ : System}
  {events : List Event} {e : Event}

-- ============================================================ the same system

/-- Two systems are the same, but for what of the log is synced. -/
structure System.Same (s s₁ : System) : Prop where
  data : s.data = s₁.data
  log : s.log.Same s₁.log
  phase : s.phase = s₁.phase

namespace System.Same

theorem refl (s : System) : s.Same s := ⟨rfl, .refl s.log, rfl⟩

theorem symm (h : s.Same s₁) : s₁.Same s :=
  ⟨h.data.symm, h.log.symm, h.phase.symm⟩

/-- What a query returns. -/
theorem query (h : s.Same s₁) (json : Json) (matchers : List Matcher)
    (range : TimeRange) :
    s.query json matchers range = s₁.query json matchers range := by
  unfold System.query
  rw [h.data, h.phase]

theorem ready (h : s.Same s₁) (hready : s₁.Ready) : s.Ready := by
  obtain ⟨db, hphase, hpc, hfailed⟩ := hready
  exact ⟨db, h.phase.trans hphase, hpc, hfailed⟩

end System.Same

/-- Files that are removed. -/
private theorem unlink_same {disk disk₁ : Disk} (h : disk.Same disk₁)
    (removed : List Nat) :
    Option.Rel Disk.Same (removed.foldlM Disk.unlink disk)
      (removed.foldlM Disk.unlink disk₁) := by
  induction removed generalizing disk disk₁ with
  | nil => exact .some h
  | cons id removed ih =>
      rw [List.foldlM_cons, List.foldlM_cons]
      exact Lib.rel_bind (h.unlink id) fun _ _ hsame => ih hsame

private theorem write_same {disk disk₁ : Disk} (h : disk.Same disk₁)
    (cfg : WalConfig) (batch : WriteBatch) (result : Except WalError Nat)
    (db : Db) :
    Option.Rel (fun r r₁ => r.1.Same r₁.1 ∧ r.2 = r₁.2)
      (db.write cfg batch result disk) (db.write cfg batch result disk₁) := by
  unfold Db.write
  split
  · refine Lib.rel_map (Wal.step_same h cfg _ db.wal) ?_
    rintro ⟨log, wal⟩ ⟨log₁, wal₁⟩ ⟨hsame, rfl⟩
    cases result with
    | error e => exact ⟨hsame, rfl⟩
    | ok lsn => exact ⟨hsame, rfl⟩
  · exact .none

private theorem walStep_same {disk disk₁ : Disk} (h : disk.Same disk₁)
    (cfg : WalConfig) (a : Wal.Action) (db : Db) :
    Option.Rel (fun r r₁ => r.1.Same r₁.1 ∧ r.2 = r₁.2)
      (db.walStep cfg a disk) (db.walStep cfg a disk₁) := by
  unfold Db.walStep
  split
  · refine Lib.rel_bind (Wal.step_same h cfg a db.wal) ?_
    rintro ⟨log, wal⟩ ⟨log₁, wal₁⟩ ⟨hsame, rfl⟩
    simp only
    cases ({ db with wal } : Db).returned a with
    | some db' => exact .some ⟨hsame, rfl⟩
    | none => exact .none
  · exact .none

namespace System

/-- Reading the files. -/
private theorem openWith_same (h : s.Same s₁) (json : Json) (max : Nat)
    (reads : Nat → Nat → Nat) :
    (s.openWith json max reads).Same (s₁.openWith json max reads) := by
  unfold openWith
  rw [h.data, h.log.dir]
  split
  · exact h
  · split
    · exact h
    · split
      · exact h
      · exact ⟨rfl, h.log, rfl⟩

section

variable {data : DataDir} {log log₁ : Disk}

/-- A crash. -/
private theorem crash_same (hlog : log.Same log₁) (json : Json)
    (cfg : WalConfig) (removed : List Nat) (phase : Phase) :
    Option.Rel Same (step json cfg (.crash removed) ⟨data, log, phase⟩)
      (step json cfg (.crash removed) ⟨data, log₁, phase⟩) := by
  simp only [step]
  split
  · exact Lib.rel_map (unlink_same hlog removed)
      fun _ _ hsame => ⟨rfl, hsame, rfl⟩
  · exact .none

/-- Within `open_with`. -/
private theorem opening_same (hlog : log.Same log₁) (json : Json)
    (cfg : WalConfig) (e : Event) (o : Opening) (stage : Wal.Opening) :
    Option.Rel Same (step json cfg e ⟨data, log, .opening o stage⟩)
      (step json cfg e ⟨data, log₁, .opening o stage⟩) := by
  cases e with
  | setLen =>
      cases stage with
      | setLen id offset next => exact .some ⟨rfl, hlog.setLen id offset, rfl⟩
      | _ => exact .none
  | syncAll =>
      cases stage with
      | syncAll id next => exact .some ⟨rfl, hlog.syncAll id, rfl⟩
      | _ => exact .none
  | create =>
      cases stage with
      | create next =>
          refine Lib.rel_map (hlog.create next) fun _ _ hsame => ?_
          exact ⟨rfl, hsame, by rw [hlog.length]⟩
      | _ => exact .none
  | syncDir =>
      cases stage with
      | syncDir id file => exact .some ⟨rfl, hlog.syncDir, rfl⟩
      | _ => exact .none
  | fault => exact .some ⟨rfl, hlog, rfl⟩
  | crash removed => exact crash_same hlog json cfg removed _
  | _ => exact .none

/-- An open database. -/
private theorem running_same (hlog : log.Same log₁) (json : Json)
    (cfg : WalConfig) (e : Event) (db : Db) :
    Option.Rel Same (step json cfg e ⟨data, log, .running db⟩)
      (step json cfg e ⟨data, log₁, .running db⟩) := by
  cases e with
  | write batch result =>
      exact Lib.rel_map (write_same hlog cfg batch result db)
        fun _ _ hsame => ⟨rfl, hsame.1, congrArg Phase.running hsame.2⟩
  | wal a =>
      exact Lib.rel_map (walStep_same hlog cfg a db)
        fun _ _ hsame => ⟨rfl, hsame.1, congrArg Phase.running hsame.2⟩
  | flush | drop =>
      simp only [step]
      split
      · exact .some ⟨rfl, hlog, rfl⟩
      · exact .none
  | store n =>
      simp only [step]
      cases db.storeStep json n data with
      | some r => exact .some ⟨rfl, hlog, rfl⟩
      | none => exact .none
  | fault =>
      simp only [step]
      cases db.pc with
      | flush who cut job => exact .some ⟨rfl, hlog, rfl⟩
      | remove who through => exact .some ⟨rfl, hlog, rfl⟩
      | _ => exact .none
  | crash removed => exact crash_same hlog json cfg removed _
  | _ => exact .none

/-- A dropped one, whose log is drained. -/
private theorem closing_same (hlog : log.Same log₁) (json : Json)
    (cfg : WalConfig) (e : Event) (wal : Machine) :
    Option.Rel Same (step json cfg e ⟨data, log, .closing wal⟩)
      (step json cfg e ⟨data, log₁, .closing wal⟩) := by
  cases e with
  | wal a =>
      have hstep := Wal.step_same hlog cfg a wal
      by_cases ha : a = .closeReturn
      · subst ha
        exact Lib.rel_map hstep fun _ _ hsame => ⟨rfl, hsame.1, rfl⟩
      · simp only [step]
        split
        · exact Lib.rel_map hstep fun _ _ hsame =>
            ⟨rfl, hsame.1, congrArg Phase.closing hsame.2⟩
        · exact .none
  | crash removed => exact crash_same hlog json cfg removed _
  | _ => exact .none

end

/-- Nothing that a process does depends on what of the log is synced. In each
phase and for each event the two runs are both stuck, or both go on, to
states that differ again in what is synced only; where the log moves this is
`Wal.step_same`. -/
theorem step_same (h : s.Same s₁) (json : Json) (cfg : WalConfig)
    (e : Event) :
    Option.Rel Same (step json cfg e s) (step json cfg e s₁) := by
  obtain ⟨data, log, phase⟩ := s
  obtain ⟨data₁, log₁, phase₁⟩ := s₁
  obtain ⟨hdata, hlog, hphase⟩ := h
  cases hdata
  cases hphase
  replace hlog : log.Same log₁ := hlog
  cases phase with
  | opening o stage => exact opening_same hlog json cfg e o stage
  | running db => exact running_same hlog json cfg e db
  | closing wal => exact closing_same hlog json cfg e wal
  | down =>
      cases e with
      | openWith max reads =>
          have hsame : Same ⟨data, log, .down⟩ ⟨data, log₁, .down⟩ :=
            ⟨rfl, hlog, rfl⟩
          exact .some (openWith_same hsame json max reads)
      | crash removed => exact crash_same hlog json cfg removed _
      | _ => exact .none

theorem exec_same (h : s.Same s₁)
    (hrun : exec (step json cfg) events s = some s') :
    ∃ s₁', exec (step json cfg) events s₁ = some s₁' ∧ s'.Same s₁' := by
  induction events generalizing s s₁ with
  | nil =>
      cases hrun
      exact ⟨s₁, rfl, h⟩
  | cons e events ih =>
      obtain ⟨s₂, hs, hrest⟩ := Option.bind_eq_some_iff.mp hrun
      obtain ⟨s₃, hs₁, hsame⟩ := Lib.rel_some (step_same h json cfg e) hs
      obtain ⟨s₁', hrest', hsame'⟩ := ih hsame hrest
      exact ⟨s₁', Option.bind_eq_some_iff.mpr ⟨s₃, hs₁, hrest'⟩, hsame'⟩

end System

-- ================================================================ nobody waits

/-- The lock of a cut is free, unless an open database is in one. -/
def Phase.Unlocked : Phase → Prop
  | .running db => (∀ who, db.pc ≠ .cut who) → db.wal.shared.serial = none
  | .closing wal => wal.shared.serial = none
  | _ => True

private theorem Db.WalStep.unlocked {a : Wal.Action} {log log' : Disk}
    {db db' : Db} (h : db.WalStep cfg log a log' db')
    (hfree : (Phase.running db).Unlocked) : (Phase.running db').Unlocked := by
  cases h with
  | goOn hallow hcut hremove hstep =>
      intro hpc
      refine (Wal.step_serial ?_ hstep).trans (hfree hpc)
      cases a with
      | cutLock caller | cutRequest caller =>
          cases hat : db.pc with
          | cut who => exact absurd hat (hpc who)
          | _ => simp [Db.allows, hat] at hallow
      | cutReturn caller closed => exact absurd rfl (hcut caller closed)
      | _ => rfl
  | cut hpc hstep hstart =>
      intro _
      rw [(Db.wal_startFlush hstart).1]
      simp only [Wal.step] at hstep
      split at hstep <;> cases hstep
      rfl
  | removed hpc hstep =>
      intro _
      exact (Wal.step_serial rfl hstep).trans (hfree (by rw [hpc]; simp))

/-- Whatever the step is, the lock of a cut is free behind it, unless an
open database is in a cut. The steps of a cut itself need nothing; a step of
another call leaves the lock alone, and an error comes where it is free. -/
private theorem System.unlocked_step (h : s.phase.Unlocked)
    (hs : System.step json cfg e s = some s') : s'.phase.Unlocked := by
  cases System.Step.of_step hs with
  | @openWith max reads hphase =>
      rcases System.openWith_cases json max reads s
        with heq | ⟨o, stage, heq, -⟩
      · rw [heq]
        exact h
      · rw [heq]
        trivial
  | @syncDir o id file hphase =>
      intro _
      unfold Opening.open_
      cases o.last <;> rfl
  | write hphase hwrite =>
      rw [hphase] at h
      obtain ⟨hpc, -, -, hcases⟩ := Db.write_cases hwrite
      have hfree := h (by rw [hpc]; simp)
      rcases hcases with ⟨_, -, -, rfl⟩ | ⟨lsn, wal, -, hstep, hdb⟩
      · exact fun _ => hfree
      · have hsame := (Wal.step_serial rfl hstep).trans hfree
        rcases hdb with rfl | rfl
        · exact fun _ => hsame
        · exact fun _ => hsame
  | flush hphase hpc =>
      rw [hphase] at h
      exact fun _ => h (by rw [hpc]; simp)
  | wal hphase hwal =>
      rw [hphase] at h
      exact hwal.unlocked h
  | @store db db' n data hphase hstore =>
      rw [hphase] at h
      intro _
      rw [(Db.wal_storeStep hstore).1]
      refine h fun who hpc => ?_
      unfold Db.storeStep at hstore
      rw [hpc] at hstore
      cases hstore
  | @flushFault db who cut job hphase hpc =>
      rw [hphase] at h
      have hfree := h (by rw [hpc]; simp)
      cases who with
      | operation => exact fun _ => hfree
      | opening last => exact hfree
      | opened => exact hfree
  | @removeFault db who through hphase hpc =>
      rw [hphase] at h
      have hfree := h (by rw [hpc]; simp)
      cases who with
      | operation => exact fun _ => hfree
      | opening last => exact hfree
      | opened => exact hfree
  | drop hphase hpc =>
      rw [hphase] at h
      exact h (by rw [hpc]; simp)
  | @drain wal wal' a log hphase ha hstep =>
      rw [hphase] at h
      refine (Wal.step_serial ?_ hstep).trans h
      cases a with
      | flusher | syncer | close => rfl
      | _ => cases ha
  | _ => trivial

-- ================================================================ a handover

namespace Leaves

variable {data : DataDir} {disk : Disk} {m : Machine}

/-- A log that is dropped has nobody waiting. -/
private theorem quiet (h : Leaves json t data disk m) (hdrained : m.Drained)
    (hfree : m.shared.serial = none) : Quiet m := by
  obtain ⟨old, actions, log, hand, buffer, n, h⟩ := h
  obtain ⟨hunasked, -, huncut⟩ := h.journal.cuts.quiet (by
    unfold Wal.Shared.waiting
    rw [hfree]
    rfl)
  exact ⟨hdrained, hunasked, huncut⟩

/-- If it is drained as well, it has lost nothing. -/
private theorem drained (h : Leaves json t data disk m)
    (hdrained : m.Drained) :
    Rests json (t.next (.wal .closeReturn)) data disk := by
  obtain ⟨hbuf, hspent⟩ := hdrained
  cases hpc : m.pc with
  | write end_ done =>
      -- the batch is written, and the flusher is about to find so
      rw [hpc] at hspent
      have hdone : ¬ done < m.spare.length := by
        simpa [Wal.FlusherPc.spent] using hspent
      have hs : Wal.step ⟨0, 0⟩ (.flusher 0) (disk, m) = some (disk, { m with
          seg := { m.seg with written := m.seg.written + m.spare.length }
          pc := .publish end_ }) := by
        simp only [Wal.step, Wal.flusherStep, hpc, if_neg hdone]
      exact (h.drain rfl hs).empty hbuf rfl
  | batch end_ =>
      rw [hpc] at hspent
      cases hspent
  | rotate stage why =>
      rw [hpc] at hspent
      cases why with
      | batch end_ => cases hspent
      | cut => exact h.empty hbuf (by rw [hpc]; rfl)
  | _ => exact h.empty hbuf (by rw [hpc]; rfl)

end Leaves

-- ================================================================== instances

/-- The instance that has had LOCK last, with the two directories, and the
logs of those that were dropped before it. -/
structure Instances where
  owner : System := {}
  left : List Machine := []

/-- A step of the owner; a successful `try_lock` of another instance, which
is then the owner; a step of a log of those before. -/
inductive Turn
  | owner (e : Event)
  | lock
  | left (i : Nat) (a : Wal.Action)

/-- The event that the turn is in the tale of all instances: the next one
finds what is there as if the drop had returned. -/
def Turn.told : Turn → List Event
  | .owner e => [e]
  | .lock => [.wal .closeReturn]
  | .left _ _ => []

namespace Instances

/-- The transition function. An open instance has LOCK, and so has one that
is opening: `try_lock` fails. Where nobody has it, `open_with` is that of
the next instance (`System.openWith`). -/
def step (json : Json) (cfg : WalConfig) (turn : Turn) (p : Instances) :
    Option Instances :=
  match turn with
  | .owner e =>
      (System.step json cfg e p.owner).map fun owner => { p with owner }
  | .lock =>
      match p.owner.phase with
      | .closing wal => some {
          owner := { p.owner with phase := .down }
          left := p.left ++ [wal] }
      | _ => none
  | .left i a =>
      match p.left[i]? with
      | some wal =>
          if drains a then
            (Wal.step cfg a (p.owner.log, wal)).map fun (log, wal) => {
              owner := { p.owner with log }
              left := p.left.set i wal }
          else none
      | none => none

/-- The steps, one by one. -/
inductive Step (json : Json) (cfg : WalConfig) (p : Instances) :
    Turn → Instances → Prop
  | owner {e : Event} {owner : System}
      (hstep : System.step json cfg e p.owner = some owner) :
      Step json cfg p (.owner e) { p with owner }
  | lock {wal : Machine} (hphase : p.owner.phase = .closing wal) :
      Step json cfg p .lock {
        owner := { p.owner with phase := .down }
        left := p.left ++ [wal] }
  | left {i : Nat} {a : Wal.Action} {wal wal' : Machine} {log : Disk}
      (hwal : p.left[i]? = some wal) (ha : drains a = true)
      (hstep : Wal.step cfg a (p.owner.log, wal) = some (log, wal')) :
      Step json cfg p (.left i a) {
        owner := { p.owner with log }
        left := p.left.set i wal' }

/-- There are no others. -/
theorem Step.of_step {turn : Turn} {p p' : Instances}
    (h : step json cfg turn p = some p') : Step json cfg p turn p' := by
  unfold step at h
  split at h
  · obtain ⟨owner, hstep, rfl⟩ := Option.map_eq_some_iff.mp h
    exact .owner hstep
  · split at h
    · rename_i hphase
      cases h
      exact .lock hphase
    · cases h
  · split at h
    · rename_i hwal
      split at h
      · rename_i ha
        obtain ⟨⟨log, wal'⟩, hstep, rfl⟩ := Option.map_eq_some_iff.mp h
        exact .left hwal ha hstep
      · cases h
    · cases h

/-- Every instance takes LOCK of one whose log is drained. -/
def TakesDrained (json : Json) (cfg : WalConfig) (turns : List Turn) : Prop :=
  ∀ before after p wal, turns = before ++ .lock :: after →
    exec (step json cfg) before {} = some p →
    p.owner.phase = .closing wal → wal.Drained

/-- The owner is alone with its directories, and has these writes: a log of
those before it neither rotates nor makes a `write` call, and none of its
steps changes a file; and when the owner is open, it answers a query with
what was accepted. -/
structure Exclusive (json : Json) (cfg : WalConfig)
    (writes : List WriteBatch) (p : Instances) : Prop where
  idle : ∀ wal ∈ p.left, wal.writes = false
  still : ∀ i a p', step json cfg (.left i a) p = some p' →
    p'.owner.log.Same p.owner.log
  visible : p.owner.Ready → ∀ range : TimeRange, range.start ≤ range.end_ →
    ∃ results, p.owner.query json [] range = some (.ok results)
      ∧ ∀ ls, samplesFor results ls = (extend Sample.timestamp []
          (written writes ls)).filter (·.inTimerange range)

/-- What holds while the logs that are taken over are drained: what is told
of the owner is told but for what of the log is synced. -/
structure Alone (json : Json) (t : Tale) (p : Instances) : Prop where
  tells : ∃ s : System, s.Tells json t ∧ s.Same p.owner
  unlocked : p.owner.phase.Unlocked
  quiet : ∀ wal ∈ p.left, Quiet wal

variable {p p' : Instances} {turns : List Turn}

namespace Alone

theorem empty (json : Json) : Alone json {} {} :=
  ⟨⟨{}, .empty json, .refl {}⟩, trivial, by simp⟩

/-- A step of the owner that is no crash. -/
private theorem owner (hjson : json.Lawful) (h : p.Alone json t)
    (he : ∀ removed, e ≠ .crash removed)
    (hs : System.step json cfg e p.owner = some s') :
    Alone json (t.next e) { p with owner := s' } := by
  obtain ⟨s, htells, hsame⟩ := h.tells
  obtain ⟨s₁, hs₁, hsame₁⟩ :=
    Lib.rel_some (System.step_same hsame.symm json cfg e) hs
  exact ⟨⟨s₁, htells.step hjson he hs₁, hsame₁.symm⟩,
    System.unlocked_step h.unlocked hs, h.quiet⟩

/-- A crash of the owner takes writes that are not safe. -/
private theorem crash (h : p.Alone json t) {removed : List Nat}
    (hs : System.step json cfg (.crash removed) p.owner = some s') :
    ∃ k, t.safe ≤ k ∧ k ≤ t.writes.length
      ∧ Alone json (t.crash k) { p with owner := s' } := by
  obtain ⟨s, htells, hsame⟩ := h.tells
  obtain ⟨s₁, hs₁, hsame₁⟩ :=
    Lib.rel_some (System.step_same hsame.symm json cfg _) hs
  obtain ⟨k, hsafe, hk, htells₁⟩ := htells.crash hs₁
  exact ⟨k, hsafe, hk, ⟨s₁, htells₁, hsame₁.symm⟩,
    System.unlocked_step h.unlocked hs, h.quiet⟩

/-- Another instance takes LOCK. -/
private theorem lock (h : p.Alone json t) {wal : Machine}
    (hphase : p.owner.phase = .closing wal) (hdrained : wal.Drained) :
    Alone json (t.next (.wal .closeReturn)) {
      owner := { p.owner with phase := .down }
      left := p.left ++ [wal] } := by
  obtain ⟨s, htells, hsame⟩ := h.tells
  have hleaves := htells.closes (hsame.phase.trans hphase)
  have hfree := h.unlocked
  rw [hphase] at hfree
  refine ⟨⟨{ s with phase := .down }, .down rfl (hleaves.drained hdrained),
    ⟨hsame.data, hsame.log, rfl⟩⟩, trivial, fun wal' hwal' => ?_⟩
  rcases List.mem_append.mp hwal' with hwal' | hwal'
  · exact h.quiet wal' hwal'
  · rw [List.mem_singleton.mp hwal']
    exact hleaves.quiet hdrained hfree

/-- A step of a log of those before. -/
private theorem left (h : p.Alone json t) {i : Nat} {a : Wal.Action}
    {wal wal' : Machine} {log : Disk} (hwal : p.left[i]? = some wal)
    (ha : drains a = true)
    (hs : Wal.step cfg a (p.owner.log, wal) = some (log, wal')) :
    log.Same p.owner.log ∧ Alone json t {
      owner := { p.owner with log }
      left := p.left.set i wal' } := by
  have hquiet := h.quiet wal (List.mem_of_getElem? hwal)
  obtain ⟨hquiet', hlog⟩ : Quiet wal' ∧ log.Same p.owner.log := by
    cases a with
    | flusher n => exact hquiet.flusher (.of_step hs)
    | syncer due => exact hquiet.syncer hs
    | close => exact hquiet.close hs
    | _ => cases ha
  obtain ⟨s, htells, hsame⟩ := h.tells
  refine ⟨hlog, ⟨s, htells, hsame.data, hsame.log.trans hlog.symm,
    hsame.phase⟩, h.unlocked, fun wal₁ hwal₁ => ?_⟩
  rcases List.mem_or_eq_of_mem_set hwal₁ with hin | rfl
  · exact h.quiet wal₁ hin
  · exact hquiet'

/-- So the owner is alone, and has the writes that stand. -/
private theorem exclusive (h : p.Alone json t) (cfg : WalConfig) :
    p.Exclusive json cfg t.writes := by
  refine ⟨fun wal hwal => (h.quiet wal hwal).writes_eq_false, ?_, ?_⟩
  · intro i a p' hs
    cases Step.of_step hs with
    | left hwal ha hstep => exact (h.left hwal ha hstep).1
  · intro hready range hrange
    obtain ⟨s, htells, hsame⟩ := h.tells
    obtain ⟨results, hquery, hsamples⟩ :=
      htells.samples (hsame.ready hready) hrange
    exact ⟨results, hsame.query json [] range ▸ hquery, hsamples⟩

end Alone

/-- The induction over the run: as long as every instance that has taken
LOCK has found the log of the one before drained, the threads that are left
have nothing to write, and the owner is alone with the files. -/
private theorem alone (hjson : json.Lawful)
    (hrun : exec (step json cfg) turns {} = some p)
    (hdrained : TakesDrained json cfg turns) :
    ∃ t, Tale.Of (turns.flatMap Turn.told) t ∧ p.Alone json t := by
  induction turns using List.reverseRecOn generalizing p with
  | nil =>
      cases hrun
      exact ⟨{}, .start, .empty json⟩
  | append_singleton turns turn ih =>
      obtain ⟨p₁, hturns, hlast⟩ := Lib.exec_split hrun
      obtain ⟨p₂, hs, hnil⟩ := Option.bind_eq_some_iff.mp hlast
      cases hnil
      have hbefore : TakesDrained json cfg turns := by
        rintro before after q wal rfl
        exact hdrained before (after ++ [turn]) q wal (by simp)
      obtain ⟨t, hof, halone⟩ := ih hturns hbefore
      rw [List.flatMap_append, List.flatMap_singleton]
      cases Step.of_step hs with
      | @owner e s' hstep =>
          by_cases he : ∃ removed, e = .crash removed
          · obtain ⟨removed, rfl⟩ := he
            obtain ⟨k, hsafe, hk, h⟩ := halone.crash hstep
            exact ⟨t.crash k, .crash hof hsafe hk, h⟩
          · have hno : ∀ removed, e ≠ .crash removed :=
              fun removed hcrash => he ⟨removed, hcrash⟩
            exact ⟨t.next e, .next hof hno, halone.owner hjson hno hstep⟩
      | @lock wal hphase =>
          have hwal := hdrained turns [] p₁ wal rfl hturns hphase
          exact ⟨_, .next hof (by simp), halone.lock hphase hwal⟩
      | left hwal ha hstep =>
          refine ⟨t, ?_, (halone.left hwal ha hstep).2⟩
          show Tale.Of (_ ++ []) t
          rw [List.append_nil]
          exact hof

/-- Nobody takes LOCK. -/
theorem exec_owner (h : exec (System.step json cfg) events s = some s')
    (left : List Machine) :
    exec (step json cfg) (events.map .owner) { owner := s, left }
      = some { owner := s', left } := by
  induction events generalizing s with
  | nil =>
      cases h
      rfl
  | cons e events ih =>
      obtain ⟨s₁, hs, hrest⟩ := Option.bind_eq_some_iff.mp h
      have hstep : step json cfg (.owner e) { owner := s, left }
          = some { owner := s₁, left } := by
        simp only [step, hs, Option.map_some]
      rw [List.map_cons, exec, hstep]
      exact ih hrest

/-- Behind a LOCK taken of a drained log the directories can be opened. -/
theorem reopens (hjson : json.Lawful) (htotal : json.Total)
    (hrun : exec (step json cfg) turns {} = some p)
    (hdrained : TakesDrained json cfg turns) (hdown : p.owner.phase = .down)
    {max : Nat} (hmax : max ≠ 0) (reads : Nat → Nat → Nat) :
    ∃ es p', (∀ e ∈ es, e.goesOn = true)
      ∧ exec (step json cfg) ((.openWith max reads :: es).map .owner) p
        = some p'
      ∧ p'.owner.Ready ∧ p'.left = p.left := by
  obtain ⟨t, -, h⟩ := alone hjson hrun hdrained
  obtain ⟨s, htells, hsame⟩ := h.tells
  have hphase : s.phase = .down := hsame.phase.trans hdown
  have hopens : s.Opens json cfg := htells.opens hjson htotal hphase
  obtain ⟨es, s', hes, hopened, hready⟩ := hopens.reopen hphase hmax reads
  obtain ⟨owner, hopened', hsame'⟩ := System.exec_same hsame hopened
  exact ⟨es, _, hes, exec_owner hopened' p.left,
    hsame'.symm.ready hready, rfl⟩

end Instances

/-- While every instance takes LOCK of one whose log is drained, the owner is
alone with its directories and has every write that stands, whatever the
instances before it go on to do. -/
theorem exclusive_if_drained {p : Instances} {turns : List Turn}
    (hjson : json.Lawful)
    (hrun : exec (Instances.step json cfg) turns {} = some p)
    (hdrained : Instances.TakesDrained json cfg turns) :
    ∃ t, Tale.Of (turns.flatMap Turn.told) t
      ∧ p.Exclusive json cfg t.writes := by
  obtain ⟨t, hof, halone⟩ := Instances.alone hjson hrun hdrained
  exact ⟨t, hof, halone.exclusive cfg⟩

section Handover

private def cfg₂ : WalConfig := ⟨100, 0⟩

private def openTurns : List Turn := (openEmpty 2).map .owner

private theorem exec_opened₂ {p : Instances} {turns : List Turn}
    (h : exec (Instances.step Json.sample cfg₂) turns
      { owner := .opened 2 } = some p) :
    exec (Instances.step Json.sample cfg₂) (openTurns ++ turns) {}
      = some p := by
  refine Lib.exec_append (Instances.exec_owner ?_ []) h
  exact System.exec_open_empty Json.sample cfg₂ Nat.zero_lt_two _

/-- A write, of which the flusher writes the record before the drop. -/
private def drainTurns : List Turn :=
  .owner (.write (writeAt 5) (.ok 70))
    :: List.replicate 6 (.owner (.wal (.flusher 70))) ++ [.owner .drop]

private def Instances.drained (p : Instances) : Bool :=
  match p.owner.phase with
  | .closing wal => wal.Drained
  | _ => false

private theorem drain_turns :
    ∃ p, exec (Instances.step Json.sample cfg₂) (openTurns ++ drainTurns) {}
        = some p
      ∧ p.left = []
      ∧ ∃ wal, p.owner.phase = .closing wal ∧ wal.Drained := by
  have hseen : (exec (Instances.step Json.sample cfg₂) drainTurns
      { owner := .opened 2 }).map (fun p => p.left.isEmpty && p.drained)
      = some true := by decide +kernel
  obtain ⟨p, hrun, hseen⟩ := Option.map_eq_some_iff.mp hseen
  rw [Bool.and_eq_true, List.isEmpty_iff] at hseen
  obtain ⟨hleft, hdrained⟩ := hseen
  refine ⟨p, exec_opened₂ hrun, hleft, ?_⟩
  unfold Instances.drained at hdrained
  split at hdrained
  · rename_i wal hphase
    exact ⟨wal, hphase, of_decide_eq_true hdrained⟩
  · cases hdrained

private theorem told_map (es : List Event) :
    (es.map Turn.owner).flatMap Turn.told = es := by
  rw [List.flatMap_map]
  exact List.flatMap_singleton' es

/-- The next instance takes LOCK, opens the directories, and answers with
the sample of the first. The threads of the first are left over, and have
nothing to do. -/
theorem exclusive_if_drained_once :
    ∃ (es : List Event) (turns : List Turn) (p : Instances) (t : Tale)
      (results : List SeriesResult),
      turns = openTurns ++ drainTurns ++ .lock
        :: (.openWith 2 (fun _ _ => 0) :: es).map .owner
      ∧ exec (Instances.step Json.sample ⟨100, 0⟩) turns {} = some p
      ∧ p.left.length = 1 ∧ Tale.Of (turns.flatMap Turn.told) t
      ∧ p.Exclusive Json.sample ⟨100, 0⟩ t.writes ∧ p.owner.Ready
      ∧ p.owner.query Json.sample [] ⟨0, 9⟩ = some (.ok results)
      ∧ samplesFor results ⟨[⟨"host", "a"⟩]⟩ = [⟨5, 7⟩] := by
  obtain ⟨p, hrun, hnone, wal, hphase, hdrained⟩ := drain_turns
  have hlock : exec (Instances.step Json.sample cfg₂) [.lock] p = some {
      owner := { p.owner with phase := .down }
      left := p.left ++ [wal] } := by
    simp only [exec, Instances.step, hphase, Option.bind_some]
  have hall := Lib.exec_append hrun hlock
  have htakes : ∀ es : List Event, Instances.TakesDrained Json.sample cfg₂
      (openTurns ++ drainTurns ++ .lock :: es.map .owner) := by
    intro es before after q wal' hsplit hq hphase'
    obtain ⟨rfl, -, -⟩ := (List.append_cons_inj_of_notMem
      (by simp [openTurns, drainTurns]) (by simp)).mp hsplit
    rw [hrun] at hq
    cases hq
    rw [hphase] at hphase'
    cases hphase'
    exact hdrained
  obtain ⟨es, p', hes, hopened, hready, hleft⟩ := Instances.reopens
    Json.sample_lawful Json.sample_total hall (htakes []) rfl
    (Nat.succ_ne_zero 1) fun _ _ => 0
  have hwhole := Lib.exec_append hall hopened
  rw [List.append_assoc, List.singleton_append] at hwhole
  obtain ⟨t, hof, h⟩ :=
    exclusive_if_drained Json.sample_lawful hwhole (htakes _)
  obtain ⟨results, hquery, hsamples⟩ := h.visible hready ⟨0, 9⟩ (by decide)
  refine ⟨es, _, p', t, results, rfl, hwhole, ?_, hof, h, hready, hquery, ?_⟩
  · rw [hleft, hnone]
    rfl
  · have hwrites : t.writes = [writeAt 5] := by
      rw [Tale.of_iff ?_] at hof
      · rw [hof, List.flatMap_append, List.flatMap_cons, List.foldl_append,
          List.foldl_append, List.map_cons, List.flatMap_cons,
          List.foldl_append, told_map]
        exact Tale.writes_goesOn hes
      · intro removed hin
        rw [List.flatMap_append, List.flatMap_cons, told_map] at hin
        have hes' : .crash removed ∈ es := by
          simpa [openTurns, openEmpty, drainTurns, Turn.told] using hin
        cases hes _ hes'
    rw [hsamples, hwrites]
    decide +kernel

/-- A write and a drop, at once; the next instance takes LOCK, opens the
directories up to its listing of the log; the first takes the batch. -/
private def raceTurns : List Turn :=
  [.owner (.write (writeAt 5) (.ok 70)), .owner .drop, .lock] ++ openTurns
    ++ [.owner (.wal (.removeBound 0 1 1))]
    ++ List.replicate 4 (.left 0 (.flusher 70))

private def removeTurns : List Turn :=
  [.owner (.wal (.removeFile 0 1)), .owner (.wal (.removeReturn 0 [1]))]

/-- The owner is between two operations and answers with nothing, and the
flusher of the first changes a file. -/
private noncomputable def Instances.loses (p : Instances) : Bool :=
  p.owner.glance == some (.idle, false, 0, [0])
    && (match p.owner.query Json.sample [] ⟨0, 9⟩ with
      | some (.ok []) => true
      | _ => false)
    && (Instances.step Json.sample cfg₂ (.left 0 (.flusher 70)) p).any
      fun p' => !decide (p'.owner.log.Same p.owner.log)

/-- The second instance has removed the file that the record is on its way
to. -/
private theorem race_turns :
    ∃ p, exec (Instances.step Json.sample cfg₂) (openTurns ++ (raceTurns
          ++ .owner (.wal (.removeList 0 [1])) :: removeTurns)) {} = some p
      ∧ p.loses = true := by
  have hseen : (((exec (Instances.step Json.sample cfg₂) raceTurns
      { owner := .opened 2 }).bind fun p =>
        (p.owner.listed 0 [1]).map fun owner => { p with owner }).bind
          (exec (Instances.step Json.sample cfg₂) removeTurns)).map
            Instances.loses = some true := by decide +kernel
  obtain ⟨p, hrun, hloses⟩ := Option.map_eq_some_iff.mp hseen
  obtain ⟨p₂, hlist, hremove⟩ := Option.bind_eq_some_iff.mp hrun
  obtain ⟨p₁, hrace, hlist⟩ := Option.bind_eq_some_iff.mp hlist
  obtain ⟨owner, hlisted, rfl⟩ := Option.map_eq_some_iff.mp hlist
  refine ⟨p, exec_opened₂ (Lib.exec_append hrace ?_), hloses⟩
  have hstep : Instances.step Json.sample cfg₂
      (.owner (.wal (.removeList 0 [1]))) p₁ = some { p₁ with owner } := by
    simp only [Instances.step, System.step_listed Json.sample cfg₂ hlisted,
      Option.map_some]
  rw [exec, hstep]
  exact hremove

/-- LOCK is free before the log is drained: the second instance opens
without the write of the first, whose record goes to a file that is no more. -/
theorem lock_before_drain :
    ∃ (turns : List Turn) (p : Instances) (t : Tale),
      exec (Instances.step Json.sample ⟨100, 0⟩) turns {} = some p
      ∧ Tale.Of (turns.flatMap Turn.told) t ∧ t.writes = [writeAt 5]
      ∧ p.owner.Ready
      ∧ p.owner.query Json.sample [] ⟨0, 9⟩ = some (.ok [])
      ∧ ∀ writes, ¬ p.Exclusive Json.sample ⟨100, 0⟩ writes := by
  obtain ⟨p, hrun, hloses⟩ := race_turns
  simp only [Instances.loses, Bool.and_eq_true, beq_iff_eq, Option.any_eq_true,
    Bool.not_eq_true', decide_eq_false_iff_not] at hloses
  obtain ⟨⟨hopen, hquery⟩, p', hstep, hchanges⟩ := hloses
  refine ⟨_, p, _, hrun, (Tale.of_iff ?_).mpr rfl, rfl, ?_, ?_, ?_⟩
  · simp [openTurns, openEmpty, raceTurns, removeTurns, Turn.told]
  · obtain ⟨db, hphase, hpc, hfailed, -⟩ := System.glance_running hopen
    exact ⟨db, hphase, hpc, hfailed⟩
  · split at hquery
    · assumption
    · cases hquery
  · exact fun writes h => hchanges (h.still 0 (.flusher 70) p' hstep)

end Handover

end Tsdb
