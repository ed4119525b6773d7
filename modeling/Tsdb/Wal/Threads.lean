/-
The threads of the log with their waiting (`flusher.rs`, `lsn.rs` and
`writer.rs` of `storage/wal/`): the flusher parks between its passes, may
delay a commit, and is unparked by whoever has something for it.

# Granularity

A step is a step of the log (`Wal.step`), or what happens between two of
them at one atomic access: a look at the counter of waiters or at the
buffer, an `unpark`, a return from `park_timeout`. The token of the
flusher is that of `std::thread`: `unpark` makes it available, a park
takes it and does not block if it is there, and may return without it,
by its timeout or for no reason at all.

`set_flusher` comes before anybody can have a writer, so the handle is
there from the start. A cut makes its request and kicks under one lock,
which the flusher has to take to see the request, so this is one step.

# What there is besides the log

`Rest` is what keeps the flusher from its next step of the log, and only
when it is awake may it take one. `settle` says where it rests behind a
step, and `wake` what it does there. A caller of `wait` goes its own way
(`WaitMove`): its first look, the guard that counts it, its place in
`wait_for`, the unpark, the end. An append that crosses the threshold has
a kick to give, which it gives after the lock is gone and so in a step of
its own.

# What the waiting is good for

It decides when the flusher takes a step and not what the step does: the
runs of the threads are the runs of the log (`threads_log_iff`). One
direction forgets the waiting (`run_log`). For the other the threads have
to get a step of the log done, and the flusher may be resting: left alone
it gets on with its pass, by its timeout if nothing else (`awakens`, by
induction on `Rest.left`), so that every step of the log is preceded by
some of its own.
-/
import Tsdb.Wal.Delivery

namespace Tsdb.Wal

open Lib (Run)

-- ============================================================== the waiting

inductive Durability
  | none
  | written
deriving DecidableEq, Repr

/-- What `WalConfig` says of group commits, in microseconds and bytes. -/
structure GroupCommit where
  commitDelay : Nat
  commitBytes : Nat

/-- What keeps the flusher from its next step of the log: it has to look
whether a commit is to be delayed, first at the waiters and then at the
buffer; it sleeps for the delay; it has to look whether anybody waits
before it parks; it has parked. -/
inductive Rest
  | awake
  | delaying
  | measuring
  | sleeping
  | deciding
  | parked
deriving DecidableEq, Repr

/-- Where a caller stands in `Progress::wait`, behind its first look at
the LSN: in front of its guard, counted, in `wait_for`, behind it. -/
inductive WaitPc
  | looked
  | counted
  | waiting
  | served
deriving DecidableEq, Repr

/-- The guard is alive. -/
def WaitPc.guarded : WaitPc → Bool
  | .looked => false
  | _ => true

structure Wait where
  lsn : Nat
  pc : WaitPc
deriving DecidableEq, Repr

/-- The log and the waiting: `stay` is what the locals of `flush_loop`
say of its batch, `waits` are the calls under way, `kicks` the appends
that have crossed the threshold and not yet unparked, and `joining` says
that `join` has unparked the flusher. -/
structure Threads where
  disk : Disk
  machine : Machine
  rest : Rest := .awake
  stay : Bool := false
  token : Bool := false
  waiters : Nat := 0
  waits : List Wait := []
  kicks : Nat := 0
  joining : Bool := false

/-- What a caller of `wait` does: it returns at its first look, or goes on
to its guard; it unparks the flusher, is served and drops the guard; or it
is dropped while it waits. -/
inductive WaitMove
  | atOnce (level : Durability)
  | enter (level : Durability)
  | count
  | unpark
  | serve
  | leave
  | cancel
deriving DecidableEq, Repr

inductive ThreadsAction
  | log (a : Action)
  | rest (timeout : Bool)
  | wait (lsn : Nat) (move : WaitMove)
  | kick
  | join
deriving DecidableEq, Repr

/-- What an action does to the log. -/
def ThreadsAction.logged : ThreadsAction → List Action
  | .log a => [a]
  | .wait lsn (.atOnce .written) => [.waitReturn lsn]
  | .wait lsn .serve => [.waitReturn lsn]
  | _ => []

/-- How many looks and sleeps a pass is away. -/
def Rest.left : Rest → Nat
  | .awake => 0
  | .sleeping => 1
  | .parked => 1
  | .measuring => 2
  | .deciding => 2
  | .delaying => 3

/-- The flusher is in the middle of a pass. -/
def Rest.passing : Rest → Bool
  | .deciding => false
  | .parked => false
  | _ => true

namespace Threads

/-- The flusher, behind a step of the log: a pass begins with the look at
the waiters, a batch ends with it, and a pass without one parks. -/
def settle (cfg : WalConfig) (m m' : Machine) (s : Threads) : Threads :=
  match m.pc, m'.pc with
  | .sampleCut _, _ => { s with rest := .delaying }
  | .take closing cutting, .batch _ =>
      { s with
        stay := closing || cutting
          || decide (m'.spare.length ≥ cfg.flushThreshold) }
  | .take _ _, .top => { s with rest := .parked }
  | .clear, _ => { s with rest := .deciding }
  | _, _ => s

/-- An append that crosses the threshold has a kick to give. -/
def crosses (cfg : WalConfig) (m m' : Machine) : Bool :=
  decide (m.shared.buffer.buf.length < cfg.flushThreshold)
    && decide (cfg.flushThreshold ≤ m'.shared.buffer.buf.length)

/-- Between two steps of the log the flusher looks, sleeps and parks. -/
def wake (gc : GroupCommit) (timeout : Bool) (s : Threads) :
    Option Threads :=
  match s.rest with
  | .awake => none
  | .delaying =>
      let delays := s.machine.pc == .take false false
        && decide (gc.commitDelay ≠ 0) && decide (s.waiters > 0)
      some { s with rest := if delays then .measuring else .awake }
  | .measuring =>
      some { s with
        rest :=
          if s.machine.shared.buffer.buf.length < gc.commitBytes then
            .sleeping
          else .awake }
  | .sleeping => some { s with rest := .awake }
  | .deciding =>
      some { s with
        rest := if s.stay || decide (s.waiters > 0) then .awake
          else .parked }
  | .parked =>
      if s.token || timeout then
        some { s with rest := .awake, token := false }
      else none

/-- A call moves on, if there is one that stands there. -/
def move (s : Threads) (lsn : Nat) (pc : WaitPc) (pc' : Option WaitPc) :
    Option Threads :=
  if ⟨lsn, pc⟩ ∈ s.waits then
    some { s with
      waits := (pc'.map (Wait.mk lsn)).toList ++ s.waits.erase ⟨lsn, pc⟩ }
  else none

/-- A step of `Progress::wait`. -/
def wait (s : Threads) (lsn : Nat) : WaitMove → Option Threads
  | .atOnce level =>
      if level = .none ∨ s.machine.shared.written ≥ lsn then some s else none
  | .enter level =>
      if level = .none ∨ s.machine.shared.written ≥ lsn then none
      else some { s with waits := ⟨lsn, .looked⟩ :: s.waits }
  | .count =>
      (s.move lsn .looked (some .counted)).map fun s =>
        { s with waiters := s.waiters + 1 }
  | .unpark =>
      (s.move lsn .counted (some .waiting)).map fun s =>
        { s with token := true }
  | .serve =>
      if s.machine.shared.written ≥ lsn then
        s.move lsn .waiting (some .served)
      else none
  | .leave =>
      (s.move lsn .served none).map fun s =>
        { s with waiters := s.waiters - 1 }
  | .cancel =>
      (s.move lsn .waiting none).map fun s =>
        { s with waiters := s.waiters - 1 }

/-- A step of the log, and what it means for the waiting. -/
def logStep (cfg : WalConfig) (a : Action) (s : Threads) : Option Threads :=
  match a with
  | .flusher _ =>
      if s.rest = .awake then
        (Wal.step cfg a (s.disk, s.machine)).map fun (disk, machine) =>
          { s with disk, machine }.settle cfg s.machine machine
      else none
  | .append _ _ =>
      (Wal.step cfg a (s.disk, s.machine)).map fun (disk, machine) =>
        { s with
          disk, machine
          kicks := s.kicks + (crosses cfg s.machine machine).toNat }
  | .cutRequest _ =>
      (Wal.step cfg a (s.disk, s.machine)).map fun (disk, machine) =>
        { s with disk, machine, token := true }
  | .closeReturn =>
      if s.joining then
        (Wal.step cfg a (s.disk, s.machine)).map fun (disk, machine) =>
          { s with disk, machine }
      else none
  | .waitReturn _ => none
  | _ =>
      (Wal.step cfg a (s.disk, s.machine)).map fun (disk, machine) =>
        { s with disk, machine }

/-- The transition function. -/
def step (cfg : WalConfig) (gc : GroupCommit) (a : ThreadsAction)
    (s : Threads) : Option Threads :=
  match a with
  | .log a => s.logStep cfg a
  | .rest timeout => s.wake gc timeout
  | .wait lsn move => s.wait lsn move
  | .kick =>
      if s.kicks > 0 then
        some { s with kicks := s.kicks - 1, token := true }
      else none
  | .join =>
      if s.machine.shared.buffer.closed then
        some { s with joining := true, token := true }
      else none

/-- The threads as `Wal::open` leaves them. -/
def opened (before : Disk) : Threads where
  disk := (Wal.opened before).1
  machine := (Wal.opened before).2

-- ======================================================= the log underneath

section

variable {cfg : WalConfig} {gc : GroupCommit} {s s' : Threads} {lsn : Nat}

/-- What the waiting of the flusher does not touch. -/
theorem settle_log (cfg : WalConfig) (m m' : Machine) (s : Threads) :
    (s.settle cfg m m').disk = s.disk
      ∧ (s.settle cfg m m').machine = s.machine := by
  unfold settle
  split <;> exact ⟨rfl, rfl⟩

/-- What the flusher does between two steps of the log: it goes on with its
pass, it ends the pass in a park or in the next one, or it leaves its
park. -/
theorem wake_cases {timeout : Bool} (h : s.wake gc timeout = some s') :
    (s.rest.passing = true ∧ ∃ rest, rest.passing = true
        ∧ rest.left < s.rest.left ∧ s' = { s with rest })
      ∨ (s.rest = .deciding ∧ (s.stay = true ∨ s.waiters > 0)
        ∧ s' = { s with rest := .awake })
      ∨ (s.rest = .deciding ∧ s.stay = false ∧ s.waiters = 0
        ∧ s' = { s with rest := .parked })
      ∨ (s.rest = .parked ∧ (s.token = true ∨ timeout = true)
        ∧ s' = { s with rest := .awake, token := false }) := by
  unfold wake at h
  cases hrest : s.rest with
  | awake =>
      rw [hrest] at h
      cases h
  | delaying =>
      rw [hrest] at h
      cases h
      refine .inl ⟨rfl, _, ?_, ?_, rfl⟩ <;> split <;> decide
  | measuring =>
      rw [hrest] at h
      cases h
      refine .inl ⟨rfl, _, ?_, ?_, rfl⟩ <;> split <;> decide
  | sleeping =>
      rw [hrest] at h
      cases h
      exact .inl ⟨rfl, .awake, rfl, Nat.zero_lt_one, rfl⟩
  | deciding =>
      rw [hrest] at h
      cases hgo : (s.stay || decide (s.waiters > 0)) with
      | true =>
          simp only [hgo] at h
          cases h
          exact .inr (.inl ⟨rfl, by simpa using hgo, rfl⟩)
      | false =>
          simp only [hgo] at h
          cases h
          obtain ⟨hstay, hwaiters⟩ := Bool.or_eq_false_iff.mp hgo
          exact .inr (.inr (.inl ⟨rfl, hstay, by simpa using hwaiters, rfl⟩))
  | parked =>
      rw [hrest] at h
      simp only at h
      split at h
      · rename_i hgo
        cases h
        exact .inr (.inr (.inr ⟨rfl, by simpa using hgo, rfl⟩))
      · cases h

theorem wake_log {timeout : Bool} (h : s.wake gc timeout = some s') :
    s'.disk = s.disk ∧ s'.machine = s.machine := by
  rcases wake_cases h with ⟨-, rest, -, -, rfl⟩ | ⟨-, -, rfl⟩ | ⟨-, -, -, rfl⟩
    | ⟨-, -, rfl⟩ <;> exact ⟨rfl, rfl⟩

/-- It can, whatever it rests for, with its timeout or with the token. -/
theorem wake_ok (gc : GroupCommit) {timeout : Bool} (h : s.rest ≠ .awake)
    (hpark : s.rest = .parked → s.token = true ∨ timeout = true) :
    ∃ s', s.wake gc timeout = some s' := by
  unfold wake
  cases hrest : s.rest with
  | awake => exact absurd hrest h
  | parked =>
      have hgo : (s.token || timeout) = true := by simpa using hpark hrest
      simp only [hgo, if_true]
      exact ⟨_, rfl⟩
  | _ => exact ⟨_, rfl⟩

/-- A call moves, and nothing else does. -/
theorem move_eq {pc : WaitPc} {pc' : Option WaitPc}
    (h : s.move lsn pc pc' = some s') :
    ⟨lsn, pc⟩ ∈ s.waits ∧ s' = { s with
      waits := (pc'.map (Wait.mk lsn)).toList ++ s.waits.erase ⟨lsn, pc⟩ } := by
  unfold move at h
  split at h
  · rename_i hmem
    cases h
    exact ⟨hmem, rfl⟩
  · cases h

/-- What a caller of `wait` changes. -/
theorem wait_eq {move : WaitMove} (h : s.wait lsn move = some s') :
    ∃ waits waiters token, s' = { s with waits, waiters, token }
      ∧ (s.token = true → token = true) := by
  cases move with
  | atOnce level =>
      simp only [wait] at h
      split at h <;> cases h
      exact ⟨_, _, _, rfl, id⟩
  | enter level =>
      simp only [wait] at h
      split at h <;> cases h
      exact ⟨_, _, _, rfl, id⟩
  | serve =>
      simp only [wait] at h
      split at h
      · obtain ⟨-, rfl⟩ := move_eq h
        exact ⟨_, _, _, rfl, id⟩
      · cases h
  | unpark =>
      obtain ⟨s₁, hmove, rfl⟩ := Option.map_eq_some_iff.mp h
      obtain ⟨-, rfl⟩ := move_eq hmove
      exact ⟨_, _, _, rfl, fun _ => rfl⟩
  | count | leave | cancel =>
      obtain ⟨s₁, hmove, rfl⟩ := Option.map_eq_some_iff.mp h
      obtain ⟨-, rfl⟩ := move_eq hmove
      exact ⟨_, _, _, rfl, id⟩

/-- The flusher takes a step of the log when it is awake. -/
theorem logStep_flusher {n : Nat} (h : s.logStep cfg (.flusher n) = some s') :
    s.rest = .awake ∧ ∃ disk m, FlusherStep cfg n s.disk s.machine disk m
      ∧ s' = { s with disk, machine := m }.settle cfg s.machine m := by
  simp only [logStep] at h
  split at h
  · rename_i hrest
    obtain ⟨⟨disk, m⟩, hs, rfl⟩ := Option.map_eq_some_iff.mp h
    exact ⟨hrest, disk, m, .of_step hs, rfl⟩
  · cases h

/-- A step of the log under the threads is one of the log. -/
theorem logStep_log {a : Action} (h : s.logStep cfg a = some s') :
    Wal.step cfg a (s.disk, s.machine) = some (s'.disk, s'.machine) := by
  unfold logStep at h
  split at h
  case h_1 n =>
      split at h
      · obtain ⟨⟨disk, m⟩, hs, rfl⟩ := Option.map_eq_some_iff.mp h
        obtain ⟨hdisk, hmachine⟩ := settle_log cfg s.machine m
          { s with disk := disk, machine := m }
        rw [hs]
        exact congrArg some (Prod.ext hdisk.symm hmachine.symm)
      · cases h
  case h_4 =>
      split at h
      · obtain ⟨⟨disk, m⟩, hs, rfl⟩ := Option.map_eq_some_iff.mp h
        exact hs
      · cases h
  case h_5 => cases h
  all_goals
    obtain ⟨⟨disk, m⟩, hs, rfl⟩ := Option.map_eq_some_iff.mp h
    exact hs

/-- A step of the threads does to the log what its action says. -/
theorem step_log {a : ThreadsAction} (h : step cfg gc a s = some s') :
    Run (Wal.step cfg) (s.disk, s.machine) a.logged (s'.disk, s'.machine) := by
  cases a with
  | log a => exact .cons (logStep_log h) .nil
  | rest timeout =>
      obtain ⟨hdisk, hmachine⟩ := wake_log h
      rw [hdisk, hmachine]
      exact .nil
  | kick | join =>
      simp only [step] at h
      split at h <;> cases h
      exact .nil
  | wait lsn move =>
      have hreturned : s.machine.shared.written ≥ lsn →
          Run (Wal.step cfg) (s.disk, s.machine) [.waitReturn lsn]
            (s.disk, s.machine) :=
        fun hle => .cons (if_pos hle) .nil
      obtain ⟨waits, waiters, token, rfl, -⟩ := wait_eq h
      cases move with
      | atOnce level =>
          simp only [step, wait] at h
          split at h
          · rename_i hor
            cases level with
            | none => exact .nil
            | written =>
                rcases hor with hnone | hle
                · cases hnone
                · exact hreturned hle
          · cases h
      | serve =>
          simp only [step, wait] at h
          split at h
          · rename_i hle
            exact hreturned hle
          · cases h
      | _ => exact .nil

theorem run_log {as : List ThreadsAction} {s₀ : Threads}
    (h : Run (step cfg gc) s₀ as s) :
    Run (Wal.step cfg) (s₀.disk, s₀.machine) (as.flatMap ThreadsAction.logged)
      (s.disk, s.machine) := by
  induction h with
  | nil => exact .nil
  | snoc _ hs ih =>
      rw [List.flatMap_append, List.flatMap_singleton]
      exact ih.append (step_log hs)

/-- Left alone, the flusher does not stay where it rests: with its timeout
it gets on with its pass. -/
theorem awakens (cfg : WalConfig) (gc : GroupCommit) (s : Threads) :
    ∃ bs s', Run (step cfg gc) s bs s' ∧ bs.flatMap ThreadsAction.logged = []
      ∧ s'.rest = .awake ∧ s'.disk = s.disk ∧ s'.machine = s.machine := by
  induction hleft : s.rest.left using Nat.strongRecOn generalizing s with
  | ind left ih =>
      by_cases hawake : s.rest = .awake
      · exact ⟨[], s, .nil, rfl, hawake, rfl, rfl⟩
      obtain ⟨s₁, hs⟩ := wake_ok gc hawake fun _ => .inr rfl
      obtain ⟨bs, s', hrun, hlogged, hrest, hdisk, hmachine⟩ :
          ∃ bs s', Run (step cfg gc) s₁ bs s'
            ∧ bs.flatMap ThreadsAction.logged = [] ∧ s'.rest = .awake
            ∧ s'.disk = s₁.disk ∧ s'.machine = s₁.machine := by
        rcases wake_cases hs with ⟨-, rest, -, hless, rfl⟩ | ⟨-, -, rfl⟩
          | ⟨hrest, -, -, rfl⟩ | ⟨-, -, rfl⟩
        · exact ih _ (hleft ▸ hless) _ rfl
        · exact ⟨[], _, .nil, rfl, rfl, rfl, rfl⟩
        · exact ih 1 (by rw [← hleft, hrest]; decide) _ rfl
        · exact ⟨[], _, .nil, rfl, rfl, rfl, rfl⟩
      obtain ⟨hdisk₁, hmachine₁⟩ := wake_log hs
      have hs : step cfg gc (.rest true) s = some s₁ := hs
      exact ⟨.rest true :: bs, s', .cons hs hrun, hlogged, hrest,
        hdisk.trans hdisk₁, hmachine.trans hmachine₁⟩

/-- What the log can do, threads can that are awake. Most steps of the log
are steps of the threads as they stand. A caller that returns from `wait`
has come to its first look with the LSN published, and one that returns from
`close` has joined first. -/
theorem log_ok (gc : GroupCommit) {a : Action} {disk : Disk} {m : Machine} {before : Disk}
    {as : List Action} (hrest : s.rest = .awake)
    (hrun : FromOpen cfg before as s.disk s.machine)
    (hs : Wal.step cfg a (s.disk, s.machine) = some (disk, m)) :
    ∃ bs s', Run (step cfg gc) s bs s'
      ∧ bs.flatMap ThreadsAction.logged = [a]
      ∧ s'.disk = disk ∧ s'.machine = m := by
  have hlog : ∀ {s' : Threads}, s.logStep cfg a = some s' →
      ∃ bs s', Run (step cfg gc) s bs s'
        ∧ bs.flatMap ThreadsAction.logged = [a]
        ∧ s'.disk = disk ∧ s'.machine = m := by
    intro s' h
    have hsame := (logStep_log h).symm.trans hs
    cases hsame
    exact ⟨[.log a], s', .cons h .nil, rfl, rfl, rfl⟩
  cases a with
  | flusher n =>
      exact hlog (by simp only [logStep]; rw [if_pos hrest, hs]; rfl)
  | waitReturn lsn =>
      obtain ⟨hle, heq⟩ : s.machine.shared.written ≥ lsn
          ∧ (s.disk, s.machine) = (disk, m) := by
        simp only [Wal.step] at hs
        split at hs
        · rename_i hle
          exact ⟨hle, Option.some.inj hs⟩
        · cases hs
      cases heq
      have h : step cfg gc (.wait lsn (.atOnce .written)) s = some s :=
        if_pos (.inr hle)
      exact ⟨_, s, .cons h .nil, rfl, rfl, rfl⟩
  | closeReturn =>
      -- the flusher has left, so somebody has closed the buffer
      have hclosed : s.machine.shared.buffer.closed = true := by
        simp only [Wal.step] at hs
        split at hs
        · rename_i hexited
          refine ((Closing.run (.start _ _) hrun).ended ?_).1
          rw [hexited.1]
          rfl
        · cases hs
      have hjoin : step cfg gc .join s
          = some { s with joining := true, token := true } := if_pos hclosed
      have hreturn : step cfg gc (.log .closeReturn)
          { s with joining := true, token := true }
          = some { s with
            disk, machine := m, joining := true, token := true } := by
        simp only [step, logStep, if_pos, hs, Option.map_some]
      exact ⟨_, _, .cons hjoin (.cons hreturn .nil), rfl, rfl, rfl⟩
  | _ => exact hlog (by simp only [logStep]; rw [hs]; rfl)

end

end Threads

-- ======================================================== the runs of the log

/-- Parking, unparking, the commit delay and the counter of waiters neither
add to what the log does nor take from it. -/
theorem threads_log_iff {cfg : WalConfig} {gc : GroupCommit} {before : Disk}
    {as : List Action} {disk : Disk} {m : Machine} :
    FromOpen cfg before as disk m
      ↔ ∃ bs s, Run (Threads.step cfg gc) (.opened before) bs s
        ∧ bs.flatMap ThreadsAction.logged = as
        ∧ s.disk = disk ∧ s.machine = m := by
  constructor
  · intro hrun
    obtain ⟨bs, s, hbs, hlogged, -, hdisk, hm⟩ :
        ∃ bs s, Run (Threads.step cfg gc) (.opened before) bs s
          ∧ bs.flatMap ThreadsAction.logged = as ∧ s.rest = .awake
          ∧ s.disk = disk ∧ s.machine = m := by
      refine Run.invariant
        (P := fun as (p : Disk × Machine) => ∃ bs s,
          Run (Threads.step cfg gc) (.opened before) bs s
            ∧ bs.flatMap ThreadsAction.logged = as ∧ s.rest = .awake
            ∧ s.disk = p.1 ∧ s.machine = p.2)
        ⟨[], _, .nil, rfl, rfl, rfl, rfl⟩ ?_ hrun
      rintro as ⟨disk, m⟩ a ⟨disk', m'⟩ hrun
        ⟨bs, s, hbs, hlogged, hrest, rfl, rfl⟩ hs
      obtain ⟨cs, s₁, hcs, hone, rfl, rfl⟩ :=
        Threads.log_ok gc hrest hrun hs
      obtain ⟨ds, s₂, hds, hnone, hawake, hdisk, hm⟩ :=
        Threads.awakens cfg gc s₁
      refine ⟨bs ++ (cs ++ ds), s₂, hbs.append (hcs.append hds), ?_, hawake,
        hdisk, hm⟩
      rw [List.flatMap_append, List.flatMap_append, hlogged, hone, hnone,
        List.append_nil]
    exact ⟨bs, s, hbs, hlogged, hdisk, hm⟩
  · rintro ⟨bs, s, hrun, rfl, rfl, rfl⟩
    exact Threads.run_log hrun

end Tsdb.Wal
