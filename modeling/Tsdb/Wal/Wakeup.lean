/-
No wake-up is lost (`flusher.rs`, `lsn.rs`).

The flusher looks at what it has to do at four places of a pass, and parks
at the end of it: a caller that comes behind the last look of a pass has
to count on its `unpark`. So for whatever should keep the flusher from its
sleep, either the token is there, or the flusher is somewhere in its pass
from where it will not park without having seen it (`Alert`). What that
means for a reason to go on is where it is looked at, and where it is
remembered (`Reason`); the step lemmas are about any of them.

# The invariant

`Wakeful` has one clause for each reason: somebody in `wait_for`, a cut,
a close, a buffer over its threshold. Its steps are proved by kinds of
action. A step of the flusher's keeps a reason in sight
(`Alert.flusher`), a look does (`Alert.wake`), and whatever happens
elsewhere leaves the flusher where it is (`Alert.frame`). What comes new
comes with an `unpark`: a caller that has been counted and finds its LSN
not published, a request, a close, a kick.

The clause about waiters rests on more than that. The flusher looks at the
counter of waiters, and not at their LSNs, and it parks with the counter
at zero or with everything published; so it may ignore somebody who waits
for an LSN that no append has returned. `asked` is the condition that this
does not happen (`Handed`), a parameter of the invariant, under which
alone the clause is claimed. The others hold in any case.

# What comes of it

While the flusher is asleep nobody has anything for it (`asleep_idle`), so
its timeout is not needed for anything that is promised; and left alone it
falls asleep or leaves, behind a number of steps that is known in advance
(`flusher_settles`, in `Settling.lean`). Behind both is that with no batch
under way what is not in the buffer is published (`Machine.Level`).
-/
import Tsdb.Wal.Backlog
import Tsdb.Wal.Separation
import Tsdb.Wal.Threads

namespace Tsdb.Wal

open Lib (Run exec)

-- ================================================================ the counters

section

variable {cfg : WalConfig} {base : Nat} {log : Log}
  {hand rest : List WalRecord} {disk disk' : Disk} {m m' : Machine}
  {a : Action} {n : Nat} {before : Disk} {as : List Action}

/-- With no batch on its way, what is not in the buffer is published. -/
def Machine.Level (m : Machine) : Prop :=
  m.pc.carried = none →
    m.shared.written + m.shared.buffer.buf.length = m.shared.buffer.end_

/-- What a batch is published as is what was not in the buffer. -/
theorem Sim.published (h : Sim base log hand rest disk m) {e : Nat}
    (hpc : m.pc = .publish e) :
    m.shared.written ≤ e
      ∧ e + m.shared.buffer.buf.length = m.shared.buffer.end_ := by
  have hsound : m.shared.written ≤ (logBytes log.flushed).length := by
    rw [h.written]
    exact h.sound
  rw [h.publish e hpc, h.end_, h.buf, Log.accepted, h.pending,
    h.idle (by rw [hpc]; rfl), List.nil_append, logBytes_append,
    List.length_append]
  exact ⟨hsound, rfl⟩

/-- Only `take` changes the buffer. -/
theorem FlusherStep.buffer (h : FlusherStep cfg n disk m disk' m')
    (htakes : m.takes = false) : m'.shared.buffer = m.shared.buffer := by
  cases h with
  | taken hpc hbuf => simp [Machine.takes, hpc, hbuf] at htakes
  | _ => rfl

/-- With no batch on its way everything outside the buffer is published: an
append adds to the buffer what it adds to the end, and the flusher is
without a batch again only behind a publication. -/
theorem Machine.Level.step (h : m.Level) (hsim : Sim base log hand rest disk m)
    (hs : Wal.step cfg a (disk, m) = some (disk', m')) : m'.Level := by
  intro hnone
  by_cases hflusher : ∃ n, a = .flusher n
  · obtain ⟨n, rfl⟩ := hflusher
    have hs' : FlusherStep cfg n disk m disk' m' := .of_step hs
    rcases hs'.carried with ⟨-, -, hsome, -⟩ | ⟨e, htakes, hpub, he, -, hw⟩
      | ⟨htakes, -, hcarried, hw⟩
    · rw [hsome] at hnone
      cases hnone
    · obtain ⟨e', hpc⟩ : ∃ e', m.pc = .publish e' := by
        unfold Machine.publishes at hpub
        split at hpub
        · exact ⟨_, ‹_›⟩
        · cases hpub
      rw [hpc] at he
      cases he
      obtain ⟨hle, hend⟩ := hsim.published hpc
      rw [hw, hs'.buffer htakes, Nat.max_eq_right hle]
      exact hend
    · rw [hw, hs'.buffer htakes]
      exact h (hcarried ▸ hnone)
  · obtain ⟨hk, hbuffer, -⟩ := step_keeps (fun n he => hflusher ⟨n, he⟩) hs
    rw [hk.pc] at hnone
    have hlevel := h hnone
    rw [hk.written]
    cases a with
    | append rec result =>
        obtain ⟨-, -, -, rfl⟩ := step_append hs
        show m.shared.written
            + (appendWith cfg m.shared.buffer rec).2.buf.length
          = (appendWith cfg m.shared.buffer rec).2.end_
        rcases appendWith_cases cfg m.shared.buffer rec
          with ⟨-, heq⟩ | ⟨-, e, heq⟩ | ⟨-, -, -, heq⟩
        · rw [heq]
          exact hlevel
        · rw [heq]
          exact hlevel
        · rw [heq, List.length_append]
          show m.shared.written + _ = m.shared.buffer.end_ + _
          omega
    | close =>
        simp only [Wal.step] at hs
        cases hs
        exact hlevel
    | flusher n => exact absurd ⟨n, rfl⟩ hflusher
    | _ =>
        rw [hbuffer rfl]
        exact hlevel

theorem FromOpen.level (hrun : FromOpen cfg before as disk m) : m.Level := by
  refine Run.invariant (P := fun _ s => Machine.Level s.2) (fun _ => rfl) ?_ hrun
  rintro as ⟨disk, m⟩ a ⟨disk', m'⟩ hrun h hs
  obtain ⟨log, hand, rest, -, -, hsim⟩ := FromOpen.sim hrun
  exact h.step hsim hs

end

-- ============================================================== what is heeded

/-- Where a pass looks at a reason to go on: what is left of it in the
first sample, in both, and beside a batch in hand. -/
structure Reason where
  sampled : Bool → Bool
  taking : Bool → Bool → Bool
  held : Bool → Bool

namespace Reason

/-- A caller in `wait_for` is counted, and the counter is read behind the
batch. -/
def waiter : Reason := ⟨fun _ => true, fun _ _ => true, fun _ => true⟩

def cut : Reason := ⟨fun _ => true, fun _ cutting => cutting, id⟩

def close : Reason := ⟨id, fun closing _ => closing, id⟩

/-- What comes into the buffer behind `take` is for the next pass. -/
def full : Reason := ⟨fun _ => true, fun _ _ => true, fun _ => false⟩

end Reason

/-- In the middle of a pass, the reason will be looked at in this one, or
there will be another one behind it. -/
def Reason.seen (r : Reason) (stay : Bool) : FlusherPc → Bool
  | .sampleCut closing => r.sampled closing
  | .take closing cutting => r.taking closing cutting
  | .clear => r.held stay
  | pc => pc.carried.isNone || r.held stay

namespace Threads

/-- The flusher will not park before it has looked at the reason. -/
def heeds (r : Reason) (s : Threads) : Bool :=
  match s.rest with
  | .parked => false
  | .deciding => r.held s.stay
  | _ => r.seen s.stay s.machine.pc

/-- The flusher heeds the reason, or it will not sleep. -/
def Alert (r : Reason) (s : Threads) : Prop :=
  s.token = true ∨ s.heeds r = true

/-- Where in its pass the flusher rests. -/
def Fits (s : Threads) : Prop :=
  match s.rest with
  | .awake => True
  | .deciding => s.machine.pc = .top
  | .parked => s.machine.pc = .top
  | _ => ∃ closing cutting, s.machine.pc = .take closing cutting

section

variable {cfg : WalConfig} {gc : GroupCommit} {s s' : Threads} {r : Reason}
  {n : Nat} {disk' : Disk} {m' : Machine}

theorem heeds_passing (h : s.rest.passing = true) :
    s.heeds r = r.seen s.stay s.machine.pc := by
  unfold heeds
  cases hrest : s.rest with
  | deciding | parked =>
      rw [hrest] at h
      cases h
  | _ => rfl

theorem settle_token (m m' : Machine) (s : Threads) :
    (s.settle cfg m m').token = s.token := by
  unfold settle
  split <;> rfl

/-- A step of the flusher keeps a reason in sight. The hypotheses are the
looks of a pass, in their order: what `sampleCut` finds, what `take` finds,
and that a pass which takes nothing and goes round has not overlooked the
reason. In between the flusher remembers it, in its locals or by the batch
it has in hand. -/
theorem Alert.flusher (h : s.Alert r) (hrest : s.rest = .awake)
    (hs : FlusherStep cfg n s.disk s.machine disk' m')
    (htop : r.sampled s.machine.shared.buffer.closed = true)
    (hsample : ∀ closing, r.sampled closing = true →
      r.taking closing s.machine.shared.cut.requested = true)
    (htaken : s.machine.takes = true → ∀ closing cutting full,
      r.taking closing cutting = true →
        r.held (closing || cutting || full) = true)
    (hagain : s.machine.pc = .take false false →
      s.machine.shared.buffer.buf = [] → r.taking false false = false) :
    ({ s with disk := disk', machine := m' }.settle cfg s.machine m').Alert
      r := by
  refine h.imp (settle_token _ _ _).trans fun hseen => ?_
  rw [heeds_passing (by rw [hrest]; rfl)] at hseen
  cases hs with
  | top hpc =>
      simp only [settle, heeds, hpc, hrest]
      exact htop
  | sampleCut hpc =>
      rw [hpc] at hseen
      simp only [settle, heeds, hpc]
      exact hsample _ hseen
  | taken hpc hbuf =>
      rw [hpc] at hseen
      simp only [settle, heeds, hpc, hrest, Reason.seen, FlusherPc.carried,
        FlusherPc.holding, Option.isNone_some, Bool.false_or]
      exact htaken (by simp [Machine.takes, hpc, hbuf]) _ _ _ hseen
  | again hpc hbuf =>
      rw [hpc] at hseen
      exact absurd hseen (by simp [Reason.seen, hagain hpc hbuf])
  | @store why closed hpc =>
      rw [hpc] at hseen
      revert hseen
      cases why <;> simp [settle, heeds, hpc, hrest, Reason.seen,
        FlusherPc.carried, FlusherPc.holding, RotateFor.resume]
  | @sync why hpc | @create why _ hpc _ | @syncDir why _ hpc
  | @setFile why _ hpc =>
      rw [hpc] at hseen
      revert hseen
      cases why <;> simp [settle, heeds, hpc, hrest, Reason.seen,
        FlusherPc.carried, FlusherPc.holding]
  | _ hpc =>
      rw [hpc] at hseen
      revert hseen
      simp [settle, heeds, hpc, hrest, Reason.seen, FlusherPc.carried,
        FlusherPc.holding]

/-- So does a look, and the end of a sleep. -/
theorem Alert.wake {timeout : Bool} (h : s.Alert r) (hfits : s.Fits)
    (hs : s.wake gc timeout = some s')
    (hheld : r.held s.stay = true → s.stay = true ∨ s.waiters > 0) :
    s'.Alert r := by
  unfold Fits at hfits
  rcases wake_cases hs with ⟨hpassing, rest, hpassing', -, rfl⟩
    | ⟨hrest, -, rfl⟩ | ⟨hrest, hstay, hwaiters, rfl⟩ | ⟨hrest, -, rfl⟩
  · refine h.imp id fun hheeds => ?_
    rw [heeds_passing hpassing] at hheeds
    rw [heeds_passing hpassing']
    exact hheeds
  · rw [hrest] at hfits
    refine .inr ?_
    rw [heeds_passing rfl, hfits]
    rfl
  · refine h.imp id fun hheeds => ?_
    unfold heeds at hheeds
    rw [hrest] at hheeds
    rcases hheld hheeds with hgo | hgo
    · rw [hstay] at hgo
      cases hgo
    · omega
  · rw [hrest] at hfits
    refine .inr ?_
    rw [heeds_passing rfl, hfits]
    rfl

/-- What happens elsewhere leaves a reason in sight. -/
theorem Alert.frame (h : s.Alert r) (hrest : s'.rest = s.rest)
    (hstay : s'.stay = s.stay) (hpc : s'.machine.pc = s.machine.pc)
    (htoken : s.token = true → s'.token = true) : s'.Alert r := by
  refine h.imp htoken fun hheeds => ?_
  unfold heeds at hheeds ⊢
  rw [hrest, hstay, hpc]
  exact hheeds

end

-- =============================================================== the invariant

/-- Whatever the flusher is wanted for, it is alert to it: to somebody who
waits only if callers have `asked` for LSNs they were handed out, to the
rest in any case. -/
structure Wakeful (cfg : WalConfig) (asked : Prop) (s : Threads) :
    Prop where
  fits : s.Fits
  counted : s.waiters = s.waits.countP fun w => w.pc.guarded
  handed : asked → ∀ w ∈ s.waits, w.lsn ≤ s.machine.shared.buffer.end_
  waiting : asked → ∀ w ∈ s.waits, w.pc = .waiting →
    w.lsn ≤ s.machine.shared.written ∨ s.Alert .waiter
  cut : s.machine.shared.cut.requested = true → s.Alert .cut
  joining : s.joining = true →
    s.machine.shared.buffer.closed = true ∧ s.Alert .close
  full : 0 < cfg.flushThreshold →
    cfg.flushThreshold ≤ s.machine.shared.buffer.buf.length →
      0 < s.kicks ∨ s.Alert .full

namespace Wakeful

variable {cfg : WalConfig} {gc : GroupCommit} {before : Disk}
  {as : List Action} {asked : Prop} {s s' : Threads} {n : Nat}

theorem opened (cfg : WalConfig) (asked : Prop) (before : Disk) :
    Wakeful cfg asked (.opened before) where
  fits := trivial
  counted := rfl
  handed := fun _ _ hw => absurd hw List.not_mem_nil
  waiting := fun _ _ hw => absurd hw List.not_mem_nil
  cut := fun hcut => by cases hcut
  joining := fun hjoining => by cases hjoining
  full := fun hpos hfull => absurd hfull (Nat.not_le.mpr hpos)

theorem mono {asked' : Prop} (h : Wakeful cfg asked s)
    (hasked : asked' → asked) : Wakeful cfg asked' s :=
  { h with
    handed := fun hask => h.handed (hasked hask)
    waiting := fun hask => h.waiting (hasked hask) }

/-- Somebody waits, so the counter says so. -/
theorem waiters_pos (h : Wakeful cfg asked s) {w : Wait} (hw : w ∈ s.waits)
    (hpc : w.pc = .waiting) : s.waiters > 0 := by
  rw [h.counted]
  exact List.countP_pos_iff.mpr ⟨w, hw, by rw [hpc]; rfl⟩

/-- A look, a sleep or a park. The flusher parks only where no reason holds
it back, and it leaves its park by the token, which it takes, or by its
timeout; either way the next pass has all of its looks before it. -/
theorem wake {timeout : Bool} (h : Wakeful cfg asked s)
    (hs : s.wake gc timeout = some s') : Wakeful cfg asked s' := by
  have halert : ∀ {r : Reason}, s.Alert r →
      (r.held s.stay = true → s.stay = true ∨ s.waiters > 0) → s'.Alert r :=
    fun hr hheld => hr.wake h.fits hs hheld
  have hfits : s'.Fits := by
    have hfits := h.fits
    unfold Fits at hfits
    rcases wake_cases hs with ⟨hpassing, rest, hpassing', hless, rfl⟩
      | ⟨hrest, -, rfl⟩ | ⟨hrest, -, -, rfl⟩ | ⟨hrest, -, rfl⟩
    · cases hrest : s.rest with
      | awake =>
          rw [hrest] at hless
          exact absurd hless (Nat.not_lt_zero _)
      | deciding | parked =>
          rw [hrest] at hpassing
          cases hpassing
      | delaying | measuring | sleeping =>
          rw [hrest] at hfits
          cases rest with
          | awake => exact trivial
          | deciding | parked => cases hpassing'
          | _ => exact hfits
    · exact trivial
    · rw [hrest] at hfits
      exact hfits
    · exact trivial
  obtain ⟨hmachine, hwaits, hwaiters, hkicks, hjoining⟩ :
      s'.machine = s.machine ∧ s'.waits = s.waits ∧ s'.waiters = s.waiters
        ∧ s'.kicks = s.kicks ∧ s'.joining = s.joining := by
    rcases wake_cases hs with ⟨-, rest, -, -, rfl⟩ | ⟨-, -, rfl⟩
      | ⟨-, -, -, rfl⟩ | ⟨-, -, rfl⟩ <;> exact ⟨rfl, rfl, rfl, rfl, rfl⟩
  constructor
  · exact hfits
  · rw [hwaiters, hwaits]
    exact h.counted
  · rw [hwaits, hmachine]
    exact h.handed
  · rw [hwaits, hmachine]
    exact fun hask w hw hpc => (h.waiting hask w hw hpc).imp id fun hr =>
      halert hr fun _ => .inr (h.waiters_pos hw hpc)
  · rw [hmachine]
    exact fun hcut => halert (h.cut hcut) .inl
  · rw [hmachine, hjoining]
    exact fun hjoin => ⟨(h.joining hjoin).1, halert (h.joining hjoin).2 .inl⟩
  · rw [hmachine, hkicks]
    exact fun hpos hfull => (h.full hpos hfull).imp id fun hr =>
      halert hr fun hheld => by cases hheld

/-- What of the callers a step of the flusher does not touch. -/
theorem settle_callers (cfg : WalConfig) (m m' : Machine) (s : Threads) :
    (s.settle cfg m m').waits = s.waits
      ∧ (s.settle cfg m m').waiters = s.waiters
      ∧ (s.settle cfg m m').kicks = s.kicks
      ∧ (s.settle cfg m m').joining = s.joining := by
  unfold settle
  split <;> exact ⟨rfl, rfl, rfl, rfl⟩

/-- Behind a step the flusher rests where it should. -/
private theorem settle_fits {disk' : Disk} {m' : Machine}
    (hrest : s.rest = .awake)
    (hs : FlusherStep cfg n s.disk s.machine disk' m') :
    ({ s with disk := disk', machine := m' }.settle cfg s.machine m').Fits := by
  cases hs with
  | sampleCut hpc =>
      simp only [settle, Fits, hpc]
      exact ⟨_, _, rfl⟩
  | @store why closed hpc => cases why <;> simp [settle, Fits, hpc, hrest]
  | _ hpc => simp [settle, Fits, hpc, hrest]

/-- A step of the flusher. For each reason the looks are those of the
source: somebody waits, which is seen by the counter, unless everything was
published when nothing was found to take; a cut, by its request; a close, by
the flag of the buffer; a full buffer, by the batch it makes. -/
theorem flusher (h : Wakeful cfg asked s)
    (hrun : FromOpen cfg before as s.disk s.machine)
    (hs : s.logStep cfg (.flusher n) = some s') : Wakeful cfg asked s' := by
  obtain ⟨hrest, disk', m', hstep, rfl⟩ := logStep_flusher hs
  obtain ⟨log, hand, rest, -, -, hsim⟩ := FromOpen.sim hrun
  have hend : m'.shared.buffer.end_ = s.machine.shared.buffer.end_
      ∧ m'.shared.buffer.closed = s.machine.shared.buffer.closed := by
    cases hstep <;> exact ⟨rfl, rfl⟩
  have hwritten : s.machine.shared.written ≤ m'.shared.written := by
    rcases hstep.carried with ⟨-, -, -, hw⟩ | ⟨e, -, -, -, -, hw⟩
      | ⟨-, -, -, hw⟩ <;> rw [hw]
    exact Nat.le_max_left _ _
  -- nothing is left to wait for when the flusher finds nothing to take
  have hidle : s.machine.pc = .take false false →
      s.machine.shared.buffer.buf = [] →
        s.machine.shared.written = s.machine.shared.buffer.end_ := by
    intro hpc hbuf
    have hlevel := FromOpen.level hrun (by rw [hpc]; rfl)
    rw [hbuf] at hlevel
    exact hlevel
  have halert : ∀ r, s.Alert r → _ := fun r hr => hr.flusher hrest hstep
  obtain ⟨hdisk, hmachine⟩ := settle_log cfg s.machine m'
    { s with disk := disk', machine := m' }
  obtain ⟨hwaits, hwaiters, hkicks, hjoining⟩ :=
    settle_callers cfg s.machine m'
      { s with disk := disk', machine := m' }
  constructor
  · exact settle_fits hrest hstep
  · rw [hwaits, hwaiters]
    exact h.counted
  · rw [hwaits, hmachine, hend.1]
    exact h.handed
  · rw [hwaits, hmachine]
    intro hask w hw hpc
    -- somebody waits for what has been published, or is in sight
    rcases h.waiting hask w hw hpc with hle | hr
    · exact .inl (Nat.le_trans hle hwritten)
    by_cases hidle' : s.machine.pc = .take false false
        ∧ s.machine.shared.buffer.buf = []
    · have hhanded := h.handed hask w hw
      rw [← hidle hidle'.1 hidle'.2] at hhanded
      exact .inl (Nat.le_trans hhanded hwritten)
    · exact .inr (halert _ hr rfl (fun _ _ => rfl) (fun _ _ _ _ _ => rfl)
        fun hpc hbuf => absurd ⟨hpc, hbuf⟩ hidle')
  · rw [hmachine]
    intro hcut
    -- only the answer ends a request
    have hcut : s.machine.shared.cut.requested = true := by
      cases hstep with
      | finish hpc => cases hcut
      | _ => exact hcut
    exact halert _ (h.cut hcut) rfl (fun _ _ => hcut)
      (fun _ closing cutting full htaking => by
        have htaking : cutting = true := htaking
        simp [Reason.cut, htaking])
      fun _ _ => rfl
  · rw [hmachine, hjoining, hend.2]
    intro hjoin
    obtain ⟨hclosed, hr⟩ := h.joining hjoin
    exact ⟨hclosed, halert _ hr hclosed (fun _ hseen => hseen)
      (fun _ closing cutting full htaking => by
        have htaking : closing = true := htaking
        simp [Reason.close, htaking])
      fun _ _ => rfl⟩
  · rw [hmachine, hkicks]
    intro hpos hfull
    cases htakes : s.machine.takes with
    | true =>
        -- the buffer is empty behind `take`
        have hempty : m'.shared.buffer.buf = [] := by
          cases hstep with
          | taken hpc hbuf => exact hsim.swept (by rw [hpc]; rfl)
          | _ => simp [Machine.takes, *] at htakes
        rw [hempty] at hfull
        exact absurd hfull (Nat.not_le.mpr hpos)
    | false =>
        rw [hstep.buffer htakes] at hfull
        refine (h.full hpos hfull).imp id fun hr => ?_
        refine halert _ hr rfl (fun _ _ => rfl)
          (fun htrue => by rw [htakes] at htrue; cases htrue)
          fun hpc hbuf => ?_
        rw [hbuf] at hfull
        exact absurd hfull (Nat.not_le.mpr hpos)

/-- What of the callers a step of the log does not touch. -/
private theorem others_callers {a : Action} (ha : ∀ n, a ≠ .flusher n)
    (hs : s.logStep cfg a = some s') :
    s'.rest = s.rest ∧ s'.stay = s.stay ∧ s'.waits = s.waits
      ∧ s'.waiters = s.waiters ∧ s'.joining = s.joining
      ∧ (s.token = true → s'.token = true) ∧ s.kicks ≤ s'.kicks := by
  unfold logStep at hs
  split at hs
  case h_1 n => exact absurd rfl (ha n)
  case h_2 =>
      obtain ⟨p, -, rfl⟩ := Option.map_eq_some_iff.mp hs
      exact ⟨rfl, rfl, rfl, rfl, rfl, id, Nat.le_add_right _ _⟩
  case h_3 =>
      obtain ⟨p, -, rfl⟩ := Option.map_eq_some_iff.mp hs
      exact ⟨rfl, rfl, rfl, rfl, rfl, fun _ => rfl, Nat.le_refl _⟩
  case h_4 =>
      split at hs
      · obtain ⟨p, -, rfl⟩ := Option.map_eq_some_iff.mp hs
        exact ⟨rfl, rfl, rfl, rfl, rfl, id, Nat.le_refl _⟩
      · cases hs
  case h_5 => cases hs
  all_goals
    obtain ⟨p, -, rfl⟩ := Option.map_eq_some_iff.mp hs
    exact ⟨rfl, rfl, rfl, rfl, rfl, id, Nat.le_refl _⟩

/-- What it does to the buffer: an append over the threshold kicks. The
buffer was over it before, or this append has crossed it and has a kick to
give. -/
private theorem others_buffer {a : Action} (ha : ∀ n, a ≠ .flusher n)
    (hs : s.logStep cfg a = some s') :
    s.machine.shared.buffer.end_ ≤ s'.machine.shared.buffer.end_
      ∧ (s.machine.shared.buffer.closed = true →
        s'.machine.shared.buffer.closed = true)
      ∧ (cfg.flushThreshold ≤ s'.machine.shared.buffer.buf.length →
        cfg.flushThreshold ≤ s.machine.shared.buffer.buf.length
          ∨ 0 < s'.kicks) := by
  have hlog := logStep_log hs
  obtain ⟨-, hbuffer, -⟩ := step_keeps ha hlog
  cases a with
  | append rec result =>
      obtain ⟨⟨disk', m'⟩, hstep, rfl⟩ := Option.map_eq_some_iff.mp hs
      obtain ⟨-, -, -, rfl⟩ := step_append hstep
      refine ⟨?_, ?_, fun hfull => ?_⟩
      · show _ ≤ (appendWith cfg s.machine.shared.buffer rec).2.end_
        rcases appendWith_cases cfg s.machine.shared.buffer rec
          with ⟨-, heq⟩ | ⟨-, e, heq⟩ | ⟨-, -, -, heq⟩ <;> rw [heq]
        exact Nat.le_add_right _ _
      · show _ → (appendWith cfg s.machine.shared.buffer rec).2.closed = true
        rcases appendWith_cases cfg s.machine.shared.buffer rec
          with ⟨-, heq⟩ | ⟨-, e, heq⟩ | ⟨-, -, -, heq⟩ <;> rw [heq] <;>
          exact id
      · by_cases hbefore : cfg.flushThreshold
            ≤ s.machine.shared.buffer.buf.length
        · exact .inl hbefore
        · refine .inr ?_
          have hcrosses : crosses cfg s.machine _ = true :=
            Bool.and_eq_true_iff.mpr
              ⟨decide_eq_true (Nat.lt_of_not_le hbefore),
                decide_eq_true hfull⟩
          show 0 < s.kicks + (crosses cfg s.machine _).toNat
          rw [hcrosses]
          exact Nat.lt_add_left _ Nat.zero_lt_one
  | close =>
      simp only [Wal.step, Option.some.injEq, Prod.mk.injEq] at hlog
      rw [← hlog.2]
      exact ⟨Nat.le_refl _, fun _ => rfl, .inl⟩
  | flusher n => exact absurd rfl (ha n)
  | _ =>
      have hsame : s'.machine.shared.buffer = s.machine.shared.buffer :=
        hbuffer rfl
      rw [hsame]
      exact ⟨Nat.le_refl _, id, .inl⟩

/-- A step of the log that is not the flusher's. A request comes with its
kick, and an answer ends the request. What becomes of the buffer is
`others_buffer`. -/
theorem others {a : Action} (h : Wakeful cfg asked s)
    (ha : ∀ n, a ≠ .flusher n) (hs : s.logStep cfg a = some s') :
    Wakeful cfg asked s' := by
  obtain ⟨hk, -, hcut⟩ := step_keeps ha (logStep_log hs)
  have hpc : s'.machine.pc = s.machine.pc := hk.pc
  have hwritten : s'.machine.shared.written = s.machine.shared.written :=
    hk.written
  obtain ⟨hrest, hstay, hwaits, hwaiters, hjoining, htoken, hkicks⟩ :=
    others_callers ha hs
  obtain ⟨hend, hclosed, hgrows⟩ := others_buffer ha hs
  have halert : ∀ r, s.Alert r → s'.Alert r :=
    fun r hr => hr.frame hrest hstay hpc htoken
  have hfits : s'.Fits := by
    have := h.fits
    unfold Fits at this ⊢
    rw [hrest, hpc]
    exact this
  constructor
  · exact hfits
  · rw [hwaits, hwaiters]
    exact h.counted
  · rw [hwaits]
    exact fun hask w hw => Nat.le_trans (h.handed hask w hw) hend
  · rw [hwaits, hwritten]
    exact fun hask w hw hwait =>
      (h.waiting hask w hw hwait).imp id (halert _)
  · intro hreq
    cases hcuts : a.usesCut with
    | false =>
        have hsame : s'.machine.shared.cut = s.machine.shared.cut :=
          (hcut hcuts).1
        rw [hsame] at hreq
        exact halert _ (h.cut hreq)
    | true =>
        cases a with
        -- the request kicks, and the token is there
        | cutRequest caller =>
            obtain ⟨p, -, rfl⟩ := Option.map_eq_some_iff.mp hs
            exact .inl rfl
        | cutLock caller =>
            obtain ⟨p, hstep, rfl⟩ := Option.map_eq_some_iff.mp hs
            simp only [Wal.step] at hstep
            split at hstep <;> cases hstep
            exact halert _ (h.cut hreq)
        | cutReturn caller closed =>
            obtain ⟨p, hstep, rfl⟩ := Option.map_eq_some_iff.mp hs
            simp only [Wal.step] at hstep
            split at hstep <;> cases hstep
            exact halert _ (h.cut hreq)
        | _ => cases hcuts
  · rw [hjoining]
    exact fun hjoin => ⟨hclosed (h.joining hjoin).1,
      halert _ (h.joining hjoin).2⟩
  · intro hpos hfull
    rcases hgrows hfull with hbefore | hkick
    · exact (h.full hpos hbefore).imp (fun hk => Nat.lt_of_lt_of_le hk hkicks)
        (halert _)
    · exact .inl hkick

/-- One of the calls moves, to a place where it is counted or not. -/
private theorem moved {lsn : Nat} {pc : WaitPc} {pc' : Option WaitPc}
    (h : Wakeful cfg asked s) (hs : s.move lsn pc pc' = some s') :
    s'.waits.countP (fun w => w.pc.guarded) + pc.guarded.toNat
        = s.waiters + (pc'.elim false WaitPc.guarded).toNat
      ∧ ∀ w ∈ s'.waits, w ∈ s.waits ∨ (w.lsn = lsn ∧ some w.pc = pc'
        ∧ ⟨lsn, pc⟩ ∈ s.waits) := by
  obtain ⟨hmem, rfl⟩ := move_eq hs
  have hcount := (List.perm_cons_erase hmem).countP_eq fun w => w.pc.guarded
  rw [List.countP_cons, ← h.counted] at hcount
  constructor
  · simp only [List.countP_append]
    cases pc' with
    | none => cases pc <;> simp_all [WaitPc.guarded]
    | some pc' => cases pc <;> cases pc' <;> simp_all [WaitPc.guarded] <;> omega
  · intro w hw
    rcases List.mem_append.mp hw with hnew | hold
    · cases pc' with
      | none => exact absurd hnew List.not_mem_nil
      | some pc' =>
          have hw : w = ⟨lsn, pc'⟩ := by simpa using hnew
          rw [hw]
          exact .inr ⟨rfl, rfl, hmem⟩
    · exact .inl (List.mem_of_mem_erase hold)

/-- Callers come and go. -/
private theorem callers (h : Wakeful cfg asked s) {waits : List Wait}
    {waiters : Nat} {token : Bool} (htoken : s.token = true → token = true)
    (hcounted : waiters = waits.countP fun w => w.pc.guarded)
    (hhanded : asked → ∀ w ∈ waits, w.lsn ≤ s.machine.shared.buffer.end_)
    (hnew : ∀ w ∈ waits, w.pc = .waiting → w ∈ s.waits ∨ token = true) :
    Wakeful cfg asked { s with waits, waiters, token } := by
  have halert : ∀ r, s.Alert r →
      Alert r { s with waits, waiters, token } :=
    fun r hr => hr.frame rfl rfl rfl htoken
  exact {
    fits := h.fits
    counted := hcounted
    handed := hhanded
    waiting := fun hask w hw hpc => by
      rcases hnew w hw hpc with hold | hthere
      · exact (h.waiting hask w hold hpc).imp id (halert _)
      · exact .inr (.inl hthere)
    cut := fun hcut => halert _ (h.cut hcut)
    joining := fun hjoin => (h.joining hjoin).imp id (halert _)
    full := fun hpos hfull => (h.full hpos hfull).imp id (halert _) }

/-- A step of `Progress::wait`, by a caller to whom the LSN was handed out.
A caller comes to `wait_for` through its guard and its kick, so when it is
there the flusher has the token or is on its way; every other move of a
caller leaves those in `wait_for` as they are, or is that of leaving it. -/
theorem wait {lsn : Nat} {move : WaitMove} (h : Wakeful cfg asked s)
    (hhanded : asked → ∀ level, move = .enter level →
      lsn ≤ s.machine.shared.buffer.end_)
    (hs : s.wait lsn move = some s') : Wakeful cfg asked s' := by
  -- who moves has the LSN it came with
  have hstay : ∀ {pc : WaitPc} {pc' : Option WaitPc} {s₁ : Threads},
      s.move lsn pc pc' = some s₁ → asked →
        ∀ w ∈ s₁.waits, w.lsn ≤ s.machine.shared.buffer.end_ := by
    intro pc pc' s₁ hmove hask w hw
    rcases (h.moved hmove).2 w hw with hold | ⟨hlsn, -, hthere⟩
    · exact h.handed hask w hold
    · rw [hlsn]
      exact h.handed hask _ hthere
  cases move with
  | atOnce level =>
      simp only [Threads.wait] at hs
      split at hs <;> cases hs
      exact h
  | enter level =>
      simp only [Threads.wait] at hs
      split at hs <;> cases hs
      refine h.callers id ?_ ?_ ?_
      · rw [List.countP_cons, ← h.counted]
        rfl
      · intro hask w hw
        rcases List.mem_cons.mp hw with rfl | hold
        · exact hhanded hask level rfl
        · exact h.handed hask w hold
      · intro w hw hpc
        rcases List.mem_cons.mp hw with rfl | hold
        · cases hpc
        · exact .inl hold
  | serve =>
      simp only [Threads.wait] at hs
      split at hs
      · obtain ⟨hcount, hmem⟩ := h.moved hs
        have hhanded := hstay hs
        obtain ⟨-, rfl⟩ := move_eq hs
        refine h.callers id (Nat.add_right_cancel hcount).symm hhanded ?_
        intro w hw hpc
        rcases hmem w hw with hold | ⟨-, hserved, -⟩
        · exact .inl hold
        · rw [hpc] at hserved
          cases hserved
      · cases hs
  | count =>
      obtain ⟨s₁, hmove, rfl⟩ := Option.map_eq_some_iff.mp hs
      obtain ⟨hcount, hmem⟩ := h.moved hmove
      have hhanded := hstay hmove
      obtain ⟨-, rfl⟩ := move_eq hmove
      refine h.callers id hcount.symm hhanded fun w hw hpc => ?_
      rcases hmem w hw with hold | ⟨-, hcounted, -⟩
      · exact .inl hold
      · rw [hpc] at hcounted
        cases hcounted
  | unpark =>
      obtain ⟨s₁, hmove, rfl⟩ := Option.map_eq_some_iff.mp hs
      obtain ⟨hcount, hmem⟩ := h.moved hmove
      have hhanded := hstay hmove
      obtain ⟨-, rfl⟩ := move_eq hmove
      exact h.callers (fun _ => rfl) (Nat.add_right_cancel hcount).symm hhanded
        fun _ _ _ => .inr rfl
  | leave | cancel =>
      obtain ⟨s₁, hmove, rfl⟩ := Option.map_eq_some_iff.mp hs
      obtain ⟨hcount, hmem⟩ := h.moved hmove
      have hhanded := hstay hmove
      obtain ⟨-, rfl⟩ := move_eq hmove
      refine h.callers id (Nat.eq_sub_of_add_eq hcount).symm hhanded
        fun w hw hpc => ?_
      rcases hmem w hw with hold | ⟨-, hgone, -⟩
      · exact .inl hold
      · cases hgone

/-- Any step: of the log, a look or a sleep of the flusher's, a caller in
`wait`, a kick, or somebody who joins and closes the buffer. -/
theorem step {a : ThreadsAction} (h : Wakeful cfg asked s)
    (hrun : FromOpen cfg before as s.disk s.machine)
    (hhanded : asked → ∀ lsn level, a = .wait lsn (.enter level) →
      lsn ≤ s.machine.shared.buffer.end_)
    (hs : Threads.step cfg gc a s = some s') : Wakeful cfg asked s' := by
  cases a with
  | log a =>
      by_cases hflusher : ∃ n, a = .flusher n
      · obtain ⟨n, rfl⟩ := hflusher
        exact h.flusher hrun hs
      · exact h.others (fun n he => hflusher ⟨n, he⟩) hs
  | rest timeout => exact h.wake hs
  | wait lsn move =>
      exact h.wait (fun hask level he => hhanded hask lsn level (by rw [he]))
        hs
  | kick =>
      simp only [Threads.step] at hs
      split at hs <;> cases hs
      have halert : ∀ r, Alert r
          { s with kicks := s.kicks - 1, token := true } := fun r => .inl rfl
      exact {
        fits := h.fits
        counted := h.counted
        handed := h.handed
        waiting := fun _ _ _ _ => .inr (halert _)
        cut := fun _ => halert _
        joining := fun hjoin => ⟨(h.joining hjoin).1, halert _⟩
        full := fun _ _ => .inr (halert _) }
  | join =>
      simp only [Threads.step] at hs
      split at hs
      · rename_i hclosed
        cases hs
        have halert : ∀ r, Alert r
            { s with joining := true, token := true } := fun r => .inl rfl
        exact {
          fits := h.fits
          counted := h.counted
          handed := h.handed
          waiting := fun _ _ _ _ => .inr (halert _)
          cut := fun _ => halert _
          joining := fun _ => ⟨hclosed, halert _⟩
          full := fun _ _ => .inr (halert _) }
      · cases hs

end Wakeful

end Threads

-- ================================================================== over runs

/-- A caller waits for an LSN that an append has returned, or for less. -/
def Handed (as : List ThreadsAction) : Prop :=
  ∀ pre lsn level post, as = pre ++ .wait lsn (.enter level) :: post →
    ∃ rec l, .log (.append rec (.ok l)) ∈ pre ∧ lsn ≤ l

/-- The flusher is in its park, and nobody has unparked it. -/
def Threads.Asleep (s : Threads) : Prop :=
  s.rest = .parked ∧ s.token = false

instance (s : Threads) : Decidable s.Asleep :=
  inferInstanceAs (Decidable (_ ∧ _))

section

variable {cfg : WalConfig} {gc : GroupCommit} {before : Disk}
  {as : List ThreadsAction} {s : Threads}

theorem Handed.left {bs : List ThreadsAction} (h : Handed (as ++ bs)) :
    Handed as := by
  rintro pre lsn level post rfl
  exact h pre lsn level (post ++ bs) (by simp)

theorem Handed.append {bs : List ThreadsAction} (h : Handed as)
    (hbs : ∀ lsn level, .wait lsn (.enter level) ∉ bs) : Handed (as ++ bs) := by
  intro pre lsn level post hcat
  rcases List.append_eq_append_iff.mp hcat
    with ⟨mid, rfl, hmid⟩ | ⟨mid, rfl, hmid⟩
  · refine absurd ?_ (hbs lsn level)
    rw [hmid]
    exact List.mem_append_right _ List.mem_cons_self
  · cases mid with
    | nil =>
        refine absurd ?_ (hbs lsn level)
        rw [List.nil_append] at hmid
        rw [← hmid]
        exact List.mem_cons_self
    | cons a mid =>
        cases hmid
        exact h pre lsn level mid rfl

/-- What an append has returned, the buffer has reached. -/
theorem FromOpen.reached {as : List Action} {disk : Disk} {m : Machine}
    {rec : WalRecord} {lsn : Nat} (hrun : FromOpen cfg before as disk m)
    (hmem : .append rec (.ok lsn) ∈ as) : lsn ≤ m.shared.buffer.end_ := by
  obtain ⟨pre, post, rfl⟩ := List.append_of_mem hmem
  obtain ⟨log, hand, rest, hacc, -, hsim⟩ := FromOpen.sim hrun
  have hcat : pre ++ .append rec (.ok lsn) :: post
      = (pre ++ [.append rec (.ok lsn)]) ++ post := by simp
  rw [FromOpen.lsn_eq hrun, hsim.end_, hacc, hcat, acceptedIn_append _ post,
    logBytes_append, List.length_append]
  exact Nat.le_add_right _ _

/-- In every run the flusher is alert to what it is wanted for. -/
theorem Threads.Wakeful.run
    (hrun : Run (Threads.step cfg gc) (.opened before) as s) :
    Threads.Wakeful cfg (Handed as) s := by
  refine Run.invariant (P := fun as s => Threads.Wakeful cfg (Handed as) s)
    (.opened cfg _ before) ?_ hrun
  intro as s a s' hrun ih hs
  have hlog := Threads.run_log hrun
  refine (ih.mono Handed.left).step hlog (fun hhanded lsn level he => ?_) hs
  obtain ⟨rec, l, hmem, hle⟩ := hhanded as lsn level [] (by rw [he])
  have hin : .append rec (.ok l) ∈ as.flatMap ThreadsAction.logged :=
    List.mem_flatMap.mpr ⟨_, hmem, List.mem_singleton_self _⟩
  exact Nat.le_trans hle (FromOpen.reached hlog hin)

/-- What the flusher has slept over: nothing it is wanted for. -/
theorem Threads.Wakeful.asleep {as : List Action} {asked : Prop}
    (h : Threads.Wakeful cfg asked s)
    (hrun : FromOpen cfg before as s.disk s.machine) (hasleep : s.Asleep) :
    (asked → ∀ w ∈ s.waits, w.pc = .waiting →
        w.lsn ≤ s.machine.shared.written)
      ∧ s.machine.shared.cut.requested = false
      ∧ s.joining = false
      ∧ (0 < cfg.flushThreshold →
        cfg.flushThreshold ≤ s.machine.shared.buffer.buf.length → 0 < s.kicks)
      ∧ s.machine.shared.written + s.machine.shared.buffer.buf.length
        = s.machine.shared.buffer.end_ := by
  have hnot : ∀ r, ¬ s.Alert r := by
    rintro r (htoken | hheeds)
    · rw [hasleep.2] at htoken
      cases htoken
    · unfold Threads.heeds at hheeds
      rw [hasleep.1] at hheeds
      cases hheeds
  refine ⟨fun hask w hw hpc => ?_, ?_, ?_, fun hpos hfull => ?_, ?_⟩
  · exact (h.waiting hask w hw hpc).resolve_right (hnot _)
  · exact Bool.eq_false_iff.mpr fun hcut => hnot _ (h.cut hcut)
  · exact Bool.eq_false_iff.mpr fun hjoin => hnot _ (h.joining hjoin).2
  · exact (h.full hpos hfull).resolve_right (hnot _)
  · have hfits := h.fits
    unfold Threads.Fits at hfits
    rw [hasleep.1] at hfits
    have hpc : s.machine.pc = .top := hfits
    exact FromOpen.level hrun (by rw [hpc]; rfl)

end

/-- While the flusher is asleep, what was taken is published, nobody in
`wait_for` waits for more than that, no cut is requested, nobody has come to
join, and if the buffer is past the threshold somebody is about to kick. -/
theorem asleep_idle {cfg : WalConfig} {gc : GroupCommit} {before : Disk}
    {as : List ThreadsAction} {s : Threads}
    (hrun : Run (Threads.step cfg gc) (.opened before) as s)
    (hhanded : Handed as) (hasleep : s.Asleep) :
    (∀ w ∈ s.waits, w.pc = .waiting → w.lsn ≤ s.machine.shared.written)
      ∧ s.machine.shared.cut.requested = false
      ∧ s.joining = false
      ∧ (0 < cfg.flushThreshold →
        cfg.flushThreshold ≤ s.machine.shared.buffer.buf.length → 0 < s.kicks)
      ∧ s.machine.shared.written + s.machine.shared.buffer.buf.length
        = s.machine.shared.buffer.end_ :=
  have hawake := Threads.Wakeful.run hrun
  ((hawake.asleep (Threads.run_log hrun) hasleep).imp_left fun h => h hhanded)

/-- A caller waits for its record. -/
def asks : List ThreadsAction :=
  [.log (.append ⟨[], [⟨7, [⟨1, 2⟩]⟩]⟩ (.ok 45)), .wait 45 (.enter .written),
    .wait 45 .count, .wait 45 .unpark]

/-- A pass of the flusher up to its `take`. -/
def passing : List ThreadsAction :=
  [.log (.flusher 0), .log (.flusher 0), .rest false, .log (.flusher 0)]

/-- The flusher writes the record, looks again because somebody waits, and
once more for the token. -/
def serves : List ThreadsAction :=
  passing ++ List.replicate 5 (.log (.flusher 100))
    ++ .rest false :: passing ++ .rest false :: passing

theorem handed_asks : Handed asks := by
  intro pre lsn level post hcat
  rcases pre with _ | ⟨a, _ | ⟨b, _ | ⟨c, _ | ⟨d, pre⟩⟩⟩⟩
  · cases hcat
  · cases hcat
    exact ⟨_, 45, List.mem_singleton_self _, Nat.le_refl _⟩
  · cases hcat
  · cases hcat
  · simp [asks] at hcat

theorem asleep_idle_through :
    ∃ s, Run (Threads.step ⟨1000, 1000⟩ ⟨0, 0⟩) (.opened []) (asks ++ serves) s
      ∧ s.Asleep ∧ s.waits = [⟨45, .waiting⟩]
      ∧ 45 ≤ s.machine.shared.written := by
  have hsome : (exec (Threads.step ⟨1000, 1000⟩ ⟨0, 0⟩) (asks ++ serves)
      (.opened [])).map (fun s => (decide s.Asleep, s.waits))
        = some (true, [⟨45, .waiting⟩]) := by
    decide +kernel
  obtain ⟨s, hexec, heq⟩ := Option.map_eq_some_iff.mp hsome
  obtain ⟨hasleep, hwaits⟩ := Prod.mk.inj heq
  have hasleep : s.Asleep := of_decide_eq_true hasleep
  have hhanded : Handed (asks ++ serves) :=
    handed_asks.append fun lsn level hmem => by simp [serves, passing] at hmem
  refine ⟨s, .of_exec hexec, hasleep, hwaits, ?_⟩
  refine (asleep_idle (.of_exec hexec) hhanded hasleep).1 ⟨45, .waiting⟩ ?_ rfl
  rw [hwaits]
  exact List.mem_singleton_self _

end Tsdb.Wal
