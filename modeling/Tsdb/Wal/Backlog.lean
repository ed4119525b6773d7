/-
`backlog_bytes` of `storage/wal/writer.rs` reads two counters, one after
the other, while the other threads go on.

The published LSN never passes the end of the buffer, but the end is read
first: a record appended behind that read, taken and published in front of
the second, puts the LSN past it, and the subtraction underflows. This is
the only way (`backlog_bytes_ok_iff`): the batch that overtakes the reader
has been taken behind an append that came after its first read.

# The race

`Race` follows the log from the first read on: nothing has been accepted
since; something has; a batch with it has been taken; that batch has been
published. It is a matter of the log's steps alone, and no step of the
model looks at it. `Race.Holds` says what each stage means for the
counters: up to the third stage the published LSN is at most the end that
was read, and at the fourth it is greater. So the stage at the second read
decides what the subtraction gives, both ways.

# The counters

Behind it is one fact about a running log, that there are three LSNs in
order: what is published, what the batch in hand will publish
(`FlusherPc.carried`), and the end of the buffer (`Sim.counters`). A step
of the flusher takes the third over as the second, makes the first of the
second, or leaves both (`FlusherStep.carried`); an accepted append moves
the third by at least a byte (`Sim.end_step`). A batch taken before the
append carries an LSN up to the end that was read, which is why the race
has a stage for the taking.

The run is of the log and one call side by side; `Step` lists what can
happen, `Reads` is the invariant, and the log behind such a run is a log
like any other.
-/
import Tsdb.Wal.Delivery

namespace Tsdb.Wal

open Lib (Run exec)

-- ================================================================= the call

/-- `end - written`, if it does not underflow. -/
def backlogBytes (end_ written : Nat) : Option Nat :=
  if written ≤ end_ then some (end_ - written) else none

/-- Where a caller stands in `backlog_bytes`, and what it has read. -/
inductive BacklogPc
  | start
  | read (end_ : Nat)
  | returned (backlog : Option Nat)
deriving DecidableEq, Repr

/-- How far the flusher has come since the end was read: a record has been
appended, a batch has been taken behind that, and it has been published. -/
inductive Race
  | level
  | appended
  | taken
  | published
deriving DecidableEq, Repr

/-- The flusher is about to take what is in the buffer. -/
def Machine.takes (m : Machine) : Bool :=
  match m.pc with
  | .take _ _ => m.shared.buffer.buf ≠ []
  | _ => false

/-- The flusher is about to publish an LSN. -/
def Machine.publishes (m : Machine) : Bool :=
  match m.pc with
  | .publish _ => true
  | _ => false

def Race.next (m : Machine) : Action → Race → Race
  | .append rec (.ok _), .level => if rec.isEmpty then .level else .appended
  | .flusher _, .appended => if m.takes then .taken else .appended
  | .flusher _, .taken => if m.publishes then .published else .taken
  | _, race => race

/-- A log and a call of `backlog_bytes`. The race is for the theorems to
speak of; no step looks at it. -/
structure Backlog where
  disk : Disk
  machine : Machine
  pc : BacklogPc := .start
  race : Race := .level

inductive BacklogAction
  | wal (a : Action)
  | readEnd
  | readWritten
deriving DecidableEq, Repr

namespace Backlog

/-- The log, or the call, takes a step. -/
def step (cfg : WalConfig) (a : BacklogAction) (s : Backlog) :
    Option Backlog :=
  match a, s.pc with
  | .wal a, .read _ =>
      (Wal.step cfg a (s.disk, s.machine)).map fun (disk, machine) =>
        { s with disk, machine, race := s.race.next s.machine a }
  | .wal a, _ =>
      (Wal.step cfg a (s.disk, s.machine)).map fun (disk, machine) =>
        { s with disk, machine }
  | .readEnd, .start =>
      some { s with pc := .read s.machine.shared.buffer.end_ }
  | .readWritten, .read end_ =>
      some { s with
        pc := .returned (backlogBytes end_ s.machine.shared.written) }
  | _, _ => none

/-- The log as `Wal::open` leaves it, and the call in front of it. -/
def opened (before : Disk) : Backlog where
  disk := (Wal.opened before).1
  machine := (Wal.opened before).2

end Backlog

-- ============================================================== the counters

/-- The LSN the flusher is going to publish for what it has in hand. -/
def FlusherPc.carried : FlusherPc → Option Nat
  | .publish end_ => some end_
  | pc => pc.holding

section

variable {cfg : WalConfig} {base : Nat} {log : Log}
  {hand rest : List WalRecord} {disk disk' : Disk} {m m' : Machine}
  {a : Action} {n e : Nat}

/-- What is published, and what will be, is not past the end. -/
theorem Sim.counters (h : Sim base log hand rest disk m) :
    m.shared.written ≤ m.shared.buffer.end_
      ∧ ∀ e, m.pc.carried = some e → e ≤ m.shared.buffer.end_ := by
  have hend : m.shared.buffer.end_ = (logBytes log.flushed).length
      + (logBytes hand).length + (logBytes rest).length := by
    rw [h.end_, Log.accepted, h.pending, logBytes_append, logBytes_append,
      List.length_append, List.length_append, Nat.add_assoc]
  have hsound : m.shared.written ≤ (logBytes log.flushed).length := by
    rw [h.written]
    exact h.sound
  refine ⟨by omega, fun e he => ?_⟩
  cases hpc : m.pc with
  | publish e' =>
      rw [hpc] at he
      cases he
      rw [h.publish e hpc]
      omega
  | batch | rotate | write =>
      rw [hpc] at he
      obtain ⟨-, hlen⟩ := h.held e (by rw [hpc]; exact he)
      rw [hlen, logBytes_append, List.length_append]
      omega
  | _ =>
      rw [hpc] at he
      cases he

/-- `rotate` keeps what it was called for. -/
theorem FlusherPc.carried_rotate (stage stage' : RotateStage)
    (why : RotateFor) :
    (FlusherPc.rotate stage why).carried
      = (FlusherPc.rotate stage' why).carried := by
  cases why <;> rfl

/-- A step of the log moves the end by what it accepts. -/
theorem Sim.end_step (h : Sim base log hand rest disk m)
    (hs : Wal.step cfg a (disk, m) = some (disk', m')) :
    m'.shared.buffer.end_
      = m.shared.buffer.end_ + (logBytes a.accepted).length := by
  obtain ⟨moves, log', hexec, happ, hand', rest', h'⟩ := h.step hs
  rw [h'.end_, h.end_, Log.exec_accepted hexec, happ, logBytes_append,
    List.length_append]

/-- What a step of the flusher does to the two LSNs it has: it takes one
over from the buffer, publishes one, or leaves both. -/
theorem FlusherStep.carried (h : FlusherStep cfg n disk m disk' m') :
    (m.takes = true ∧ m.pc.carried = none
        ∧ m'.pc.carried = some m.shared.buffer.end_
        ∧ m'.shared.written = m.shared.written)
      ∨ (∃ e, m.takes = false ∧ m.publishes = true ∧ m.pc.carried = some e
        ∧ m'.pc.carried = none
        ∧ m'.shared.written = max m.shared.written e)
      ∨ (m.takes = false ∧ m.publishes = false
        ∧ m'.pc.carried = m.pc.carried
        ∧ m'.shared.written = m.shared.written) := by
  cases h with
  | taken hpc hbuf =>
      refine .inl ⟨?_, ?_, rfl, rfl⟩
      · simp [Machine.takes, hpc, hbuf]
      · rw [hpc]
        rfl
  | @publish e hpc =>
      refine .inr (.inl ⟨e, ?_, ?_, ?_, rfl, ?_⟩)
      · simp [Machine.takes, hpc]
      · simp [Machine.publishes, hpc]
      · rw [hpc]
        rfl
      · show advance _ _ = _
        unfold advance
        split <;> omega
  | serveCut hpc hbuf | leave hpc hbuf | again hpc hbuf =>
      refine .inr (.inr ⟨?_, ?_, ?_, rfl⟩)
      · simp [Machine.takes, hpc, hbuf]
      · simp [Machine.publishes, hpc]
      · rw [hpc]
        rfl
  | @store why closed hpc =>
      refine .inr (.inr ⟨?_, ?_, ?_, rfl⟩)
      · simp [Machine.takes, hpc]
      · simp [Machine.publishes, hpc]
      · rw [hpc]
        cases why <;> rfl
  | sync hpc | create hpc | syncDir hpc | setFile hpc =>
      refine .inr (.inr ⟨?_, ?_, ?_, rfl⟩)
      · simp [Machine.takes, hpc]
      · simp [Machine.publishes, hpc]
      · rw [hpc]
        exact FlusherPc.carried_rotate _ _ _
  | top hpc | sampleCut hpc | full hpc | room hpc | chunk hpc | wrote hpc
    | clear hpc | finish hpc | finalSync hpc =>
      refine .inr (.inr ⟨?_, ?_, ?_, rfl⟩)
      · simp [Machine.takes, hpc]
      · simp [Machine.publishes, hpc]
      · rw [hpc]
        rfl

end

-- ================================================================== the race

/-- What a stage of the race says about the counters, against the end that
was read. -/
def Race.Holds (end_ : Nat) (m : Machine) : Race → Prop
  | .level => m.shared.buffer.end_ = end_ ∧ m.shared.written ≤ end_
      ∧ ∀ e, m.pc.carried = some e → e ≤ end_
  | .appended => end_ < m.shared.buffer.end_ ∧ m.shared.written ≤ end_
      ∧ ∀ e, m.pc.carried = some e → e ≤ end_
  | .taken => m.shared.written ≤ end_
      ∧ ∃ e, m.pc.carried = some e ∧ end_ < e
  | .published => end_ < m.shared.written

section

variable {cfg : WalConfig} {base : Nat} {log : Log}
  {hand rest : List WalRecord} {disk disk' : Disk} {m m' : Machine}
  {a : Action} {n end_ : Nat} {race : Race}

/-- The call has just read the end. -/
theorem Race.Holds.level (h : Sim base log hand rest disk m) :
    Race.Holds m.shared.buffer.end_ m .level :=
  ⟨rfl, h.counters⟩

/-- The LSN has passed the end that was read when the race is lost, and not
before. -/
theorem Race.Holds.lost (h : race.Holds end_ m) :
    m.shared.written ≤ end_ ↔ race ≠ .published := by
  cases race with
  | level => exact ⟨fun _ => by simp, fun _ => h.2.1⟩
  | appended => exact ⟨fun _ => by simp, fun _ => h.2.1⟩
  | taken => exact ⟨fun _ => by simp, fun _ => h.1⟩
  | published =>
      exact ⟨fun hle => absurd h (Nat.not_lt.mpr hle), fun h => absurd rfl h⟩

/-- A step of the flusher. Before an append it can publish no more than the
end that was read; a batch taken behind the append carries an LSN above it;
and when that one is published the race is lost, whatever follows. -/
private theorem Race.Holds.flusher (h : race.Holds end_ m)
    (hs : FlusherStep cfg n disk m disk' m')
    (hend : m'.shared.buffer.end_ = m.shared.buffer.end_) :
    (race.next m (.flusher n)).Holds end_ m' := by
  cases race with
  | level =>
      obtain ⟨hsame, hle, hcarries⟩ := h
      refine ⟨hend.trans hsame, ?_⟩
      rcases hs.carried with ⟨-, -, hcarried, hwritten⟩
        | ⟨e, -, -, he, hcarried, hwritten⟩ | ⟨-, -, hcarried, hwritten⟩
      · rw [hcarried, hwritten, hsame]
        exact ⟨hle, fun e he => Nat.le_of_eq (Option.some.inj he).symm⟩
      · have := hcarries e he
        rw [hcarried, hwritten]
        exact ⟨by omega, fun e he => by cases he⟩
      · rw [hcarried, hwritten]
        exact ⟨hle, hcarries⟩
  | appended =>
      obtain ⟨hlt, hle, hcarries⟩ := h
      unfold Race.next
      rcases hs.carried with ⟨htakes, -, hcarried, hwritten⟩
        | ⟨e, htakes, -, he, hcarried, hwritten⟩
        | ⟨htakes, -, hcarried, hwritten⟩
      · rw [htakes]
        exact ⟨hwritten ▸ hle, _, hcarried, hlt⟩
      · have := hcarries e he
        rw [htakes]
        refine ⟨hend ▸ hlt, by omega, fun e he => ?_⟩
        rw [hcarried] at he
        cases he
      · rw [htakes]
        refine ⟨hend ▸ hlt, hwritten ▸ hle, ?_⟩
        rw [hcarried]
        exact hcarries
  | taken =>
      obtain ⟨hle, e, he, hlt⟩ := h
      unfold Race.next
      rcases hs.carried with ⟨-, hnone, -⟩
        | ⟨e', -, hpublishes, he', -, hwritten⟩
        | ⟨-, hpublishes, hcarried, hwritten⟩
      · rw [hnone] at he
        cases he
      · rw [hpublishes]
        rw [he, Option.some.injEq] at he'
        show end_ < m'.shared.written
        omega
      · rw [hpublishes]
        exact ⟨hwritten ▸ hle, e, hcarried.trans he, hlt⟩
  | published =>
      show end_ < m'.shared.written
      have hlt : end_ < m.shared.written := h
      rcases hs.carried with ⟨-, -, -, hwritten⟩ | ⟨e, -, -, -, -, hwritten⟩
        | ⟨-, -, -, hwritten⟩ <;> omega

/-- Who is not the flusher takes part in the race by an append. -/
theorem Race.next_other (ha : ∀ n, a ≠ .flusher n) (m : Machine)
    (race : Race) :
    (race.next m a = race ∧ (race = .level → a.accepted = []))
      ∨ (race = .level ∧ race.next m a = .appended ∧ a.accepted ≠ []) := by
  cases a with
  | flusher n => exact absurd rfl (ha n)
  | append rec result =>
      cases result with
      | error err => exact .inl ⟨rfl, fun _ => rfl⟩
      | ok lsn =>
          cases race with
          | level =>
              have hnext : Race.next m (.append rec (.ok lsn)) .level
                  = if rec.isEmpty then .level else .appended := rfl
              have haccepted : (Action.append rec (.ok lsn)).accepted
                  = if rec.isEmpty then [] else [rec] := rfl
              rw [hnext, haccepted]
              cases rec.isEmpty with
              | true => exact .inl ⟨rfl, fun _ => rfl⟩
              | false => exact .inr ⟨rfl, rfl, List.cons_ne_nil _ _⟩
          | _ => exact .inl ⟨rfl, fun h => by cases h⟩
  | _ => exact .inl ⟨rfl, fun _ => rfl⟩

/-- A step of the log. -/
theorem Race.Holds.step (h : race.Holds end_ m)
    (hsim : Sim base log hand rest disk m)
    (hs : Wal.step cfg a (disk, m) = some (disk', m')) :
    (race.next m a).Holds end_ m' := by
  have hend := hsim.end_step hs
  by_cases ha : ∃ n, a = .flusher n
  · obtain ⟨n, rfl⟩ := ha
    exact h.flusher (.of_step hs) hend
  · have hno : ∀ n, a ≠ .flusher n := fun n he => ha ⟨n, he⟩
    obtain ⟨hk, -, -⟩ := step_keeps hno hs
    have hwritten : m'.shared.written = m.shared.written := hk.written
    have hpc : m'.pc = m.pc := hk.pc
    rcases Race.next_other hno m race with ⟨hnext, hnone⟩ | ⟨rfl, hnext, hsome⟩
    · rw [hnext]
      unfold Race.Holds at h ⊢
      rw [hpc, hwritten]
      cases race with
      | level =>
          rw [hnone rfl] at hend
          exact ⟨hend.trans h.1, h.2⟩
      | appended => exact ⟨by omega, h.2⟩
      | taken => exact h
      | published => exact h
    · have hpos := logBytes_length_pos hsome
      rw [hnext]
      unfold Race.Holds at h ⊢
      rw [hpc, hwritten]
      exact ⟨by omega, h.2⟩

end

-- =============================================================== over a run

namespace Backlog

variable {cfg : WalConfig} {before : Disk} {events : List BacklogAction}
  {s s' : Backlog} {a : BacklogAction}

/-- The steps, one by one. -/
inductive Step (cfg : WalConfig) (s : Backlog) :
    BacklogAction → Backlog → Prop
  | between {a : Action} {end_ : Nat} {disk : Disk} {machine : Machine}
      (hpc : s.pc = .read end_)
      (hs : Wal.step cfg a (s.disk, s.machine) = some (disk, machine)) :
      Step cfg s (.wal a)
        { s with disk, machine, race := s.race.next s.machine a }
  | outside {a : Action} {disk : Disk} {machine : Machine}
      (hpc : ∀ end_, s.pc ≠ .read end_)
      (hs : Wal.step cfg a (s.disk, s.machine) = some (disk, machine)) :
      Step cfg s (.wal a) { s with disk, machine }
  | readEnd (hpc : s.pc = .start) :
      Step cfg s .readEnd { s with pc := .read s.machine.shared.buffer.end_ }
  | readWritten {end_ : Nat} (hpc : s.pc = .read end_) :
      Step cfg s .readWritten { s with
        pc := .returned (backlogBytes end_ s.machine.shared.written) }

/-- There are no others. -/
theorem Step.of_step (h : step cfg a s = some s') : Step cfg s a s' := by
  unfold step at h
  split at h
  · rename_i hpc
    obtain ⟨⟨disk, machine⟩, hs, rfl⟩ := Option.map_eq_some_iff.mp h
    exact .between hpc hs
  · rename_i hpc
    obtain ⟨⟨disk, machine⟩, hs, rfl⟩ := Option.map_eq_some_iff.mp h
    exact .outside hpc hs
  · rename_i hpc
    cases h
    exact .readEnd hpc
  · rename_i hpc
    cases h
    exact .readWritten hpc
  · cases h

/-- In front of the call there is no race; between its reads the race says
where the LSN is; and it decides what the call returns. -/
def Reads (s : Backlog) : Prop :=
  (s.pc = .start → s.race = .level)
    ∧ (∀ end_, s.pc = .read end_ → s.race.Holds end_ s.machine)
    ∧ ∀ backlog, s.pc = .returned backlog →
      (backlog ≠ none ↔ s.race ≠ .published)

theorem Reads.step {base : Nat} {log : Log} {hand rest : List WalRecord}
    (h : s.Reads) (hsim : Sim base log hand rest s.disk s.machine)
    (hs : Step cfg s a s') : s'.Reads := by
  obtain ⟨hstart, hread, hreturned⟩ := h
  cases hs with
  | between hpc hs =>
      refine ⟨fun hpc' => ?_, fun end_ hpc' => ?_, fun backlog hpc' => ?_⟩
      · rw [hpc] at hpc'
        cases hpc'
      · exact (hread end_ hpc').step hsim hs
      · rw [hpc] at hpc'
        cases hpc'
  | outside hpc hs =>
      exact ⟨hstart, fun end_ hpc' => absurd hpc' (hpc end_), hreturned⟩
  | readEnd hpc =>
      refine ⟨fun hpc' => ?_, fun end_ hpc' => ?_, fun backlog hpc' => ?_⟩
      · cases hpc'
      · cases hpc'
        rw [hstart hpc]
        exact .level hsim
      · cases hpc'
  | readWritten hpc =>
      refine ⟨fun hpc' => ?_, fun end_ hpc' => ?_, fun backlog hpc' => ?_⟩
      · cases hpc'
      · cases hpc'
      · cases hpc'
        rw [← (hread _ hpc).lost]
        unfold backlogBytes
        split <;> simp_all

/-- The log behind a run is a log, whoever reads its counters. -/
theorem run_reads (hrun : exec (step cfg) events (opened before) = some s) :
    s.Reads ∧ ∃ log hand rest,
      Sim before.length log hand rest s.disk s.machine := by
  refine Run.invariant (P := fun _ s => s.Reads ∧ ∃ log hand rest,
    Sim before.length log hand rest s.disk s.machine) ?_ ?_ (.of_exec hrun)
  · refine ⟨⟨fun _ => rfl, fun _ h => ?_, fun _ h => ?_⟩, _, _, _,
      Sim.start before { id := firstId before, durable := true } rfl⟩
    · cases h
    · cases h
  · intro _ s a s' _ hinv hs
    obtain ⟨hreads, log, hand, rest, hsim⟩ := hinv
    have hs' : Step cfg s a s' := .of_step hs
    refine ⟨hreads.step hsim hs', ?_⟩
    cases hs' with
    | between hpc hwal =>
        obtain ⟨_, log', _, _, hand', rest', hsim'⟩ := hsim.step hwal
        exact ⟨log', hand', rest', hsim'⟩
    | outside hpc hwal =>
        obtain ⟨_, log', _, _, hand', rest', hsim'⟩ := hsim.step hwal
        exact ⟨log', hand', rest', hsim'⟩
    | readEnd => exact ⟨log, hand, rest, hsim⟩
    | readWritten => exact ⟨log, hand, rest, hsim⟩

end Backlog

/-- A call of `backlog_bytes` returns what the subtraction gives, if no
batch that was taken behind an append of later than its first read is
published before its second; otherwise the subtraction underflows. -/
theorem backlog_bytes_ok_iff {cfg : WalConfig} {before : Disk}
    {events : List BacklogAction} {s : Backlog}
    (hrun : exec (Backlog.step cfg) events (.opened before) = some s)
    {backlog : Option Nat} (hpc : s.pc = .returned backlog) :
    backlog ≠ none ↔ s.race ≠ .published :=
  (Backlog.run_reads hrun).1.2.2 backlog hpc

/-- A record is appended, written and published between the two reads. -/
def overtaking : List BacklogAction :=
  [.readEnd, .wal (.append ⟨[], [⟨7, [⟨1, 2⟩]⟩]⟩ (.ok 45))]
    ++ List.replicate 7 (.wal (.flusher 100)) ++ [.readWritten]

theorem backlog_bytes_underflows :
    ∃ s, exec (Backlog.step ⟨1000, 10⟩) overtaking (.opened []) = some s
      ∧ s.pc = .returned none := by
  have hpc : (exec (Backlog.step ⟨1000, 10⟩) overtaking (.opened [])).map
      Backlog.pc = some (.returned none) := by
    decide +kernel
  exact Option.map_eq_some_iff.mp hpc

theorem backlog_bytes_ok_iff_overtaken :
    ∃ s, exec (Backlog.step ⟨1000, 10⟩) overtaking (.opened []) = some s
      ∧ s.pc = .returned none ∧ s.race = .published := by
  have hpc : (exec (Backlog.step ⟨1000, 10⟩) overtaking (.opened [])).map
      Backlog.pc = some (.returned none) := by
    decide +kernel
  obtain ⟨s, hrun, hreturned⟩ := Option.map_eq_some_iff.mp hpc
  refine ⟨s, hrun, hreturned, ?_⟩
  by_contra hrace
  exact (backlog_bytes_ok_iff hrun hreturned).mpr hrace rfl

end Tsdb.Wal
