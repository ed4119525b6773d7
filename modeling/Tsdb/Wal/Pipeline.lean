/-
The pipeline loses, duplicates and reorders nothing: the machine of
`Machine.lean` is the abstract log of `Log.lean`.

# The simulation

`Sim base log hand rest disk m`: the files created since the log was
opened, behind the first `base`, hold the records of `log` segment by
segment; what the flusher has taken is `hand`, what stands in the buffer
is `rest`, and the two are what is pending. The flusher's program counter
says how much of `hand` is already in the active file (`done`), whether
the spare vector still holds what was written (`swept`), and whether a
file has been created that is not yet the active one (`fresh`).

One step of the machine is at most one move of the log (`Sim.step`), and
the only move that accepts anything is that of an accepted append. The
guarantees are then those of the log (`simulates`).

# The step

Most steps are none of the log's business. `Sim.frame` is the rule for
them: ids and bytes of the files, the flusher's locals and the buffer's
contents are what they were. What is left is `append`, with a record or
without, and the flusher, which has one lemma for each kind of
transition: it moves on with the same batch (`goto`), takes a batch
(`taken`), writes a piece of it (`chunk`), has written it (`wrote`),
empties the vector (`clear`), and rotates in three steps that matter
(`rotate_create`, `rotate_syncDir`, `rotate_store`). Of these `wrote` is
the log's `write` and `rotate_syncDir` its `rotate`; the step that makes
an LSN known is its `publish`.

# Closing

`Closing` is a second, smaller invariant: a closed buffer stays closed,
accepts nothing, and the flusher leaves its loop only with the buffer
empty and nothing in hand. Both are inductions over the run, and neither
uses the other.
-/
import Tsdb.Wal.Log
import Tsdb.Wal.Machine

namespace Tsdb.Wal

open Lib (Bytes Run exec)
open Log (Move)

-- =================================================== what was accepted

/-- The record an action adds to the log. -/
def Action.accepted : Action → List WalRecord
  | .append rec (.ok _) => if rec.isEmpty then [] else [rec]
  | _ => []

/-- The records accepted in a run, in order. -/
def acceptedIn (as : List Action) : List WalRecord :=
  as.flatMap Action.accepted

@[simp] theorem acceptedIn_append (as bs : List Action) :
    acceptedIn (as ++ bs) = acceptedIn as ++ acceptedIn bs := by
  simp [acceptedIn]

@[simp] theorem acceptedIn_singleton (a : Action) :
    acceptedIn [a] = a.accepted := by
  simp [acceptedIn]

-- ===================================================== reading the machine

namespace FlusherPc

/-- The batch in hand: taken, and not yet wholly written. -/
def holding : FlusherPc → Option Nat
  | .batch end_ => some end_
  | .rotate _ (.batch end_) => some end_
  | .write end_ _ => some end_
  | _ => none

/-- How much of the batch is in the file. -/
def done : FlusherPc → Nat
  | .write _ done => done
  | _ => 0

/-- Nothing is left in the spare vector. -/
def swept (pc : FlusherPc) : Bool :=
  match pc with
  | .publish _ => false
  | .clear => false
  | pc => pc.holding.isNone

/-- Files created and not yet active. -/
def fresh : FlusherPc → Nat
  | .rotate (.syncDir _) _ => 1
  | _ => 0

/-- The segment `rotate` has closed, once it has. -/
def rotated : FlusherPc → Option Nat
  | .rotate (.setFile closed) _ => some closed
  | .rotate (.store closed) _ => some closed
  | .finish closed => some closed
  | _ => none

/-- The id published as active lags behind. -/
def lagging : FlusherPc → Bool
  | .rotate (.setFile _) _ => true
  | .rotate (.store _) _ => true
  | _ => false

end FlusherPc

/-- The bytes taken and not yet written. -/
def Machine.hand (m : Machine) : Bytes :=
  match m.pc with
  | .publish _ => []
  | .clear => []
  | pc => m.spare.drop pc.done

structure Sim (base : Nat) (log : Log) (hand rest : List WalRecord)
    (disk : Disk) (m : Machine) : Prop where
  size : disk.length = base + log.closed.length + 1 + m.pc.fresh
  ids : (disk.map LogFile.id).drop base
    = List.range' log.first (log.closed.length + 1 + m.pc.fresh)
  bytes : (disk.map LogFile.bytes).drop base
    = log.closed.map logBytes
      ++ (logBytes log.active ++ m.spare.take m.pc.done)
        :: List.replicate m.pc.fresh []
  file : m.seg.file = base + log.closed.length
  id : m.seg.id = log.activeId
  pos : m.seg.written = (logBytes log.active).length
  pending : log.pending = hand ++ rest
  buf : m.shared.buffer.buf = logBytes rest
  end_ : m.shared.buffer.end_ = (logBytes log.accepted).length
  held : ∀ e, m.pc.holding = some e →
    m.spare = logBytes hand ∧ e = (logBytes (log.flushed ++ hand)).length
  idle : m.pc.holding = none → hand = []
  swept : m.pc.swept = true → m.spare = []
  inside : m.pc.done ≤ m.spare.length
  publish : ∀ e, m.pc = .publish e → e = (logBytes log.flushed).length
  freshFile : ∀ f why, m.pc = .rotate (.syncDir f) why →
    f = base + log.closed.length + 1
  rotated : ∀ c, m.pc.rotated = some c → c + 1 = m.seg.id
  activeSegment : m.shared.activeSegment + (if m.pc.lagging then 1 else 0)
    = m.seg.id
  written : m.shared.written = log.written
  sound : log.Sound
  accepted : ∀ rec ∈ log.accepted, rec.Accepted

namespace Sim

variable {cfg : WalConfig} {base : Nat} {log : Log}
  {hand rest : List WalRecord} {disk disk' : Disk} {m m' : Machine}
  {n : Nat}

/-- The log as it was opened. -/
theorem start (before : Disk) (file : LogFile) (hbytes : file.bytes = []) :
    Sim before.length { first := file.id } [] [] (before ++ [file])
      (.start file.id before.length) where
  size := by simp [Machine.start, FlusherPc.fresh]
  ids := by simp [Machine.start, FlusherPc.fresh]
  bytes := by simp [Machine.start, FlusherPc.fresh, hbytes]
  file := rfl
  id := rfl
  pos := rfl
  pending := rfl
  buf := rfl
  end_ := rfl
  held e h := by cases h
  idle _ := rfl
  swept _ := rfl
  inside := Nat.zero_le _
  publish e h := by cases h
  freshFile f why h := by cases h
  rotated c h := by cases h
  activeSegment := rfl
  written := rfl
  sound := Nat.zero_le _
  accepted := by simp [Log.accepted, Log.flushed]

/-- A step that changes neither the files' ids and bytes nor anything the
flusher owns nor the buffer's contents. -/
theorem frame (h : Sim base log hand rest disk m)
    (hids : disk'.map LogFile.id = disk.map LogFile.id)
    (hbytes : disk'.map LogFile.bytes = disk.map LogFile.bytes)
    (hseg : m'.seg = m.seg) (hspare : m'.spare = m.spare)
    (hpc : m'.pc = m.pc)
    (hbuf : m'.shared.buffer.buf = m.shared.buffer.buf)
    (hend : m'.shared.buffer.end_ = m.shared.buffer.end_)
    (hwritten : m'.shared.written = m.shared.written)
    (hactive : m'.shared.activeSegment = m.shared.activeSegment) :
    Sim base log hand rest disk' m' where
  size := by
    have hlen : disk'.length = disk.length := by
      simpa using congrArg List.length hids
    rw [hlen, hpc]
    exact h.size
  ids := by rw [hids, hpc]; exact h.ids
  bytes := by rw [hbytes, hpc, hspare]; exact h.bytes
  file := by rw [hseg]; exact h.file
  id := by rw [hseg]; exact h.id
  pos := by rw [hseg]; exact h.pos
  pending := h.pending
  buf := by rw [hbuf]; exact h.buf
  end_ := by rw [hend]; exact h.end_
  held := by rw [hpc, hspare]; exact h.held
  idle := by rw [hpc]; exact h.idle
  swept := by rw [hpc, hspare]; exact h.swept
  inside := by rw [hpc, hspare]; exact h.inside
  publish := by rw [hpc]; exact h.publish
  freshFile := by rw [hpc]; exact h.freshFile
  rotated := by rw [hpc, hseg]; exact h.rotated
  activeSegment := by rw [hactive, hpc, hseg]; exact h.activeSegment
  written := by rw [hwritten]; exact h.written
  sound := h.sound
  accepted := h.accepted

/-- An append: an accepted record joins the buffer, any other changes
nothing. The record's bytes are what the encoder leaves, so the buffer holds
one record more, and its end moves by the length of the record. -/
theorem append (h : Sim base log hand rest disk m) {rec : WalRecord}
    {result : Except WalError Nat}
    (hs : step cfg (.append rec result) (disk, m) = some (disk', m')) :
    ∃ moves log', exec Log.move moves log = some log'
      ∧ Log.appended moves = (Action.append rec result).accepted
      ∧ (∀ lsn, result = .ok lsn →
          lsn = (logBytes log'.accepted).length)
      ∧ ∃ rest', Sim base log' hand rest' disk' m' := by
  obtain ⟨hfit, hres, rfl, rfl⟩ := step_append hs
  rcases appendWith_cases cfg m.shared.buffer rec with
    ⟨hempty, heq⟩ | ⟨hempty, e, heq⟩ | ⟨hempty, hbig, -, heq⟩
  · rw [heq] at hres ⊢
    subst hres
    refine ⟨[], log, rfl, by simp [Log.appended, Action.accepted, hempty],
      ?_, rest, h.frame rfl rfl rfl rfl rfl rfl rfl rfl rfl⟩
    intro _ hcase
    cases hcase
    exact h.end_
  · rw [heq] at hres ⊢
    subst hres
    exact ⟨[], log, rfl, rfl, (by intro _ hcase; cases hcase), rest,
      h.frame rfl rfl rfl rfl rfl rfl rfl rfl rfl⟩
  · rw [heq] at hres ⊢
    subst hres
    have hend : m.shared.buffer.end_ + (recordBytes rec).length
        = (logBytes (log.accepted ++ [rec])).length := by
      rw [logBytes_append, logBytes_singleton, List.length_append, h.end_]
    have hacc : { log with pending := log.pending ++ [rec] }.accepted
        = log.accepted ++ [rec] := by
      simp [Log.accepted, Log.flushed]
    refine ⟨[.append rec], _, rfl,
      by simp [Log.appended, Action.accepted, hempty], ?_, rest ++ [rec],
      { h with
        pending := by simp [h.pending]
        buf := by simp [h.buf, logBytes_singleton]
        end_ := by rw [hacc]; exact hend
        sound := h.sound
        accepted := ?_ }⟩
    · intro _ hcase
      cases hcase
      rw [hacc]
      exact hend
    · intro r hr
      rw [hacc, List.mem_append, List.mem_singleton] at hr
      rcases hr with hr | rfl
      · exact h.accepted r hr
      · exact ⟨hfit, by rw [encode_eq]; exact hempty,
          by rw [encode_eq]; exact hbig⟩

/-- The flusher moves on, with the same batch in hand and the same
files. -/
theorem goto (h : Sim base log hand rest disk m) (pc : FlusherPc)
    (hfresh : pc.fresh = m.pc.fresh) (hdone : pc.done = m.pc.done)
    (hheld : pc.holding = m.pc.holding)
    (hswept : pc.swept = true → m.pc.swept = true)
    (hpublish : ∀ e, pc ≠ .publish e)
    (hfile : ∀ f why, pc ≠ .rotate (.syncDir f) why)
    (hrotated : ∀ c, pc.rotated = some c → m.pc.rotated = some c)
    (hlag : pc.lagging = m.pc.lagging) :
    Sim base log hand rest disk { m with pc } where
  size := by rw [hfresh]; exact h.size
  ids := by rw [hfresh]; exact h.ids
  bytes := by rw [hfresh, hdone]; exact h.bytes
  file := h.file
  id := h.id
  pos := h.pos
  pending := h.pending
  buf := h.buf
  end_ := h.end_
  held := by rw [hheld]; exact h.held
  idle := by rw [hheld]; exact h.idle
  swept hs := h.swept (hswept hs)
  inside := by rw [hdone]; exact h.inside
  publish e he := absurd he (hpublish e)
  freshFile f why he := absurd he (hfile f why)
  rotated c hc := h.rotated c (hrotated c hc)
  activeSegment := by rw [hlag]; exact h.activeSegment
  written := h.written
  sound := h.sound
  accepted := h.accepted

/-- `take`: the buffer's contents become the batch in hand. -/
private theorem taken (h : Sim base log hand rest disk m)
    {closing cutting : Bool} (hpc : m.pc = .take closing cutting) :
    Sim base log rest [] disk
      { m with
        shared := { m.shared with
          buffer := { m.shared.buffer with buf := m.spare } }
        spare := m.shared.buffer.buf
        pc := .batch m.shared.buffer.end_ } := by
  have hhand : hand = [] := h.idle (by rw [hpc]; rfl)
  have hspare : m.spare = [] := h.swept (by rw [hpc]; rfl)
  have hpend := h.pending
  rw [hhand, List.nil_append] at hpend
  have hsize := h.size
  have hids := h.ids
  have hbytes := h.bytes
  have hactive := h.activeSegment
  rw [hpc] at hsize hids hbytes hactive
  exact { h with
    size := hsize
    ids := hids
    bytes := by simpa [FlusherPc.done, FlusherPc.fresh] using hbytes
    pending := by rw [hpend, List.append_nil]
    buf := hspare
    held := by
      intro e hcase
      cases hcase
      refine ⟨h.buf, ?_⟩
      rw [h.end_, Log.accepted, hpend]
    idle := by intro hcase; cases hcase
    swept := by intro hcase; cases hcase
    inside := Nat.zero_le _
    publish := by intro e hcase; cases hcase
    freshFile := by intro f why hcase; cases hcase
    rotated := by intro c hcase; cases hcase
    activeSegment := hactive }

/-- The active file grows at its end. -/
private theorem bytes_write (h : Sim base log hand rest disk m)
    (hfresh : m.pc.fresh = 0) (chunk : Bytes) :
    ((disk.write m.seg.file (m.seg.written + m.pc.done) chunk).map
        LogFile.bytes).drop base
      = log.closed.map logBytes
        ++ [logBytes log.active ++ m.spare.take m.pc.done ++ chunk] := by
  have hbytes := h.bytes
  rw [hfresh, List.replicate_zero] at hbytes
  have hsplit : disk.map LogFile.bytes
      = ((disk.map LogFile.bytes).take base ++ log.closed.map logBytes)
        ++ [logBytes log.active ++ m.spare.take m.pc.done] := by
    rw [List.append_assoc, ← hbytes, List.take_append_drop]
  have hbase : ((disk.map LogFile.bytes).take base).length = base := by
    have := h.size
    rw [List.length_take, List.length_map]
    omega
  have hfile : m.seg.file = ((disk.map LogFile.bytes).take base
      ++ log.closed.map logBytes).length := by
    rw [List.length_append, hbase, List.length_map]
    exact h.file
  have hpos : m.seg.written + m.pc.done
      = (logBytes log.active ++ m.spare.take m.pc.done).length := by
    have := h.inside
    rw [List.length_append, List.length_take, h.pos]
    omega
  rw [hfile, hpos, Disk.map_bytes_write disk hsplit, List.append_assoc,
    List.drop_left' hbase]

/-- `write`: more of the batch is in the file. -/
private theorem chunk (h : Sim base log hand rest disk m)
    {e done : Nat} (hpc : m.pc = .write e done)
    (hmore : done < m.spare.length) :
    Sim base log hand rest
      (disk.write m.seg.file (m.seg.written + done)
        ((m.spare.drop done).take (max n 1)))
      { m with
        pc := .write e
          (done + ((m.spare.drop done).take (max n 1)).length) } := by
  obtain ⟨hspare, hlsn⟩ := h.held e (by rw [hpc]; rfl)
  have hwrite := h.bytes_write (by rw [hpc]; rfl)
    ((m.spare.drop done).take (max n 1))
  have hsize := h.size
  have hids := h.ids
  have hactive := h.activeSegment
  rw [hpc] at hwrite hsize hids hactive
  exact { h with
    size := by rwa [Disk.length_write]
    ids := by rwa [Disk.map_id_write]
    bytes := by
      refine hwrite.trans ?_
      simp only [FlusherPc.done, FlusherPc.fresh, List.append_assoc]
      congr 3
      rw [List.length_take, List.take_add, ← List.take_eq_take_min]
    held := by
      intro _ hcase
      cases hcase
      exact ⟨hspare, hlsn⟩
    idle := by intro hcase; cases hcase
    swept := by intro hcase; cases hcase
    inside := by
      simp only [FlusherPc.done, List.length_take, List.length_drop]
      omega
    publish := by intro _ hcase; cases hcase
    freshFile := by intro f why hcase; cases hcase
    rotated := by intro c hcase; cases hcase
    activeSegment := hactive }

/-- The batch is in the file: what was in hand is now of the active segment,
and there is nothing in hand. The position moves by the length of the batch,
and the LSN to be published is the length of all that is flushed. -/
private theorem wrote (h : Sim base log hand rest disk m)
    {e done : Nat} (hpc : m.pc = .write e done)
    (hall : m.spare.length ≤ done) :
    Sim base { log with active := log.active ++ hand, pending := rest }
      [] rest disk
      { m with
        seg := { m.seg with written := m.seg.written + m.spare.length }
        pc := .publish e } := by
  obtain ⟨hspare, hlsn⟩ := h.held e (by rw [hpc]; rfl)
  have hdone : m.spare.take done = logBytes hand := by
    rw [List.take_of_length_le hall, hspare]
  have hflushed : { log with
      active := log.active ++ hand
      pending := rest }.flushed = log.flushed ++ hand := by
    simp [Log.flushed]
  have hacc : { log with
      active := log.active ++ hand
      pending := rest }.accepted = log.accepted := by
    rw [Log.accepted, hflushed, Log.accepted, h.pending, List.append_assoc]
  have hsize := h.size
  have hids := h.ids
  have hbytes := h.bytes
  have hactive := h.activeSegment
  rw [hpc] at hsize hids hbytes hactive
  simp only [FlusherPc.done, FlusherPc.fresh, hdone] at hbytes
  exact { h with
    size := hsize
    ids := hids
    bytes := by simpa [FlusherPc.done, FlusherPc.fresh] using hbytes
    pos := by rw [logBytes_append, List.length_append, h.pos, hspare]
    pending := rfl
    end_ := by rw [hacc]; exact h.end_
    held := by intro _ hcase; cases hcase
    idle := fun _ => rfl
    swept := by intro hcase; cases hcase
    inside := Nat.zero_le _
    publish := by
      intro _ hcase
      cases hcase
      rw [hlsn, hflushed]
    freshFile := by intro f why hcase; cases hcase
    rotated := by intro c hcase; cases hcase
    activeSegment := hactive
    sound := by
      have := h.sound
      rw [Log.Sound] at this ⊢
      rw [hflushed, logBytes_append, List.length_append]
      exact Nat.le_trans this (Nat.le_add_right _ _)
    accepted := by rw [hacc]; exact h.accepted }

/-- `create`: a file is there, the active one is still the old one. It has
the next id and no bytes, and the batch in hand stays in hand. -/
private theorem rotate_create (h : Sim base log hand rest disk m)
    {why : RotateFor} (hpc : m.pc = .rotate .create why)
    (hc : disk.create (m.seg.id + 1) = some disk') :
    Sim base log hand rest disk'
      { m with pc := .rotate (.syncDir disk.length) why } := by
  obtain ⟨rfl, -⟩ := Disk.create_eq hc
  have hheld : (FlusherPc.rotate (.syncDir disk.length) why).holding
      = m.pc.holding := by
    rw [hpc]
    cases why <;> rfl
  have hsize : disk.length = base + log.closed.length + 1 := by
    have := h.size
    rwa [hpc] at this
  have hbase : base ≤ disk.length := by omega
  have hids := h.ids
  have hbytes := h.bytes
  rw [hpc] at hids hbytes
  exact {
    size := by simp [FlusherPc.fresh, hsize]
    ids := by
      have hcat : List.range' log.first (log.closed.length + 1 + 1)
          = List.range' log.first (log.closed.length + 1)
            ++ [log.first + (log.closed.length + 1)] := by
        rw [List.range'_concat, Nat.one_mul]
      rw [List.map_append, List.drop_append_of_le_length (by simpa), hids]
      simp only [FlusherPc.fresh, Nat.add_zero, List.map_singleton, hcat]
      rw [h.id, Log.activeId, Nat.add_assoc]
    bytes := by
      rw [List.map_append, List.drop_append_of_le_length (by simpa), hbytes]
      simp [FlusherPc.fresh, FlusherPc.done]
    file := h.file
    id := h.id
    pos := h.pos
    pending := h.pending
    buf := h.buf
    end_ := h.end_
    held := by rw [hheld]; exact h.held
    idle := by rw [hheld]; exact h.idle
    swept := fun hs => h.swept (by
      rw [hpc]
      cases why <;> exact hs)
    inside := Nat.zero_le _
    publish := by intro e hcase; cases hcase
    freshFile := by
      intro f why' hcase
      cases hcase
      exact hsize
    rotated := by intro c hcase; cases hcase
    activeSegment := by have := h.activeSegment; rwa [hpc] at this
    written := h.written
    sound := h.sound
    accepted := h.accepted }

/-- `create` has returned: the new file is the active segment. The active
segment of the log is closed with what is in it, and the next one is empty;
flushed and accepted records are the same as before, only divided otherwise. -/
private theorem rotate_syncDir (h : Sim base log hand rest disk m)
    {why : RotateFor} {file : Nat}
    (hpc : m.pc = .rotate (.syncDir file) why) :
    Sim base { log with closed := log.closed ++ [log.active], active := [] }
      hand rest disk.syncDir
      { m with
        seg := { id := m.seg.id + 1, file }
        pc := .rotate (.setFile m.seg.id) why } := by
  have hheld : (FlusherPc.rotate (.setFile m.seg.id) why).holding
      = m.pc.holding := by
    rw [hpc]
    cases why <;> rfl
  have hflushed : { log with
      closed := log.closed ++ [log.active]
      active := [] }.flushed = log.flushed := by
    simp [Log.flushed]
  have hacc : { log with
      closed := log.closed ++ [log.active]
      active := [] }.accepted = log.accepted := by
    simp [Log.accepted, hflushed]
  have hsize := h.size
  have hids := h.ids
  have hbytes := h.bytes
  have hactive := h.activeSegment
  rw [hpc] at hsize hids hbytes hactive
  exact {
    size := by
      rw [Disk.length_syncDir, hsize, List.length_append]
      rfl
    ids := by
      rw [Disk.map_id_syncDir, hids, List.length_append]
      rfl
    bytes := by
      rw [Disk.map_bytes_syncDir, hbytes]
      simp [FlusherPc.fresh, FlusherPc.done]
    file := by
      rw [h.freshFile file why hpc, List.length_append]
      rfl
    id := by
      rw [h.id, Log.activeId, Log.activeId, List.length_append]
      rfl
    pos := rfl
    pending := h.pending
    buf := h.buf
    end_ := by rw [hacc]; exact h.end_
    held := by rw [hheld, hflushed]; exact h.held
    idle := by rw [hheld]; exact h.idle
    swept := fun hs => h.swept (by
      rw [hpc]
      cases why <;> exact hs)
    inside := Nat.zero_le _
    publish := by intro e hcase; cases hcase
    freshFile := by intro f why' hcase; cases hcase
    rotated := by
      intro c hcase
      cases hcase
      rfl
    activeSegment := by
      simp only [FlusherPc.lagging, Bool.false_eq_true, if_false] at hactive
      simp only [FlusherPc.lagging, if_true, ← hactive, Nat.add_zero]
    written := h.written
    sound := by
      have := h.sound
      rwa [Log.Sound, hflushed]
    accepted := by rw [hacc]; exact h.accepted }

/-- `store`: the id of the new segment is published, and no longer lags
behind the one that is written to. The flusher goes back to what it rotated
for. -/
private theorem rotate_store (h : Sim base log hand rest disk m)
    {why : RotateFor} {closed : Nat}
    (hpc : m.pc = .rotate (.store closed) why) :
    Sim base log hand rest disk
      { m with
        shared := { m.shared with activeSegment := closed + 1 }
        pc := why.resume closed } := by
  have hclosed : closed + 1 = m.seg.id := h.rotated closed (by rw [hpc]; rfl)
  have hsize := h.size
  have hids := h.ids
  have hbytes := h.bytes
  have hheld := h.held
  have hidle := h.idle
  have hswept := h.swept
  rw [hpc] at hsize hids hbytes hheld hidle hswept
  cases why with
  | batch e =>
      exact { h with
        size := hsize
        ids := hids
        bytes := hbytes
        held := hheld
        idle := hidle
        swept := by intro hcase; cases hcase
        inside := Nat.zero_le _
        publish := by intro e hcase; cases hcase
        freshFile := by intro f why' hcase; cases hcase
        rotated := by intro c hcase; cases hcase
        activeSegment := hclosed }
  | cut =>
      exact { h with
        size := hsize
        ids := hids
        bytes := hbytes
        held := hheld
        idle := hidle
        swept := hswept
        inside := Nat.zero_le _
        publish := by intro e hcase; cases hcase
        freshFile := by intro f why' hcase; cases hcase
        rotated := by
          intro c hcase
          cases hcase
          exact hclosed
        activeSegment := hclosed }

/-- The batch is written and published; the vector is emptied. -/
private theorem clear (h : Sim base log hand rest disk m)
    (hpc : m.pc = .clear) :
    Sim base log hand rest disk { m with spare := [], pc := .top } := by
  have hsize := h.size
  have hids := h.ids
  have hbytes := h.bytes
  have hidle := h.idle (by rw [hpc]; rfl)
  have hactive := h.activeSegment
  rw [hpc] at hsize hids hbytes hactive
  exact { h with
    size := hsize
    ids := hids
    bytes := by simpa [FlusherPc.done, FlusherPc.fresh] using hbytes
    held := by intro e hcase; cases hcase
    idle := fun _ => hidle
    swept := fun _ => rfl
    inside := Nat.zero_le _
    publish := by intro e hcase; cases hcase
    freshFile := by intro f why hcase; cases hcase
    rotated := by intro c hcase; cases hcase
    activeSegment := hactive }

/-- A step of the flusher is at most one move of the log. Three transitions
move it: the batch has been written, a segment is closed, an LSN is
published. Behind every other the same log explains the machine. -/
theorem flusher (h : Sim base log hand rest disk m)
    (hs : FlusherStep cfg n disk m disk' m') :
    ∃ moves log', exec Log.move moves log = some log'
      ∧ Log.appended moves = []
      ∧ ∃ hand' rest', Sim base log' hand' rest' disk' m' := by
  -- no move of the log
  have hstay : ∀ {hand' rest'}, Sim base log hand' rest' disk' m' →
      ∃ moves log', exec Log.move moves log = some log'
        ∧ Log.appended moves = []
        ∧ ∃ hand' rest', Sim base log' hand' rest' disk' m' :=
    fun h' => ⟨[], log, rfl, rfl, _, _, h'⟩
  cases hs with
  | top hpc =>
      exact hstay (h.goto _ (by rw [hpc]; rfl) (by rw [hpc]; rfl)
        (by rw [hpc]; rfl) (fun _ => by rw [hpc]; rfl) (by simp) (by simp)
        (by intro c hcase; cases hcase) (by rw [hpc]; rfl))
  | sampleCut hpc =>
      exact hstay (h.goto _ (by rw [hpc]; rfl) (by rw [hpc]; rfl)
        (by rw [hpc]; rfl) (fun _ => by rw [hpc]; rfl) (by simp) (by simp)
        (by intro c hcase; cases hcase) (by rw [hpc]; rfl))
  | taken hpc hbuf => exact hstay (h.taken hpc)
  | serveCut hpc hbuf =>
      exact hstay (h.goto _ (by rw [hpc]; rfl) (by rw [hpc]; rfl)
        (by rw [hpc]; rfl) (fun _ => by rw [hpc]; rfl) (by simp) (by simp)
        (by intro c hcase; cases hcase) (by rw [hpc]; rfl))
  | leave hpc hbuf =>
      exact hstay (h.goto _ (by rw [hpc]; rfl) (by rw [hpc]; rfl)
        (by rw [hpc]; rfl) (fun _ => by rw [hpc]; rfl) (by simp) (by simp)
        (by intro c hcase; cases hcase) (by rw [hpc]; rfl))
  | again hpc hbuf =>
      exact hstay (h.goto _ (by rw [hpc]; rfl) (by rw [hpc]; rfl)
        (by rw [hpc]; rfl) (fun _ => by rw [hpc]; rfl) (by simp) (by simp)
        (by intro c hcase; cases hcase) (by rw [hpc]; rfl))
  | full hpc hfull =>
      exact hstay (h.goto _ (by rw [hpc]; rfl) (by rw [hpc]; rfl)
        (by rw [hpc]; rfl) (by intro hcase; cases hcase) (by simp) (by simp)
        (by intro c hcase; cases hcase) (by rw [hpc]; rfl))
  | room hpc hroom =>
      exact hstay (h.goto _ (by rw [hpc]; rfl) (by rw [hpc]; rfl)
        (by rw [hpc]; rfl) (by intro hcase; cases hcase) (by simp) (by simp)
        (by intro c hcase; cases hcase) (by rw [hpc]; rfl))
  | @sync why hpc =>
      have hgoto := h.goto (.rotate .create why) (by rw [hpc]; rfl)
        (by rw [hpc]; rfl) (by rw [hpc]; cases why <;> rfl)
        (by rw [hpc]; cases why <;> exact fun hs => hs) (by simp) (by simp)
        (by intro c hcase; cases hcase) (by rw [hpc]; rfl)
      exact hstay (hgoto.frame (Disk.map_id_sync _ _)
        (Disk.map_bytes_sync _ _) rfl rfl rfl rfl rfl rfl rfl)
  | create hpc hcreate => exact hstay (h.rotate_create hpc hcreate)
  | syncDir hpc => exact ⟨[.rotate], _, rfl, rfl, _, _, h.rotate_syncDir hpc⟩
  | @setFile why closed hpc =>
      have hgoto := h.goto (.rotate (.store closed) why)
        (by rw [hpc]; rfl) (by rw [hpc]; rfl)
        (by rw [hpc]; cases why <;> rfl)
        (by rw [hpc]; cases why <;> exact fun hs => hs) (by simp) (by simp)
        (by rw [hpc]; exact fun c hc => hc) (by rw [hpc]; rfl)
      exact hstay (hgoto.frame rfl rfl rfl rfl rfl rfl rfl rfl rfl)
  | store hpc => exact hstay (h.rotate_store hpc)
  | chunk hpc hmore => exact hstay (h.chunk hpc hmore)
  | wrote hpc hall =>
      refine ⟨[.write hand.length], _, ?_, rfl, _, _, h.wrote hpc hall⟩
      simp [exec, Log.move, h.pending]
  | @publish e hpc =>
      have hlsn := h.publish e hpc
      have hmove : Log.move (.publish e) log
          = some { log with written := max log.written e } := by
        rw [Log.move, if_pos (by omega)]
      refine ⟨[.publish e], { log with written := max log.written e },
        by simp [exec, hmove], rfl, hand, rest, ?_⟩
      have hgoto := h.goto .clear (by rw [hpc]; rfl)
        (by rw [hpc]; rfl) (by rw [hpc]; rfl) (by intro hcase; cases hcase)
          (by simp)
        (by simp) (by intro c hcase; cases hcase) (by rw [hpc]; rfl)
      exact { hgoto with
        written := by
          show advance m.shared.written e = max log.written e
          rw [h.written, advance]
          split <;> omega
        sound := h.sound.move hmove }
  | clear hpc => exact hstay (h.clear hpc)
  | finish hpc =>
      have hgoto := h.goto .top (by rw [hpc]; rfl)
        (by rw [hpc]; rfl) (by rw [hpc]; rfl) (fun _ => by rw [hpc]; rfl)
        (by simp) (by simp) (by intro c hcase; cases hcase) (by rw [hpc]; rfl)
      exact hstay (hgoto.frame rfl rfl rfl rfl rfl rfl rfl rfl rfl)
  | finalSync hpc =>
      have hgoto := h.goto .exited (by rw [hpc]; rfl)
        (by rw [hpc]; rfl) (by rw [hpc]; rfl) (fun _ => by rw [hpc]; rfl)
        (by simp) (by simp) (by intro c hcase; cases hcase) (by rw [hpc]; rfl)
      exact hstay (hgoto.frame (Disk.map_id_sync _ _)
        (Disk.map_bytes_sync _ _) rfl rfl rfl rfl rfl rfl rfl)

/-- One step of the machine is at most one move of the log, and appends
what the action accepted. -/
theorem step (h : Sim base log hand rest disk m) {a : Action}
    (hs : Wal.step cfg a (disk, m) = some (disk', m')) :
    ∃ moves log', exec Log.move moves log = some log'
      ∧ Log.appended moves = a.accepted
      ∧ ∃ hand' rest', Sim base log' hand' rest' disk' m' := by
  by_cases ha : ∃ n, a = .flusher n
  · obtain ⟨n, rfl⟩ := ha
    exact h.flusher (.of_step hs)
  · obtain ⟨hk, hbuffer, -⟩ := step_keeps (fun n he => ha ⟨n, he⟩) hs
    -- the flusher is left alone; what about the buffer?
    have hquiet : m'.shared.buffer.buf = m.shared.buffer.buf →
        m'.shared.buffer.end_ = m.shared.buffer.end_ →
        Sim base log hand rest disk' m' := fun hbuf hend =>
      h.frame hk.ids hk.bytes hk.seg hk.spare hk.pc hbuf hend hk.written
        hk.activeSegment
    cases hb : a.usesBuffer with
    | false =>
        have heq : m'.shared.buffer = m.shared.buffer := hbuffer hb
        have hacc : a.accepted = [] := by
          cases a <;> first | rfl | cases hb
        exact ⟨[], log, rfl, hacc.symm, hand, rest,
          hquiet (by rw [heq]) (by rw [heq])⟩
    | true =>
        cases a with
        | append rec result =>
            obtain ⟨moves, log', hmove, happ, -, rest', h'⟩ := h.append hs
            exact ⟨moves, log', hmove, happ, hand, rest', h'⟩
        | close =>
            simp only [Wal.step] at hs
            cases hs
            exact ⟨[], log, rfl, rfl, hand, rest, hquiet rfl rfl⟩
        | _ => cases hb

end Sim

/-- A run of the machine, as a run of the log that accepts the same
records. -/
theorem simulates {cfg : WalConfig} {base : Nat} {log₀ : Log}
    {hand₀ rest₀ : List WalRecord} {s₀ s : Disk × Machine}
    {as : List Action} (h₀ : Sim base log₀ hand₀ rest₀ s₀.1 s₀.2)
    (hrun : Run (step cfg) s₀ as s) :
    ∃ moves log hand rest, exec Log.move moves log₀ = some log
      ∧ Log.appended moves = acceptedIn as
      ∧ Sim base log hand rest s.1 s.2 := by
  induction hrun with
  | nil => exact ⟨[], log₀, hand₀, rest₀, rfl, rfl, h₀⟩
  | snoc _ hs ih =>
      obtain ⟨moves, log, hand, rest, hexec, happ, h⟩ := ih
      obtain ⟨more, log', hmore, happ', hand', rest', h'⟩ := h.step hs
      refine ⟨moves ++ more, log', hand', rest', ?_, ?_, h'⟩
      · exact Lib.exec_append hexec hmore
      · rw [Log.appended_append, happ, happ', acceptedIn_append,
          acceptedIn_singleton]

-- =============================================================== closing

namespace FlusherPc

/-- The flusher has seen the buffer closed. -/
def closing : FlusherPc → Bool
  | .sampleCut closing => closing
  | .take closing _ => closing
  | _ => false

/-- The flusher has left its loop. -/
def ended : FlusherPc → Bool
  | .finalSync => true
  | .exited => true
  | _ => false

end FlusherPc

/-- A closed buffer stays closed, and the flusher leaves only an empty
one behind. -/
structure Closing (m : Machine) : Prop where
  seen : m.pc.closing = true → m.shared.buffer.closed = true
  ended : m.pc.ended = true →
    m.shared.buffer.closed = true ∧ m.shared.buffer.buf = []

namespace Closing

variable {cfg : WalConfig} {disk disk' : Disk} {m m' : Machine} {n : Nat}

theorem start (id file : Nat) : Closing (.start id file) :=
  ⟨(by intro hcase; cases hcase), by intro hcase; cases hcase⟩

/-- An append to a closed buffer leaves it as it was. -/
private theorem append_closed {rec : WalRecord}
    {result : Except WalError Nat}
    (hs : step cfg (.append rec result) (disk, m) = some (disk', m'))
    (hclosed : m.shared.buffer.closed = true) :
    m'.shared.buffer = m.shared.buffer
      ∧ (Action.append rec result).accepted = [] := by
  obtain ⟨-, hres, -, rfl⟩ := step_append hs
  rcases appendWith_cases cfg m.shared.buffer rec with
    ⟨hempty, heq⟩ | ⟨-, e, heq⟩ | ⟨-, -, hopen, -⟩
  · rw [heq] at hres ⊢
    subst hres
    exact ⟨rfl, by simp [Action.accepted, hempty]⟩
  · rw [heq] at hres ⊢
    subst hres
    exact ⟨rfl, rfl⟩
  · rw [hclosed] at hopen
    cases hopen

/-- Whatever happens, a closed buffer stays closed, and accepts
nothing. -/
theorem closed_step {a : Action}
    (hs : step cfg a (disk, m) = some (disk', m'))
    (hclosed : m.shared.buffer.closed = true) :
    m'.shared.buffer.closed = true ∧ a.accepted = [] := by
  cases a with
  | append rec result =>
      obtain ⟨hbuf, hacc⟩ := append_closed hs hclosed
      rw [hbuf]
      exact ⟨hclosed, hacc⟩
  | close =>
      simp only [step] at hs
      cases hs
      exact ⟨rfl, rfl⟩
  | flusher n =>
      have hs' : FlusherStep cfg n disk m disk' m' := .of_step hs
      exact ⟨by cases hs' <;> exact hclosed, rfl⟩
  | _ =>
      obtain ⟨-, hbuf, -⟩ := step_keeps (by simp) hs
      have heq : m'.shared.buffer = m.shared.buffer := hbuf rfl
      rw [heq]
      exact ⟨hclosed, rfl⟩

/-- A closed buffer stays closed, and the flusher leaves only an empty one
behind. The flusher leaves from the look at the buffer that finds it closed
and empty; a closed buffer accepts nothing, so it is empty for good. -/
theorem step {a : Action} (h : Closing m)
    (hs : Wal.step cfg a (disk, m) = some (disk', m')) : Closing m' := by
  by_cases ha : ∃ n, a = .flusher n
  · obtain ⟨n, rfl⟩ := ha
    have hs' : FlusherStep cfg n disk m disk' m' := .of_step hs
    cases hs' with
    | top hpc => exact ⟨fun hc => hc, by intro hcase; cases hcase⟩
    | sampleCut hpc =>
        refine ⟨fun hc => h.seen ?_, by intro hcase; cases hcase⟩
        rw [hpc]
        exact hc
    | leave hpc hbuf =>
        exact ⟨(by intro hcase; cases hcase),
          fun _ => ⟨h.seen (by rw [hpc]; rfl), hbuf⟩⟩
    | finalSync hpc =>
        exact ⟨(by intro hcase; cases hcase),
          fun _ => h.ended (by rw [hpc]; rfl)⟩
    | @store why closed hpc =>
        cases why <;> exact ⟨(by intro hcase; cases hcase),
          by intro hcase; cases hcase⟩
    | _ => exact ⟨(by intro hcase; cases hcase), by intro hcase; cases hcase⟩
  · obtain ⟨hk, hbuffer, -⟩ := step_keeps (fun n he => ha ⟨n, he⟩) hs
    have hpc : m'.pc = m.pc := hk.pc
    cases hclosed : m.shared.buffer.closed with
    | false =>
        -- nobody has seen it closed
        refine ⟨fun hc => ?_, fun he => ?_⟩
        · rw [hpc] at hc
          have := h.seen hc
          rw [hclosed] at this
          cases this
        · rw [hpc] at he
          have := (h.ended he).1
          rw [hclosed] at this
          cases this
    | true =>
        have hstay := (closed_step hs hclosed).1
        refine ⟨fun _ => hstay, fun he => ⟨hstay, ?_⟩⟩
        rw [hpc] at he
        have hempty := (h.ended he).2
        cases a with
        | append rec result => rw [(append_closed hs hclosed).1, hempty]
        | close =>
            simp only [Wal.step] at hs
            cases hs
            exact hempty
        | flusher n => exact absurd ⟨n, rfl⟩ ha
        | _ =>
            have heq : m'.shared.buffer = m.shared.buffer := hbuffer rfl
            rw [heq, hempty]

/-- The closed buffer of a finished flusher, over a run. -/
theorem run {s₀ s : Disk × Machine} {as : List Action} (h : Closing s₀.2)
    (hrun : Run (Wal.step cfg) s₀ as s) : Closing s.2 := by
  induction hrun with
  | nil => exact h
  | snoc _ hs ih => exact ih.step hs

/-- Once the buffer is closed nothing more is accepted. -/
theorem closed_run {s₀ s : Disk × Machine} {as : List Action}
    (h : s₀.2.shared.buffer.closed = true)
    (hrun : Run (Wal.step cfg) s₀ as s) :
    s.2.shared.buffer.closed = true ∧ acceptedIn as = [] := by
  induction hrun with
  | nil => exact ⟨h, rfl⟩
  | snoc _ hs ih =>
      obtain ⟨hclosed, hacc⟩ := closed_step hs ih.1
      refine ⟨hclosed, ?_⟩
      rw [acceptedIn_append, ih.2, acceptedIn_singleton, hacc]
      rfl

end Closing

end Tsdb.Wal
