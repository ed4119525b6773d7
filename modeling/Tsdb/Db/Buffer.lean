/-
The count of the buffer (`buffered_samples`).

It is kept beside the samples: a write adds what the series took, a replay
does the same, and a flush sets it to zero. `Settled` has it as the number
of samples in memory. What the calls do with it is in `Db.Bounded`: who
waits for the cut of a flush has something to flush, who removes files has
nothing left, and behind an operation the buffer is below its limit. The
limit is positive (`open_with` refuses zero), so no step is left where a
full buffer could stay behind.

# Within a flush

The count is set to zero only when the store has its segment, but the
samples are taken out of memory before. Between the two they are in the
segment of the flush, all of them (`Settled.startFlush_segment`): the
table has an entry for each series with samples, none of them empty, and
as many samples as the series have together. So the count is exact in
memory, or in the segment on its way to the disk.

# Over runs

`Db.Bounded` has a clause for each call the database may be in, and its
step lemmas are one for each: `flushed`, `stored`, `opened`, `write`, and
the two that only pass it on. The opening has its own part of the
invariant, since the count is taken over from the replay. Errors end an
operation with nothing to count, or with a database that has failed.
`System.bounded` is the induction.

`Db.Accounted` is the same for a reader: what the count says of memory,
of the segment under way, and of what a flush does. It needs `Settled` as
well, which makes the number of samples in memory out of the count, and
with it that a flush skips no series that has any (`buffer_accounted`).
-/
import Tsdb.Db.Invariant
import Tsdb.Db.Restart

namespace Tsdb

open Lib (Run exec)
open Wal (WalConfig WalError)

variable {json : Json} {cfg : WalConfig} {data data' : DataDir} {db db' : Db}
  {g : Ledger} {index : Index}

-- ============================================================== the segment

/-- The number of samples of a segment. -/
def Segment.count (seg : Segment) : Nat :=
  (seg.series.map fun s => s.samples.length).sum

/-- It has series, and each of them samples. -/
def Segment.Full (seg : Segment) : Prop :=
  seg.series ≠ [] ∧ ∀ s ∈ seg.series, s.samples ≠ []

/-- The entries of a table have as many samples as the series. -/
theorem Index.length_entries (index : Index) (ids : List SeriesId) :
    ((index.entries ids).map fun e => e.2.length).sum
      = (ids.map fun id => (index.state id).samples.length).sum := by
  unfold Index.entries
  rw [List.map_map]
  induction ids with
  | nil => rfl
  | cons id ids ih =>
      by_cases hs : (index.state id).samples = []
      · rw [List.filter_cons_of_neg (by simp [hs]), ih, List.map_cons,
          List.sum_cons, hs, List.length_nil, Nat.zero_add]
      · rw [List.filter_cons_of_pos (by simp [hs]), List.map_cons,
          List.sum_cons, ih, List.map_cons, List.sum_cons]
        rfl

theorem SegmentStore.TableOf.count {names : List LabelSet}
    {entries : List (SeriesId × List Sample)} {seg : Segment}
    (h : SegmentStore.TableOf names entries seg.series) :
    seg.count = (entries.map fun e => e.2.length).sum := by
  unfold Segment.count
  unfold SegmentStore.TableOf at h
  generalize seg.series = series at h
  induction h with
  | nil => rfl
  | @cons e s entries series hs _ ih =>
      have hlen : s.samples.length = e.2.length := by
        rw [← hs.2, DiskSeries.toSamples, List.length_map]
      rw [List.map_cons, List.map_cons, List.sum_cons, List.sum_cons, ih, hlen]

/-- What a flush takes out of memory: all there is, series by series, and
none of them empty. -/
theorem Settled.takeTable {state : DbState} (h : Settled json data state g) :
    ((state.index.takeTable (state.index.resolve [])).1.map
        fun e => e.2.length).sum = state.bufferedSamples
      ∧ ∀ e ∈ (state.index.takeTable (state.index.resolve [])).1,
        e.2 ≠ [] := by
  obtain ⟨htable, -, -⟩ := h.memory.shows.takeAll
  rw [htable, Index.length_entries, h.memory.counted, Index.inMemory,
    h.memory.shows.named.all]
  refine ⟨rfl, fun e he => ?_⟩
  obtain ⟨id, hid, rfl⟩ := List.mem_map.mp he
  simpa using (List.mem_filter.mp hid).2

/-- With samples in memory the table has entries. -/
theorem Settled.takeTable_ne_nil {state : DbState}
    (h : Settled json data state g) (hsome : state.bufferedSamples ≠ 0) :
    (state.index.takeTable (state.index.resolve [])).1 ≠ [] := by
  intro hnil
  have hcount := h.takeTable.1
  rw [hnil] at hcount
  exact hsome hcount.symm

/-- A flush with samples in memory hands all of them to the store. There is
a sample in memory, so the table it takes out is not empty, and the segment
made of it has a series for each entry, with the samples of the entry. -/
theorem Settled.startFlush_segment (h : Settled json data db.state g)
    {who : Caller} {cut : Nat} (hsome : db.state.bufferedSamples ≠ 0)
    (hs : db.startFlush who cut = some db') :
    ∃ index job, db' = { db with
        state := { db.state with index }, pc := .flush who cut job }
      ∧ index.inMemory = 0 ∧ job.segment.count = db.state.bufferedSamples
      ∧ job.segment.Full := by
  have hne := h.takeTable_ne_nil hsome
  obtain ⟨hcount, hfull⟩ := h.takeTable
  obtain ⟨htable, hshows, -⟩ := h.memory.shows.takeAll
  unfold Db.startFlush at hs
  rcases htake : db.state.index.takeTable (db.state.index.resolve [])
    with ⟨table, index⟩
  rw [htake] at htable hshows hs hcount hfull hne
  simp only at htable hs hcount hfull hne
  rw [if_neg hne] at hs
  obtain ⟨seg, hseg, rfl⟩ := Option.map_eq_some_iff.mp hs
  have hof := SegmentStore.segmentOf_table hshows.named hseg
  have hsorted : SegmentStore.sorted table = table := by
    rw [htable, Index.sorted_entries]
  rw [hsorted] at hof
  refine ⟨index, _, rfl, hshows.inMemory_eq_zero, hof.count.trans hcount,
    ?_, fun s hser => ?_⟩
  · intro hnil
    have hlen := List.Forall₂.length_eq hof
    rw [hnil] at hlen
    exact hne (List.length_eq_zero_iff.mp hlen)
  · obtain ⟨e, he, -, hsamples⟩ := hof.exists_entry hser
    intro hnil
    refine hfull e he ?_
    rw [← hsamples, DiskSeries.toSamples, hnil]
    rfl

-- =============================================================== the limit

/-- The count, by the call the database is in. -/
structure Db.Bounded (db : Db) : Prop where
  positive : 0 < db.state.maxBufferSamples
  idle : db.pc = .idle → db.state.bufferedSamples < db.state.maxBufferSamples
  cut : ∀ who, db.pc = .cut who → db.state.bufferedSamples ≠ 0
  flush : ∀ who cut job, db.pc = .flush who cut job →
    db.state.index.inMemory = 0
      ∧ job.segment.count = db.state.bufferedSamples ∧ job.segment.Full
  remove : ∀ who through, db.pc = .remove who through →
    db.state.bufferedSamples = 0

/-- A log without files has nothing to replay. -/
def Opening.Bounded (o : Opening) : Prop :=
  0 < o.maxBufferSamples ∧ (o.last = none → o.replay.bufferedSamples = 0)

def Phase.Bounded : Phase → Prop
  | .down => True
  | .opening o _ => o.Bounded
  | .running db => db.state.failed = false → db.Bounded
  | .closing _ => True

namespace Db.Bounded

/-- Behind a flush or a removal that had nothing left to do. -/
theorem next (hpositive : 0 < db.state.maxBufferSamples)
    (hnone : db.state.bufferedSamples = 0) {who : Caller}
    (hpc : db.pc = who.next) : db.Bounded := by
  refine ⟨hpositive, fun _ => by omega, fun who' hcut => ?_,
    fun who' cut job hflush => ?_, fun _ _ _ => hnone⟩
  · rw [hpc] at hcut
    cases who <;> cases hcut
  · rw [hpc] at hflush
    cases who <;> cases hflush

/-- A flush begins: with nothing to flush it is over. -/
theorem flushed (hpositive : 0 < db.state.maxBufferSamples) (who : Caller) :
    (db.flush who).Bounded := by
  unfold Db.flush
  by_cases hnone : db.state.bufferedSamples = 0
  · exact next hpositive hnone (if_pos hnone)
  · rw [if_neg hnone]
    exact ⟨hpositive, by simp, fun _ _ => hnone, by simp, by simp⟩

/-- The store has its segment. -/
theorem stored (hpositive : 0 < db.state.maxBufferSamples) (who : Caller)
    (cut : Nat) : (db.flushed who cut).Bounded :=
  ⟨hpositive, by simp [Db.flushed], by simp [Db.flushed], by simp [Db.flushed],
    fun _ _ _ => rfl⟩

theorem opened {o : Opening} (h : o.Bounded) (wal : Wal.Machine) :
    (o.open_ wal).Bounded := by
  obtain ⟨hpositive, hnone⟩ := h
  unfold Opening.open_
  cases hlast : o.last with
  | none =>
      exact next hpositive (hnone hlast)
        (show Pc.idle = Caller.operation.next from rfl)
  | some last => exact flushed hpositive _

theorem write (h : db.Bounded) {batch : WriteBatch}
    {result : Except WalError Nat} {log log' : Wal.Disk}
    (hs : db.write cfg batch result log = some (log', db')) : db'.Bounded := by
  unfold Db.write at hs
  split at hs
  · rename_i hready
    obtain ⟨⟨log₁, wal⟩, -, heq⟩ := Option.map_eq_some_iff.mp hs
    cases result with
    | error e =>
        cases heq
        exact ⟨h.positive, h.idle, h.cut, by simp [hready.1], h.remove⟩
    | ok lsn =>
        have hpositive : 0 < (db.state.commit
            (db.state.prepare batch)).maxBufferSamples := by
          rw [DbState.maxBufferSamples_commit]
          exact h.positive
        simp only [Prod.mk.injEq] at heq
        rw [← heq.2]
        split
        · exact flushed hpositive _
        · rename_i hfew
          exact ⟨hpositive, fun _ => Nat.lt_of_not_le hfew,
            by simp [hready.1], by simp [hready.1], by simp [hready.1]⟩
  · cases hs

theorem walStep (h : db.Bounded) (hgood : db.Good json data g)
    (hfailed : db.state.failed = false) {a : Wal.Action} {log log' : Wal.Disk}
    (hs : db.WalStep cfg log a log' db') : db'.Bounded := by
  cases hs with
  | goOn => exact ⟨h.positive, h.idle, h.cut, h.flush, h.remove⟩
  | @cut who closed _ wal _ hpc _ hstart =>
      cases hgood with
      | failed hf _ =>
          rw [hf] at hfailed
          cases hfailed
      | flushing hflush _ =>
          rw [hpc] at hflush
          cases hflush
      | settled _ hsettled =>
          let db₁ : Db := { db with wal }
          have hsettled₁ : Settled json data db₁.state g := hsettled
          obtain ⟨index, job, rfl, hmemory, hcount, hfull⟩ :=
            hsettled₁.startFlush_segment (h.cut who hpc) hstart
          exact ⟨h.positive, by simp, by simp,
            fun who' cut' job' hflush => by
              cases hflush
              exact ⟨hmemory, hcount, hfull⟩, by simp⟩
  | removed hpc _ => exact next h.positive (h.remove _ _ hpc) rfl

theorem storeStep (h : db.Bounded) {n : Nat}
    (hs : db.storeStep json n data = some (data', db')) : db'.Bounded := by
  have hcopy := hs
  unfold Db.storeStep at hs
  split at hs
  · rename_i who cut job store hpc hstore
    obtain ⟨⟨data₁, r⟩, -, heq⟩ := Option.map_eq_some_iff.mp hs
    cases r with
    | inl store' =>
        cases heq
        refine stored ?_ who cut
        exact h.positive
    | inr job' =>
        cases heq
        have hsegment := Db.storeStep_segment hpc rfl hcopy
        refine ⟨h.positive, by simp, by simp, fun who' cut' job₁ hflush => ?_,
          by simp⟩
        cases hflush
        rw [hsegment]
        exact h.flush who cut job hpc
  · cases hs

end Db.Bounded

-- ================================================================= the runs

/-- `open_with` takes no limit of zero, and counts what it replays. -/
theorem System.openWith_bounded (max : Nat) (reads : Nat → Nat → Nat)
    {s : System} (h : s.phase.Bounded) :
    (s.openWith json max reads).phase.Bounded := by
  unfold System.openWith
  split
  · exact h
  · rename_i hmax
    split
    · exact h
    · split
      · exact h
      · rename_i hreplay
        refine ⟨Nat.pos_of_ne_zero hmax, fun hlast => ?_⟩
        rw [Wal.replay_none Replay.sink hreplay hlast]

/-- An error leaves nothing to count, or a database that has failed. -/
private theorem Db.fails_bounded {who : Caller}
    (h : db.state.failed = false → 0 < db.state.maxBufferSamples
      ∧ db.state.bufferedSamples = 0) : (db.fails who).Bounded := by
  cases who with
  | operation =>
      intro hfailed
      obtain ⟨hpositive, hnone⟩ := h hfailed
      exact .next hpositive hnone
        (show Pc.idle = Caller.operation.next from rfl)
  | opening last => trivial
  | opened => trivial

/-- What the count says is kept by every step. `syncDir` opens the database,
with the count of the replay; the calls of a flush have their lemmas above;
and an error sets nothing, for it leaves the database failed, or the
operation behind the flush. -/
theorem System.step_bounded {s s' : System} {e : Event} (hgood : s.Good json)
    (h : s.phase.Bounded) (hs : System.Step json cfg s e s') :
    s'.phase.Bounded := by
  cases hs with
  | openWith _ => exact System.openWith_bounded _ _ h
  | setLen hphase => rw [hphase] at h; exact h
  | syncAll hphase => rw [hphase] at h; exact h
  | create hphase _ => rw [hphase] at h; exact h
  | syncDir hphase =>
      rw [hphase] at h
      exact fun _ => .opened h _
  | write hphase hwrite =>
      rw [hphase] at h
      intro hfailed
      obtain ⟨-, hnot, -⟩ := Db.write_cases hwrite
      exact (h hnot).write hwrite
  | flush hphase hpc hnot =>
      rw [hphase] at h
      exact fun _ => .flushed (h hnot).positive _
  | wal hphase hwal =>
      rw [hphase] at h
      intro hfailed
      rw [hwal.failed] at hfailed
      obtain ⟨g, hg⟩ := hgood.at_running hphase
      exact (h hfailed).walStep hg hfailed hwal
  | store hphase hstore =>
      rw [hphase] at h
      intro hfailed
      rw [Db.failed_storeStep hstore] at hfailed
      exact (h hfailed).storeStep hstore
  | openFault hphase => trivial
  | flushFault hphase hpc =>
      refine Db.fails_bounded fun hfailed => ?_
      cases hfailed
  | removeFault hphase hpc =>
      rw [hphase] at h
      exact Db.fails_bounded fun hfailed =>
        ⟨(h hfailed).positive, (h hfailed).remove _ _ hpc⟩
  | drop hphase hpc => trivial
  | drain hphase ha hstep => trivial
  | closed hphase hstep => trivial
  | crash hremoved hlog => trivial

theorem System.bounded (hjson : json.Lawful) {start s : System}
    {events : List Event} (hdown : start.phase = .down)
    (hrun : Run (System.step json cfg) start events s) : s.phase.Bounded := by
  refine hrun.invariant (P := fun _ s => s.phase.Bounded)
    (by rw [hdown]; trivial) fun hbefore h hs => ?_
  exact System.step_bounded (System.good hjson hdown hbefore) h (.of_step hs)

-- ============================================================= the accounts

/-- The accounts of a persistent database. -/
structure Db.Accounted (db : Db) : Prop where
  /-- Outside of the flush of the store the count is that of the samples in
  memory. -/
  memory : (∀ who cut job, db.pc ≠ .flush who cut job) →
    db.state.bufferedSamples = db.state.index.inMemory
  /-- Within it, the store has been handed all of them. -/
  handed : ∀ who cut job, db.pc = .flush who cut job →
    db.state.index.inMemory = 0
      ∧ job.segment.count = db.state.bufferedSamples ∧ job.segment.Full
  /-- No operation is over with a full buffer. -/
  below : db.pc = .idle → db.state.bufferedSamples < db.state.maxBufferSamples
  /-- A flush does not skip a sample. -/
  flushes : db.pc = .idle → ∀ id, (db.state.index.state id).samples ≠ [] →
    (db.flush .operation).pc = .cut .operation
  /-- Where one was skipped, or is over, nothing is in memory. -/
  skipped : ∀ who through, db.pc = .remove who through →
    db.state.index.inMemory = 0
  /-- The table is not empty, and no series of it. -/
  table : ∀ who, db.pc = .cut who →
    (db.state.index.takeTable (db.state.index.resolve [])).1 ≠ []
      ∧ ∀ e ∈ (db.state.index.takeTable (db.state.index.resolve [])).1,
        e.2 ≠ []

theorem Db.Bounded.accounted (h : db.Bounded) (hgood : db.Good json data g)
    (hfailed : db.state.failed = false) : db.Accounted := by
  have hsettled : (∀ who cut job, db.pc ≠ .flush who cut job) →
      Settled json data db.state g := by
    intro hpc
    cases hgood with
    | failed hf _ =>
        rw [hf] at hfailed
        cases hfailed
    | settled _ h => exact h
    | flushing hflush _ => exact absurd hflush (hpc _ _ _)
  have hcounted := fun hpc => (hsettled hpc).memory.counted
  refine ⟨hcounted, h.flush, h.idle, fun hpc id hsome => ?_,
    fun who through hpc => ?_, fun who hpc => ?_⟩
  · have hs := hsettled (by simp [hpc])
    have hne : db.state.bufferedSamples ≠ 0 := by
      intro hnone
      rw [hs.memory.counted] at hnone
      exact hsome (hs.memory.shows.named.samples_nil hnone id)
    exact if_neg hne
  · rw [← hcounted (by simp [hpc])]
    exact h.remove who through hpc
  · have hs := hsettled (by simp [hpc])
    exact ⟨hs.takeTable_ne_nil (h.cut who hpc), hs.takeTable.2⟩

/-- In every run the count of a database that has not failed is exact and
below its limit between operations, and a flush neither skips a sample nor
makes an empty table or series; and the count is exact in memory, behind
any writes. -/
theorem buffer_accounted (hjson : json.Lawful) {start s : System}
    {events : List Event} (hdown : start.phase = .down)
    (hrun : Run (System.step json cfg) start events s)
    (hphase : s.phase = .running db) (hfailed : db.state.failed = false)
    (writes : List WriteBatch) :
    db.Accounted
      ∧ (DbState.inMemory writes).bufferedSamples
        = (DbState.inMemory writes).index.inMemory := by
  have hbounded := System.bounded hjson hdown hrun
  rw [hphase] at hbounded
  obtain ⟨g, hgood⟩ := (System.good hjson hdown hrun).at_running hphase
  obtain ⟨-, -, _, hmem⟩ := DbState.writes_in_memory writes
  exact ⟨(hbounded hfailed).accounted hgood hfailed, hmem.counted⟩

/-- At the end of the session two samples are in memory; and after a crash
there, the directories open again, with a segment and the record of one of
the samples. What is in the buffer then is what the replay of that record
has put there. -/
theorem buffer_accounted_once :
    ∃ (s s' : System) (es : List Event) (db db' : Db),
      exec (System.step Json.sample ⟨100, 0⟩) (openEmpty 4 ++ session) {}
        = some s
      ∧ s.phase = .running db ∧ db.state.bufferedSamples = 2 ∧ db.Accounted
      ∧ s.data.keys = [.segment 0]
      ∧ s.log.dir.map (fun f => f.bytes.length) = [70]
      ∧ exec (System.step Json.sample ⟨100, 0⟩)
          (.openWith 4 (fun _ _ => 0) :: es) { s with phase := .down }
        = some s'
      ∧ s'.phase = .running db' ∧ db'.pc = .idle ∧ db'.Accounted
      ∧ (DbState.inMemory [writeAt 5]).bufferedSamples
        = (DbState.inMemory [writeAt 5]).index.inMemory := by
  obtain ⟨s, db, hrun, hphase, -, hfailed, hcount, hsizes, -, hkeys⟩ :=
    System.exec_session
  have hcrash : exec (System.step Json.sample ⟨100, 0⟩)
      (openEmpty 4 ++ session ++ [.crash []]) {}
      = some { s with phase := .down } := by
    refine Lib.exec_append hrun ?_
    rw [exec, System.step_crash]
    rfl
  have hopens := System.opens_down Json.sample_lawful Json.sample_total
    hcrash rfl
  obtain ⟨es, s', -, hopened, db', hphase', hpc', hfailed'⟩ :=
    hopens.reopen rfl (Nat.succ_ne_zero 3) fun _ _ => 0
  obtain ⟨hbefore, -⟩ := buffer_accounted Json.sample_lawful rfl
    (.of_exec hrun) hphase hfailed []
  obtain ⟨hafter, hmemory⟩ := buffer_accounted Json.sample_lawful rfl
    (.of_exec hopened) hphase' hfailed' [writeAt 5]
  exact ⟨s, s', es, db, db', hrun, hphase, hcount, hbefore, hkeys, hsizes,
    hopened, hphase', hpc', hafter, hmemory⟩

end Tsdb
