/-
A write that the log has refused.

`write` takes the label sets of a batch into the index before it has the
record to offer to the log, so a refusal comes too late for them. It leaves
no trace exactly if there were none to take in: every series of the batch
that has samples was known (`refused_leaves_no_trace`). Otherwise the very
next query lists what was never written.

# Both directions

If every series was known, `prepare` leaves the index as it is, as taking
in a known label set does (`prepare_known`), and a refused write changes
nothing else: the state behind the call is the state in front of it, and
then so is everything that comes later.

If one was not, it has an id behind the call, with no samples. A query
without matchers lists every series (`Settled.query_all`), so the answer
has an entry more than the answer of a database that has not made the
call, and the two can be told apart at once.

# The refusal

The log refuses a record of more than 64 MiB, and one that comes when it
is closed, which no open database sees. The example is a batch that is
too large by its samples alone: the length of its record is a matter of
their number (`payload_batchOf`), so the number is all that is computed,
and no record of that size is ever built.
-/
import Tsdb.Db.Invariant
import Tsdb.Storage.Format

namespace Tsdb

open Lib (Run exec)
open Wal (Disk WalConfig WalError)

variable {json : Json} {cfg : WalConfig}

/-- Has the open database a series for the label set? -/
def System.knows (s : System) (ls : LabelSet) : Bool :=
  match s.phase with
  | .running db => (db.state.index.idFor ls).isSome
  | _ => false

/-- A batch of known series leaves the index as it is. -/
theorem Index.Names.prepare_known {state : DbState} {names : List LabelSet}
    (h : state.index.Names names) {batch : WriteBatch}
    (hknown : ∀ b ∈ batch.series, b.2 ≠ [] → b.1 ∈ names) :
    (state.prepare batch).index = state.index := by
  refine List.foldlRecOn (motive := fun p : Prepared => p.index = state.index)
    batch.series _ rfl fun p hp b hb => ?_
  unfold Prepared.add
  split
  · exact hp
  · rename_i hne
    rw [hp, h.encode_known (hknown b hb hne)]
    simp only
    split <;> rfl

/-- A query for everything lists every series. -/
theorem Settled.query_all {data : DataDir} {state : DbState} {g : Ledger}
    (h : Settled json data state g) (hfailed : state.failed = false)
    (range : TimeRange) (hrange : range.start ≤ range.end_) :
    ∃ results, state.query json data [] range = .ok results
      ∧ results.map SeriesResult.labels = g.names := by
  obtain ⟨store, hsome, hstore⟩ := h.store
  have hresolve : state.index.resolve []
      = idsWhere g.names (satisfiesAll []) := by
    show state.index.allIds = idsWhere g.names fun _ => true
    rw [h.memory.shows.named.all, idsWhere_eq_range]
  refine ⟨_, DbState.query_found h.memory.shows h.held h.valid hstore hsome
    hfailed hresolve hrange, ?_⟩
  unfold View.query
  rw [List.map_map]
  show (g.names.filter fun _ => true).map id = g.names
  rw [List.map_id, List.filter_true]

/-- A write that the log has refused changes no later answer, whatever
happens in between, exactly if it was for series the database knew.

If it was, `encode` has found them all, and the state is the one before. If
not, a query for everything tells the two states apart at once. -/
theorem refused_leaves_no_trace (hjson : json.Lawful) {start s s' : System}
    {events : List Event} (hdown : start.phase = .down)
    (hrun : exec (System.step json cfg) events start = some s)
    {batch : WriteBatch} {e : WalError}
    (hrefused : System.step json cfg (.write batch (.error e)) s = some s') :
    (∀ later matchers range,
      (exec (System.step json cfg) later s').bind
          (System.query json matchers range)
        = (exec (System.step json cfg) later s).bind
          (System.query json matchers range))
      ↔ ∀ b ∈ batch.series, b.2 ≠ [] → s.knows b.1 = true := by
  have hgood := System.good hjson hdown (.of_exec hrun)
  cases System.Step.of_step hrefused with
  | @write db db' _ _ log hphase hwrite =>
  obtain ⟨hpc, hfailed, rfl, ⟨e', -, -, rfl⟩ | ⟨_, _, hok, -⟩⟩ :=
    Db.write_cases hwrite
  · obtain ⟨g, hg⟩ := hgood.at_running hphase
    have hsettled := hg.of_idle hpc hfailed
    have hnames := hsettled.memory.shows.named
    have hknows : ∀ ls, s.knows ls = true ↔ ls ∈ g.names := by
      intro ls
      unfold System.knows
      rw [hphase]
      show (db.state.index.idFor ls).isSome = true ↔ _
      rw [hnames.inverted]
      split <;> simp_all
    constructor
    · intro hsame b hb hne
      rw [hknows]
      obtain ⟨before, hbefore, hlist⟩ :=
        hsettled.query_all hfailed ⟨0, 0⟩ (UInt64.le_refl 0)
      obtain ⟨after, hafter, hlist'⟩ :=
        (hsettled.refused batch).query_all hfailed ⟨0, 0⟩ (UInt64.le_refl 0)
      have hquery := hsame [] [] ⟨0, 0⟩
      simp only [exec, Option.bind_some, System.query, hphase, hpc,
        if_pos, hbefore, hafter, Option.some.injEq, Except.ok.injEq]
        at hquery
      rw [← hlist, ← hquery, hlist']
      exact mem_touchAll.mpr (.inr (List.mem_map_of_mem
        (List.mem_filter.mpr ⟨hb, by simpa using hne⟩)))
    · intro hknown later matchers range
      have hindex : (db.state.prepare batch).index = db.state.index :=
        hnames.prepare_known fun b hb hne =>
          (hknows b.1).mp (hknown b hb hne)
      rw [hindex, ← hphase]
  · cases hok

/-- A database opened on empty directories. -/
def opened : Db where
  state := { store := some {}, maxBufferSamples := 1 }
  wal := .start 1 0

theorem exec_open_empty (json : Json) (cfg : WalConfig) :
    exec (System.step json cfg)
        [.openWith 1 (fun _ _ => 0), .create, .syncDir] {}
      = some { log := [{ id := 1, durable := true }], phase := .running opened } :=
  System.exec_open_empty json cfg Nat.one_pos _

/-- A batch of one series, with `n` samples. -/
def batchOf (n : Nat) : WriteBatch where
  series := [(⟨[⟨"host", "a"⟩]⟩, List.replicate n ⟨0, 0⟩)]
  canonical e he := by
    rw [List.mem_singleton.mp he]
    exact List.pairwise_singleton _ _

theorem index_batchOf {n : Nat} (hn : n ≠ 0) :
    (opened.state.prepare (batchOf n)).index
      = (Index.new.encode ⟨[⟨"host", "a"⟩]⟩).2 := by
  cases n with
  | zero => exact absurd rfl hn
  | succ n => rfl

theorem record_batchOf {n : Nat} (hn : n ≠ 0) :
    (opened.state.prepare (batchOf n)).record
      = ⟨[⟨0, ⟨[⟨"host", "a"⟩]⟩⟩], [⟨0, List.replicate n ⟨0, 0⟩⟩]⟩ := by
  cases n with
  | zero => exact absurd rfl hn
  | succ n => rfl

/-- The record of the first write has 45 bytes around its samples. -/
theorem payload_batchOf {n : Nat} (hn : n ≠ 0) :
    (Wal.payloadBytes (opened.state.prepare (batchOf n)).record).length
      = 45 + 16 * n := by
  have hhost : (Wal.asBytes "host").length = 4 := by decide
  have ha : (Wal.asBytes "a").length = 1 := by decide
  have hsample : (Wal.sampleBytes ⟨0, 0⟩).length = 16 := by decide
  have hnonempty : Wal.WalRecord.nonempty
      ⟨[⟨0, ⟨[⟨"host", "a"⟩]⟩⟩], [⟨0, List.replicate n ⟨0, 0⟩⟩]⟩
      = [⟨0, List.replicate n ⟨0, 0⟩⟩] := by
    simp [Wal.WalRecord.nonempty, hn]
  rw [record_batchOf hn]
  unfold Wal.payloadBytes
  rw [hnonempty]
  simp [Wal.seriesBytes, Wal.samplesBytes, Wal.labelSetBytes, Wal.labelBytes,
    Lib.toLE_length, hhost, ha, hsample]
  omega

/-- A record of more than 64 MiB is refused. -/
theorem opened_refuses {n : Nat} (hn : 2 ^ 22 ≤ n) (json : Json)
    (cfg : WalConfig) (data : DataDir) (log : Disk) :
    System.step json cfg
        (.write (batchOf n) (.error (.recordTooLarge (45 + 16 * n))))
        { data, log, phase := .running opened }
      = some { data, log, phase := .running { opened with
          state := { opened.state with
            index := (opened.state.prepare (batchOf n)).index } } } := by
  have hpayload := payload_batchOf (n := n) (by omega)
  have hids : (opened.state.prepare (batchOf n)).record.IdsFit := by
    rw [record_batchOf (by omega)]
    constructor
    · intro e he
      rw [List.mem_singleton.mp he]
      exact Nat.two_pow_pos 64
    · intro e he
      rw [List.mem_singleton.mp he]
      exact Nat.two_pow_pos 64
  have happend : Wal.appendWith cfg opened.wal.shared.buffer
      (opened.state.prepare (batchOf n)).record
      = (.error (.recordTooLarge (45 + 16 * n)), opened.wal.shared.buffer) := by
    have hempty : (opened.state.prepare (batchOf n)).record.isEmpty
        = false := by
      rw [record_batchOf (by omega)]
      rfl
    simp only [Wal.appendWith, Wal.encode_eq, hempty, hpayload]
    rw [if_neg (by simp), if_pos (by unfold Wal.maxRecordBytes; omega)]
  simp only [System.step, Db.write, Wal.step, happend, hids, and_self, if_true]
  rfl

/-- A batch too large leaves a trace: a series that was never written is
listed. -/
theorem refused_leaves_series :
    ∃ (cfg : WalConfig) (s s' : System), Json.sample.Lawful
      ∧ exec (System.step Json.sample cfg)
          [.openWith 1 (fun _ _ => 0), .create, .syncDir] {} = some s
      ∧ System.step Json.sample cfg (.write (batchOf (2 ^ 22))
          (.error (.recordTooLarge (45 + 16 * 2 ^ 22)))) s = some s'
      ∧ s.query Json.sample [] ⟨0, 0⟩ = some (.ok [])
      ∧ s'.query Json.sample [] ⟨0, 0⟩
        = some (.ok [⟨⟨[⟨"host", "a"⟩]⟩, []⟩]) := by
  have hrun := exec_open_empty Json.sample ⟨0, 0⟩
  have hstep := opened_refuses (Nat.le_refl _) Json.sample ⟨0, 0⟩ ∅
    [{ id := 1, durable := true }]
  rw [index_batchOf (by decide)] at hstep
  exact ⟨⟨0, 0⟩, _, _, Json.sample_lawful, hrun, hstep, rfl, rfl⟩

/-- The condition fails there, and it must. -/
theorem refused_leaves_no_trace_large :
    ∃ (cfg : WalConfig) (s s' : System),
      System.step Json.sample cfg (.write (batchOf (2 ^ 22))
          (.error (.recordTooLarge (45 + 16 * 2 ^ 22)))) s = some s'
      ∧ ((∀ later matchers range,
          (exec (System.step Json.sample cfg) later s').bind
              (System.query Json.sample matchers range)
            = (exec (System.step Json.sample cfg) later s).bind
              (System.query Json.sample matchers range))
        ↔ ∀ b ∈ (batchOf (2 ^ 22)).series, b.2 ≠ [] → s.knows b.1 = true) := by
  have hstep := opened_refuses (Nat.le_refl _) Json.sample ⟨0, 0⟩ ∅
    [{ id := 1, durable := true }]
  exact ⟨⟨0, 0⟩, _, _, hstep, refused_leaves_no_trace Json.sample_lawful rfl
    (exec_open_empty Json.sample ⟨0, 0⟩) hstep⟩

end Tsdb
