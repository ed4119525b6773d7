/-
Flushing is invisible to queries.

A database in use holds its samples in memory, in segments, or in a flush
between the two, and it flushes whenever it likes. What it answers is the
view of the writes made to it, in every state (`Tracks`), and so the answer
of a database that has no segments at all (`flushing_invisible`).

# The events

The database is opened on empty directories and then used: writes, its
own calls, and the threads of its log, in any order the locks allow. Each
call may fail. Only the failure of the flush of the store can be seen, as
the database answers with an error from then on, and `System.flushFails`
says of a run whether there has been one.

# The invariant

`Tracks json s v failed`: an open database has a ledger whose view is `v`,
or has failed. The ledger is the one of `Tsdb.Db.Invariant`, so the step
is read off its lemmas by what they say of the view: an accepted write is
one more write to it, and every other event leaves it alone, though it may
move samples from memory to a segment or from the log's buffer to a file.
By induction on the run `v` is the view of the writes in it.

A query is then computed from the view (`DbState.query_ok`). Within an
operation it has to wait, which is why the theorem speaks of a database
that is in none; and the database in memory answers with the view of the
same writes (`query_in_memory`).

Crashes are left out here, as they may take writes: they are the subject
of `Tsdb.Db.Restart`.
-/
import Tsdb.Db.Invariant
import Tsdb.Db.Session

namespace Tsdb

open Lib (extend exec)
open Wal (WalConfig WalError)

-- ============================================================ what happens

/-- The batch an event writes. -/
def Event.written : Event → List WriteBatch
  | .write batch (.ok _) => [batch]
  | _ => []

/-- The writes of a run, in order. -/
def writesIn (events : List Event) : List WriteBatch :=
  events.flatMap Event.written

/-- What happens to a database in use: its calls, each of which may fail
but for the append to the log, and the threads of the log. -/
def Event.inUse : Event → Bool
  | .write _ (.ok _) => true
  | .flush => true
  | .wal _ => true
  | .store _ => true
  | .fault => true
  | _ => false

/-- Does the flush of the store fail at this event? -/
def Event.failsFlush : Event → System → Bool
  | .fault, s =>
      match s.phase with
      | .running db =>
          match db.pc with
          | .flush _ _ _ => true
          | _ => false
      | _ => false
  | _, _ => false

/-- Does a flush of the store fail in the run? -/
def System.flushFails (json : Json) (cfg : WalConfig) :
    List Event → System → Bool
  | [], _ => false
  | e :: events, s =>
      e.failsFlush s || ((System.step json cfg e s).map
        (System.flushFails json cfg events)).getD false

theorem System.flushFails_append {json : Json} {cfg : WalConfig}
    {es : List Event} {s s' : System}
    (hrun : exec (System.step json cfg) es s = some s') (es' : List Event) :
    System.flushFails json cfg (es ++ es') s
      = (System.flushFails json cfg es s
        || System.flushFails json cfg es' s') := by
  induction es generalizing s with
  | nil =>
      cases hrun
      rfl
  | cons e es ih =>
      obtain ⟨s₁, hs, hrest⟩ := Option.bind_eq_some_iff.mp hrun
      rw [List.cons_append, System.flushFails, System.flushFails, hs,
        Option.map_some, Option.map_some, Option.getD_some, Option.getD_some,
        ih hrest, Bool.or_assoc]

/-- Only errors are counted. -/
theorem System.flushFails_eq_false {json : Json} {cfg : WalConfig}
    {events : List Event} (h : Event.fault ∉ events) (s : System) :
    System.flushFails json cfg events s = false := by
  induction events generalizing s with
  | nil => rfl
  | cons e events ih =>
      obtain ⟨hne, hrest⟩ := not_or.mp (mt List.mem_cons.mpr h)
      have hfails : e.failsFlush s = false := by
        cases e <;> first | rfl | exact absurd rfl hne
      rw [System.flushFails, hfails, Bool.false_or]
      cases System.step json cfg e s with
      | none => rfl
      | some s₁ => exact ih hrest s₁

-- =========================================================== the invariant

variable {json : Json} {cfg : WalConfig} {s s' : System} {v : View}

/-- An open database shows `v`, or has failed. -/
def Tracks (json : Json) (s : System) (v : View) (failed : Bool) : Prop :=
  ∀ db, s.phase = .running db → db.state.failed = failed
    ∧ ∃ g, db.Good json s.data g ∧ g.names = v.sets ∧ g.view = v

namespace Tracks

variable {failed : Bool}

/-- Any error leaves the view, and that of the store fails the
database. -/
private theorem fails (db : Db) {g : Ledger} {who : Caller}
    (hphase : s'.phase = db.fails who)
    (h : db.state.failed = true ∨ Settled json s'.data db.state g)
    (hnames : g.names = v.sets) (hview : g.view = v) :
    Tracks json s' v db.state.failed := by
  intro db' hdb'
  rw [hphase] at hdb'
  cases who with
  | operation =>
      cases hdb'
      refine ⟨rfl, g, ?_, hnames, hview⟩
      rcases h with hfailed | h
      · exact .failed hfailed rfl
      · exact .settled (fun _ _ _ => nofun) h
  | opening last => cases hdb'
  | opened => cases hdb'

/-- A database opened on empty directories. -/
theorem opened (json : Json) (max : Nat) :
    Tracks json {
      log := [{ id := 1, durable := true }]
      phase := .running {
        state := { store := some {}, maxBufferSamples := max }
        wal := .start 1 0 } } {} false := by
  intro db hdb
  cases hdb
  have hmem := DbState.Memory.new max
  refine ⟨rfl, {}, .settled (fun _ _ _ => nofun)
    ⟨⟨hmem.shows, hmem.logged, hmem.counted⟩, .empty json, .nil, {}, rfl,
      .nil, ?_, rfl⟩, rfl, rfl⟩
  intro ls hls
  cases hls

/-- One step: an accepted write is made to the view, and nothing else
changes it. A flush moves samples from memory to a segment, which the ledger
notes and the view does not see; the steps of an opening are not among those
of use. -/
theorem step (hjson : json.Lawful) (h : Tracks json s v failed) {e : Event}
    (huse : e.inUse = true) (hs : System.step json cfg e s = some s') :
    Tracks json s' (v.writeAll e.written) (failed || e.failsFlush s) := by
  cases System.Step.of_step hs with
  | @write db db' batch result log hphase hwrite =>
      obtain ⟨hfailed, g, hg, hnames, hview⟩ := h db hphase
      cases result with
      | error e => cases huse
      | ok lsn =>
          intro db₁ hdb₁
          cases hdb₁
          obtain ⟨-, -, -, ⟨_, herr, -⟩ | ⟨_, wal, -, -, hdb⟩⟩ :=
            Db.write_cases hwrite
          · cases herr
          · rcases hg.write hwrite with ⟨⟨_, herr⟩, -⟩ | ⟨-, hg'⟩
            · cases herr
            · refine ⟨?_, _, hg', ?_, ?_⟩
              · show _ = (failed || false)
                rw [Bool.or_false, ← hfailed]
                rcases hdb with rfl | rfl
                · exact DbState.failed_commit _ _
                · exact DbState.failed_commit _ _
              · show touchAll g.names _ = (v.write batch).sets
                rw [hnames, View.sets_write]
              · show g.view.write batch = v.write batch
                rw [hview]
  | @flush db hphase hpc hf =>
      obtain ⟨hfailed, g, hg, hnames, hview⟩ := h db hphase
      intro db₁ hdb₁
      cases hdb₁
      refine ⟨?_, g, Db.Good.flush _ (hg.of_idle hpc hf) _, hnames, hview⟩
      show _ = (failed || false)
      rw [Bool.or_false, ← hfailed]
      rfl
  | @wal db db' a log hphase hwal =>
      obtain ⟨hfailed, g, hg, hnames, hview⟩ := h db hphase
      obtain ⟨g', halike, hg'⟩ := hg.walStep hwal
      intro db₁ hdb₁
      cases hdb₁
      refine ⟨?_, g', hg', halike.names.trans hnames,
        halike.view.trans hview⟩
      show _ = (failed || false)
      rw [Bool.or_false, ← hfailed]
      exact hwal.failed
  | @store db db' n data hphase hstore =>
      obtain ⟨hfailed, g, hg, hnames, hview⟩ := h db hphase
      obtain ⟨g', halike, hg'⟩ := hg.storeStep hjson hstore
      intro db₁ hdb₁
      cases hdb₁
      refine ⟨?_, g', hg', halike.names.trans hnames,
        halike.view.trans hview⟩
      show _ = (failed || false)
      rw [Bool.or_false, ← hfailed]
      exact Db.failed_storeStep hstore
  | openFault hphase =>
      intro db₁ hdb₁
      cases hdb₁
  | @flushFault db who cut job hphase hpc =>
      obtain ⟨-, g, -, hnames, hview⟩ := h db hphase
      have hfails : Event.fault.failsFlush s = true := by
        simp only [Event.failsFlush, hphase, hpc]
      rw [hfails, Bool.or_true]
      exact fails { db with state := { db.state with failed := true } }
        rfl (.inl rfl) hnames hview
  | @removeFault db who through hphase hpc =>
      obtain ⟨hfailed, g, hg, hnames, hview⟩ := h db hphase
      have hfails : Event.fault.failsFlush s = false := by
        simp only [Event.failsFlush, hphase, hpc]
      rw [hfails, Bool.or_false, ← hfailed]
      refine fails db rfl ?_ hnames hview
      cases hg with
      | failed hf _ => exact .inl hf
      | settled _ h => exact .inr h
      | flushing hf _ =>
          rw [hf] at hpc
          cases hpc
  | drain hphase _ _ =>
      intro db₁ hdb₁
      cases hdb₁
  | closed hphase _ =>
      intro db₁ hdb₁
      cases hdb₁
  | openWith | setLen | syncAll | create | syncDir | drop | crash =>
      cases huse

/-- Step by step. -/
theorem exec (hjson : json.Lawful) (h : Tracks json s v failed)
    {events : List Event} (huse : ∀ e ∈ events, e.inUse = true)
    (hrun : exec (System.step json cfg) events s = some s') :
    Tracks json s' (v.writeAll (writesIn events))
      (failed || System.flushFails json cfg events s) := by
  induction events generalizing s v failed with
  | nil =>
      cases hrun
      rw [System.flushFails, Bool.or_false]
      exact h
  | cons e events ih =>
      obtain ⟨s₁, hs, hrest⟩ := Option.bind_eq_some_iff.mp hrun
      have h₁ := h.step hjson (huse e List.mem_cons_self) hs
      have hall := ih h₁ (fun e he => huse e (List.mem_cons_of_mem _ he)) hrest
      rw [writesIn, List.flatMap_cons, View.writeAll_append,
        System.flushFails, hs, Option.map_some, Option.getD_some,
        ← Bool.or_assoc]
      exact hall

/-- What a query of the open database returns. -/
theorem query (h : Tracks json s v failed)
    (hcanon : ∀ ls ∈ v.sets, ls.Canonical) {matchers : List Matcher}
    {range : TimeRange} (hrange : range.start ≤ range.end_)
    {r : Except DbError (List SeriesResult)}
    (hquery : s.query json matchers range = some r) :
    r = if failed then .error .storageFailed
      else .ok (v.query matchers range) := by
  unfold System.query at hquery
  split at hquery
  · rename_i db hphase
    obtain ⟨hfailed, g, hg, hnames, hview⟩ := h db hphase
    split at hquery
    · rename_i hpc
      cases hquery
      cases failed with
      | true =>
          simp only [DbState.query, if_neg (not_lt.mpr hrange), hfailed,
            if_true]
      | false =>
          have hsettled := hg.of_idle hpc hfailed
          obtain ⟨store, hsome, hstore⟩ := hsettled.store
          rw [DbState.query_ok hsettled.memory.shows (hnames ▸ hcanon)
            hsettled.held hsettled.valid hstore hsome hfailed matchers hrange,
            hnames, hview]
          rfl
    · cases hquery
  · cases hquery

end Tracks

-- ================================================================= over runs

/-- Flushing is invisible: a database opened on empty directories answers
what the database in memory answers after the same writes, which is for each
matching series, in the order of their first writes, what of all its samples
ascends in time, cut to the range. Once a flush of the store has failed it
answers nothing.

The run tracks a view, from the empty one, and by `Tracks.exec` the view at
the end is that of all the writes. What a query finds is then a fact about
one state, and the database in memory is another with the same view. -/
theorem flushing_invisible (hjson : json.Lawful) {max : Nat}
    {reads : Nat → Nat → Nat} {events : List Event}
    (huse : ∀ e ∈ events, e.inUse = true)
    (hrun : exec (System.step json cfg)
      ([.openWith max reads, .create, .syncDir] ++ events) {} = some s)
    (matchers : List Matcher) {range : TimeRange}
    (hrange : range.start ≤ range.end_)
    {r : Except DbError (List SeriesResult)}
    (hquery : s.query json matchers range = some r) :
    if System.flushFails json cfg
        ([.openWith max reads, .create, .syncDir] ++ events) {}
    then r = .error .storageFailed
    else r = (DbState.inMemory (writesIn events)).query json ∅ matchers range
      ∧ r = .ok (((touchAll [] ((writesIn events).flatMap fun batch =>
            batch.nonempty.map Prod.fst)).filter (satisfiesAll matchers)).map
          fun ls => ⟨ls, (extend Sample.timestamp []
            (written (writesIn events) ls)).filter (·.inTimerange range)⟩) := by
  obtain ⟨s₀, hopen, hevents⟩ := Lib.exec_split hrun
  have hmax : 0 < max := by
    by_contra hzero
    have : max = 0 := by omega
    subst this
    cases hopen
  have hfails := System.flushFails_append hopen events
  rw [System.exec_open_empty json cfg hmax reads] at hopen
  cases hopen
  rw [hfails]
  have hdone := Tracks.exec hjson (Tracks.opened json max) huse hevents
  have hanswer := hdone.query (View.canonical_writeAll _) hrange hquery
  have hno : System.flushFails json cfg
      [.openWith max reads, .create, .syncDir] {} = false :=
    System.flushFails_eq_false (by simp) _
  rw [hno, Bool.false_or]
  rw [Bool.false_or] at hanswer
  split
  · rename_i hf
    rw [hf] at hanswer
    exact hanswer
  · rename_i hf
    rw [if_neg hf] at hanswer
    refine ⟨?_, ?_⟩
    · rw [hanswer, DbState.query_in_memory json ∅ _ matchers hrange]
    · rw [hanswer, View.query, View.sets_writeAll]
      simp only [View.hist_writeAll]

/-- The session has one sample in a segment and two in memory, and answers
with all three. -/
theorem flushing_invisible_once :
    ∃ s, exec (System.step Json.sample ⟨100, 0⟩) (openEmpty 4 ++ session) {}
        = some s
      ∧ s.data.keys = [.segment 0]
      ∧ s.query Json.sample [] ⟨0, 9⟩
        = some (.ok [⟨⟨[⟨"host", "a"⟩]⟩, [⟨5, 7⟩, ⟨8, 7⟩, ⟨9, 7⟩]⟩]) := by
  obtain ⟨s, db, hrun, hphase, hpc, -, -, -, -, hkeys⟩ := System.exec_session
  obtain ⟨r, hquery⟩ : ∃ r, s.query Json.sample [] ⟨0, 9⟩ = some r := by
    simp only [System.query, hphase, hpc, if_true]
    exact ⟨_, rfl⟩
  have huse : ∀ e ∈ session, e.inUse = true := by decide
  have hanswer := flushing_invisible Json.sample_lawful huse hrun []
    (by decide) hquery
  rw [System.flushFails_eq_false (by simp [session, flushCall,
    flushUpToList])] at hanswer
  refine ⟨s, hrun, hkeys, hquery.trans ?_⟩
  rw [hanswer.2]
  decide +kernel

end Tsdb
