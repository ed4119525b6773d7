/-
What holds of an open database in every run (`System.Good`), whatever the
directories it was opened on.

# The invariant

`Db.Good` has three cases: the database is between two operations or in
one that has not touched the samples, and is `Settled`; it is within the
flush of its store, and is `Flushing`; or it has failed, and nothing is
said. `System.Good` adds the phases around it: nobody has the directories,
somebody is opening them, or a log is being dropped.

The ledger is an argument and not a part of the state. It is what the
operation lemmas speak of: a write that was accepted makes
`Ledger.written` of it, one that was refused `Ledger.refused`, a flush
moves the view into the segments, and everything else leaves it alone
(`Ledger.Alike`). Modules that need to know more than that the database is
in order, such as which writes it has taken, use the same lemmas with the
same ledger.

# The run

Each operation has a lemma of its own that says what becomes of the ledger:
`write`, `startFlush`, `storeStep`, and for everything that the log does by
itself `walStep`, in which the database only moves on. `System.Good.step`
puts them together, by the cases of `Step`, and `System.good` is the
induction over the run.

A crash needs no case of its own here. It leaves no open database, and
the next one is in order whatever it finds (`Tsdb.Db.Opening`).
-/
import Tsdb.Db.Opening

namespace Tsdb

open Lib (HashMap Run)
open Wal (Disk Machine WalConfig WalError)

variable {json : Json} {cfg : WalConfig} {data data' : DataDir} {db db' : Db}
  {g : Ledger} {log log' : Disk}

/-- An open database is settled or within the flush of its store, unless it
has failed. -/
inductive Db.Good (json : Json) (data : DataDir) (db : Db) (g : Ledger) :
    Prop
  | failed (hfailed : db.state.failed = true) (hpc : db.pc = .idle)
  | settled (hpc : ∀ who cut job, db.pc ≠ .flush who cut job)
      (h : Settled json data db.state g)
  | flushing {who : Caller} {cut : Nat} {job : FlushJob}
      (hpc : db.pc = .flush who cut job)
      (h : Flushing json data db.state job g)

theorem Caller.next_ne_flush (who : Caller) :
    ∀ who' cut job, who.next ≠ .flush who' cut job := by
  cases who <;> simp [Caller.next]

-- =========================================================== the operations

/-- The same label sets, and the same view of them. -/
structure Ledger.Alike (g g' : Ledger) : Prop where
  names : g'.names = g.names
  view : g'.view = g.view

theorem Ledger.Alike.refl (g : Ledger) : g.Alike g := ⟨rfl, rfl⟩

/-- What a refused write leaves behind. -/
def Ledger.refused (g : Ledger) (batch : WriteBatch) : Ledger :=
  { g with names := touchAll g.names (batch.nonempty.map Prod.fst) }

/-- What an accepted write makes of the ledger. -/
def Ledger.written (g : Ledger) (batch : WriteBatch)
    (rec : Wal.WalRecord) : Ledger :=
  { g with
    names := touchAll g.names (batch.nonempty.map Prod.fst)
    view := g.view.write batch
    defined := g.defined ++ rec.series.map Wal.SeriesEntry.labels }

namespace Settled

variable {state : DbState}

theorem refused (h : Settled json data state g) (batch : WriteBatch) :
    Settled json data { state with index := (state.prepare batch).index }
      (g.refused batch) := by
  have hmem := h.memory.refused batch
  obtain ⟨store, hsome, hstore⟩ := h.store
  exact ⟨hmem, h.held, h.valid, store, hsome,
    hstore.mono (prefix_touchAll _ _) hmem.shows.named.nodup⟩

theorem written (h : Settled json data state g) (batch : WriteBatch) :
    Settled json data (state.commit (state.prepare batch))
      (g.written batch (state.prepare batch).record) := by
  have hmem := h.memory.commit batch
  obtain ⟨store, hsome, hstore⟩ := h.store
  refine ⟨hmem, h.held, h.valid, store, ?_,
    hstore.mono (prefix_touchAll _ _) hmem.shows.named.nodup⟩
  rw [DbState.store_commit]
  exact hsome

end Settled

namespace Db.Good

/-- A database that is not in an operation and has not failed is
settled. -/
theorem of_idle (h : db.Good json data g) (hpc : db.pc = .idle)
    (hfailed : db.state.failed = false) : Settled json data db.state g := by
  cases h with
  | failed hf _ =>
      rw [hf] at hfailed
      cases hfailed
  | settled _ h => exact h
  | flushing hf _ =>
      rw [hf] at hpc
      cases hpc

/-- Neither the log nor the count of calls matters. -/
theorem congr (h : db.Good json data g) (hstate : db'.state = db.state)
    (hpc : db'.pc = db.pc) : db'.Good json data g := by
  cases h with
  | failed hf hidle =>
      exact .failed (by rw [hstate]; exact hf) (by rw [hpc]; exact hidle)
  | settled hnot h =>
      refine .settled ?_ (by rw [hstate]; exact h)
      rw [hpc]
      exact hnot
  | flushing hflush h =>
      exact .flushing (by rw [hpc]; exact hflush) (by rw [hstate]; exact h)

theorem flush (db : Db) (h : Settled json data db.state g) (who : Caller) :
    (db.flush who).Good json data g := by
  refine .settled (fun who' cut job => ?_) h
  unfold Db.flush
  split
  · exact who.next_ne_flush who' cut job
  · nofun

theorem opened {o : Opening} (h : o.Good json data g) (wal : Machine) :
    (o.open_ wal).Good json data g := by
  have hsettled := h.settled wal
  unfold Opening.open_ at hsettled ⊢
  cases hlast : o.last with
  | none =>
      rw [hlast] at hsettled
      exact .settled (fun _ _ _ => nofun) hsettled
  | some last =>
      rw [hlast] at hsettled
      exact flush _ hsettled _

theorem write (h : db.Good json data g) {batch : WriteBatch}
    {result : Except WalError Nat}
    (hs : db.write cfg batch result log = some (log', db')) :
    ((∃ e, result = .error e) ∧ db'.Good json data (g.refused batch))
      ∨ (∃ lsn, result = .ok lsn) ∧ db'.Good json data
        (g.written batch (db.state.prepare batch).record) := by
  obtain ⟨hpc, hfailed, -, hcases⟩ := Db.write_cases hs
  have hsettled := h.of_idle hpc hfailed
  rcases hcases with ⟨e, he, -, rfl⟩ | ⟨lsn, wal, hlsn, -, hdb⟩
  · refine .inl ⟨⟨e, he⟩,
      .settled (fun who cut job => ?_) (hsettled.refused batch)⟩
    show db.pc ≠ _
    rw [hpc]
    nofun
  · refine .inr ⟨⟨lsn, hlsn⟩, ?_⟩
    have hwritten := hsettled.written batch
    rcases hdb with rfl | rfl
    · refine .settled (fun who cut job => ?_) hwritten
      show db.pc ≠ _
      rw [hpc]
      nofun
    · exact flush { db with
        wal, state := db.state.commit (db.state.prepare batch) } hwritten _

/-- The cut has returned. -/
theorem startFlush (db : Db) (h : Settled json data db.state g)
    {who : Caller} {cut : Nat} (hs : db.startFlush who cut = some db') :
    db'.Good json data g ∨ db'.Good json data { g with defined := [] } := by
  obtain ⟨index, pc, ⟨hstart, job, rfl, hflushing⟩ | ⟨hstart, -, hsettled⟩⟩ :=
    h.startFlush who cut
  · rw [hstart] at hs
    cases hs
    exact .inl (.flushing rfl hflushing)
  · rw [hstart] at hs
    cases hs
    exact .inr (.settled (fun _ _ _ => nofun) hsettled)

/-- A step of the log keeps what is good of the state. Where a cut returns
the flush of the store begins, by `startFlush`; where a removal returns the
database is at the next call; all others leave the state alone. -/
theorem walStep (h : db.Good json data g) {a : Wal.Action}
    (hs : db.WalStep cfg log a log' db') :
    ∃ g', g.Alike g' ∧ db'.Good json data g' := by
  cases hs with
  | goOn _ _ _ _ =>
      cases h with
      | failed hf hpc => exact ⟨g, .refl g, .failed hf hpc⟩
      | settled hpc h => exact ⟨g, .refl g, .settled hpc h⟩
      | flushing hpc h => exact ⟨g, .refl g, .flushing hpc h⟩
  | @cut who closed _ wal _ hpc _ hstart =>
      cases h with
      | failed _ hidle =>
          rw [hidle] at hpc
          cases hpc
      | settled _ h =>
          rcases startFlush { db with wal } h hstart with hg | hg
          · exact ⟨_, .refl g, hg⟩
          · exact ⟨{ g with defined := [] }, ⟨rfl, rfl⟩, hg⟩
      | flushing hf _ =>
          rw [hf] at hpc
          cases hpc
  | removed hpc _ =>
      cases h with
      | failed _ hidle =>
          rw [hidle] at hpc
          cases hpc
      | settled _ h =>
          exact ⟨g, .refl g, .settled (Caller.next_ne_flush _) h⟩
      | flushing hf _ =>
          rw [hf] at hpc
          cases hpc

theorem storeStep (hjson : json.Lawful) (h : db.Good json data g) {n : Nat}
    (hs : db.storeStep json n data = some (data', db')) :
    ∃ g', g.Alike g' ∧ db'.Good json data' g' := by
  have hpc : ∃ who cut job, db.pc = .flush who cut job := by
    unfold Db.storeStep at hs
    split at hs
    · rename_i hpc _
      exact ⟨_, _, _, hpc⟩
    · cases hs
  obtain ⟨who, cut, job, hpc⟩ := hpc
  cases h with
  | failed _ hidle =>
      rw [hidle] at hpc
      cases hpc
  | settled hnot _ => exact absurd hpc (hnot who cut job)
  | flushing hf h =>
      rw [hf] at hpc
      cases hpc
      rcases h.step hjson hf hs with ⟨job', rfl, h'⟩ | ⟨store, number, rfl, h'⟩
      · exact ⟨g, .refl g, .flushing rfl h'⟩
      · exact ⟨{ g with
          files := g.files ++ [(number, job.segment)], defined := [] },
          ⟨rfl, rfl⟩, .settled (fun _ _ _ => nofun) h'⟩

end Db.Good

-- ================================================================= the runs

/-- The phases a run goes through, with what is known in them. -/
inductive System.Good (json : Json) (s : System) : Prop
  | down (hphase : s.phase = .down)
  | opening {o : Opening} {stage : Wal.Opening} {g : Ledger}
      (hphase : s.phase = .opening o stage) (h : o.Good json s.data g)
  | running {db : Db} {g : Ledger} (hphase : s.phase = .running db)
      (h : db.Good json s.data g)
  | closing {wal : Machine} (hphase : s.phase = .closing wal)

namespace System.Good

variable {s s' : System} {e : Event}

theorem at_opening (h : s.Good json) {o : Opening} {stage : Wal.Opening}
    (hphase : s.phase = .opening o stage) : ∃ g, o.Good json s.data g := by
  cases h with
  | opening hp h =>
      rw [hp] at hphase
      cases hphase
      exact ⟨_, h⟩
  | down hp => rw [hp] at hphase; cases hphase
  | running hp _ => rw [hp] at hphase; cases hphase
  | closing hp => rw [hp] at hphase; cases hphase

theorem at_running (h : s.Good json) (hphase : s.phase = .running db) :
    ∃ g, db.Good json s.data g := by
  cases h with
  | running hp h =>
      rw [hp] at hphase
      cases hphase
      exact ⟨_, h⟩
  | down hp => rw [hp] at hphase; cases hphase
  | opening hp _ => rw [hp] at hphase; cases hphase
  | closing hp => rw [hp] at hphase; cases hphase

/-- An error leaves the database settled, failed, or about to close. -/
theorem fails (db : Db) {who : Caller} (hphase : s'.phase = db.fails who)
    (h : (∃ g, Settled json s'.data db.state g) ∨ db.state.failed = true) :
    s'.Good json := by
  cases who with
  | operation =>
      rcases h with ⟨g, h⟩ | hfailed
      · exact .running hphase (.settled (fun _ _ _ => nofun) h)
      · exact .running hphase (g := {}) (.failed hfailed rfl)
  | opening last => exact .closing hphase
  | opened => exact .closing hphase

/-- One step of the system. What is good is said of a state that has not
failed; a fault in a flush makes it failed, and then nothing is claimed any
more. Where the process stops nothing is left to say it of. -/
theorem step (hjson : json.Lawful) (h : s.Good json)
    (hs : System.Step json cfg s e s') : s'.Good json := by
  cases hs with
  | @openWith max reads hphase =>
      rcases s.openWith_cases json max reads with heq | ⟨o, stage, heq, g, hg⟩
      · rw [heq]
        exact h
      · rw [heq]
        exact .opening rfl hg
  | setLen hphase =>
      obtain ⟨g, hg⟩ := h.at_opening hphase
      exact .opening rfl hg
  | syncAll hphase =>
      obtain ⟨g, hg⟩ := h.at_opening hphase
      exact .opening rfl hg
  | create hphase _ =>
      obtain ⟨g, hg⟩ := h.at_opening hphase
      exact .opening rfl hg
  | @syncDir o id file hphase =>
      obtain ⟨g, hg⟩ := h.at_opening hphase
      exact .running rfl (Db.Good.opened hg _)
  | write hphase hwrite =>
      obtain ⟨g, hg⟩ := h.at_running hphase
      rcases hg.write hwrite with ⟨-, hg'⟩ | ⟨-, hg'⟩
      · exact .running rfl hg'
      · exact .running rfl hg'
  | flush hphase hpc hfailed =>
      obtain ⟨g, hg⟩ := h.at_running hphase
      exact .running rfl (Db.Good.flush _ (hg.of_idle hpc hfailed) _)
  | wal hphase hwal =>
      obtain ⟨g, hg⟩ := h.at_running hphase
      obtain ⟨g', -, hg'⟩ := hg.walStep hwal
      exact .running rfl hg'
  | store hphase hstore =>
      obtain ⟨g, hg⟩ := h.at_running hphase
      obtain ⟨g', -, hg'⟩ := hg.storeStep hjson hstore
      exact .running rfl hg'
  | openFault hphase => exact .down rfl
  | @flushFault db who cut job hphase hpc =>
      exact fails { db with state := { db.state with failed := true } } rfl
        (.inr rfl)
  | @removeFault db who through hphase hpc =>
      obtain ⟨g, hg⟩ := h.at_running hphase
      refine fails db rfl ?_
      cases hg with
      | failed hf _ => exact .inr hf
      | settled _ h => exact .inl ⟨g, h⟩
      | flushing hf _ =>
          rw [hf] at hpc
          cases hpc
  | drop hphase hpc => exact .closing rfl
  | drain hphase ha hstep => exact .closing rfl
  | closed hphase hstep => exact .down rfl
  | crash hremoved hlog => exact .down rfl

end System.Good

/-- Every run of a process, on any directories, is in order throughout. -/
theorem System.good (hjson : json.Lawful) {start s : System}
    {events : List Event} (hdown : start.phase = .down)
    (hrun : Run (System.step json cfg) start events s) : s.Good json :=
  hrun.invariant (P := fun _ s => s.Good json) (.down hdown)
    fun _ h hs => h.step hjson (.of_step hs)

end Tsdb
