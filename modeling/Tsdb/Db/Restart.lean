/-
What a restart finds.

Directories that nobody has open can be opened, whatever happened to the
process that had them: no step of `open_with` fails unless the files make
an error, and it has a way to return from wherever it is (`System.Opens`).
The database then answers what a database in memory answers after the
writes that stand (`crash_recovery`): a crash leaves the first of them, a
drop all.

# The answers

`System.tells` has the view of a database that is between two operations:
it is that of the writes that stand, in the same order of label sets if
none was refused. An answer is a matter of the view
(`DbState.query_ok`), and so is that of the database in memory after the
same writes (`query_in_memory`), so the two are equal (`query`). If a
write was refused, labels of it may show without samples and in other
places; what is left is that each label set has exactly the samples that
were accepted for it (`samples`).

# Opening again

`System.Opens` is the way back from directories nobody has open, and
`System.Recovers` adds which writes the database then has. Both follow
from what is told of any run: the reading succeeds (`Rests.openWith`),
each stage has a next one, and the recovery is an operation that returns
(`System.returns`), without a write, so that nothing else is told
afterwards.

# A checkpoint

Behind the cut of a flush nothing is open any more: every write is safe
(`checkpoint`). Safe writes stay, through crashes and errors alike, and
only an accepted write adds one (`safe_next`, `writes_next`). So from a
checkpoint on, until the next write is accepted, no crash and no error
takes anything, or gives anything twice (`checkpoint_exactly_once`); a
write that is refused does not count.
-/
import Tsdb.Db.Progress
import Tsdb.Db.Session

namespace Tsdb

open Lib (exec extend)
open Wal (WalConfig)

variable {json : Json} {cfg : WalConfig} {t : Tale} {s s' : System}
  {events : List Event} {e : Event} {matchers : List Matcher}
  {range : TimeRange}

-- ================================================================ the tale

namespace Tale

/-- Only an accepted write is one more. -/
theorem writes_next (he : ∀ batch lsn, e ≠ .write batch (.ok lsn)) :
    (t.next e).writes = t.writes := by
  cases e with
  | wal a =>
      cases a with
      | closeReturn => exact t.writes_closed
      | _ => rfl
  | write batch result =>
      cases result with
      | ok lsn => exact absurd rfl (he batch lsn)
      | error err => rfl
  | _ => rfl

/-- What goes on is no write. -/
theorem next_goesOn (he : e.goesOn = true) :
    (t.next e).writes = t.writes ∧ (t.next e).orderly = t.orderly := by
  refine ⟨writes_next ?_, ?_⟩
  · rintro batch lsn rfl
    cases he
  · cases e with
    | wal a => cases a <;> rfl
    | write => cases he
    | _ => rfl

theorem writes_goesOn {es : List Event} (hes : ∀ e ∈ es, e.goesOn = true) :
    (es.foldl Tale.next t).writes = t.writes := by
  induction es generalizing t with
  | nil => rfl
  | cons e es ih =>
      obtain ⟨he, hes⟩ := List.forall_mem_cons.mp hes
      exact (ih hes).trans (t.next_goesOn he).1

/-- Where every write is safe, all of them stay so. -/
theorem safe_next (hsafe : t.safe = t.writes.length)
    (he : ∀ batch lsn, e ≠ .write batch (.ok lsn)) :
    (t.next e).safe = (t.next e).writes.length := by
  rw [writes_next he]
  cases e with
  | wal a =>
      cases a with
      | waitReturn lsn =>
          show max t.safe (t.upTo lsn) = t.writes.length
          rw [hsafe]
          exact Nat.max_eq_left (t.upTo_le lsn)
      | cutReturn => rfl
      | closeReturn => rfl
      | _ => exact hsafe
  | write batch result =>
      cases result with
      | ok lsn => exact absurd rfl (he batch lsn)
      | error err => exact hsafe
  | _ => exact hsafe

/-- A write is safe once a wait for its LSN, or for a later one, has
returned. -/
theorem safe_waited {front back : List (WriteBatch × Nat)}
    {write : WriteBatch × Nat} (hmine : t.mine = front ++ write :: back)
    {lsn : Nat} (hlsn : write.2 ≤ lsn) :
    t.past.length + front.length < (t.next (.wal (.waitReturn lsn))).safe := by
  have hkept : ∀ back, ((front ++ write :: back).rdropWhile fun write =>
      decide (lsn < write.2)) = front ++ write
        :: back.rdropWhile fun write => decide (lsn < write.2) := by
    intro back
    induction back using List.reverseRecOn with
    | nil => exact List.rdropWhile_concat_neg _ _ _ (by simpa using hlsn)
    | append_singleton back last ih =>
        rw [← List.cons_append, ← List.append_assoc]
        by_cases hlast : lsn < last.2
        · rw [List.rdropWhile_concat_pos _ _ _ (by simpa using hlast), ih,
            List.rdropWhile_concat_pos _ _ _ (by simpa using hlast)]
        · rw [List.rdropWhile_concat_neg _ _ _ (by simpa using hlast),
            List.rdropWhile_concat_neg _ _ _ (by simpa using hlast),
            List.append_assoc, List.cons_append]
  show _ < max t.safe (t.upTo lsn)
  unfold Tale.upTo
  rw [hmine, hkept, List.length_append, List.length_cons]
  omega

/-- If no write has been refused, none has. -/
theorem Of.orderly (h : Tale.Of events t)
    (hok : ∀ batch err, .write batch (.error err) ∉ events) :
    t.orderly = true := by
  induction h with
  | start => rfl
  | @next events t e h _ ih =>
      have hsame := ih fun batch err hin =>
        hok batch err (List.mem_append_left _ hin)
      have hlast : ∀ batch err, e ≠ .write batch (.error err) := by
        rintro batch err rfl
        exact hok batch err (List.mem_append_right _ List.mem_cons_self)
      cases e with
      | write batch result =>
          cases result with
          | ok lsn => exact hsame
          | error err => exact absurd rfl (hlast batch err)
      | wal a => cases a <;> exact hsame
      | _ => exact hsame
  | crash h _ _ ih =>
      exact ih fun batch err hin => hok batch err (List.mem_append_left _ hin)

end Tale

-- ============================================================= the answers

/-- The samples of an answer for a label set. -/
def samplesFor (results : List SeriesResult) (ls : LabelSet) : List Sample :=
  (results.filter (·.labels = ls)).flatMap SeriesResult.samples

/-- An answer about everything has the history of each label set, once. -/
theorem View.samplesFor_query {v : View} (hnd : v.sets.Nodup)
    (hother : ∀ ls, ls ∉ v.sets → v.hist ls = []) (range : TimeRange)
    (ls : LabelSet) :
    samplesFor (v.query [] range) ls
      = (v.hist ls).filter (·.inTimerange range) := by
  have hone : v.sets.filter (fun l => decide (l = ls))
      = if ls ∈ v.sets then [ls] else [] := by
    rw [List.filter_eq ls]
    split
    · rename_i hin
      rw [List.count_eq_one_of_mem hnd hin]
      rfl
    · rename_i hout
      rw [List.count_eq_zero_of_not_mem hout]
      rfl
  unfold samplesFor View.query
  rw [List.filter_map]
  show List.flatMap SeriesResult.samples (List.map _
    ((v.sets.filter fun _ => true).filter fun l => decide (l = ls))) = _
  rw [List.filter_true, hone]
  split
  · exact List.append_nil _
  · rename_i hout
    rw [hother ls hout]
    rfl

/-- What a settled database answers. -/
theorem Settled.query {data : DataDir} {state : DbState} {g : Ledger}
    (h : Settled json data state g) (hfailed : state.failed = false)
    (hresolve : matchers = [] ∨ ∀ ls ∈ g.names, ls.Canonical)
    (hrange : range.start ≤ range.end_) :
    state.query json data matchers range
      = .ok (View.query ⟨g.names, g.view.hist⟩ matchers range) := by
  obtain ⟨store, hsome, hstore⟩ := h.store
  refine DbState.query_found h.memory.shows h.held h.valid hstore hsome
    hfailed ?_ hrange
  rcases hresolve with rfl | hcanon
  · show state.index.allIds = idsWhere g.names fun _ => true
    rw [h.memory.shows.named.all, idsWhere_eq_range]
  · exact (h.memory.shows.named.reps hcanon).resolve matchers

namespace System.Tells

/-- A database between two operations shows the writes that stand. -/
private theorem ready (h : s.Tells json t) (hready : s.Ready) :
    ∃ db g, s.phase = .running db ∧ db.pc = .idle
      ∧ db.state.failed = false ∧ Settled json s.data db.state g
      ∧ (⟨g.names, g.view.hist⟩ : View).Like t.orderly
        (.writeAll {} t.writes) := by
  obtain ⟨db, hphase, hpc, hfailed⟩ := hready
  obtain ⟨c, hc⟩ := h.works hphase hfailed
  exact ⟨db, c.ledger, hphase, hpc, hfailed, hc.good.of_idle hpc hfailed,
    hc.view⟩

/-- If no write has been refused, it answers what the database in memory
answers. -/
theorem query (h : s.Tells json t) (horder : t.orderly = true)
    (hready : s.Ready) (matchers : List Matcher)
    (hrange : range.start ≤ range.end_) :
    s.query json matchers range
      = some ((DbState.inMemory t.writes).query json ∅ matchers range) := by
  obtain ⟨db, g, hphase, hpc, hfailed, hsettled, hlike⟩ := h.ready hready
  have hview : (⟨g.names, g.view.hist⟩ : View) = .writeAll {} t.writes := by
    have hsets : g.names = (View.writeAll {} t.writes).sets := hlike.sets horder
    have hhist : g.view.hist = (View.writeAll {} t.writes).hist := hlike.hist
    rw [hsets, hhist]
  have hcanon : ∀ ls ∈ g.names, ls.Canonical := by
    rw [show g.names = _ from hlike.sets horder]
    exact View.canonical_writeAll t.writes
  unfold System.query
  rw [hphase]
  simp only [if_pos hpc]
  rw [hsettled.query hfailed (.inr hcanon) hrange, hview,
    DbState.query_in_memory json ∅ _ matchers hrange]

/-- In any case it has of each label set what was accepted. -/
theorem samples (h : s.Tells json t) (hready : s.Ready)
    (hrange : range.start ≤ range.end_) :
    ∃ results, s.query json [] range = some (.ok results)
      ∧ ∀ ls, samplesFor results ls = (extend Sample.timestamp []
          (written t.writes ls)).filter (·.inTimerange range) := by
  obtain ⟨db, g, hphase, hpc, hfailed, hsettled, hlike⟩ := h.ready hready
  refine ⟨View.query ⟨g.names, g.view.hist⟩ [] range, ?_, fun ls => ?_⟩
  · unfold System.query
    rw [hphase]
    simp only [if_pos hpc]
    rw [hsettled.query hfailed (.inl rfl) hrange]
  · have hhist : g.view.hist ls
        = extend Sample.timestamp [] (written t.writes ls) := by
      rw [show g.view.hist = _ from hlike.hist, View.hist_writeAll]
    rw [View.samplesFor_query (v := ⟨g.names, g.view.hist⟩)
      hsettled.memory.shows.named.nodup
      (fun ls hls => (hsettled.memory.shows.other ls hls).2) range ls]
    show (g.view.hist ls).filter _ = _
    rw [hhist]

end System.Tells

-- ============================================================ opening again

/-- The directories can be opened: from wherever the opening is, it has a
way to return. -/
def System.Opens (json : Json) (cfg : WalConfig) (s : System) : Prop :=
  ∀ (max : Nat) (reads : Nat → Nat → Nat) (es : List Event) (s' : System),
    max ≠ 0 → (∀ e ∈ es, e.goesOn = true) →
    exec (System.step json cfg) (.openWith max reads :: es) s = some s' →
    ∃ es' s₂, (∀ e ∈ es', e.goesOn = true)
      ∧ exec (System.step json cfg) es' s' = some s₂ ∧ s₂.Ready

/-- So somebody who opens them gets an open database. -/
theorem System.Opens.reopen (h : s.Opens json cfg) (hphase : s.phase = .down)
    {max : Nat} (hmax : max ≠ 0) (reads : Nat → Nat → Nat) :
    ∃ es s', (∀ e ∈ es, e.goesOn = true)
      ∧ exec (System.step json cfg) (.openWith max reads :: es) s = some s'
      ∧ s'.Ready := by
  have hread : exec (System.step json cfg) [.openWith max reads] s
      = some (s.openWith json max reads) := by
    simp only [exec, System.step, hphase, Option.bind_some]
  obtain ⟨es, s', hes, hreturns, hready⟩ :=
    h max reads [] _ hmax (by simp) hread
  exact ⟨es, s', hes, Lib.exec_append hread hreturns, hready⟩

/-- They can be opened, and then have these writes, and no others. -/
structure System.Recovers (json : Json) (cfg : WalConfig)
    (writes : List WriteBatch) (s : System) : Prop where
  opens : s.Opens json cfg
  answers : ∀ (max : Nat) (reads : Nat → Nat → Nat) (es : List Event)
    (s' : System), (∀ e ∈ es, e.goesOn = true) →
    exec (System.step json cfg) (.openWith max reads :: es) s = some s' →
    s'.Ready → ∀ (matchers : List Matcher) (range : TimeRange),
      range.start ≤ range.end_ → s'.query json matchers range
        = some ((DbState.inMemory writes).query json ∅ matchers range)

namespace System.Tells

/-- A run that only goes on tells of the same writes. -/
private theorem goesOn (hjson : json.Lawful) (h : s.Tells json t)
    {es : List Event} (hes : ∀ e ∈ es, e.goesOn = true)
    (hrun : exec (System.step json cfg) es s = some s') :
    ∃ t', s'.Tells json t' ∧ t'.writes = t.writes ∧ t'.orderly = t.orderly := by
  induction es generalizing s t with
  | nil =>
      cases hrun
      exact ⟨t, h, rfl, rfl⟩
  | cons e es ih =>
      obtain ⟨he, hes⟩ := List.forall_mem_cons.mp hes
      obtain ⟨s₁, hs, hrest⟩ := Option.bind_eq_some_iff.mp hrun
      have hno : ∀ removed, e ≠ .crash removed := by
        rintro removed rfl
        cases he
      obtain ⟨hwrites, horder⟩ := t.next_goesOn he
      obtain ⟨t', h', hwrites', horder'⟩ := ih (h.step hjson hno hs) hes hrest
      exact ⟨t', h', hwrites'.trans hwrites, horder'.trans horder⟩

private theorem able_goesOn (hjson : json.Lawful) (h : s.Tells json t)
    (hable : s.Able) (halive : s.phase.alive = true) {es : List Event}
    (hes : ∀ e ∈ es, e.goesOn = true)
    (hrun : exec (System.step json cfg) es s = some s') :
    s'.Able ∧ s'.phase.alive = true := by
  induction es generalizing s t with
  | nil =>
      cases hrun
      exact ⟨hable, halive⟩
  | cons e es ih =>
      obtain ⟨he, hes⟩ := List.forall_mem_cons.mp hes
      obtain ⟨s₁, hs, hrest⟩ := Option.bind_eq_some_iff.mp hrun
      have hno : ∀ removed, e ≠ .crash removed := by
        rintro removed rfl
        cases he
      exact ih (h.step hjson hno hs) (hable.step h hs)
        (System.alive_step he halive hs) hes hrest

/-- Directories nobody has open can be opened. -/
theorem opens (hjson : json.Lawful) (htotal : json.Total)
    (h : s.Tells json t) (hphase : s.phase = .down) : s.Opens json cfg := by
  intro max reads es s' hmax hes hrun
  obtain ⟨s₁, hs, hrest⟩ := Option.bind_eq_some_iff.mp hrun
  have hstep : s₁ = s.openWith json max reads := by
    simp only [System.step, hphase, Option.some.injEq] at hs
    exact hs.symm
  have halive : s₁.phase.alive = true := by
    obtain ⟨o, stage, _, _, _, _, _, _, hopen, -⟩ :=
      (h.rests hphase).openWith hmax reads
    rw [hstep, hopen]
    rfl
  have h₁ := h.step hjson (by simp) hs
  have hable : s.Able := by
    intro db hrunning
    rw [hphase] at hrunning
    cases hrunning
  obtain ⟨hable', halive'⟩ :=
    able_goesOn hjson h₁ (hable.step h hs) halive hes hrest
  obtain ⟨t', h', -, -⟩ := h₁.goesOn hjson hes hrest
  exact h'.returns hjson htotal hable' halive'

/-- And have the writes that stand. -/
theorem recovers (hjson : json.Lawful) (htotal : json.Total)
    (h : s.Tells json t) (horder : t.orderly = true)
    (hphase : s.phase = .down) : s.Recovers json cfg t.writes := by
  refine ⟨h.opens hjson htotal hphase, ?_⟩
  intro max reads es s' hes hrun hready matchers range hrange
  obtain ⟨s₁, hs, hrest⟩ := Option.bind_eq_some_iff.mp hrun
  obtain ⟨t', h', hwrites, horder'⟩ :=
    (h.step hjson (by simp) hs).goesOn hjson hes hrest
  rw [h'.query (horder'.trans horder) hready matchers hrange, hwrites]
  rfl

end System.Tells

/-- Whatever has happened, directories that nobody has open can be opened. -/
theorem System.opens_down (hjson : json.Lawful) (htotal : json.Total)
    (hrun : exec (System.step json cfg) events {} = some s)
    (hphase : s.phase = .down) : s.Opens json cfg := by
  obtain ⟨t, -, h⟩ := System.tells hjson hrun
  exact h.opens hjson htotal hphase

/-- Whatever has happened, crashes and restarts included, the process may
crash, and the directories then open with the first of the writes that
stood: all that were safe, for their LSN had been waited for, or a cut had
returned since, and perhaps more. Dropping the database leaves them all.

Each of the two ends is one more step of the run, so the directories it
leaves have a tale of their own, and `System.Tells.recovers` is about any
directories that do; the crash only has to say how many of the writes are
left. -/
theorem crash_recovery (hjson : json.Lawful) (htotal : json.Total)
    (hrun : exec (System.step json cfg) events {} = some s)
    (hok : ∀ batch err, .write batch (.error err) ∉ events) :
    ∃ t, Tale.Of events t
      ∧ (∀ removed s', System.step json cfg (.crash removed) s = some s' →
        ∃ k, t.safe ≤ k ∧ k ≤ t.writes.length
          ∧ s'.Recovers json cfg (t.writes.take k))
      ∧ ∀ s', System.step json cfg (.wal .closeReturn) s = some s' →
        s'.Recovers json cfg t.writes := by
  obtain ⟨t, hof, h⟩ := System.tells hjson hrun
  have horder := hof.orderly hok
  refine ⟨t, hof, fun removed s' hs => ?_, fun s' hs => ?_⟩
  · obtain ⟨k, hsafe, hk, h'⟩ := h.crash hs
    have hphase : s'.phase = .down := by
      cases System.Step.of_step hs
      rfl
    refine ⟨k, hsafe, hk, ?_⟩
    rw [← t.writes_crash k]
    exact h'.recovers hjson htotal horder hphase
  · have h' := h.step hjson (by simp) hs
    have hphase : s'.phase = .down := by
      cases System.Step.of_step hs with
      | wal hphase hwal =>
          exfalso
          cases hwal with
          | goOn hallow => cases hallow
      | drain hphase ha => cases ha
      | closed => rfl
    rw [← t.writes_closed]
    exact h'.recovers hjson htotal horder hphase

theorem System.step_crash (json : Json) (cfg : WalConfig) (s : System) :
    System.step json cfg (.crash []) s = some { s with phase := .down } := by
  simp [System.step]

/-- The process crashes at the end of the session: the first sample is in
its segment, the record of the second in its file, and that of the third is
lost with the buffer or not. -/
theorem crash_recovery_once :
    ∃ (s s' s₂ : System) (es : List Event) (k : Nat),
      exec (System.step Json.sample ⟨100, 0⟩) (openEmpty 4 ++ session) {}
        = some s
      ∧ System.step Json.sample ⟨100, 0⟩ (.crash []) s = some s'
      ∧ s'.data.keys = [.segment 0]
      ∧ s'.log.dir.map (fun f => f.bytes.length) = [70]
      ∧ 2 ≤ k ∧ k ≤ 3
      ∧ exec (System.step Json.sample ⟨100, 0⟩)
          (.openWith 4 (fun _ _ => 0) :: es) s' = some s₂
      ∧ s₂.query Json.sample [] ⟨0, 9⟩ = some ((DbState.inMemory
          ([writeAt 5, writeAt 8, writeAt 9].take k)).query Json.sample ∅ []
            ⟨0, 9⟩) := by
  obtain ⟨s, db, hrun, -, -, -, -, hsizes, -, hkeys⟩ := System.exec_session
  obtain ⟨t, hof, hcrash, -⟩ := crash_recovery Json.sample_lawful
    Json.sample_total hrun (by simp [openEmpty, session, flushCall,
      flushUpToList])
  rw [Tale.of_iff (by simp [openEmpty, session, flushCall, flushUpToList])]
    at hof
  subst hof
  have hs := System.step_crash Json.sample ⟨100, 0⟩ s
  obtain ⟨k, hsafe, hk, hrecovers⟩ := hcrash [] _ hs
  obtain ⟨es, s₂, hes, hopened, hready⟩ :=
    hrecovers.opens.reopen rfl (Nat.succ_ne_zero 3) fun _ _ => 0
  refine ⟨s, _, s₂, es, k, hrun, hs, hkeys, hsizes, ?_, hk, hopened,
    hrecovers.answers 4 _ es s₂ hes hopened hready [] ⟨0, 9⟩ (by decide)⟩
  exact Nat.le_trans (by decide) hsafe

-- ============================================================ a checkpoint

/-- Is the process behind the cut of a flush, or within `open_with`? -/
def Phase.inCheckpoint : Phase → Bool
  | .opening _ _ => true
  | .running db =>
      match db.pc with
      | .idle => false
      | .cut who => who != .operation
      | .flush _ _ _ => true
      | .remove _ _ => true
  | _ => false

namespace System.Tells

/-- In a checkpoint every write is safe: the cut has returned, and by its
chapter everything accepted lies in front of it; or the process is opening,
and has taken no write. -/
private theorem checkpoint (h : s.Tells json t)
    (hpoint : s.phase.inCheckpoint = true) :
    s.Tells json { t with safe := t.writes.length } := by
  have hmore : ∀ {db : Db} {c : Chapter}, s.phase = .running db →
      c.Tells json t s.data s.log db → c.log.pending = [] →
      s.Tells json { t with safe := t.writes.length } :=
    fun hphase hc hnone => .running hphase { hc with
      noted := hc.noted.all hnone, writes := hc.writes, view := hc.view
      stands := hc.stands
      owned := by
        cases hc.owned with
        | own hwho hnames hdefined hwhole =>
            exact .own hwho hnames hdefined hwhole
        | replayed hwho hnone hfirst => exact .replayed hwho hnone hfirst }
  cases h with
  | down hphase =>
      rw [hphase] at hpoint
      cases hpoint
  | closing hphase =>
      rw [hphase] at hpoint
      cases hpoint
  | failed hphase hrefuses =>
      rw [hphase] at hpoint
      simp [Phase.inCheckpoint, hrefuses.pc] at hpoint
  | opening hphase h =>
      have hall : t.writes.length = t.safe := by
        rw [h.safe]
        unfold Tale.writes
        rw [h.mine]
        simp
      rw [hall]
      exact .opening hphase h
  | @running db c hphase hc =>
      refine hmore hphase hc ?_
      have hstands := hc.stands
      cases hpc : db.pc with
      | idle =>
          rw [hphase] at hpoint
          simp [Phase.inCheckpoint, hpc] at hpoint
      | flush who cut job =>
          rw [hpc] at hstands
          exact hstands.1.pending_nil
      | remove who cut =>
          rw [hpc] at hstands
          exact hstands.1.pending_nil
      | cut who =>
          rw [hphase] at hpoint
          simp only [Phase.inCheckpoint, hpc, bne_iff_ne] at hpoint
          cases hc.owned with
          | own hwho =>
              rw [hpc] at hwho
              exact absurd hwho hpoint
          | replayed _ hnone => exact (List.append_eq_nil_iff.mp hnone).2

/-- Where every write is safe, only a write changes which there are. -/
private theorem stays (hjson : json.Lawful) (h : s.Tells json t)
    (hsafe : t.safe = t.writes.length) {es : List Event}
    (hnone : ∀ batch lsn, .write batch (.ok lsn) ∉ es)
    (hrun : exec (System.step json cfg) es s = some s') :
    ∃ t', s'.Tells json t' ∧ t'.writes = t.writes := by
  induction es generalizing s t with
  | nil =>
      cases hrun
      exact ⟨t, h, rfl⟩
  | cons e es ih =>
      obtain ⟨s₁, hs, hrest⟩ := Option.bind_eq_some_iff.mp hrun
      have hlater : ∀ batch lsn, .write batch (.ok lsn) ∉ es :=
        fun batch lsn hin => hnone batch lsn (List.mem_cons_of_mem _ hin)
      have hfirst : ∀ batch lsn, e ≠ .write batch (.ok lsn) := by
        rintro batch lsn rfl
        exact hnone batch lsn List.mem_cons_self
      obtain ⟨t₁, h₁, hwrites, hsafe₁⟩ : ∃ t₁, s₁.Tells json t₁
          ∧ t₁.writes = t.writes ∧ t₁.safe = t₁.writes.length := by
        by_cases hcrash : ∃ removed, e = .crash removed
        · obtain ⟨removed, rfl⟩ := hcrash
          obtain ⟨k, hk, hle, h₁⟩ := h.crash hs
          have hall : k = t.writes.length := by omega
          have hsame : (t.crash k).writes = t.writes := by
            rw [t.writes_crash, hall, List.take_length]
          exact ⟨_, h₁, hsame, hall.trans (congrArg List.length hsame.symm)⟩
        · exact ⟨_, h.step hjson (fun removed he => hcrash ⟨removed, he⟩) hs,
            Tale.writes_next hfirst, Tale.safe_next hsafe hfirst⟩
      obtain ⟨t', h', hsame⟩ := ih h₁ hsafe₁ hlater hrest
      exact ⟨t', h', hsame.trans hwrites⟩

end System.Tells

/-- From a checkpoint on, whatever becomes of it and of the processes that
come after, and until the next write is accepted, the directories open, and
an open database has of each label set exactly what was accepted. -/
theorem checkpoint_exactly_once (hjson : json.Lawful) (htotal : json.Total)
    (hrun : exec (System.step json cfg) events {} = some s)
    (hpoint : s.phase.inCheckpoint = true) {es : List Event}
    (hnone : ∀ batch lsn, .write batch (.ok lsn) ∉ es)
    (hafter : exec (System.step json cfg) es s = some s') :
    ∃ t, Tale.Of events t
      ∧ (s'.phase = .down → s'.Opens json cfg)
      ∧ (s'.Ready → ∀ range : TimeRange, range.start ≤ range.end_ →
        ∃ results, s'.query json [] range = some (.ok results)
          ∧ ∀ ls, samplesFor results ls = (extend Sample.timestamp []
              (written t.writes ls)).filter (·.inTimerange range)) := by
  obtain ⟨t, hof, h⟩ := System.tells hjson hrun
  obtain ⟨t', h', hwrites⟩ :=
    (h.checkpoint hpoint).stays hjson rfl hnone hafter
  refine ⟨t, hof, h'.opens hjson htotal, fun hready range hrange => ?_⟩
  obtain ⟨results, hquery, hsamples⟩ := h'.samples hready hrange
  refine ⟨results, hquery, fun ls => ?_⟩
  rw [hsamples ls, hwrites]
  rfl

/-- The process crashes behind the flush of the store: the sample is in its
segment, and its record in a file that was to be removed. What is opened
then crashes as well, and the next has the sample once. The first part of
the run is played, so the files at the crash can be read off it; the last
opening is that of the theorem. -/
theorem checkpoint_exactly_once_recovery :
    ∃ (s s₁ s' : System) (es : List Event) (results : List SeriesResult),
      exec (System.step Json.sample ⟨100, 0⟩) (openEmpty 4
          ++ .write (writeAt 5) (.ok 70) :: .flush :: flushUpToList) {}
        = some s
      ∧ s.data.keys = [.segment 0]
      ∧ s.log.dir.map (fun f => f.bytes.length) = [70, 0]
      ∧ exec (System.step Json.sample ⟨100, 0⟩) [.crash [],
          .openWith 4 (fun _ _ => 0), .crash []] s = some s₁
      ∧ exec (System.step Json.sample ⟨100, 0⟩)
          (.openWith 4 (fun _ _ => 0) :: es) s₁ = some s' ∧ s'.Ready
      ∧ s'.query Json.sample [] ⟨0, 9⟩ = some (.ok results)
      ∧ samplesFor results ⟨[⟨"host", "a"⟩]⟩ = [⟨5, 7⟩]
      ∧ ∀ ls, ls ≠ ⟨[⟨"host", "a"⟩]⟩ → samplesFor results ls = [] := by
  have hsees : (exec (System.play Json.sample ⟨100, 0⟩)
      (.write (writeAt 5) (.ok 70) :: .flush :: flushUpToList)
      (.opened 4)).map (fun s => s.phase.inCheckpoint
        && s.log.dir.map (fun f => f.bytes.length) == [70, 0]
        && s.data.keys == [.segment 0]) = some true := by decide +kernel
  obtain ⟨s, hplay, hseen⟩ := Option.map_eq_some_iff.mp hsees
  simp only [Bool.and_eq_true, beq_iff_eq] at hseen
  obtain ⟨⟨hpoint, hsizes⟩, hkeys⟩ := hseen
  have hrun := System.exec_opened (Nat.succ_pos 3) hplay
  -- a crash, an opening, and a crash within it
  obtain ⟨s₁, hcrashes, hdown⟩ : ∃ s₁, exec (System.step Json.sample ⟨100, 0⟩)
      [.crash [], .openWith 4 (fun _ _ => 0), .crash []] s = some s₁
        ∧ s₁.phase = .down := by
    refine ⟨{ System.openWith Json.sample 4 (fun _ _ => 0)
      { s with phase := .down } with phase := .down }, ?_, rfl⟩
    simp only [exec, System.step_crash, Option.bind_some]
    rfl
  obtain ⟨-, -, hopens, -⟩ := checkpoint_exactly_once Json.sample_lawful
    Json.sample_total hrun hpoint (by simp) hcrashes
  obtain ⟨es, s', hes, hopened, hready⟩ :=
    (hopens hdown).reopen hdown (Nat.succ_ne_zero 3) fun _ _ => 0
  have hafter := Lib.exec_append hcrashes hopened
  obtain ⟨t, hof, -, hquery⟩ := checkpoint_exactly_once Json.sample_lawful
    Json.sample_total hrun hpoint (by
      intro batch lsn hin
      rcases List.mem_append.mp hin with hin | hin
      · simp at hin
      · rcases List.mem_cons.mp hin with hin | hin
        · cases hin
        · cases hes _ hin) hafter
  rw [Tale.of_iff (by simp [openEmpty, flushUpToList])] at hof
  subst hof
  obtain ⟨results, hanswer, hsamples⟩ := hquery hready ⟨0, 9⟩ (by decide)
  refine ⟨s, s₁, s', es, results, hrun, hkeys, hsizes, hcrashes, hopened,
    hready, hanswer, ?_, fun ls hls => ?_⟩
  · rw [hsamples]
    decide +kernel
  · rw [hsamples]
    have hnone : written [writeAt 5] ls = [] := by
      simp [written, writeAt, WriteBatch.samplesOf, Ne.symm hls]
    exact congrArg (fun xs => (extend Sample.timestamp [] xs).filter
      (·.inTimerange ⟨0, 9⟩)) hnone

end Tsdb
