/-
Opening directories that nobody has open.

Whatever the last process has left, `open_with` reads the segments, replays
the log on top of them, and has the writes that stand (`Rests.openWith`);
its log then runs behind the files it has replayed (`Telling.opened`). A
process that stops on the way leaves them as they were (`Telling.rests`).

# Reading

`Rests` has what is needed for both halves. The segments are valid, so the
store opens (`SegmentStore.open_restored`). The log is at rest, so the
replay finds its records, cut or not; behind the segments they are inert
ones and those of writes (`Kept`), so replaying them makes the writes
(`Kept.replays`). The view then is that of all writes that stand.

# The stages of `Wal::open`

Behind the reading the database is complete in memory, and the stages of
`Wal::open` change the log directory alone. `Telling` is what is told
between two stages: the database in hand and the directories agree, and
the log is at the stage (`Opening.Holds` of `Tsdb.Wal.AtRest`), from which
it may be picked up by another process as well as continued.

# Two ways to end

If there were no files to replay, the database is open and its log empty:
the writes are all in the segments, or there are none that show
(`Kept.nothing`). Otherwise a flush and the removal of the replayed files
come next, under the caller `opening`; until it is over the log is that of
other processes, with their ids (`Chapter.Owned`).
-/
import Tsdb.Db.Durable

namespace Tsdb

open Lib (HashMap)
open Wal (Disk Journal Log Machine WalRecord)

variable {json : Json} {t : Tale} {data : DataDir} {disk : Disk}

/-- The segment a stage of `Wal::open` is about to create, or has created. -/
def Wal.Opening.id : Wal.Opening → Nat
  | .setLen _ _ next => next
  | .syncAll _ next => next
  | .create next => next
  | .syncDir id _ => id

/-- What is told of an opening: what it has in hand is what the directories
have. -/
structure Telling (json : Json) (t : Tale) (data : DataDir) (disk : Disk)
    (o : Opening) (stage : Wal.Opening) (g : Ledger)
    (lnames : List LabelSet) (done rest : List WriteBatch) (n : Nat)
    (recs : List WalRecord) : Prop where
  mine : t.mine = []
  safe : t.safe = t.past.length
  good : o.Good json data g
  holds : stage.Holds disk recs
  writes : t.writes = done ++ rest
  base : g.base.Like t.orderly (.writeAll {} done)
  names : g.names = (g.base.writeAll rest).sets
  view : g.view = g.base.writeAll rest
  kept : ∃ defined, Kept lnames g.base rest defined n recs
  id : stage.id = Wal.nextId o.last
  nothing : o.last = none → recs = []

/-- A log without records has no writes that show. -/
theorem Kept.nothing {lnames : List LabelSet} {base : View}
    {writes : List WriteBatch} {defined : List LabelSet} {n : Nat}
    (h : Kept lnames base writes defined n []) :
    base.writeAll writes = base := by
  have hlogs := h.logs
  rw [List.drop_nil] at hlogs
  clear h
  generalize hnil : ([] : List WalRecord) = recs at hlogs
  induction hlogs with
  | nil => rfl
  | write => exact absurd hnil (by simp)
  | @skip defined writes recs batch _ hnone ih =>
      rw [View.writeAll_concat, ih hnil, View.write, hnone]
      rfl

-- ================================================================== opening

/-- The directories open. The segments are valid, so the store does; the log
is at rest, so its replay goes through, and by what stands of the writes it
rebuilds the view of the first `n` of them. -/
theorem Rests.openWith {s : System} (h : Rests json t s.data s.log)
    {max : Nat} (hmax : max ≠ 0) (reads : Nat → Nat → Nat) :
    ∃ o stage g lnames done rest n recs,
      s.openWith json max reads = { s with phase := .opening o stage }
        ∧ Telling json { t with whole := true } s.data s.log o stage g lnames
          done rest n recs := by
  obtain ⟨hmine, hsafe, recs, n, hrest, files, lnames, done, rest, hwrites,
    hstored⟩ := h
  have hnil : ∀ ls, ({} : View).hist ls = [] := fun _ => rfl
  obtain ⟨store, latest, hopen, hloaded, hstore⟩ :=
    SegmentStore.open_ok hstored.held hstored.valid hnil Index.Names.new
  have hfresh : Index.new.Fresh := fun id =>
    Index.Names.new.state_fresh (List.getElem?_nil)
  have hshows := hloaded.restored (Index.Names.new.fresh_encodeAll hfresh _)
  obtain ⟨defined, hkept⟩ := hstored.kept
  obtain ⟨R, replay, happly, hreplayed, hlogged, hcounted⟩ :=
    hkept.replays hshows.shows hshows.fresh hshows.counted.symm
  obtain ⟨report, dir, hreplay, hlast, hholds⟩ :=
    hrest.replayed Replay.sink reads ⟨_, 0⟩
  rw [happly] at hreplay
  have hpre : (View.loadAll {} (files.map Prod.snd)).sets
      <+: ((View.loadAll {} (files.map Prod.snd)).writeAll rest).sets := by
    rw [View.sets_writeAll]
    exact prefix_touchAll _ _
  refine ⟨⟨store, replay, max, report.lastSegment⟩, .next report,
    ⟨_, files, _, []⟩, lnames, done, rest, n, recs, ?_, hmine, hsafe,
    ⟨⟨hreplayed, hlogged, hcounted⟩, hstored.held, hstored.valid,
      hstore.mono hpre hreplayed.named.nodup, rfl⟩, hholds, hwrites,
    hstored.base, rfl, rfl, ⟨defined, hkept⟩, ?_, ?_⟩
  · unfold System.openWith
    rw [if_neg hmax]
    simp only [hopen, hreplay]
  · unfold Wal.Opening.next
    cases report.truncated <;> rfl
  · intro hnone
    exact hrest.nothing (hlast.symm.trans hnone)

namespace Telling

variable {o : Opening} {stage : Wal.Opening} {g : Ledger}
  {lnames : List LabelSet} {done rest : List WriteBatch} {n : Nat}
  {recs : List WalRecord}

/-- The next stage. -/
theorem goOn (h : Telling json t data disk o stage g lnames done rest n recs)
    {disk' : Disk} {stage' : Wal.Opening} (hholds : stage'.Holds disk' recs)
    (hid : stage'.id = stage.id) :
    Telling json t data disk' o stage' g lnames done rest n recs :=
  { h with holds := hholds, id := hid.trans h.id }

/-- A process that stops here leaves the directories as they were. -/
theorem rests (h : Telling json t data disk o stage g lnames done rest n recs) :
    Rests json t data disk :=
  ⟨h.mine, h.safe, recs, n, h.holds.atRest, g.files, lnames, done, rest,
    h.writes, h.good.held, h.good.valid, h.base, h.kept⟩

/-- What is in hand is what stands. -/
private theorem like
    (h : Telling json t data disk o stage g lnames done rest n recs) :
    (⟨g.names, g.view.hist⟩ : View).Like t.orderly (.writeAll {} t.writes) := by
  have hall := h.base.writeAll rest
  rw [h.names, h.view, h.writes, View.writeAll_append]
  exact ⟨hall.hist, hall.sets⟩

/-- If the log has added nothing, the segments have it. -/
private theorem settled
    (h : Telling json t data disk o stage g lnames done rest n recs)
    (hsame : g.view.hist = g.base.hist) :
    g.base.Like t.orderly (.writeAll {} t.writes) := by
  have hlike := h.like.hist
  rw [h.writes] at hlike ⊢
  exact h.base.settle (hlike.symm.trans hsame)

/-- The database is open, or has its recovery before it. Without a file of
the log there is nothing to recover. With one, what the replay has put into
the buffer decides: there is something to be flushed, or the files are
removed at once. -/
theorem opened {id file : Nat}
    (h : Telling json t data disk o (.syncDir id file) g lnames done rest n
      recs) :
    ∃ c, Chapter.Tells json t data disk.syncDir (o.open_ (.start id file))
      c := by
  obtain ⟨old, hjournal, hrecs⟩ := h.holds.syncDir
  obtain ⟨defined, hkept⟩ := h.kept
  have hgood := Db.Good.opened h.good (.start id file)
  have hnoted := Noted.start h.mine h.safe id
  have hcalls : ∀ (state : DbState) (pc : Pc),
      ({ state, wal := .start id file, pc } : Db).Calls := by
    intro state pc
    refine ⟨fun _ hc => ?_, fun _ _ hbusy => absurd rfl hbusy,
      fun _ _ _ _ hb => ?_, fun _ _ _ _ _ _ hr => ?_⟩
    · cases hc
    · cases hb
    · cases hr
  have hid : id = Wal.nextId o.last := h.id
  unfold Opening.open_ at hgood ⊢
  cases hlast : o.last with
  | none =>
      have hnone := h.nothing hlast
      rw [hlast] at hgood
      rw [hnone] at hkept hrecs
      have hsame : g.view.hist = g.base.hist := by
        rw [h.view, hkept.nothing]
      refine ⟨⟨old, [], { first := id }, [], [], g, g.names, [], t.writes, [],
        0⟩, hjournal, hnoted, hgood, rfl, (List.append_nil _).symm, h.like,
        h.settled hsame, ?_, Nat.zero_le _, hcalls _ _, trivial,
        .own rfl rfl h.good.undefined.symm fun _ => ?_⟩
      · show Kept _ _ [] [] 0 (Log.recs { first := id } old disk.syncDir)
        rw [hrecs]
        exact .empty h.good.replay.shows.named.nodup _
      · show Contained _ g.defined (Log.recs { first := id } old disk.syncDir)
        rw [hrecs, h.good.undefined]
        exact .nil _
  | some last =>
      rw [hlast] at hgood hid
      have hfirst : id = last + 1 := hid
      unfold Db.flush at hgood ⊢
      simp only at hgood ⊢
      split at hgood
      · -- the log has added nothing to the segments, and goes
        rename_i hzero
        rw [if_pos hzero]
        have hsame : g.view.hist = g.base.hist :=
          h.good.replay.shows.hist_of_inMemory
            (h.good.replay.counted.symm.trans hzero)
        refine ⟨⟨old, [], { first := id }, [], [], g, lnames, [], t.writes, [],
          recs.length⟩, hjournal, hnoted, hgood, rfl,
          (List.append_nil _).symm, h.like, h.settled hsame, ?_, ?_,
          hcalls _ _, ⟨⟨?_, ?_, ?_⟩, rfl, ?_, h.good.undefined⟩,
          .replayed (.inr rfl) rfl hfirst⟩
        · show Kept _ _ [] [] _ (Log.recs { first := id } old disk.syncDir)
          rw [hrecs]
          refine hkept.settle ?_
          rw [← h.view]
          exact hsame.symm
        · show recs.length + 0
            ≤ (Log.recs { first := id } old disk.syncDir).length
          rw [hrecs]
          exact Nat.le_refl _
        · exact List.prefix_nil.mp (Log.through_accepted { first := id } last)
        · show last < id
          omega
        · show id ≤ last + 1
          omega
        · show recs.length
            = (Log.recs { first := id } old disk.syncDir).length
          rw [hrecs]
      · rename_i hsome
        rw [if_neg hsome]
        refine ⟨⟨old, [], { first := id }, [], [], g, lnames, defined, done,
          rest, n⟩, hjournal, hnoted, hgood, rfl, h.writes, h.like, h.base, ?_,
          ?_, hcalls _ _,
          fun hserial => absurd hserial (by simp [Machine.start]),
          .replayed (.inl rfl) rfl hfirst⟩
        · show Kept _ _ _ _ _ (Log.recs { first := id } old disk.syncDir)
          rw [hrecs]
          exact hkept
        · show n + 0 ≤ (Log.recs { first := id } old disk.syncDir).length
          rw [hrecs]
          exact hkept.le

end Telling

end Tsdb
