/-
What two directories that nobody has open stand for.

`Stored` says which writes the segments have (`done`), and which the log on
top of them (`rest`): all that opening them again will find. A crash takes
records off the end of the log, and with them the last of the writes, but
none that is safe (`Standing.torn`); the flush that has gone as far as its
rename has moved all of them to the segments (`Kept.settle`).

# Alike

The segments are compared with a view, that of the writes they have. The
histories are always equal. The order of the label sets is that of the
first writes as long as no write has been refused; a refused one leaves
its label sets in the index, in an order nobody was told, and a restart
may then list the others differently. `View.Like` has both, the second
under the flag `orderly` of the tale.

A write behind others adds to the histories of both sides alike, so
`Like` is kept by writes. If writes add nothing to any history they add no
label set either, since a set with samples in it has been listed
(`Ok.sets_writeAll`). This is used where a log has writes that the
segments have as well: they may be counted among those of the segments.

# Standing

`Standing` forgets how the writes are divided, and is what a tale is
compared with: the writes that stand are those of the segments and those
of the log, in this order. `Standing.torn` takes records off the end; with
the bound on what may be lost, which is the number of records on their
way, the writes that are left include all that are safe.
-/
import Tsdb.Db.Tale
import Tsdb.Wal.AtRest

namespace Tsdb

open Wal (Disk WalRecord)

-- ==================================================================== alike

/-- The same histories, and the same label sets in order if that can be
known. -/
structure View.Like (orderly : Bool) (v v' : View) : Prop where
  hist : v.hist = v'.hist
  sets : orderly = true → v.sets = v'.sets

namespace View

variable {orderly : Bool} {v v' : View}

theorem Like.refl (orderly : Bool) (v : View) : v.Like orderly v :=
  ⟨rfl, fun _ => rfl⟩

theorem Like.writeAll (h : v.Like orderly v') (ws : List WriteBatch) :
    (v.writeAll ws).Like orderly (v'.writeAll ws) := by
  refine ⟨funext fun ls => ?_, fun horder => ?_⟩
  · rw [hist_writeAll, hist_writeAll, h.hist]
  · rw [sets_writeAll, sets_writeAll, h.sets horder]

/-- Writes that add nothing to the histories add no label sets. -/
theorem Ok.sets_writeAll (h : v.Ok) {ws : List WriteBatch}
    (hhist : (v.writeAll ws).hist = v.hist) :
    (v.writeAll ws).sets = v.sets := by
  rw [View.sets_writeAll]
  refine touchAll_known fun ls hls => (h.mem ls).mpr ?_
  have hin : ls ∈ (v.writeAll ws).sets := by
    rw [View.sets_writeAll]
    exact mem_touchAll.mpr (.inr hls)
  rw [← hhist]
  exact ((h.writeAll ws).mem ls).mp hin

/-- So they may be taken for writes the segments have. -/
theorem Like.settle {done rest : List WriteBatch}
    (h : v.Like orderly (.writeAll {} done))
    (hhist : (View.writeAll {} (done ++ rest)).hist = v.hist) :
    v.Like orderly (.writeAll {} (done ++ rest)) := by
  refine ⟨hhist.symm, fun horder => ?_⟩
  rw [h.sets horder, writeAll_append]
  rw [writeAll_append, h.hist] at hhist
  exact ((Ok.empty.writeAll done).sets_writeAll hhist).symm

end View

-- =================================================================== stored

variable {json : Json} {orderly : Bool} {data : DataDir}
  {files : List (Nat × Segment)} {lnames : List LabelSet}
  {writes done rest : List WriteBatch} {n : Nat} {recs : List WalRecord}

/-- The segments have the writes `done`, the log has `rest`, behind `n`
records that the segments have too. -/
structure Stored (json : Json) (orderly : Bool) (data : DataDir)
    (files : List (Nat × Segment)) (lnames : List LabelSet)
    (done rest : List WriteBatch) (n : Nat) (recs : List WalRecord) :
    Prop where
  held : data.Holds json files
  valid : Valid (files.map Prod.snd)
  base : (View.loadAll {} (files.map Prod.snd)).Like orderly
    (.writeAll {} done)
  kept : ∃ defined, Kept lnames (View.loadAll {} (files.map Prod.snd)) rest
    defined n recs

/-- So they have the writes `writes` between them. -/
def Standing (json : Json) (orderly : Bool) (data : DataDir)
    (writes : List WriteBatch) (n : Nat) (recs : List WalRecord) : Prop :=
  ∃ files lnames done rest, writes = done ++ rest
    ∧ Stored json orderly data files lnames done rest n recs

theorem Standing.empty (json : Json) :
    Standing json orderly ∅ [] 0 [] :=
  ⟨[], [], [], [], rfl, .empty json, .nil, .refl orderly {},
    [], .empty List.nodup_nil _⟩

/-- The last records are gone, and with them writes that were not safe. What
is gone was pending, and no more was pending than the writes behind the safe
ones have records; so the records left are those of some first writes, and
the safe ones are among these. -/
theorem Standing.torn (h : Standing json orderly data writes n recs)
    {safe pending k : Nat} (hsafe : safe ≤ writes.length)
    (hpending : pending ≤ recordCount (writes.drop safe))
    (hheld : n + pending ≤ recs.length) (hk : recs.length - pending ≤ k)
    (hle : k ≤ recs.length) :
    ∃ i, safe ≤ i ∧ i ≤ writes.length
      ∧ Standing json orderly data (writes.take i) n (recs.take k) := by
  obtain ⟨files, lnames, done, rest, rfl, hstored⟩ := h
  obtain ⟨defined, hkept⟩ := hstored.kept
  have hcount := hkept.logs.length_eq
  rw [List.length_drop] at hcount
  rw [List.length_append] at hsafe
  have hbefore : recordCount (rest.take (safe - done.length)) ≤ k - n := by
    rcases Nat.le_total safe done.length with hin | hout
    · rw [Nat.sub_eq_zero_of_le hin]
      exact Nat.zero_le _
    · rw [List.drop_append, List.drop_of_length_le hout, List.nil_append]
        at hpending
      have hsplit : recordCount rest
          = recordCount (rest.take (safe - done.length))
            + recordCount (rest.drop (safe - done.length)) := by
        rw [← recordCount_append, List.take_append_drop]
      omega
  obtain ⟨i, hi₀, hi, hk'⟩ := exists_recordCount_from
    (by omega : safe - done.length ≤ rest.length) hbefore (by omega)
  obtain ⟨defined', htorn⟩ := hkept.torn (by omega : n ≤ k) hle hk'
  refine ⟨done.length + i, by omega, ?_, files, lnames, done, rest.take i, ?_,
    { hstored with kept := ⟨defined', htorn⟩ }⟩
  · rw [List.length_append]
    omega
  · rw [List.take_length_add_append]

end Tsdb
