/-
What a power loss leaves of a database.

It takes records off the end of the log, and with them writes: those whose
records they are, or, where the segments have all of what the log had, none
(`Standing.cut`). None of them has an LSN that was certain
(`Leaves.outage`).

# Which writes

`Wal.Journal.outage` says which records are left: the first ones, and of
the accepted ones at least those that end below the certain LSN. The tale
has an LSN for each write of the process, which is the end of its record
(`Noted`). So the writes whose LSNs are certain have their records among
those that are left (`Noted.lost`), and the ones from processes before are
in front of them. Records that the segments have too may be among those
lost: then the writes that are left are more than the records tell, and
never fewer.

# Files that are back

While `remove_through` is at work, its files may be back. They have nothing
that the segments do not have (`Spent`), whatever the threads of the log do
in the meantime (`Spent.step`): nobody writes while the database is in an
operation, so the log gets no record that the segments lack. `Spent` is
said of the shadow of `Tsdb.Wal.Relink`, in which all removed files are
there; what a power loss leaves lies below it, and with inert records in
it or without, the directories have the same writes (`Spent.whole`).
-/
import Tsdb.Db.Lifetimes
import Tsdb.Wal.Outage

namespace Tsdb

open Lib (exec)
open Wal (Disk Journal Log LogFile Machine Still WalConfig WalRecord logBytes)

variable {json : Json} {cfg : WalConfig} {t : Tale} {data data' : DataDir}
  {disk disk' : Disk} {m m' : Machine} {a : Wal.Action}

-- ================================================================ the writes

/-- The last records are gone, of the segments' own writes, too. If the cut
falls into the records that the segments have as well, all writes behind
those of the segments are gone, and none of the segments' own; or else it is
the case of `Standing.torn`. -/
theorem Standing.cut {orderly : Bool} {writes : List WriteBatch} {n : Nat}
    {recs : List WalRecord} (h : Standing json orderly data writes n recs)
    {hard k : Nat} (hhard : hard ≤ writes.length) (hk : k ≤ recs.length)
    (hlost : recs.length - k ≤ recordCount (writes.drop hard)) :
    ∃ i n', hard ≤ i ∧ i ≤ writes.length
      ∧ Standing json orderly data (writes.take i) n' (recs.take k) := by
  rcases Nat.lt_or_ge k n with hlt | hge
  · -- the log's writes are all gone
    obtain ⟨files, lnames, done, rest, rfl, hstored⟩ := h
    obtain ⟨defined, hkept⟩ := hstored.kept
    have hcount := hkept.logs.length_eq
    have hle := hkept.le
    rw [List.length_drop] at hcount
    refine ⟨done.length, k, ?_, ?_, files, lnames, done, [], ?_,
      { hstored with kept := ⟨[], hkept.nodup, ?_, fun rec hrec => ?_, ?_⟩ }⟩
    · by_contra hmore
      rw [List.drop_append, List.drop_of_length_le (by omega),
        List.nil_append] at hlost
      have hsplit : recordCount rest
          = recordCount (rest.take (hard - done.length))
            + recordCount (rest.drop (hard - done.length)) := by
        rw [← recordCount_append, List.take_append_drop]
      omega
    · rw [List.length_append]
      exact Nat.le_add_right _ _
    · rw [List.take_left, List.append_nil]
    · rw [List.length_take]
      omega
    · rw [List.take_take, Nat.min_self] at hrec
      exact hkept.inert rec
        ((List.take_prefix_take_left (Nat.le_of_lt hlt)).subset hrec)
    · rw [List.drop_of_length_le (by rw [List.length_take]; omega)]
      exact .nil
  · obtain ⟨i, hi₀, hi, hstanding⟩ :=
      h.torn hhard hlost (by omega) (by omega) hk
    exact ⟨i, n, hi₀, hi, hstanding⟩

/-- The writes behind the last with an LSN of at most `lsn`. -/
theorem Tale.drop_upTo (t : Tale) (lsn : Nat) :
    t.writes.drop (t.upTo lsn)
      = (t.mine.rtakeWhile fun write => decide (lsn < write.2)).map
        Prod.fst := by
  have hall : (t.mine.rdropWhile fun write => decide (lsn < write.2))
      ++ t.mine.rtakeWhile (fun write => decide (lsn < write.2)) = t.mine :=
    List.rdropWhile_append_rtakeWhile
  have hback := congrArg (List.drop (t.mine.rdropWhile fun write =>
    decide (lsn < write.2)).length) hall
  rw [List.drop_left] at hback
  unfold Tale.writes Tale.upTo
  rw [List.drop_append, List.drop_of_length_le (Nat.le_add_right _ _),
    List.nil_append, Nat.add_sub_cancel_left, ← List.map_drop, ← hback]

/-- As many records as are not certain are those of the writes with greater
LSNs. -/
theorem Noted.lost {log : Log} (h : Noted t log) {sure lost : Nat}
    (hcount : log.accepted.length ≤ recordCount (t.mine.map Prod.fst))
    (hlost : ∀ i ≤ log.accepted.length,
      (logBytes (log.accepted.take i)).length ≤ sure →
      lost ≤ log.accepted.length - i) :
    lost ≤ recordCount (t.writes.drop (t.upTo sure)) := by
  rw [t.drop_upTo]
  have hall : (t.mine.rdropWhile fun write => decide (sure < write.2))
      ++ t.mine.rtakeWhile (fun write => decide (sure < write.2)) = t.mine :=
    List.rdropWhile_append_rtakeWhile
  have hlast := List.rdropWhile_last_not
    (fun write : WriteBatch × Nat => decide (sure < write.2)) t.mine
  generalize t.mine.rtakeWhile (fun write => decide (sure < write.2)) = back
    at hall ⊢
  generalize (t.mine.rdropWhile fun write => decide (sure < write.2)) = front
    at hall hlast
  rcases List.eq_nil_or_concat' front with rfl | ⟨front, write, rfl⟩
  · rw [List.nil_append] at hall
    have hnone := hlost 0 (Nat.zero_le _) (Nat.zero_le _)
    rw [hall]
    omega
  · have hold := hlast (by simp)
    rw [List.getLast_append_singleton, decide_eq_true_eq, Nat.not_lt] at hold
    rw [List.append_assoc, List.singleton_append] at hall
    rw [h.lsns front write back hall.symm] at hold
    have := hlost _ (Nat.sub_le _ _) hold
    omega

namespace Leaves

/-- A power loss takes writes whose LSNs were not certain. -/
theorem outage (h : Leaves json t data disk m) {sure base : Nat} {log : Log}
    {hand rest : List WalRecord} (hsecure : Wal.Secure sure disk m)
    (hsim : Wal.Sim base log hand rest disk m)
    (hcount : log.accepted.length ≤ recordCount (t.mine.map Prod.fst))
    {kept : List (Option Nat)} (hloss : disk.powerLoss kept = some disk') :
    ∃ k, t.upTo sure ≤ k ∧ k ≤ t.writes.length
      ∧ Rests json (t.crash k) data disk' := by
  obtain ⟨old, actions, log', hand', buffer, n, h⟩ := h
  obtain ⟨k, hk, hrest, hlost⟩ := h.journal.outage h.noted.plain hsecure hloss
  rw [hsim.accepted_length h.journal.sim] at hcount
  obtain ⟨i, n', hi₀, hi, hstanding⟩ :=
    h.standing.cut (t.upTo_le sure) hk (h.noted.lost hcount hlost)
  refine ⟨i, hi₀, hi, rfl, ?_, _, n', hrest, ?_⟩
  · show i = (t.writes.take i).length
    rw [List.length_take, Nat.min_eq_left hi]
  · rw [t.writes_crash]
    exact hstanding

end Leaves

-- =============================================================== the removal

/-- A process that may stop, with a log the segments have all of. -/
def Spent (json : Json) (t : Tale) (data : DataDir) (disk : Disk)
    (m : Machine) : Prop :=
  ∃ old actions log hand buffer, Leaving json t data old actions log hand
    buffer (log.recs old disk).length disk m

namespace Spent

theorem leaves (h : Spent json t data disk m) : Leaves json t data disk m := by
  obtain ⟨old, actions, log, hand, buffer, h⟩ := h
  exact ⟨old, actions, log, hand, buffer, _, h⟩

/-- So it is in `remove_through`. -/
theorem removing {db : Db} {c : Chapter} (h : c.Tells json t data disk db)
    {who : Caller} {through : Nat} (hpc : db.pc = .remove who through) :
    Spent json t data disk db.wal.calm := by
  have hstands := h.stands
  rw [hpc] at hstands
  obtain ⟨hcovers, -, hinert, -⟩ := hstands
  refine ⟨c.old, c.actions, c.log, c.hand, c.buffer, h.journal.calm, h.noted,
    ?_, ?_⟩
  · rw [hcovers.pending_nil]
    exact Nat.le_refl _
  · cases h.good with
    | failed hfailed _ =>
        rw [h.able] at hfailed
        cases hfailed
    | flushing hflush _ =>
        rw [hflush] at hpc
        cases hpc
    | settled _ hsettled =>
        have hkept := h.kept
        rw [hinert] at hkept
        exact ⟨c.ledger.files, c.lnames, c.done, c.rest, h.writes,
          hsettled.held, hsettled.valid, h.base, c.defined, hkept⟩

/-- A thread of the log goes on, or a caller has waited. No record is added,
so the segments still have what the log has. -/
theorem step (h : Spent json t data disk m) (ha : a.serves = true)
    (hs : Wal.step cfg a (disk, m) = some (disk', m')) :
    Spent json (t.next (.wal a)) data disk' m' := by
  obtain ⟨old, actions, log, hand, buffer, h⟩ := h
  have hquiet : a.accepted = [] ∧ ∀ j id, a ≠ .removeFile j id := by
    cases a with
    | flusher n => exact ⟨rfl, by simp⟩
    | syncer due => exact ⟨rfl, by simp⟩
    | waitReturn lsn => exact ⟨rfl, by simp⟩
    | _ => cases ha
  obtain ⟨hacc, hremove⟩ := hquiet
  have hnoted : Noted (t.next (.wal a)) log
      ∧ ∃ safe, t.next (.wal a) = { t with safe } := by
    cases a with
    | waitReturn lsn =>
        simp only [Wal.step] at hs
        split at hs
        · rename_i hle
          refine ⟨h.noted.wait (Nat.le_trans hle ?_), _, rfl⟩
          rw [h.journal.sim.written]
          exact h.journal.sim.sound
        · cases hs
    | flusher n => exact ⟨h.noted, t.safe, rfl⟩
    | syncer due => exact ⟨h.noted, t.safe, rfl⟩
    | _ => cases ha
  obtain ⟨moves, log', hand', buffer', hexec, happ, hjournal, hrecs⟩ :=
    h.journal.step hremove hs
  rw [hacc] at happ hrecs
  rw [List.append_nil] at hrecs
  obtain ⟨hnoted, safe, hnext⟩ := hnoted
  refine ⟨old, _, log', hand', buffer', hjournal, hnoted.moves hexec happ,
    ?_, ?_⟩
  · have hle := Log.exec_pending hexec
    have hheld := h.held
    rw [happ, List.length_nil] at hle
    rw [hrecs]
    omega
  · rw [hnext, hrecs]
    exact h.standing

/-- Files below the active segment are gone. -/
theorem still (h : Spent json t data disk m) (hstill : Still disk' disk)
    (hgone : ∀ (i : Nat) (f f' : LogFile), disk[i]? = some f →
      disk'[i]? = some f' → f.linked = true → f'.linked = false →
      f.id < m.shared.activeSegment) :
    Spent json t data disk' m := by
  obtain ⟨old, actions, log, hand, buffer, h⟩ := h
  obtain ⟨hjournal, hsub⟩ := h.journal.still hstill hgone
  obtain ⟨files, lnames, done, rest, hwrites, hstored⟩ := h.standing
  obtain ⟨defined, hkept⟩ := hstored.kept
  have hfront : ∀ rec ∈ log.recs old disk',
      rec ∈ (log.recs old disk).take (log.recs old disk).length := by
    intro rec hrec
    rw [List.take_length]
    exact hsub.subset hrec
  have hless := hkept.removed hfront
  rw [List.drop_length, List.append_nil] at hless
  have hheld := h.held
  exact ⟨old, actions, log, hand, buffer, hjournal, h.noted, by omega, files,
    lnames, done, rest, hwrites, { hstored with kept := ⟨defined, hless⟩ }⟩

/-- It does not matter whether a removal has taken files. -/
theorem whole (h : Spent json t data disk m) (whole : Bool) :
    Spent json { t with whole } data disk m := by
  obtain ⟨old, actions, log, hand, buffer, h⟩ := h
  exact ⟨old, actions, log, hand, buffer, h.journal,
    ⟨h.noted.plain, h.noted.past, h.noted.le, h.noted.safe, h.noted.lsns⟩,
    h.held, h.standing⟩

end Spent

end Tsdb
