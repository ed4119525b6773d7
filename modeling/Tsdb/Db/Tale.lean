/-
What the callers of a database know of their writes.

# The tale

`Tale` is told by the events alone (`Tale.Of`), but for how many writes a
crash has left: those that stood when the process began, those it has
accepted since, each with the LSN it was given, and how many of all these
cannot be lost any more. A write is safe once a wait for its LSN has
returned, and all of them are when a cut has, or when the database has been
dropped.

No state of the system is looked at. This is so that a theorem about a run
says what somebody outside may rely on: from the calls and their returns
one can tell which writes stand, up to what each crash has taken, and for
that there is a bound (`Tale.Of`, whose constructor for a crash leaves the
choice open). `of_iff` is the tale as a computation, where no crash is.

# The tale and the log

`Noted` is what makes that true of the log: whatever is still on its way to
the files belongs to writes that are not safe, and an LSN is the length of
the log behind its write. Its lemmas go through what may happen. Steps of
the log's threads only shorten what is on its way (`moves`). A write adds
a record behind everything (`append`), or nothing at all if it has no
samples (`skip`), and then its LSN is that of the write before it, so that
waiting for the one is waiting for the other. When a wait returns, what is
still pending came behind every write with an LSN up to there
(`pending_upTo`), which is where `more` may raise the number of safe
writes. With nothing on its way all of them are safe (`all`).
-/
import Mathlib.Data.List.DropRight
import Tsdb.Db.Kept
import Tsdb.Db.System

namespace Tsdb

open Lib (exec)
open Wal (Log WalRecord logBytes)

-- ================================================================== the tale

structure Tale where
  past : List WriteBatch := []
  mine : List (WriteBatch × Nat) := []
  safe : Nat := 0
  /-- no write has been refused -/
  orderly : Bool := true
  /-- no removal of this process has taken files without going through -/
  whole : Bool := true

namespace Tale

/-- The writes that stand, in order. -/
def writes (t : Tale) : List WriteBatch := t.past ++ t.mine.map Prod.fst

/-- How many writes there are up to the last with an LSN of at most
`lsn`. -/
def upTo (t : Tale) (lsn : Nat) : Nat :=
  t.past.length + (t.mine.rdropWhile fun write => decide (lsn < write.2)).length

/-- Any event but a crash. -/
def next (t : Tale) : Event → Tale
  | .openWith _ _ => { t with whole := true }
  | .write batch (.ok lsn) => { t with mine := t.mine ++ [(batch, lsn)] }
  | .write _ (.error _) => { t with orderly := false }
  | .wal (.waitReturn lsn) => { t with safe := max t.safe (t.upTo lsn) }
  | .wal (.cutReturn _ _) => { t with safe := t.writes.length }
  | .wal (.removeFile _ _) => { t with whole := false }
  | .wal (.removeReturn _ _) => { t with whole := true }
  | .wal .closeReturn =>
      { t with past := t.writes, mine := [], safe := t.writes.length }
  | _ => t

/-- A crash that leaves the first `k` writes. -/
def crash (t : Tale) (k : Nat) : Tale :=
  { t with past := t.writes.take k, mine := [], safe := k }

/-- What may be told of a run: a crash leaves at least the writes that are
safe. -/
inductive Of : List Event → Tale → Prop
  | start : Of [] {}
  | next {events : List Event} {t : Tale} {e : Event} (h : Of events t)
      (he : ∀ removed, e ≠ .crash removed) : Of (events ++ [e]) (t.next e)
  | crash {events : List Event} {t : Tale} {removed : List Nat} {k : Nat}
      (h : Of events t) (hsafe : t.safe ≤ k) (hk : k ≤ t.writes.length) :
      Of (events ++ [.crash removed]) (t.crash k)

variable {t : Tale}

/-- Where there is no crash, the events tell it all. The induction takes the
last event off: with no crash among them, a tale can have come about by
`next` only. -/
theorem of_iff {events : List Event} (h : ∀ removed, .crash removed ∉ events) :
    Of events t ↔ t = events.foldl next {} := by
  induction events using List.reverseRecOn generalizing t with
  | nil =>
      constructor
      · intro hof
        generalize hnil : ([] : List Event) = l at hof
        cases hof with
        | start => rfl
        | next => simp at hnil
        | crash => simp at hnil
      · rintro rfl
        exact .start
  | append_singleton events e ih =>
      have hbefore : ∀ removed, .crash removed ∉ events :=
        fun removed hin => h removed (List.mem_append_left _ hin)
      have hlast : ∀ removed, e ≠ .crash removed := by
        rintro removed rfl
        exact h removed (List.mem_append_right _ List.mem_cons_self)
      rw [List.foldl_concat]
      constructor
      · intro hof
        generalize hcat : events ++ [e] = l at hof
        cases hof with
        | start => simp at hcat
        | next hof =>
            obtain ⟨rfl, he⟩ := List.append_inj' hcat rfl
            cases he
            rw [(ih hbefore).mp hof]
        | crash =>
            obtain ⟨-, he⟩ := List.append_inj' hcat rfl
            cases he
            exact absurd rfl (hlast _)
      · rintro rfl
        exact .next ((ih hbefore).mpr rfl) hlast

theorem writes_crash (t : Tale) (k : Nat) :
    (t.crash k).writes = t.writes.take k :=
  List.append_nil _

theorem writes_ok (t : Tale) (batch : WriteBatch) (lsn : Nat) :
    (t.next (.write batch (.ok lsn))).writes = t.writes ++ [batch] := by
  show t.past ++ (t.mine ++ [(batch, lsn)]).map Prod.fst = _
  rw [List.map_append, ← List.append_assoc]
  rfl

theorem writes_closed (t : Tale) :
    (t.next (.wal .closeReturn)).writes = t.writes :=
  List.append_nil _

theorem upTo_le (t : Tale) (lsn : Nat) : t.upTo lsn ≤ t.writes.length := by
  have hle := (List.rdropWhile_prefix
    (fun write : WriteBatch × Nat => decide (lsn < write.2))
    (l := t.mine)).length_le
  unfold upTo writes
  rw [List.length_append, List.length_map]
  omega

end Tale

-- ============================================================ what is counted

variable {t : Tale} {log log' : Log} {mvs : List Log.Move}
  {batch : WriteBatch} {rec : WalRecord} {lsn : Nat}

/-- What is pending has been pending, or has been appended since. A write of
the flusher moves some of it into the files, and no other move but an append
touches it. -/
theorem Wal.Log.exec_pending (h : exec Log.move mvs log = some log') :
    log'.pending.length
      ≤ log.pending.length + (Log.appended mvs).length := by
  induction mvs generalizing log with
  | nil =>
      cases h
      exact Nat.le_refl _
  | cons mv mvs ih =>
      obtain ⟨log₁, hmv, hrest⟩ := Option.bind_eq_some_iff.mp h
      have hle := ih hrest
      cases mv with
      | append rec =>
          cases hmv
          rw [List.length_append, List.length_singleton] at hle
          show _ ≤ _ + (Log.appended mvs).length.succ
          omega
      | write n =>
          cases hmv
          rw [List.length_drop] at hle
          show _ ≤ _ + (Log.appended mvs).length
          omega
      | rotate =>
          cases hmv
          exact hle
      | publish lsn =>
          simp only [Log.move] at hmv
          split at hmv
          · cases hmv
            exact hle
          · cases hmv

/-- From some first writes on, every number of records up to all of them is
that of some first writes. -/
theorem exists_recordCount_from {ws : List WriteBatch} {i₀ j : Nat}
    (hi₀ : i₀ ≤ ws.length) (hle : recordCount (ws.take i₀) ≤ j)
    (hj : j ≤ recordCount ws) :
    ∃ i, i₀ ≤ i ∧ i ≤ ws.length ∧ recordCount (ws.take i) = j := by
  have hcount : recordCount ws
      = recordCount (ws.take i₀) + recordCount (ws.drop i₀) := by
    rw [← recordCount_append, List.take_append_drop]
  obtain ⟨i, hi, hrest⟩ := exists_recordCount
    (by omega : j - recordCount (ws.take i₀) ≤ recordCount (ws.drop i₀))
  rw [List.length_drop] at hi
  refine ⟨i₀ + i, Nat.le_add_right _ _, by omega, ?_⟩
  rw [List.take_add, recordCount_append]
  omega

-- ================================================================= the log

/-- What the log has of the writes that are told of. -/
structure Noted (t : Tale) (log : Log) : Prop where
  plain : ∀ rec ∈ log.accepted, rec.logged = rec
  past : t.past.length ≤ t.safe
  le : t.safe ≤ t.writes.length
  safe : log.pending.length ≤ recordCount (t.writes.drop t.safe)
  lsns : ∀ front write back, t.mine = front ++ write :: back →
    write.2 = (logBytes (log.accepted.take
      (log.accepted.length - recordCount (back.map Prod.fst)))).length

namespace Noted

/-- The log as it is opened. -/
theorem start (hmine : t.mine = []) (hsafe : t.safe = t.past.length)
    (first : Nat) : Noted t { first } where
  plain rec hrec := by cases hrec
  past := Nat.le_of_eq hsafe.symm
  le := by
    rw [hsafe]
    exact List.length_append ▸ Nat.le_add_right _ _
  safe := Nat.zero_le _
  lsns front write back h := by
    rw [hmine] at h
    exact absurd h (by simp)

/-- What is not an append changes nothing. -/
theorem moves (h : Noted t log) (hexec : exec Log.move mvs log = some log')
    (happ : Log.appended mvs = []) : Noted t log' := by
  have hacc := Log.exec_accepted hexec
  have hle := Log.exec_pending hexec
  rw [happ] at hacc hle
  rw [List.append_nil] at hacc
  refine ⟨hacc ▸ h.plain, h.past, h.le, Nat.le_trans hle h.safe, ?_⟩
  rw [hacc]
  exact h.lsns

/-- More of the writes are safe. -/
theorem more (h : Noted t log) {safe : Nat} (hmore : t.safe ≤ safe)
    (hle : safe ≤ t.writes.length)
    (hsafe : log.pending.length ≤ recordCount (t.writes.drop safe)) :
    Noted { t with safe } log :=
  ⟨h.plain, Nat.le_trans h.past hmore, hle, hsafe, h.lsns⟩

/-- With nothing on its way, every write is safe. -/
theorem all (h : Noted t log) (hnone : log.pending = []) :
    Noted { t with safe := t.writes.length } log := by
  refine h.more h.le (Nat.le_refl _) ?_
  rw [hnone]
  exact Nat.zero_le _

/-- A write of nothing has the LSN of the one before. -/
theorem skip (h : Noted t log) (hnone : batch.nonempty = [])
    (hlsn : lsn = (logBytes log.accepted).length) :
    Noted (t.next (.write batch (.ok lsn))) log := by
  have hwrites := t.writes_ok batch lsn
  refine ⟨h.plain, h.past, ?_, ?_, fun front write back hmine => ?_⟩
  · rw [hwrites, List.length_append]
    exact Nat.le_add_right_of_le h.le
  · rw [hwrites]
    show _ ≤ recordCount ((t.writes ++ [batch]).drop t.safe)
    rw [List.drop_append_of_le_length h.le, recordCount_append]
    exact Nat.le_add_right_of_le h.safe
  · replace hmine : t.mine ++ [(batch, lsn)] = front ++ write :: back := hmine
    rcases List.eq_nil_or_concat' back with rfl | ⟨back, last, rfl⟩
    · obtain ⟨-, hlast⟩ := List.append_inj' hmine rfl
      cases hlast
      rw [hlsn]
      show _ = (logBytes (log.accepted.take log.accepted.length)).length
      rw [List.take_length]
    · rw [← List.cons_append, ← List.append_assoc] at hmine
      obtain ⟨hfront, hlast⟩ := List.append_inj' hmine rfl
      cases hlast
      rw [h.lsns front write back hfront, List.map_append, List.map_singleton,
        recordCount_append, recordCount_singleton, if_pos hnone, Nat.add_zero]

/-- A write appends its record. Its LSN is the length of the log with it,
and so it lies above those of the writes before; the record is pending, and
with it there is one more behind what is safe. -/
theorem append (h : Noted t log) (hexec : exec Log.move mvs log = some log')
    (happ : Log.appended mvs = [rec]) (hplain : rec.logged = rec)
    (hne : batch.nonempty ≠ [])
    (hlsn : lsn = (logBytes log'.accepted).length) :
    Noted (t.next (.write batch (.ok lsn))) log' := by
  have hwrites := t.writes_ok batch lsn
  have hacc := Log.exec_accepted hexec
  have hle := Log.exec_pending hexec
  rw [happ] at hacc hle
  refine ⟨fun r hr => ?_, h.past, ?_, ?_, fun front write back hmine => ?_⟩
  · rw [hacc, List.mem_append, List.mem_singleton] at hr
    rcases hr with hr | rfl
    · exact h.plain r hr
    · exact hplain
  · rw [hwrites, List.length_append]
    exact Nat.le_add_right_of_le h.le
  · rw [hwrites]
    show _ ≤ recordCount ((t.writes ++ [batch]).drop t.safe)
    rw [List.drop_append_of_le_length h.le, recordCount_append,
      recordCount_singleton, if_neg hne]
    exact Nat.le_trans hle (Nat.add_le_add_right h.safe 1)
  · replace hmine : t.mine ++ [(batch, lsn)] = front ++ write :: back := hmine
    rcases List.eq_nil_or_concat' back with rfl | ⟨back, last, rfl⟩
    · obtain ⟨-, hlast⟩ := List.append_inj' hmine rfl
      cases hlast
      rw [hlsn]
      show _ = (logBytes (log'.accepted.take log'.accepted.length)).length
      rw [List.take_length]
    · rw [← List.cons_append, ← List.append_assoc] at hmine
      obtain ⟨hfront, hlast⟩ := List.append_inj' hmine rfl
      cases hlast
      rw [h.lsns front write back hfront, List.map_append, List.map_singleton,
        recordCount_append, recordCount_singleton, if_neg hne, hacc,
        List.length_append, List.length_singleton, Nat.add_sub_add_right,
        List.take_append_of_le_length (Nat.sub_le _ _)]

/-- What is pending came behind every write with an LSN in the files. Of the
writes of this process those with such an LSN are in front, and the last of
them marks the place: up to it the log is no longer than what is in the
files, so what is pending are records of the writes behind it. -/
private theorem pending_upTo (h : Noted t log)
    (hlsn : lsn ≤ (logBytes log.flushed).length)
    (hle : t.safe ≤ t.upTo lsn) :
    log.pending.length ≤ recordCount (t.writes.drop (t.upTo lsn)) := by
  have hall : (t.mine.rdropWhile fun write => decide (lsn < write.2))
      ++ t.mine.rtakeWhile (fun write => decide (lsn < write.2)) = t.mine :=
    List.rdropWhile_append_rtakeWhile
  rcases List.eq_nil_or_concat' (t.mine.rdropWhile fun write =>
      decide (lsn < write.2)) with hnil | ⟨front, write, hcat⟩
  · -- there is none
    have hpast := h.past
    have hnone : t.upTo lsn = t.safe := by
      unfold Tale.upTo at hle ⊢
      rw [hnil, List.length_nil] at hle ⊢
      omega
    rw [hnone]
    exact h.safe
  · have hold : write.2 ≤ lsn := by
      have hnot := List.rdropWhile_last_not
        (fun write : WriteBatch × Nat => decide (lsn < write.2)) t.mine
        (by rw [hcat]; simp)
      simp only [hcat, List.getLast_append_singleton, decide_eq_true_eq,
        Nat.not_lt] at hnot
      exact hnot
    have hupTo : t.upTo lsn = t.past.length + (front ++ [write]).length := by
      unfold Tale.upTo
      rw [hcat]
    rw [hcat] at hall
    generalize t.mine.rtakeWhile (fun write => decide (lsn < write.2)) = back
      at hall
    have hdrop : t.writes.drop (t.upTo lsn) = back.map Prod.fst := by
      rw [hupTo]
      unfold Tale.writes
      rw [List.drop_append, List.drop_of_length_le (Nat.le_add_right _ _),
        List.nil_append, Nat.add_sub_cancel_left, ← List.map_drop, ← hall,
        List.drop_left]
    rw [hdrop]
    rw [List.append_assoc, List.singleton_append] at hall
    have hat := h.lsns front write back hall.symm
    -- the log behind the write is no longer than what is in the files
    by_contra hlt
    have hsplit : log.accepted = log.flushed ++ log.pending := rfl
    have hlen : log.accepted.length
        = log.flushed.length + log.pending.length := by
      rw [hsplit, List.length_append]
    have hmore : log.accepted.take
        (log.accepted.length - recordCount (back.map Prod.fst))
        = log.flushed ++ log.pending.take
          (log.pending.length - recordCount (back.map Prod.fst)) := by
      have hcount : log.accepted.length - recordCount (back.map Prod.fst)
          = log.flushed.length + (log.pending.length
            - recordCount (back.map Prod.fst)) := by omega
      rw [hcount, hsplit, List.take_length_add_append]
    have hsome : log.pending.take
        (log.pending.length - recordCount (back.map Prod.fst)) ≠ [] := by
      intro hnil
      have hzero := congrArg List.length hnil
      rw [List.length_take, List.length_nil] at hzero
      omega
    have hpos := Wal.logBytes_length_pos hsome
    rw [hmore, Wal.logBytes_append, List.length_append] at hat
    omega

/-- A write whose LSN is in the files has its record there. -/
theorem wait (h : Noted t log) (hlsn : lsn ≤ (logBytes log.flushed).length) :
    Noted (t.next (.wal (.waitReturn lsn))) log := by
  rcases Nat.le_total (t.upTo lsn) t.safe with hle | hle
  · have hsame : max t.safe (t.upTo lsn) = t.safe := Nat.max_eq_left hle
    refine h.more (Nat.le_max_left _ _) ?_ ?_
    · rw [hsame]
      exact h.le
    · rw [hsame]
      exact h.safe
  · refine h.more (Nat.le_max_left _ _) ?_ ?_
    · rw [Nat.max_eq_right hle]
      exact t.upTo_le lsn
    · rw [Nat.max_eq_right hle]
      exact h.pending_upTo hlsn hle

end Noted

end Tsdb
