/-
A computer over every run, power losses included.

Whatever happens to the processes and to the computer, a power loss leaves
directories that open, and that then have the first of the writes that
stood: all up to the last with an LSN that was certain
(`power_loss_recovery`). Behind the cut of a flush that is every write, and
until the next is accepted no crash and no power loss takes anything, or
gives anything twice (`checkpoint_outlasts`).

# The tale of a run

`Tale.Goes` says what an occurrence adds to the tale, and `Computer.Told` is
that along a run. An event of the processes is told as in `Tsdb.Db.Tale`. A
crash adds nothing at first: nobody has looked at what it has left, and what
becomes of it depends on what comes next. If it is written back or opened,
some first writes are left, all that were safe among them; if the power
fails before that, all with an LSN that is certain. A tale is not unique, as
these leave a choice. `Stands.goes` finds what is next for one occurrence,
and `Computer.tells` is the induction on it, over the runs in which whoever
opens the directories finds what is on disk.

How a run may come to that is `Unhurried.opensOnDisk`: nobody opens the
directories right behind a crash. Then they have been written back, or the
power has failed, or the process before has come to its end in order.

# Checkpoints

Behind the cut of a flush, and within `open_with`, every write is safe and
certain (`Tale.Final`). The cut brings that about (`final_step`): the LSN it
has synced up to is the end of the log, and no write has a greater one. It
stays so with every occurrence but an accepted write (`final_next`), so that
no choice leaves anything out, and the writes at the end of any run from
there are those at its beginning (`Stands.outlasts`).

# Runs to look at

Both theorems are seen at work in a run in which the process crashes and
then the power fails: in one of them in the middle of a record, in the
other between the rename of a segment and the sync behind it.
-/
import Mathlib.Data.List.Chain
import Tsdb.Db.Emptied
import Tsdb.Db.Restart
import Tsdb.Db.Survival

namespace Tsdb

open Lib (exec extend)
open Wal (WalConfig)

variable {json : Json} {cfg : WalConfig} {t : Tale} {c c' : Computer}
  {os : List Occurrence} {e : Event}

-- ================================================================== the runs

/-- What may be told behind an occurrence, where the log is certain up to the
LSN `sure`. A crash takes nothing from the files, so it is told with what
comes next: if that is a power loss, it leaves at least the writes with an LSN
that is certain, and what is written back or opened has at least those that
are safe. -/
inductive Tale.Goes (sure : Nat) : Occurrence → Tale → Tale → Prop
  | event {t : Tale} {e : Event} (hcrash : ∀ removed, e ≠ .crash removed)
      (hopen : ∀ max reads, e ≠ .openWith max reads) :
      Goes sure (.system e) t (t.next e)
  | opens {t : Tale} {max : Nat} {reads : Nat → Nat → Nat} {k : Nat}
      (hsafe : t.safe ≤ k) (hk : k ≤ t.writes.length) :
      Goes sure (.system (.openWith max reads)) t
        ((t.crash k).next (.openWith max reads))
  | crash {t : Tale} {removed : List Nat} :
      Goes sure (.system (.crash removed)) t t
  | writeBack {t : Tale} {k : Nat} (hsafe : t.safe ≤ k)
      (hk : k ≤ t.writes.length) : Goes sure .writeBack t (t.crash k)
  | powerLoss {t : Tale} {loss : Loss} {k : Nat} (hsure : t.upTo sure ≤ k)
      (hk : k ≤ t.writes.length) : Goes sure (.powerLoss loss) t (t.crash k)

/-- What may be told of a run. -/
inductive Computer.Told (json : Json) (cfg : WalConfig) :
    List Occurrence → Computer → Tale → Prop
  | start : Told json cfg [] {} {}
  | step {os : List Occurrence} {o : Occurrence} {c c' : Computer}
      {t t' : Tale} (h : Told json cfg os c t)
      (hs : Computer.step json cfg o c = some c')
      (hgoes : t.Goes c.sure o t') : Told json cfg (os ++ [o]) c' t'

theorem Tale.orderly_next (he : ∀ batch err, e ≠ .write batch (.error err)) :
    (t.next e).orderly = t.orderly := by
  cases e with
  | write batch result =>
      cases result with
      | ok lsn => rfl
      | error err => exact absurd rfl (he batch err)
  | wal a => cases a <;> rfl
  | _ => rfl

/-- Where every write is safe and certain. -/
structure Tale.Final (t : Tale) (sure : Nat) : Prop where
  safe : t.safe = t.writes.length
  certain : ∀ write ∈ t.mine, write.2 ≤ sure

namespace Tale

/-- Nothing has been written since the log was opened. -/
theorem Final.of_mine (hmine : t.mine = []) (hsafe : t.safe = t.past.length)
    (sure : Nat) : t.Final sure where
  safe := by
    unfold writes
    rw [hsafe, hmine, List.map_nil, List.append_nil]
  certain write hwrite := by
    rw [hmine] at hwrite
    cases hwrite

theorem Final.crash {k : Nat} (hk : k ≤ t.writes.length) (sure : Nat) :
    (t.crash k).Final sure := by
  refine .of_mine rfl ?_ sure
  show k = (t.writes.take k).length
  rw [List.length_take, Nat.min_eq_left hk]

/-- A power loss takes none of them. -/
theorem Final.upTo {sure : Nat} (h : t.Final sure) :
    t.upTo sure = t.writes.length := by
  have hall : (t.mine.rdropWhile fun write => decide (sure < write.2))
      = t.mine := by
    refine List.rdropWhile_eq_self_iff.mpr fun hne => ?_
    have := h.certain _ (List.getLast_mem hne)
    simp only [decide_eq_true_eq]
    omega
  unfold Tale.upTo writes
  rw [hall, List.length_append, List.length_map]

end Tale

namespace Computer

/-- Nobody has ever had the directories. -/
theorem Tells.empty (json : Json) (cfg : WalConfig) :
    Computer.Tells json cfg {} {} := by
  have hstored : Computer.stored ∅ [] = {} := by
    rfl
  rw [← hstored]
  exact tells_stored (.empty json) fun f hf => by cases hf

namespace OpensOnDisk

variable {o : Occurrence} {more : List Occurrence}

/-- From the next state on. -/
theorem tail (h : OpensOnDisk json cfg c (o :: os))
    (hs : Computer.step json cfg o c = some c') :
    OpensOnDisk json cfg c' os := by
  rintro before after max reads c₂ rfl hrun
  exact h (o :: before) after max reads c₂ rfl
    (Option.bind_eq_some_iff.mpr ⟨c', hs, hrun⟩)

/-- The first part of a run. -/
theorem left (h : OpensOnDisk json cfg c (os ++ more)) :
    OpensOnDisk json cfg c os := by
  rintro before after max reads c₂ rfl hrun
  exact h before (after ++ more) max reads c₂
    (List.append_assoc _ _ _) hrun

/-- The second. -/
theorem right (h : OpensOnDisk json cfg c (os ++ more))
    (hrun : exec (Computer.step json cfg) os c = some c') :
    OpensOnDisk json cfg c' more := by
  induction os generalizing c with
  | nil =>
      cases hrun
      exact h
  | cons o os ih =>
      obtain ⟨c₁, hs, hrest⟩ := Option.bind_eq_some_iff.mp hrun
      exact ih (h.tail hs) hrest

theorem concat (h : OpensOnDisk json cfg c os)
    (hrun : exec (Computer.step json cfg) os c = some c')
    (hopen : ∀ max reads, o = .system (.openWith max reads) → c'.OnDisk) :
    OpensOnDisk json cfg c (os ++ [o]) := by
  intro before after max reads c₂ hos hbefore
  rcases List.eq_nil_or_concat after with rfl | ⟨after, last, rfl⟩
  · obtain ⟨rfl, hlast⟩ := List.append_inj' hos rfl
    cases hlast
    rw [hrun] at hbefore
    cases hbefore
    exact hopen max reads rfl
  · rw [List.concat_eq_append, ← List.cons_append, ← List.append_assoc] at hos
    obtain ⟨rfl, -⟩ := List.append_inj' hos rfl
    exact h before after max reads c₂ rfl hbefore

end OpensOnDisk

/-- If no write has been refused, none has. -/
theorem Told.orderly (h : Told json cfg os c t)
    (hok : ∀ batch err, .system (.write batch (.error err)) ∉ os) :
    t.orderly = true := by
  induction h with
  | start => rfl
  | step h _ hgoes ih =>
      have hbefore := ih fun batch err hin =>
        hok batch err (List.mem_append_left _ hin)
      cases hgoes with
      | event =>
          rw [Tale.orderly_next]
          · exact hbefore
          · rintro batch err rfl
            exact hok batch err (List.mem_append_right _ List.mem_cons_self)
      | opens | crash | writeBack | powerLoss => exact hbefore

end Computer

-- =============================================================== a checkpoint

/-- A flush is none, up to its cut. -/
theorem Db.flush_inCheckpoint (db : Db) :
    (Phase.running (db.flush .operation)).inCheckpoint = false := by
  unfold Db.flush Phase.inCheckpoint
  simp only
  by_cases hnone : db.state.bufferedSamples = 0
  · rw [if_pos hnone]
    rfl
  · rw [if_neg hnone]
    rfl

namespace Computer.Tells

/-- Every LSN is at most where the log ends. -/
private theorem lsn_le (h : c.Tells json cfg t) {db : Db} {who : Caller}
    (hphase : c.system.phase = .running db) (hpc : db.pc = .cut who) :
    ∀ write ∈ t.mine, write.2 ≤ db.wal.shared.buffer.end_ := by
  obtain ⟨ch, hch⟩ :=
    h.system.busy hphase (by rw [hpc]; exact Pc.noConfusion)
  intro write hwrite
  obtain ⟨front, back, hmine⟩ := List.append_of_mem hwrite
  have hle := Wal.logBytes_take_le ch.log.accepted
    (Nat.sub_le ch.log.accepted.length (recordCount (back.map Prod.fst)))
  rw [List.take_length] at hle
  rw [hch.noted.lsns front write back hmine, hch.journal.sim.end_]
  exact hle

/-- Until the next write they stay safe and certain. The LSNs stay, and
`sure` only grows, except where the log is opened, and there the process has
no writes yet. -/
private theorem final_next (h : c.Tells json cfg t) (hfinal : t.Final c.sure)
    (he : ∀ batch lsn, e ≠ .write batch (.ok lsn))
    {s : System} (hs : System.Step json cfg c.system e s) :
    (t.next e).Final (c.after e s).sure := by
  refine ⟨Tale.safe_next hfinal.safe he, ?_⟩
  cases hs with
  | syncDir hphase =>
      obtain ⟨g, lnames, done, rest, n, recs, htelling⟩ :=
        h.system.telling hphase
      exact (Tale.Final.of_mine htelling.mine htelling.safe 0).certain
  | @write _ _ batch result _ _ _ =>
      cases result with
      | ok lsn => exact absurd rfl (he batch lsn)
      | error err => exact hfinal.certain
  | @wal _ _ a _ hphase hwal =>
      have hmine : (t.next (.wal a)).mine = t.mine := by
        cases hwal with
        | goOn hallow =>
            cases a with
            | closeReturn => cases hallow
            | _ => rfl
        | _ => rfl
      rw [hmine]
      simp only [after, hphase, Phase.wal]
      exact fun write hwrite =>
        Nat.le_trans (hfinal.certain write hwrite) (Nat.le_max_left _ _)
  | @drain _ _ a _ hphase ha =>
      have hmine : (t.next (.wal a)).mine = t.mine := by
        cases a with
        | closeReturn => cases ha
        | _ => rfl
      rw [hmine]
      simp only [after, hphase, Phase.wal]
      exact fun write hwrite =>
        Nat.le_trans (hfinal.certain write hwrite) (Nat.le_max_left _ _)
  | closed =>
      intro write hwrite
      cases hwrite
  | store =>
      simp only [after]
      split <;> exact hfinal.certain
  | _ => exact hfinal.certain

/-- In a checkpoint they are. The step into one is the return of a cut; all
others but the opening of directories are steps within, by `final_next`. -/
private theorem final_step (h : c.Tells json cfg t)
    (hfinal : c.system.phase.inCheckpoint = true → t.Final c.sure)
    {s : System} (hs : System.Step json cfg c.system e s)
    (hcrash : ∀ removed, e ≠ .crash removed)
    (hopen : ∀ max reads, e ≠ .openWith max reads) (hfault : e ≠ .fault)
    (hpoint : s.phase.inCheckpoint = true) :
    (t.next e).Final (c.after e s).sure := by
  have hkept : c.system.phase.inCheckpoint = true →
      (∀ batch lsn, e ≠ .write batch (.ok lsn)) →
      (t.next e).Final (c.after e s).sure :=
    fun hpoint he => h.final_next (hfinal hpoint) he hs
  cases hs with
  | openWith => exact absurd rfl (hopen _ _)
  | setLen hphase | syncAll hphase | create hphase | syncDir hphase =>
      exact hkept (by rw [hphase]; rfl) (by simp)
  | @write db db' batch result log hphase hwrite =>
      obtain ⟨hpc, -, -, hcases⟩ := Db.write_cases hwrite
      exfalso
      rcases hcases with ⟨-, -, -, rfl⟩ | ⟨-, wal, -, -, rfl | rfl⟩
      · simp [Phase.inCheckpoint, hpc] at hpoint
      · simp [Phase.inCheckpoint, hpc] at hpoint
      · cases (Db.flush_inCheckpoint _).symm.trans hpoint
  | flush =>
      exfalso
      cases (Db.flush_inCheckpoint _).symm.trans hpoint
  | @wal db db' a log hphase hwal =>
      cases hwal with
      | goOn =>
          refine hkept ?_ (by simp)
          rw [hphase]
          exact hpoint
      | @cut who closed log wal db' hpc =>
          refine ⟨rfl, ?_⟩
          simp only [after, hphase, Phase.wal]
          exact fun write hwrite => Nat.le_trans
            (h.lsn_le hphase hpc write hwrite) (Nat.le_max_right _ _)
      | @removed who through removed log wal hpc =>
          refine hkept ?_ (by simp)
          simp [hphase, Phase.inCheckpoint, hpc]
  | @store db db' n data hphase hstore =>
      refine hkept ?_ (by simp)
      unfold Db.storeStep at hstore
      split at hstore
      · rename_i hpc _
        simp [hphase, Phase.inCheckpoint, hpc]
      · cases hstore
  | openFault | flushFault | removeFault => exact absurd rfl hfault
  | drop | drain | closed => cases hpoint
  | crash => exact absurd rfl (hcrash _)

end Computer.Tells

namespace Computer

namespace Stands

variable {o : Occurrence} {t' : Tale}

/-- Every occurrence goes on with what is told. Less is told behind a crash,
until the next. -/
theorem goes (hjson : json.Lawful) (h : c.Stands json cfg t)
    (hopen : ∀ max reads, o = .system (.openWith max reads) → c.OnDisk)
    (hs : Computer.step json cfg o c = some c') :
    ∃ t', t.Goes c.sure o t' ∧ (c'.Tells json cfg t'
      ∨ o.isCrash = true ∧ c'.Crashed json cfg t') := by
  cases o with
  | writeBack =>
      obtain ⟨k, hsafe, hk, h'⟩ := h.writeBack hs
      exact ⟨_, .writeBack hsafe hk, .inl h'⟩
  | powerLoss loss =>
      obtain ⟨k, hsure, hk, h'⟩ := h.powerLoss hs
      exact ⟨_, .powerLoss hsure hk, .inl h'⟩
  | system e =>
      by_cases hcrash : ∃ removed, e = .crash removed
      · obtain ⟨removed, rfl⟩ := hcrash
        exact ⟨t, .crash, .inr ⟨rfl, (h.crash hs).1⟩⟩
      have hno : ∀ removed, e ≠ .crash removed :=
        fun removed he => hcrash ⟨removed, he⟩
      by_cases hopens : ∃ max reads, e = .openWith max reads
      · obtain ⟨max, reads, rfl⟩ := hopens
        obtain ⟨k, hsafe, hk, h₁⟩ := h.opens (hopen max reads rfl) hs
        exact ⟨_, .opens hsafe hk, .inl (h₁.step hjson hno hs)⟩
      · have hother : ∀ max reads, e ≠ .openWith max reads :=
          fun max reads he => hopens ⟨max, reads, he⟩
        exact ⟨_, .event hno hother,
          .inl (h.step hjson hno hother hs).2⟩

/-- In a checkpoint every write is safe and certain. -/
theorem final_step (hjson : json.Lawful) (h : c.Stands json cfg t)
    (hfinal : c.system.phase.inCheckpoint = true → t.Final c.sure)
    (hgoes : t.Goes c.sure o t')
    (hs : Computer.step json cfg o c = some c')
    (hpoint : c'.system.phase.inCheckpoint = true) : t'.Final c'.sure := by
  cases hgoes with
  | event hcrash hopen =>
      obtain ⟨h, -⟩ := h.step hjson hcrash hopen hs
      obtain ⟨hfault, s, hstep, rfl⟩ := Computer.step_system hs
      rw [Computer.system_after] at hpoint
      exact h.final_step hfinal (.of_step hstep) hcrash hopen hfault hpoint
  | opens hsafe hk =>
      have hcrash := Tale.Final.crash (t := t) hk c'.sure
      exact ⟨hcrash.safe, hcrash.certain⟩
  | crash =>
      rw [(h.crash hs).1.phase] at hpoint
      cases hpoint
  | writeBack hsafe hk => exact .crash hk _
  | powerLoss hsure hk => exact .crash hk _

/-- Where they are, they stay so until the next write, and nothing is lost of
them: no choice of the tale leaves anything out. -/
theorem final_next (hjson : json.Lawful) (h : c.Stands json cfg t)
    (hfinal : t.Final c.sure) (hgoes : t.Goes c.sure o t')
    (ho : ∀ batch lsn, o ≠ .system (.write batch (.ok lsn)))
    (hs : Computer.step json cfg o c = some c') :
    t'.writes = t.writes ∧ t'.Final c'.sure := by
  have hall : ∀ k, t.writes.length ≤ k → k ≤ t.writes.length →
      (t.crash k).writes = t.writes := by
    intro k hle hk
    rw [t.writes_crash, Nat.le_antisymm hk hle, List.take_length]
  cases hgoes with
  | @event _ e hcrash hopen =>
      obtain ⟨h, -⟩ := h.step hjson hcrash hopen hs
      have he : ∀ batch lsn, e ≠ .write batch (.ok lsn) := by
        rintro batch lsn rfl
        exact ho batch lsn rfl
      obtain ⟨-, s, hstep, rfl⟩ := Computer.step_system hs
      exact ⟨Tale.writes_next he, h.final_next hfinal he (.of_step hstep)⟩
  | opens hsafe hk =>
      have hcrash := Tale.Final.crash (t := t) hk c'.sure
      exact ⟨hall _ (hfinal.safe ▸ hsafe) hk, hcrash.safe, hcrash.certain⟩
  | crash =>
      obtain ⟨-, hsure⟩ := h.crash hs
      exact ⟨rfl, hsure ▸ hfinal⟩
  | writeBack hsafe hk =>
      exact ⟨hall _ (hfinal.safe ▸ hsafe) hk, .crash hk _⟩
  | powerLoss hsure hk =>
      exact ⟨hall _ (hfinal.upTo ▸ hsure) hk, .crash hk _⟩

end Stands

/-- Every run has its tale. The induction is on the run; where an occurrence
leaves a choice, the tale follows it. -/
theorem tells (hjson : json.Lawful)
    (hrun : exec (Computer.step json cfg) os {} = some c)
    (hdisk : OpensOnDisk json cfg {} os) :
    ∃ t, Told json cfg os c t ∧ c.Stands json cfg t
      ∧ (c.system.phase.inCheckpoint = true → t.Final c.sure) := by
  induction os using List.reverseRecOn generalizing c with
  | nil =>
      cases hrun
      exact ⟨{}, .start, .tells (.empty json cfg), fun _ => .of_mine rfl rfl 0⟩
  | append_singleton os o ih =>
      obtain ⟨c₁, hos, hlast⟩ := Lib.exec_split hrun
      obtain ⟨c₂, hs, hnil⟩ := Option.bind_eq_some_iff.mp hlast
      cases hnil
      obtain ⟨t, htold, h, hfinal⟩ := ih hos hdisk.left
      obtain ⟨t', hgoes, h'⟩ := h.goes hjson (by
        rintro max reads rfl
        exact hdisk os [] max reads c₁ rfl hos) hs
      exact ⟨t', htold.step hs hgoes, .of h',
        h.final_step hjson hfinal hgoes hs⟩

/-- Nobody opens the directories right behind a crash. -/
def Unhurried (os : List Occurrence) : Prop :=
  os.IsChain fun o o' => o.isCrash = true → o'.opens = false

instance : DecidablePred Unhurried := fun os =>
  inferInstanceAs (Decidable (os.IsChain _))

/-- A session without a crash goes on. -/
theorem Unhurried.events (h : Unhurried os)
    (hlast : ∀ o ∈ os.getLast?, o.isCrash = false) {es : List Event}
    (hcrash : ∀ removed, .crash removed ∉ es) :
    Unhurried (os ++ es.map .system) := by
  have hnone : ∀ o ∈ es.map Occurrence.system, o.isCrash = false := by
    intro o ho
    obtain ⟨e, he, rfl⟩ := List.mem_map.mp ho
    cases e with
    | crash removed => exact absurd he (hcrash removed)
    | _ => rfl
  refine h.append (List.Pairwise.isChain ?_) fun o ho o' _ hcrash => ?_
  · refine List.Pairwise.imp_of_mem (fun ho _ _ hcrash => ?_)
      (List.pairwise_of_forall fun _ _ => trivial)
    rw [hnone _ ho] at hcrash
    cases hcrash
  · rw [hlast o ho] at hcrash
    cases hcrash

/-- In such a run they are on disk wherever they are opened: only a crash
leaves anything to write back, and behind it either that is done, or the power
fails. -/
theorem Unhurried.opensOnDisk (hchain : Unhurried os) (hjson : json.Lawful)
    (hrun : exec (Computer.step json cfg) os {} = some c) :
    OpensOnDisk json cfg {} os := by
  suffices hboth : OpensOnDisk json cfg {} os
      ∧ ∃ t, c.Tells json cfg t
        ∨ (∃ o ∈ os.getLast?, o.isCrash = true) ∧ c.Crashed json cfg t from
    hboth.1
  induction os using List.reverseRecOn generalizing c with
  | nil =>
      cases hrun
      refine ⟨?_, {}, .inl (.empty json cfg)⟩
      intro before after max reads c' hos
      simp at hos
  | append_singleton os o ih =>
      obtain ⟨c₁, hos, hlast⟩ := Lib.exec_split hrun
      obtain ⟨c₂, hs, hnil⟩ := Option.bind_eq_some_iff.mp hlast
      cases hnil
      obtain ⟨hfront, -, hbehind⟩ := List.isChain_append.mp hchain
      obtain ⟨hdisk, t, h⟩ := ih hfront hos
      have hopen : ∀ max reads, o = .system (.openWith max reads) →
          c₁.OnDisk := by
        rintro max reads rfl
        rcases h with h | ⟨⟨o, ho, hcrash⟩, -⟩
        · refine h.onDisk ?_
          obtain ⟨-, s, hstep, -⟩ := step_system hs
          cases System.Step.of_step hstep
          assumption
        · cases hbehind o ho _ rfl hcrash
      have hstands : c₁.Stands json cfg t :=
        h.elim .tells fun hcrashed => .crashed hcrashed.2
      obtain ⟨t', -, h'⟩ := hstands.goes hjson hopen hs
      refine ⟨hdisk.concat hos hopen, t', h'.imp_right fun hcrash => ?_⟩
      exact ⟨⟨o, by simp, hcrash.1⟩, hcrash.2⟩

end Computer

-- =========================================================== runs to look at

namespace Computer

/-- A computer follows its processes. -/
theorem exec_system {es : List Event} {s : System}
    (hfault : .fault ∉ es) (hcrash : ∀ removed, .crash removed ∉ es)
    (hrun : exec (System.step json cfg) es c.system = some s) :
    ∃ c', exec (Computer.step json cfg) (es.map .system) c = some c'
      ∧ c'.system = s := by
  induction es generalizing c with
  | nil =>
      cases hrun
      exact ⟨c, rfl, rfl⟩
  | cons e es ih =>
      obtain ⟨s₁, hs, hrest⟩ := Option.bind_eq_some_iff.mp hrun
      have hone : Computer.step json cfg (.system e) c
          = some (c.after e s₁) := by
        cases e with
        | fault => exact absurd List.mem_cons_self hfault
        | crash removed => exact absurd List.mem_cons_self (hcrash removed)
        | _ => exact Option.map_eq_some_iff.mpr ⟨s₁, hs, rfl⟩
      obtain ⟨c', hrun', hsystem⟩ := ih (c := c.after e s₁)
        (fun hin => hfault (List.mem_cons_of_mem _ hin))
        (fun removed hin => hcrash removed (List.mem_cons_of_mem _ hin))
        (by rw [system_after]; exact hrest)
      refine ⟨c', ?_, hsystem⟩
      rw [List.map_cons, exec, hone]
      exact hrun'

/-- The database open, on two empty directories. -/
def opened (max : Nat) : Computer where
  system := .opened max
  named := [true]

theorem exec_opened (json : Json) (cfg : WalConfig) {max : Nat}
    (hmax : 0 < max) :
    exec (Computer.step json cfg) ((openEmpty max).map .system) {}
      = some (opened max) := by
  have hrun := System.exec_open_empty json cfg hmax fun _ _ => 0
  obtain ⟨s₁, h₁, hrest⟩ := Option.bind_eq_some_iff.mp hrun
  obtain ⟨s₂, h₂, hlast⟩ := Option.bind_eq_some_iff.mp hrest
  obtain ⟨s₃, h₃, hnil⟩ := Option.bind_eq_some_iff.mp hlast
  cases hnil
  simp only [openEmpty, List.map_cons, List.map_nil, exec, Computer.step, h₁,
    after, Option.map_some, Option.bind_some, h₂, h₃]
  rfl

/-- A crash adds nothing to what is told. -/
theorem Told.before_crash {removed : List Nat}
    (h : Told json cfg (os ++ [.system (.crash removed)]) c t) :
    ∃ c₀, Told json cfg os c₀ t := by
  generalize hcat : os ++ [Occurrence.system (.crash removed)] = all at h
  cases h with
  | start => simp at hcat
  | step h hs hgoes =>
      obtain ⟨rfl, hlast⟩ := List.append_inj' hcat rfl
      cases hlast
      cases hgoes with
      | event hcrash => exact absurd rfl (hcrash removed)
      | crash => exact ⟨_, h⟩

private theorem Told.empty (h : Told json cfg os c t) (hos : os = []) :
    t = {} := by
  cases h with
  | start => rfl
  | step => simp at hos

/-- Of one session its events tell it all. -/
theorem Told.of_events {max : Nat} {reads : Nat → Nat → Nat}
    {es : List Event} (h : Told json cfg os c t)
    (hos : os = .system (.openWith max reads) :: es.map .system)
    (hcrash : ∀ removed, .crash removed ∉ es)
    (hopen : ∀ max reads, .openWith max reads ∉ es) :
    t = (Event.openWith max reads :: es).foldl Tale.next {} := by
  induction h generalizing es with
  | start => cases hos
  | @step os o _ _ _ _ h _ hgoes ih =>
      rcases List.eq_nil_or_concat es with rfl | ⟨es, e, rfl⟩
      · change _ = [] ++ [_] at hos
        obtain ⟨rfl, hlast⟩ := List.append_inj' hos rfl
        cases hlast
        obtain rfl := h.empty rfl
        cases hgoes with
        | event _ hopen => exact absurd rfl (hopen max reads)
        | opens hsafe hk =>
            obtain rfl := Nat.le_zero.mp hk
            rfl
      · rw [List.concat_eq_append] at hos hcrash hopen ⊢
        rw [List.map_append, ← List.cons_append] at hos
        obtain ⟨rfl, hlast⟩ := List.append_inj' hos rfl
        cases hlast
        have hbefore := ih rfl
          (fun removed hin => hcrash removed (List.mem_append_left _ hin))
          (fun max reads hin => hopen max reads (List.mem_append_left _ hin))
        cases hgoes with
        | event =>
            rw [hbefore, ← List.cons_append, List.foldl_concat]
        | opens =>
            exact absurd (List.mem_append_right _ List.mem_cons_self)
              (hopen _ _)
        | crash =>
            exact absurd (List.mem_append_right _ List.mem_cons_self)
              (hcrash _)

end Computer

-- ============================================================== a power loss

theorem Computer.step_powerLoss {loss : Loss}
    (hs : Computer.step json cfg (.powerLoss loss) c = some c') :
    c'.system.phase = .down := by
  simp only [Computer.step] at hs
  split at hs
  · obtain ⟨log, -, rfl⟩ := Option.map_eq_some_iff.mp hs
    rfl
  · cases hs

/-- Whatever has happened, power losses included, the power may fail, and
the directories then open with the first of the writes that stood: all up to
the last whose LSN was certain, for `sync_loop` had synced it, or a cut had
returned since, and perhaps more.

The power loss is one more step of the run, so that what is told of the
directories it leaves is what `System.Tells.recovers` asks for. -/
theorem power_loss_recovery (hjson : json.Lawful) (htotal : json.Total)
    (hrun : exec (Computer.step json cfg) os {} = some c)
    (hdisk : Computer.OpensOnDisk json cfg {} os)
    (hok : ∀ batch err, .system (.write batch (.error err)) ∉ os) :
    ∃ t, Computer.Told json cfg os c t
      ∧ ∀ loss c', Computer.step json cfg (.powerLoss loss) c = some c' →
        ∃ k, t.upTo c.sure ≤ k ∧ k ≤ t.writes.length
          ∧ c'.system.Recovers json cfg (t.writes.take k) := by
  obtain ⟨t, htold, h, -⟩ := Computer.tells hjson hrun hdisk
  refine ⟨t, htold, fun loss c' hs => ?_⟩
  obtain ⟨k, hsure, hk, h'⟩ := h.powerLoss hs
  refine ⟨k, hsure, hk, ?_⟩
  rw [← t.writes_crash k]
  exact h'.system.recovers hjson htotal (htold.orderly hok)
    (Computer.step_powerLoss hs)

/-- Two writes, of which the syncer has got the first. The process crashes
while the flusher writes the second, and then the power fails: the second
record is torn. What is left opens, with the first sample, and with the
second or not. The run up to there is computed; that it opens, and how many
of the writes it has, is the theorem. -/
theorem power_loss_recovery_torn :
    ∃ (os : List Occurrence) (loss : Loss) (c c' : Computer)
      (es : List Event) (s : System) (k : Nat),
      exec (Computer.step Json.sample ⟨100, 0⟩)
        (os ++ [.system (.crash [])]) {} = some c
      ∧ Computer.step Json.sample ⟨100, 0⟩ (.powerLoss loss) c = some c'
      ∧ c.system.log.map (·.bytes.length) = [115] ∧ c.sure = 70
      ∧ c'.system.log.map (·.bytes.length) = [100]
      ∧ exec (System.step Json.sample ⟨100, 0⟩)
          (.openWith 4 (fun _ _ => 0) :: es) c'.system = some s
      ∧ 1 ≤ k ∧ k ≤ 2
      ∧ s.query Json.sample [] ⟨0, 9⟩ = some ((DbState.inMemory
          ([writeAt 5, writeAt 6].take k)).query Json.sample ∅ [] ⟨0, 9⟩) := by
  let loss : Loss := ⟨∅, fun _ => false, false, [some 100]⟩
  let session : List Event := .write (writeAt 5) (.ok 70)
    :: List.replicate 8 (.wal (.flusher 70))
    ++ List.replicate 4 (.wal (.syncer true))
    ++ .write (writeAt 6) (.ok 115) :: List.replicate 5 (.wal (.flusher 70))
  have hboth : ((exec (Computer.step Json.sample ⟨100, 0⟩)
      (session.map .system ++ [.system (.crash [])]) (.opened 4)).bind fun c =>
      (Computer.step Json.sample ⟨100, 0⟩ (.powerLoss loss) c).map fun c' =>
        (c.system.log.map (·.bytes.length),
          c'.system.log.map (·.bytes.length), c.sure))
      = some ([115], [100], 70) := by decide +kernel
  obtain ⟨c, hrest, hmap⟩ := Option.bind_eq_some_iff.mp hboth
  obtain ⟨c', hloss, heq⟩ := Option.map_eq_some_iff.mp hmap
  obtain ⟨hbefore, hafter, hsure⟩ :
      c.system.log.map (·.bytes.length) = [115]
        ∧ c'.system.log.map (·.bytes.length) = [100] ∧ c.sure = 70 := by
    simpa using heq
  have hrun := Lib.exec_append
    (Computer.exec_opened Json.sample ⟨100, 0⟩ (Nat.succ_pos 3)) hrest
  rw [← List.append_assoc] at hrun
  obtain ⟨t, htold, hsurvives⟩ := power_loss_recovery Json.sample_lawful
    Json.sample_total hrun
    (Computer.Unhurried.opensOnDisk (by decide) Json.sample_lawful hrun)
    (by simp [openEmpty, session])
  obtain ⟨c₀, htold⟩ := htold.before_crash
  have hall : (openEmpty 4).map .system ++ session.map .system
      = Occurrence.system (.openWith 4 fun _ _ => 0)
        :: (Event.create :: .syncDir :: session).map .system := rfl
  obtain rfl := htold.of_events hall (by simp [session]) (by simp [session])
  obtain ⟨k, hleast, hmost, hrecovers⟩ := hsurvives loss c' hloss
  have hdown := Computer.step_powerLoss hloss
  obtain ⟨es, s, hes, hopened, hready⟩ :=
    hrecovers.opens.reopen hdown (Nat.succ_ne_zero 3) fun _ _ => 0
  refine ⟨_, loss, c, c', es, s, k, hrun, hloss, hbefore, hsure, hafter,
    hopened, Nat.le_trans ?_ hleast, hmost, hrecovers.answers 4 _ es s hes
      hopened hready [] ⟨0, 9⟩ (by decide)⟩
  rw [hsure]
  decide

-- ============================================================ behind the cut

/-- From a checkpoint on nothing is lost, until the next write. The
induction is on the run, and each occurrence leaves all the writes there
are, because all of them are safe and certain, and stay so. -/
private theorem Computer.Stands.outlasts (hjson : json.Lawful)
    (h : c.Stands json cfg t) (hfinal : t.Final c.sure)
    (hdisk : OpensOnDisk json cfg c os)
    (hnone : ∀ batch lsn, .system (.write batch (.ok lsn)) ∉ os)
    (hrun : exec (Computer.step json cfg) os c = some c') :
    ∃ t', c'.Stands json cfg t' ∧ t'.writes = t.writes := by
  induction os generalizing c t with
  | nil =>
      cases hrun
      exact ⟨t, h, rfl⟩
  | cons o os ih =>
      obtain ⟨c₁, hs, hrest⟩ := Option.bind_eq_some_iff.mp hrun
      obtain ⟨t₁, hgoes, h₁⟩ := h.goes hjson (by
        rintro max reads rfl
        exact hdisk [] os max reads c rfl rfl) hs
      obtain ⟨hwrites, hfinal₁⟩ := h.final_next hjson hfinal hgoes (by
        rintro batch lsn rfl
        exact hnone batch lsn List.mem_cons_self) hs
      obtain ⟨t', h', hsame⟩ := ih (.of h₁) hfinal₁ (hdisk.tail hs)
        (fun batch lsn hin => hnone batch lsn (List.mem_cons_of_mem _ hin))
        hrest
      exact ⟨t', h', hsame.trans hwrites⟩

/-- From a checkpoint on, whatever becomes of it, of the processes that come
after, and of the power, and until the next write is accepted, the
directories open, and an open database has of each label set exactly what
was accepted. What stands at the end is what stood at the checkpoint, by
`Stands.outlasts`, and a query finds of each label set what stands. -/
theorem checkpoint_outlasts (hjson : json.Lawful) (htotal : json.Total)
    (hrun : exec (Computer.step json cfg) os {} = some c)
    (hpoint : c.system.phase.inCheckpoint = true) {more : List Occurrence}
    (hdisk : Computer.OpensOnDisk json cfg {} (os ++ more))
    (hnone : ∀ batch lsn, .system (.write batch (.ok lsn)) ∉ more)
    (hafter : exec (Computer.step json cfg) more c = some c') :
    ∃ t, Computer.Told json cfg os c t
      ∧ (c'.system.phase = .down → c'.system.Opens json cfg)
      ∧ (c'.system.Ready → ∀ range : TimeRange, range.start ≤ range.end_ →
        ∃ results, c'.system.query json [] range = some (.ok results)
          ∧ ∀ ls, samplesFor results ls = (extend Sample.timestamp []
              (written t.writes ls)).filter (·.inTimerange range)) := by
  obtain ⟨t, htold, h, hfinal⟩ := Computer.tells hjson hrun hdisk.left
  obtain ⟨t', h', hwrites⟩ :=
    h.outlasts hjson (hfinal hpoint) (hdisk.right hrun) hnone hafter
  refine ⟨t, htold, fun hdown => ?_, fun hready range hrange => ?_⟩
  · obtain ⟨k, -, -, hrests⟩ := h'.rests hdown
    exact (System.Tells.down hdown hrests).opens hjson htotal hdown
  · have hup := h'.up hready
    obtain ⟨results, hquery, hsamples⟩ := hup.system.samples hready hrange
    refine ⟨results, hquery, fun ls => ?_⟩
    rw [hsamples ls, hwrites]

/-- A flush has made its segment, the process crashes, and the power fails
before the name of the segment is on disk: it is gone. Its sample is still
in the log, and what is opened then has it, once. The theorem is used twice:
for what the power loss leaves, to open it, and for what has been opened. -/
theorem checkpoint_outlasts_cut :
    ∃ (os : List Occurrence) (loss : Loss) (es : List Event)
      (c c' : Computer) (results : List SeriesResult),
      exec (Computer.step Json.sample ⟨100, 0⟩) os {} = some c
      ∧ c.system.data.keys = [.segment 0] ∧ loss.data = ∅
      ∧ exec (Computer.step Json.sample ⟨100, 0⟩) (.system (.crash [])
          :: .powerLoss loss :: es.map .system) c = some c'
      ∧ c'.system.query Json.sample [] ⟨0, 9⟩ = some (.ok results)
      ∧ samplesFor results ⟨[⟨"host", "a"⟩]⟩ = [⟨5, 7⟩]
      ∧ ∀ ls, ls ≠ ⟨[⟨"host", "a"⟩]⟩ → samplesFor results ls = [] := by
  let loss : Loss := ⟨∅, fun _ => false, false, [some 70, some 0]⟩
  let session : List Event := .write (writeAt 5) (.ok 70) :: .flush
    :: [.wal (.cutLock 0), .wal (.cutRequest 0)]
    ++ List.replicate 17 (.wal (.flusher 70)) ++ [.wal (.cutReturn 0 1)]
    ++ List.replicate 6 (.store 200)
  have hboth : ((exec (Computer.step Json.sample ⟨100, 0⟩)
      (session.map .system) (.opened 4)).bind fun c =>
      (exec (Computer.step Json.sample ⟨100, 0⟩)
        [.system (.crash []), .powerLoss loss] c).map fun _ =>
        (c.system.phase.inCheckpoint, c.system.data.keys))
      = some (true, [.segment 0]) := by decide +kernel
  obtain ⟨c, hrest, hmap⟩ := Option.bind_eq_some_iff.mp hboth
  obtain ⟨c₁, hafter, heq⟩ := Option.map_eq_some_iff.mp hmap
  obtain ⟨hpoint, hkeys⟩ : c.system.phase.inCheckpoint = true
      ∧ c.system.data.keys = [.segment 0] := by
    simpa using heq
  have hrun := Lib.exec_append
    (Computer.exec_opened Json.sample ⟨100, 0⟩ (Nat.succ_pos 3)) hrest
  have hlost := Lib.exec_append hrun hafter
  have hchain : Computer.Unhurried (((openEmpty 4).map .system
      ++ session.map .system) ++ [.system (.crash []), .powerLoss loss]) := by
    decide
  -- what is left can be opened
  obtain ⟨t₁, -, hopens, -⟩ := checkpoint_outlasts Json.sample_lawful
    Json.sample_total hrun hpoint
    (hchain.opensOnDisk Json.sample_lawful hlost) (by simp) hafter
  have hdown : c₁.system.phase = .down := by
    obtain ⟨c₂, -, hlast⟩ := Option.bind_eq_some_iff.mp hafter
    obtain ⟨c₃, hloss, hnil⟩ := Option.bind_eq_some_iff.mp hlast
    cases hnil
    exact Computer.step_powerLoss hloss
  obtain ⟨es, s, hes, hopened, hready⟩ :=
    (hopens hdown).reopen hdown (Nat.succ_ne_zero 3) fun _ _ => 0
  have hnot : ∀ e : Event, e.goesOn = false → e ∉ es := fun e he hin => by
    rw [hes e hin] at he
    cases he
  obtain ⟨c', hagain, rfl⟩ := Computer.exec_system
    (by simp [hnot .fault rfl])
    (by simp [fun removed => hnot (.crash removed) rfl]) hopened
  have hlast := Lib.exec_append hafter hagain
  have hwhole := Lib.exec_append hlost hagain
  obtain ⟨t, htold, -, hquery⟩ := checkpoint_outlasts Json.sample_lawful
    Json.sample_total hrun hpoint (by
      rw [← List.append_assoc]
      refine (hchain.events (by simp [Occurrence.isCrash]) ?_).opensOnDisk
        Json.sample_lawful hwhole
      simp [fun removed => hnot (.crash removed) rfl])
    (by simp [fun batch lsn => hnot (.write batch (.ok lsn)) rfl]) hlast
  have hall : (openEmpty 4).map .system ++ session.map .system
      = Occurrence.system (.openWith 4 fun _ _ => 0)
        :: (Event.create :: .syncDir :: session).map .system := rfl
  obtain rfl := htold.of_events hall (by simp [session]) (by simp [session])
  obtain ⟨results, hanswer, hsamples⟩ := hquery hready ⟨0, 9⟩ (by decide)
  refine ⟨_, loss, _, c, c', results, hrun, hkeys, rfl, hlast, hanswer, ?_,
    fun ls hls => ?_⟩
  · rw [hsamples]
    decide +kernel
  · rw [hsamples]
    have hnone : written [writeAt 5] ls = [] := by
      simp [written, writeAt, WriteBatch.samplesOf, Ne.symm hls]
    exact congrArg (fun xs => (extend Sample.timestamp [] xs).filter
      (·.inTimerange ⟨0, 9⟩)) hnone

end Tsdb
