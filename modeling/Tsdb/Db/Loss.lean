/-
What a power loss leaves of a computer.

The directories it leaves are opened by a process that knows nothing of the
one before, so what has to be shown is `Rests`: of some first writes, at
least those with an LSN that is certain, the log and the segments have
everything.

# The segments

In most phases a power loss leaves all segments (`loss_holds`): their names
are on disk and their bytes are synced. Between the rename of a flush and
its last call there may be one less. The log still has its records then,
for nothing has been removed yet, and as far as anybody who opens the
directories can tell the flush has not got to its rename
(`Chapter.Tells.fresh`).

# The log

Where nobody has the log open it is certain, and a power loss leaves it as
it is. A running one loses records off its end, none of which was certain
(`Tethered.outage`, which is `Wal.Journal.outage` and the tale). In
`remove_through` each removed file may be back, or not; all of these
directories lie between the one with all of them back and the one with
none, and all have the same writes (`loss_running`).

# Behind a crash

A crash changes nothing on disk, so the power may as well have failed in
the moment of the crash; all that may have happened in between is that some
more files are gone, if the crash was in `remove_through`
(`Spent.unlink_all`). This is why the lemma is about a crash and a power
loss behind it (`crash_powerLoss`), and a power loss alone is a case of it
(`powerLoss`). The phases are those of `Logged`.
-/
import Tsdb.Db.Directory
import Tsdb.Db.Synced

namespace Tsdb

open Wal (Disk LogFile Machine WalConfig firstId)

variable {json : Json} {cfg : WalConfig} {t : Tale} {data data' : DataDir}
  {disk disk' : Disk} {m : Machine} {c c₁ c' : Computer} {db : Db}

-- ============================================================== a power loss

theorem Leaves.calm {m : Machine} (h : Leaves json t data disk m) :
    Leaves json t data disk m.calm := by
  obtain ⟨old, actions, log, hand, buffer, n, h⟩ := h
  exact ⟨old, actions, log, hand, buffer, n, h.journal.calm, h.noted, h.held,
    h.standing⟩

/-- From a running log it takes writes that were not certain, whichever of
the files are named. -/
theorem Tethered.outage {sure : Nat} (h : Tethered cfg t sure disk m)
    (hnames : disk'.Relinked disk) (hleaves : Leaves json t data disk' m.calm)
    {kept : List (Option Nat)} {left : Disk}
    (hloss : disk'.powerLoss kept = some left) :
    ∃ k, t.upTo sure ≤ k ∧ k ≤ t.writes.length
      ∧ Rests json (t.crash k) data left := by
  obtain ⟨count, hanchored, hcount⟩ := h
  obtain ⟨base, log, hand, rest, hsim, rfl⟩ := hanchored.counted
  have hsim' : Wal.Sim base log hand rest disk' m.calm :=
    hsim.frame (hnames.map_eq fun _ => rfl) (hnames.map_eq fun _ => rfl) rfl
      rfl rfl rfl rfl rfl rfl
  exact hleaves.outage (hanchored.secure.relinked hnames) hsim' hcount hloss

/-- What is removed while the process stops is as what has been removed
before: the segments have it. -/
private theorem Spent.unlink_all {named : List Bool} {removed : List Nat}
    (hgone : Wal.Gone named disk m)
    (hspent : Spent json t data (disk.shadow named) m.calm)
    (hids : ∀ id ∈ removed, id < m.shared.activeSegment)
    (hunlink : removed.foldlM Disk.unlink disk = some disk') :
    Wal.Gone named disk' m
      ∧ Spent json t data (disk'.shadow named) m.calm := by
  induction removed generalizing disk with
  | nil =>
      cases hunlink
      exact ⟨hgone, hspent⟩
  | cons id removed ih =>
      obtain ⟨disk₁, hone, hrest⟩ := Option.bind_eq_some_iff.mp hunlink
      have hid := hids id List.mem_cons_self
      have hspent₁ := (hspent.unlink hid hone rfl).whole t.whole
      exact ih (hgone.unlink hid hone rfl) hspent₁
        (fun j hj => hids j (List.mem_cons_of_mem _ hj)) hrest

theorem relinked_unlink_all {removed : List Nat}
    (hunlink : removed.foldlM Disk.unlink disk = some disk') :
    disk'.Relinked disk := by
  induction removed generalizing disk with
  | nil =>
      cases hunlink
      rfl
  | cons id removed ih =>
      obtain ⟨disk₁, hone, hrest⟩ := Option.bind_eq_some_iff.mp hunlink
      exact (ih hrest).trans (Disk.relinked_unlink hone)

/-- The segments a power loss leaves while the last has not got its name on
disk: all, or all but that one. The log still has what that one has, so the
base of the chapter is the segments without it, as before the flush. -/
theorem Chapter.Tells.fresh {ch : Chapter} (h : ch.Tells json t data disk db)
    {who : Caller} {cut : Nat} {job : FlushJob}
    (hpc : db.pc = .flush who cut job) (hstage : job.stage = .syncDir)
    {store : SegmentStore} (hstore : db.state.store = some store)
    (hseg : ∀ k, k ≠ store.nextNumber →
      data'.lookup (.segment k) = data.lookup (.segment k))
    (hmis : ∀ raw, data'.lookup (.misnamed raw)
      = data.lookup (.misnamed raw))
    (hnone : data'.lookup (.segment store.nextNumber) = none) :
    Leaves json t data' disk db.wal := by
  cases h.good with
  | failed hfailed _ =>
      rw [h.able] at hfailed
      cases hfailed
  | settled hnot _ => exact absurd hpc (hnot _ _ _)
  | flushing hpc' hflush =>
      rw [hpc] at hpc'
      cases hpc'
      obtain ⟨store', hstore', -, hdir⟩ := hflush.store
      rw [hstore] at hstore'
      cases hstore'
      rcases hdir with ⟨hnot, -, -⟩ | ⟨-, hheld⟩
      · exact absurd hstage hnot
      · exact ⟨ch.old, ch.actions, ch.log, ch.hand, ch.buffer, ch.inert,
          h.journal, h.noted, h.held, ch.ledger.files, ch.lnames, ch.done,
          ch.rest, h.writes, hheld.front hseg hmis hnone, hflush.valid, h.base,
          ch.defined, h.kept⟩

namespace Computer

/-- A flush between its last two calls. -/
private theorem exists_unsynced {n : Nat}
    (h : (Phase.running db).unsynced = some n) :
    ∃ who cut job store, db.pc = .flush who cut job
      ∧ db.state.store = some store ∧ job.stage = .syncDir
      ∧ n = store.nextNumber := by
  obtain ⟨⟨store, job⟩, hflushing, hunsynced⟩ := Option.bind_eq_some_iff.mp h
  obtain ⟨hstore, who, cut, hpc⟩ := Phase.flushing_some hflushing
  simp only [SegmentStore.unsynced] at hunsynced
  split at hunsynced
  · rename_i hstage
    cases hunsynced
    exact ⟨who, cut, job, store, hpc, hstore, hstage, rfl⟩
  · cases hunsynced

namespace Tells

variable {loss : Loss}

/-- Of the segments it leaves all, if none is waiting for the sync of its
directory: each is the one that is on disk, by `Backed`. -/
private theorem loss_holds (h : c.Tells json cfg t)
    (hleave : c.entries.mayLeave c.system.data c.synced loss.data = true)
    (hnone : c.system.phase.unsynced = none) :
    ∀ files, c.system.data.Holds json files → loss.data.Holds json files := by
  have hlookup : ∀ name : DataName, name.isTemporary = false →
      loss.data.lookup name = c.system.data.lookup name := by
    intro name hname
    rcases h.data.lookup hleave hname with hsame | ⟨n, hn, -, -⟩
    · exact hsame
    · rw [hnone] at hn
      cases hn
  exact fun files hheld =>
    hheld.congr (fun n => hlookup _ rfl) fun raw => hlookup _ rfl

/-- What a process leaves of an open database, if nothing has been removed.
One segment may be on its way to the disk; the power loss leaves it, and
nothing is missing, or does not, and it is as if the flush had not got to
its rename. -/
private theorem loss_leaves (h : c.Tells json cfg t)
    (hleave : c.entries.mayLeave c.system.data c.synced loss.data = true)
    (hphase : c.system.phase = .running db) :
    Leaves json t loss.data c.system.log db.wal := by
  cases h.system with
  | failed hphase' hrefuses hleaves =>
      rw [hphase] at hphase'
      cases hphase'
      refine hleaves.congr (h.loss_holds hleave ?_)
      rw [hphase]
      refine Phase.unsynced_none (Phase.flushing_none fun who cut job => ?_)
      rw [hrefuses.pc]
      exact Pc.noConfusion
  | @running _ ch hphase' hch =>
      rw [hphase] at hphase'
      cases hphase'
      cases hunsynced : c.system.phase.unsynced with
      | none =>
          exact (hch.leaves (List.nil_sublist _) rfl).congr
            (h.loss_holds hleave hunsynced)
      | some n =>
          obtain ⟨who, cut, job, store, hpc, hstore, hstage, rfl⟩ :=
            exists_unsynced (hphase ▸ hunsynced)
          have hlookup : ∀ name : DataName, name.isTemporary = false →
              name ≠ .segment store.nextNumber →
              loss.data.lookup name = c.system.data.lookup name := by
            intro name hname hne
            rcases h.data.lookup hleave hname with hsame | ⟨n, hn, rfl, -⟩
            · exact hsame
            · rw [hunsynced] at hn
              cases hn
              exact absurd rfl hne
          have hnew : (DataName.segment store.nextNumber).isTemporary = false :=
            rfl
          rcases h.data.lookup hleave hnew with hsame | hlost
          · refine (hch.leaves (List.nil_sublist _) rfl).congr
              fun files hheld => hheld.congr (fun k => ?_)
                fun raw => hlookup _ rfl (by simp)
            by_cases hk : k = store.nextNumber
            · rw [hk]
              exact hsame
            · exact hlookup _ rfl (by simpa using hk)
          · obtain ⟨-, -, -, hnone⟩ := hlost
            exact hch.fresh hpc hstage hstore
              (fun k hk => hlookup _ rfl (by simpa using hk))
              (fun raw => hlookup _ rfl (by simp)) hnone
  | down hphase' | opening hphase' | closing hphase' =>
      rw [hphase] at hphase'
      cases hphase'

/-- What has been removed, and its records. -/
theorem before_removal (h : c.Tells json cfg t)
    (hphase : c.system.phase = .running db) {who : Caller} {through : Nat}
    (hpc : db.pc = .remove who through)
    (hnamed : c.system.log.Unremoved c.named
      ∨ Removing json t c.system.data c.named c.system.log db) :
    Wal.Gone c.named c.system.log db.wal
      ∧ Spent json t c.system.data (c.system.log.shadow c.named)
        db.wal.calm := by
  rcases hnamed with hunremoved | hremoving
  · obtain ⟨ch, hch⟩ := h.system.busy hphase (by rw [hpc]; exact Pc.noConfusion)
    refine ⟨hunremoved.gone _, ?_⟩
    rw [Disk.shadow, hunremoved.back]
    exact Spent.removing hch hpc
  · exact ⟨hremoving.gone, hremoving.spent⟩

/-- Only a removal has files to remove. -/
private theorem toRemove_nil (h : c.Tells json cfg t)
    (hphase : c.system.phase = .running db)
    (hpc : ∀ who through, db.pc ≠ .remove who through) :
    c.system.phase.toRemove = [] := by
  have hidle : db.wal.removing db.calls = .idle := by
    cases h.system with
    | running hphase' hch =>
        rw [hphase] at hphase'
        cases hphase'
        exact hch.calls.idle hpc
    | failed hphase' hrefuses =>
        rw [hphase] at hphase'
        cases hphase'
        exact hrefuses.idle
    | down hphase' | opening hphase' | closing hphase' =>
        rw [hphase] at hphase'
        cases hphase'
  rw [hphase]
  simp only [Phase.toRemove, hidle]

/-- What is left of the log of an open database that stops, `log`, with the
files back that are. -/
private theorem loss_running (h : c.Tells json cfg t)
    (hleave : c.entries.mayLeave c.system.data c.synced loss.data = true)
    (hphase : c.system.phase = .running db)
    (hnamed : c.system.log.Unremoved c.named
      ∨ Removing json t c.system.data c.named c.system.log db)
    {removed : List Nat} (hremoved : removed.Sublist c.system.phase.toRemove)
    {log : Disk} (hlog : removed.foldlM Disk.unlink c.system.log = some log) :
    Leaves json t loss.data (log.back c.named loss.back) db.wal.calm := by
  by_cases hpc : ∃ who through, db.pc = .remove who through
  · obtain ⟨who, through, hpc⟩ := hpc
    have hnone : c.system.phase.unsynced = none := by
      rw [hphase]
      refine Phase.unsynced_none (Phase.flushing_none fun who cut job => ?_)
      rw [hpc]
      exact Pc.noConfusion
    obtain ⟨hbefore, hspent⟩ := h.before_removal hphase hpc hnamed
    obtain ⟨hgone, hspent⟩ := Spent.unlink_all hbefore hspent
      (fun id hid => h.system.toRemove_lt hphase id (hremoved.subset hid)) hlog
    refine (hspent.still (Disk.still_back loss.back)
      fun i f f' hf hf' hlinked hlost => ?_).leaves.congr
        (h.loss_holds hleave hnone)
    rw [Disk.shadow, Disk.getElem?_back, Option.map_eq_some_iff] at hf
    rw [Disk.getElem?_back, Option.map_eq_some_iff] at hf'
    obtain ⟨g, hg, rfl⟩ := hf
    obtain ⟨g', hg', rfl⟩ := hf'
    rw [hg] at hg'
    cases hg'
    have hno : g.linked = false := (Bool.or_eq_false_iff.mp hlost).1
    refine hgone i g hg ?_ hno
    replace hlinked : (g.linked || (true && c.named.getD i false)) = true :=
      hlinked
    rwa [hno, Bool.false_or, Bool.true_and] at hlinked
  · -- no other call removes files
    have hno : ∀ who through, db.pc ≠ .remove who through :=
      fun who through hremove => hpc ⟨who, through, hremove⟩
    rw [h.toRemove_nil hphase hno, List.sublist_nil] at hremoved
    subst hremoved
    cases hlog
    have hunremoved := hnamed.resolve_right fun hremoving => by
      obtain ⟨who, through, hremove⟩ := hremoving.pc
      exact hno who through hremove
    rw [hunremoved.back]
    exact (h.loss_leaves hleave hphase).calm

/-- What is left of a log of which `Wal::open` has just created a file: the
directory may have the name of it or not. -/
private theorem loss_created (h : c.Tells json cfg t)
    (hleave : c.entries.mayLeave c.system.data c.synced loss.data = true)
    {o : Opening} {before left : Disk}
    (hphase : c.system.phase
      = .opening o (.syncDir (firstId before) before.length))
    (hbefore : c.system.log = before ++ [{ id := firstId before }])
    (hcertain : before.Certain) (hnamed : before.Unremoved c.named)
    (hrests : Rests json t c.system.data before)
    (hleft : (c.system.log.back c.named loss.back).powerLoss loss.kept
      = some left) :
    ∃ k, t.upTo c.sure ≤ k ∧ k ≤ t.writes.length
      ∧ Rests json (t.crash k) loss.data left := by
  have hall := h.loss_holds hleave (by rw [hphase]; rfl)
  have hunremoved : c.system.log.Unremoved c.named := by
    refine hnamed.entries (.inr ?_)
    rw [hbefore]
    exact List.map_append ..
  rw [hunremoved.back, hbefore] at hleft
  obtain ⟨kept₁, kept₂, front, back, hfront, hback, rfl⟩ :=
    Disk.powerLoss_append hleft
  have hsame := hcertain.powerLoss hfront
  obtain ⟨kept₃, none', hnil, hlast⟩ := Disk.powerLoss_cons hback
  obtain rfl := Disk.powerLoss_nil hnil
  rcases hlast with ⟨-, -, rfl⟩ | ⟨n, -, -, -, rfl⟩
  · -- the new file is gone
    rw [List.append_nil]
    exact (hrests.congr hall).outage hsame c.sure
  · obtain ⟨g, lnames, done, rest, n, recs, htelling⟩ :=
      h.system.telling hphase
    refine (htelling.rests.congr hall).outage ?_ c.sure
    rw [hbefore]
    unfold Disk.Same at hsame ⊢
    rw [List.map_append, List.map_append, hsame, List.take_nil]
    rfl

/-- The power fails behind a crash: the directories have the first of the
writes, all of them up to the last whose LSN was certain.

If a truncated file is as long as before, the log is the one in front of the
truncation, which was certain. Otherwise it is that of the process, with the
files back that are back, and the phase says what is known of it. -/
theorem crash_powerLoss (h : c.Tells json cfg t) {removed : List Nat}
    (hcrash : step json cfg (.system (.crash removed)) c = some c₁)
    (hs : step json cfg (.powerLoss loss) c₁ = some c') :
    ∃ k, t.upTo c.sure ≤ k ∧ k ≤ t.writes.length
      ∧ c'.Tells json cfg (t.crash k) := by
  obtain ⟨s, hstep, rfl⟩ := Option.map_eq_some_iff.mp hcrash
  cases System.Step.of_step hstep with
  | @crash _ log hremoved hlog =>
    obtain ⟨hleave, hs⟩ := Option.ite_none_right_eq_some.mp hs
    obtain ⟨left, hloss, rfl⟩ := Option.map_eq_some_iff.mp hs
    have hlost : (c.after (.crash removed)
        { c.system with log, phase := .down }).lostLog loss
        = if loss.uncut then c.uncut.getD (log.back c.named loss.back)
          else log.back c.named loss.back := rfl
    rw [hlost] at hloss
    suffices hrests : ∃ k, t.upTo c.sure ≤ k ∧ k ≤ t.writes.length
        ∧ Rests json (t.crash k) loss.data left by
      obtain ⟨k, hsure, hk, hrests⟩ := hrests
      exact ⟨k, hsure, hk, tells_stored hrests (Disk.certain_powerLoss hloss)⟩
    have hnone : c.system.phase.toRemove = [] → log = c.system.log := by
      intro hnil
      rw [hnil, List.sublist_nil] at hremoved
      subst hremoved
      cases hlog
      rfl
    by_cases huncut : ∃ disk, loss.uncut = true ∧ c.uncut = some disk
    · -- the file is as long as it was
      obtain ⟨disk, hyes, hdisk⟩ := huncut
      obtain ⟨⟨o, id, next, hphase⟩, hcertain, hrests⟩ := h.uncut disk hdisk
      rw [if_pos hyes, hdisk, Option.getD_some] at hloss
      exact (hrests.congr (h.loss_holds hleave (by rw [hphase]; rfl))).outage
        (hcertain.powerLoss hloss) c.sure
    · have hleft : (log.back c.named loss.back).powerLoss loss.kept
          = some left := by
        split at hloss
        · rename_i hyes
          cases hdisk : c.uncut with
          | none =>
              rw [hdisk] at hloss
              exact hloss
          | some disk => exact absurd ⟨disk, hyes, hdisk⟩ huncut
        · exact hloss
      cases h.logged with
      | down hphase hcertain hnamed =>
          rw [hnone (by rw [hphase]; rfl), hnamed.back] at hleft
          exact ((h.system.rests hphase).congr
            (h.loss_holds hleave (by rw [hphase]; rfl))).outage
            (hcertain.powerLoss hleft) c.sure
      | opening hphase _ hcertain hnamed =>
          rw [hnone (by rw [hphase]; rfl), hnamed.back] at hleft
          obtain ⟨g, lnames, done, rest, n, recs, htelling⟩ :=
            h.system.telling hphase
          exact (htelling.rests.congr
            (h.loss_holds hleave (by rw [hphase]; rfl))).outage
            (hcertain.powerLoss hleft) c.sure
      | created hphase hbefore hcertain hnamed hrests =>
          rw [hnone (by rw [hphase]; rfl)] at hleft
          exact h.loss_created hleave hphase hbefore hcertain hnamed hrests
            hleft
      | running hphase htethered hnamed =>
          exact htethered.outage
            ((Disk.relinked_back _ _).trans (relinked_unlink_all hlog))
            (h.loss_running hleave hphase hnamed hremoved hlog) hleft
      | closing hphase htethered hnamed =>
          rw [hnone (by rw [hphase]; rfl), hnamed.back] at hleft
          exact htethered.outage rfl (((h.system.closes hphase).congr
            (h.loss_holds hleave (by rw [hphase]; rfl))).calm) hleft

/-- The power fails. Whether the process crashes in the same moment makes no
difference to what is left. -/
theorem powerLoss (h : c.Tells json cfg t)
    (hs : step json cfg (.powerLoss loss) c = some c') :
    ∃ k, t.upTo c.sure ≤ k ∧ k ≤ t.writes.length
      ∧ c'.Tells json cfg (t.crash k) := by
  have hcrash : step json cfg (.system (.crash [])) c
      = some (c.after (.crash []) { c.system with phase := .down }) := by
    refine Option.map_eq_some_iff.mpr ⟨_, ?_, rfl⟩
    exact if_pos (List.nil_sublist _)
  exact h.crash_powerLoss hcrash hs

end Tells

end Computer

end Tsdb
