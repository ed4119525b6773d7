/-
The data directory in a power loss.

A name is on disk once the directory has been synced, and the bytes of a
file once the file has. `flush` syncs the file under its temporary name,
renames it, and then syncs the directory: so at any time all is on disk but
for the temporary file and, between the last two calls, the name of the new
segment (`DataDir.Backed`).

# What is kept of a directory

Three things: the directory as it is, as it was when it was last synced
(`entries`), and how many bytes of each file have been synced. A power
loss leaves for each name what one of the two directories has, with at
least the synced bytes of it (`DataDir.mayLeave`). A temporary file may be
left in any state, since nothing looks at one.

# The calls of a flush

`flushStep` is the step: up to the last call, `Backed` goes on, with the
new segment as the one that may be missing from the rename on
(`SegmentStore.unsynced`). The call that matters is the rename. It gives a
name to a file whose bytes have all been synced by the call before it
(`FlushJob.Written`), and the number is new, so no name that was on disk
is lost. The last call syncs the directory, and nothing is missing any
more (`registered`).

So a power loss leaves all segments that were there, and may leave out
the one whose flush has not ended (`Backed.lookup`). With nothing missing
it leaves the directory as it was (`Backed.all`). `Tsdb.Db.Outage` opens
what is left: the samples of the segment left out are still in the log.
-/
import Tsdb.Storage.Flush

namespace Tsdb

open Lib (Bytes HashMap)

-- ============================================================ what is left

def DataName.isTemporary : DataName → Bool
  | .temporary _ => true
  | _ => false

/-- May a power loss leave of a file, if there is one, so much? -/
def mayLeave (synced : Nat) : Option Bytes → Option Bytes → Bool
  | none, none => true
  | some bytes, some left => left.isPrefixOf bytes && synced ≤ left.length
  | _, _ => false

/-- May a power loss leave `left` of the directory `data`, which was
`entries` when it was last synced? A temporary file may be left in any
state. -/
def DataDir.mayLeave (entries data : DataDir) (synced : DataName → Nat)
    (left : DataDir) : Bool :=
  (entries.keys ++ data.keys ++ left.keys).all fun name =>
    name.isTemporary
      || Tsdb.mayLeave (synced name) (entries.lookup name) (left.lookup name)
      || Tsdb.mayLeave (synced name) (data.lookup name) (left.lookup name)

/-- How many bytes of each file are synced behind the next call of a
flush. -/
def SegmentStore.syncedBy (store : SegmentStore) (job : FlushJob)
    (data : DataDir) (synced : DataName → Nat) : DataName → Nat :=
  let temporary := DataName.temporary store.nextNumber
  let finalPath := DataName.segment store.nextNumber
  match job.stage with
  | .open_ _ => Function.update synced temporary 0
  | .syncAll => Function.update synced temporary
      ((data.lookup temporary).getD []).length
  | .rename => Function.update synced finalPath (synced temporary)
  | _ => synced

/-- The segment whose name is not on disk yet. -/
def SegmentStore.unsynced (store : SegmentStore) (job : FlushJob) :
    Option Nat :=
  if job.stage = .syncDir then some store.nextNumber else none

-- =========================================================== what is on disk

variable {entries data data' left : DataDir} {synced : DataName → Nat}
  {fresh : Option Nat}

/-- All is on disk but for temporary files and the name of the segment
`fresh`. -/
structure DataDir.Backed (entries data : DataDir) (synced : DataName → Nat)
    (fresh : Option Nat) : Prop where
  bytes : ∀ name bytes, name.isTemporary = false →
    data.lookup name = some bytes → bytes.length ≤ synced name
  names : ∀ name, name.isTemporary = false →
    (∀ n, fresh = some n → name ≠ .segment n) →
    entries.lookup name = data.lookup name
  fresh : ∀ n, fresh = some n → entries.lookup (.segment n) = none

/-- The temporary file is, before it gets its name. -/
def FlushJob.Written (data : DataDir) (synced : DataName → Nat)
    (number : Nat) (job : FlushJob) : Prop :=
  job.stage = .rename → ∀ bytes, data.lookup (.temporary number) = some bytes →
    bytes.length ≤ synced (.temporary number)

/-- Of a file that is on disk it leaves all. -/
theorem mayLeave_eq {synced : Nat} {was left : Option Bytes}
    (h : mayLeave synced was left = true)
    (hsynced : ∀ bytes, was = some bytes → bytes.length ≤ synced) :
    left = was := by
  cases was with
  | none =>
      cases left with
      | none => rfl
      | some bytes => cases h
  | some bytes =>
      cases left with
      | none => cases h
      | some bytes' =>
          simp only [mayLeave, Bool.and_eq_true, List.isPrefixOf_iff_prefix,
            decide_eq_true_eq] at h
          rw [h.1.eq_of_length_le
            (Nat.le_trans (hsynced bytes rfl) h.2)]

namespace DataDir

/-- Of any file it leaves what there is now, or what there was. -/
theorem mayLeave_lookup (h : entries.mayLeave data synced left = true)
    {name : DataName} (hname : name.isTemporary = false) :
    Tsdb.mayLeave (synced name) (entries.lookup name) (left.lookup name) = true
      ∨ Tsdb.mayLeave (synced name) (data.lookup name) (left.lookup name)
        = true := by
  by_cases hin : name ∈ entries.keys ++ data.keys ++ left.keys
  · have hone := List.all_eq_true.mp h name hin
    rw [hname, Bool.false_or, Bool.or_eq_true] at hone
    exact hone
  · simp only [List.mem_append, not_or] at hin
    have hnone : ∀ d : DataDir, name ∉ d.keys → d.lookup name = none :=
      fun d hd => AList.lookup_eq_none.mpr fun hmem =>
        hd (AList.mem_keys.mp hmem)
    rw [hnone entries hin.1.1, hnone left hin.2]
    exact .inl rfl

namespace Backed

/-- So a power loss leaves all of it, but perhaps for that segment. -/
theorem lookup (h : Backed entries data synced fresh)
    (hloss : entries.mayLeave data synced left = true) {name : DataName}
    (hname : name.isTemporary = false) :
    left.lookup name = data.lookup name
      ∨ ∃ n, fresh = some n ∧ name = .segment n
        ∧ left.lookup name = none := by
  have hsynced : ∀ bytes, data.lookup name = some bytes →
      bytes.length ≤ synced name := fun bytes => h.bytes name bytes hname
  rcases mayLeave_lookup hloss hname with hwas | hnow
  · by_cases hfresh : ∃ n, fresh = some n ∧ name = .segment n
    · obtain ⟨n, hn, rfl⟩ := hfresh
      rw [h.fresh n hn] at hwas
      exact .inr ⟨n, hn, rfl, mayLeave_eq hwas (by simp)⟩
    · have hsame := h.names name hname fun n hn he => hfresh ⟨n, hn, he⟩
      rw [hsame] at hwas
      exact .inl (mayLeave_eq hwas hsynced)
  · exact .inl (mayLeave_eq hnow hsynced)

/-- All of it is on disk. -/
theorem all (data : DataDir) :
    Backed data data (fun name => ((data.lookup name).getD []).length)
      none where
  bytes name bytes _ hbytes := by
    rw [hbytes]
    exact Nat.le_refl _
  names _ _ _ := rfl
  fresh n hn := by cases hn

/-- Temporary files do not matter. -/
theorem congr (h : Backed entries data synced fresh)
    {synced' : DataName → Nat}
    (hdata : ∀ name, name.isTemporary = false →
      data'.lookup name = data.lookup name)
    (hsynced : ∀ name, name.isTemporary = false →
      synced' name = synced name) :
    Backed entries data' synced' fresh where
  bytes name bytes hname hbytes := by
    rw [hsynced name hname]
    exact h.bytes name bytes hname (hdata name hname ▸ hbytes)
  names name hname hnot := by
    rw [hdata name hname]
    exact h.names name hname hnot
  fresh := h.fresh

variable {json : Json} {store : SegmentStore} {index : Index}
  {job job' : FlushJob} {n : Nat}

/-- A call of a flush, up to the last. A call on the temporary file changes
the lookup of no segment, and whether it is written through is up to the
call: a write makes it not so, `sync_all` makes it so. The rename comes
behind `sync_all`, so the segment it makes is written through from the
start; its name is not on the disk before `sync_dir`, which is what is
unsynced. -/
theorem flushStep
    (h : Backed entries data synced (store.unsynced job))
    (hwritten : job.Written data synced store.nextNumber)
    (hnew : job.stage = .rename →
      data.lookup (.segment store.nextNumber) = none)
    (hs : store.flushStep json n index data job = some (data', .inr job')) :
    Backed entries data' (store.syncedBy job data synced)
        (store.unsynced job')
      ∧ job'.Written data' (store.syncedBy job data synced)
        store.nextNumber := by
  obtain ⟨segment, stage⟩ := job
  have hne : ∀ name : DataName, name.isTemporary = false →
      name ≠ .temporary store.nextNumber := by
    rintro name hname rfl
    cases hname
  have htmp : ∀ bytes : Bytes, ∀ name : DataName, name.isTemporary = false →
      AList.lookup name (data.insert (.temporary store.nextNumber) bytes)
        = data.lookup name := by
    intro bytes name hname
    rw [HashMap.lookup_insert_if, if_neg (hne name hname)]
  have hcount : ∀ n : Nat, ∀ name : DataName, name.isTemporary = false →
      Function.update synced (.temporary store.nextNumber) n name
        = synced name :=
    fun n name hname => Function.update_of_ne (hne name hname) n synced
  cases stage with
  | toVec =>
      simp only [SegmentStore.flushStep, Option.map_eq_some_iff] at hs
      obtain ⟨payload, -, heq⟩ := hs
      cases heq
      exact ⟨h, fun hstage => by cases hstage⟩
  | open_ bytes =>
      simp only [SegmentStore.flushStep] at hs
      cases hs
      exact ⟨h.congr (htmp _) (hcount 0), fun hstage => by cases hstage⟩
  | write bytes done =>
      simp only [SegmentStore.flushStep] at hs
      split at hs
      · cases hs
        exact ⟨h.congr (htmp _) fun _ _ => rfl,
          fun hstage => by cases hstage⟩
      · cases hs
        exact ⟨h, fun hstage => by cases hstage⟩
  | syncAll =>
      simp only [SegmentStore.flushStep] at hs
      cases hs
      refine ⟨h.congr (fun _ _ => rfl) (hcount _), fun _ bytes hbytes => ?_⟩
      simp only [SegmentStore.syncedBy, Function.update_self, hbytes]
      exact Nat.le_refl _
  | rename =>
      simp only [SegmentStore.flushStep, Option.map_eq_some_iff] at hs
      obtain ⟨bytes, hbytes, heq⟩ := hs
      cases heq
      have hdata : ∀ name : DataName, name.isTemporary = false →
          AList.lookup name ((data.erase (.temporary store.nextNumber)).insert
            (.segment store.nextNumber) bytes)
          = if name = .segment store.nextNumber then some bytes
            else data.lookup name := by
        intro name hname
        rw [HashMap.lookup_insert_if, HashMap.lookup_erase_if,
          if_neg (hne name hname)]
      refine ⟨⟨fun name bs hname hbs => ?_, fun name hname hnot => ?_,
        fun k hk => ?_⟩, fun hstage => by cases hstage⟩
      · rw [hdata name hname] at hbs
        show bs.length ≤ Function.update synced _ _ name
        split at hbs
        · rename_i he
          cases hbs
          rw [he, Function.update_self]
          exact hwritten rfl bytes hbytes
        · rename_i he
          rw [Function.update_of_ne he]
          exact h.bytes name bs hname hbs
      · rw [hdata name hname, if_neg (hnot _ rfl)]
        exact h.names name hname fun _ hk => by cases hk
      · cases hk
        rw [h.names _ rfl fun _ hk => by cases hk]
        exact hnew rfl
  | syncDir =>
      simp only [SegmentStore.flushStep, Option.map_eq_some_iff] at hs
      obtain ⟨ranges, -, heq⟩ := hs
      cases heq

/-- Behind the last the directory is on disk. -/
theorem registered {store' : SegmentStore}
    (h : Backed entries data synced (store.unsynced job))
    (hs : store.flushStep json n index data job
      = some (data', .inl store')) :
    Backed data' data' (store.syncedBy job data synced) none := by
  have hlast := (SegmentStore.flushStep_last hs).mpr rfl
  obtain ⟨segment, stage⟩ := job
  obtain rfl : stage = .syncDir := hlast
  simp only [SegmentStore.flushStep, Option.map_eq_some_iff] at hs
  obtain ⟨ranges, -, heq⟩ := hs
  cases heq
  exact ⟨h.bytes, fun _ _ _ => rfl, fun k hk => by cases hk⟩

end Backed

end DataDir

end Tsdb
