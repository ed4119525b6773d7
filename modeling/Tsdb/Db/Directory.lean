/-
The two directories, over every run.

# The segments

Data segments are numbered from zero on without a gap, and beside them
there is at most the temporary file of the next one (`DataDir.Tidy`): what a
flush that failed or a process that stopped has left behind is the file the
next flush begins with. A segment that has its name is never touched again.
So at all times the directory is a list of segments, and what comes later is
put behind it (`segments_append_only`), whatever happens to the processes in
between.

Only a call of the store writes to the data directory (`Step.data_eq`), so
the step lemma is about the flush: its calls go to the temporary file, up
to the rename, which gives that file the next number. A step makes one
segment at most, and over a run the numbers go up by as many.

# The counter

That is also why the source's error for the last number is no matter here.
The number a flush counts on to is that of no segment yet, and there are
no more segments than events: in a run of up to `2 ^ 64` events the
counter with the error does what the counter without it does
(`System.exec_checked`).

# The log

The log only loses files: those that are left keep their names and their
whole records, and no id is used twice (`log_append_only`). The steps are
those of `Tsdb.Wal.Files`, put together over the phases of a process. They
need the log's journal, which is known of every phase (`Journaled`), and
of a crash within `remove_through` that the files it may have got to are
below the active segment.
-/
import Tsdb.Db.Emptied
import Tsdb.Wal.Files

namespace Tsdb

open Lib (Ascending HashMap exec)
open Wal (Disk Journal Log LogFile Machine WalConfig WalRecord)

variable {json : Json} {cfg : WalConfig} {data data' : DataDir} {k : Nat}

-- ============================================================ the directory

/-- The segments are those below `k`, and beside them there is at most the
temporary file of the next. -/
structure DataDir.Tidy (data : DataDir) (k : Nat) : Prop where
  segments : ∀ n, (data.lookup (.segment n)).isSome ↔ n < k
  rest : ∀ name, (data.lookup name).isSome →
    (∃ n, name = .segment n) ∨ name = .temporary k

/-- The segments below `k` are what they were. -/
def DataDir.Keeps (data data' : DataDir) (k : Nat) : Prop :=
  ∀ n, n < k → data'.lookup (.segment n) = data.lookup (.segment n)

namespace DataDir.Tidy

theorem empty : DataDir.Tidy ∅ 0 where
  segments n := by simp
  rest name h := by simp at h

/-- The temporary file is written to. -/
theorem temporary (h : data.Tidy k) (bytes : Lib.Bytes) :
    DataDir.Tidy (data.insert (.temporary k) bytes) k
      ∧ data.Keeps (data.insert (.temporary k) bytes) k := by
  have hseg : ∀ n, AList.lookup (.segment n)
      (data.insert (.temporary k) bytes) = data.lookup (.segment n) := by
    intro n
    rw [HashMap.lookup_insert_if, if_neg (by simp)]
  refine ⟨⟨fun n => ?_, fun name hsome => ?_⟩, fun n _ => hseg n⟩
  · rw [hseg n]
    exact h.segments n
  · rw [HashMap.lookup_insert_if] at hsome
    split at hsome
    · rename_i hname
      exact .inr hname
    · exact h.rest name hsome

/-- The temporary file gets its name. -/
theorem rename (h : data.Tidy k) (bytes : Lib.Bytes) :
    DataDir.Tidy ((data.erase (.temporary k)).insert (.segment k) bytes)
        (k + 1)
      ∧ data.Keeps
        ((data.erase (.temporary k)).insert (.segment k) bytes) k := by
  have hseg : ∀ n, AList.lookup (.segment n)
      ((data.erase (.temporary k)).insert (.segment k) bytes)
        = if n = k then some bytes else data.lookup (.segment n) := by
    intro n
    rw [HashMap.lookup_insert_if, HashMap.lookup_erase_if,
      if_neg (by simp : DataName.segment n ≠ .temporary k)]
    simp only [DataName.segment.injEq]
  refine ⟨⟨fun n => ?_, fun name hsome => ?_⟩, fun n hn => ?_⟩
  · rw [hseg n]
    by_cases hn : n = k
    · rw [if_pos hn, hn]
      simp
    · rw [if_neg hn, h.segments n]
      omega
  · rw [HashMap.lookup_insert_if] at hsome
    split at hsome
    · rename_i hname
      exact .inl ⟨k, hname⟩
    · rw [HashMap.lookup_erase_if] at hsome
      split at hsome
      · cases hsome
      · rename_i hne
        exact .inl ((h.rest name hsome).resolve_right hne)
  · rw [hseg n, if_neg (Nat.ne_of_lt hn)]

variable {files : List (Nat × Segment)}

theorem numbers (h : data.Tidy k) (hheld : data.Holds json files) :
    files.map Prod.fst = List.range k := by
  have hasc : Ascending id (files.map Prod.fst) :=
    List.pairwise_map.mpr hheld.asc
  refine hasc.ext List.pairwise_lt_range fun n => ?_
  rw [← hheld.found, h.segments, List.mem_range]

/-- The next segment gets the next number. -/
theorem nextNumber (h : data.Tidy k) (hheld : data.Holds json files)
    {names : List LabelSet} {store : SegmentStore}
    (hstore : store.StoreFor names files) : store.nextNumber = k := by
  rw [hstore.next, h.numbers hheld]
  cases k with
  | zero => rfl
  | succ k =>
      rw [List.range_succ, List.getLast?_concat]
      rfl

end DataDir.Tidy

-- ============================================================ one step

/-- A call of a flush. The temporary file has the next number, which no
segment has; the rename gives that number to a segment, and it is the only
call that makes a segment. -/
theorem Flushing.tidy {state : DbState} {job : FlushJob} {g : Ledger}
    (h : Flushing json data state job g) (htidy : data.Tidy k)
    {store : SegmentStore} (hsome : state.store = some store) {n : Nat}
    {r : SegmentStore ⊕ FlushJob}
    (hs : store.flushStep json n state.index data job = some (data', r)) :
    ∃ k', k ≤ k' ∧ k' ≤ k + 1 ∧ data'.Tidy k' ∧ data.Keeps data' k := by
  have hsame : data' = data →
      ∃ k', k ≤ k' ∧ k' ≤ k + 1 ∧ data'.Tidy k' ∧ data.Keeps data' k := by
    rintro rfl
    exact ⟨k, Nat.le_refl _, Nat.le_succ k, htidy, fun _ _ => rfl⟩
  obtain ⟨store', hsome', hknown, hstands⟩ := h.store
  rw [hsome] at hsome'
  cases hsome'
  rcases hstands with ⟨-, -, hheld⟩ | ⟨hstage, -⟩
  · have hnext := htidy.nextNumber hheld hknown
    unfold SegmentStore.flushStep at hs
    rw [hnext] at hs
    cases hstage : job.stage with
    | toVec =>
        simp only [hstage, Option.map_eq_some_iff] at hs
        obtain ⟨payload, -, heq⟩ := hs
        cases heq
        exact hsame rfl
    | open_ bytes =>
        simp only [hstage] at hs
        cases hs
        exact ⟨k, Nat.le_refl _, Nat.le_succ k, htidy.temporary _⟩
    | write bytes done =>
        simp only [hstage] at hs
        split at hs
        · cases hs
          exact ⟨k, Nat.le_refl _, Nat.le_succ k, htidy.temporary _⟩
        · cases hs
          exact hsame rfl
    | syncAll =>
        simp only [hstage] at hs
        cases hs
        exact hsame rfl
    | rename =>
        simp only [hstage, Option.map_eq_some_iff] at hs
        obtain ⟨bytes, -, heq⟩ := hs
        cases heq
        exact ⟨k + 1, Nat.le_succ k, Nat.le_refl _, htidy.rename bytes⟩
    | syncDir =>
        simp only [hstage, Option.map_eq_some_iff] at hs
        obtain ⟨ranges, -, heq⟩ := hs
        cases heq
        exact hsame rfl
  · simp only [SegmentStore.flushStep, hstage, Option.map_eq_some_iff] at hs
    obtain ⟨ranges, -, heq⟩ := hs
    cases heq
    exact hsame rfl

namespace System

variable {s s' : System} {e : Event} {t : Tale}

/-- Only a call of the store writes to the data directory. -/
theorem Step.data_eq (h : Step json cfg s e s') (he : ∀ n, e ≠ .store n) :
    s'.data = s.data := by
  cases h with
  | @openWith max reads hphase =>
      unfold System.openWith
      split
      · rfl
      · split
        · rfl
        · split <;> rfl
  | @store _ _ n => exact absurd rfl (he n)
  | _ => rfl

namespace Tells

/-- The directory holds a valid list of segments, whoever has it. -/
theorem held (h : s.Tells json t) :
    ∃ files, s.data.Holds json files ∧ Valid (files.map Prod.snd) := by
  have hrests : Rests json t s.data s.log →
      ∃ files, s.data.Holds json files ∧ Valid (files.map Prod.snd) := by
    rintro ⟨-, -, recs, n, -, files, lnames, done, rest, -, hstored⟩
    exact ⟨files, hstored.held, hstored.valid⟩
  have hleaves : ∀ m, Leaves json t s.data s.log m →
      ∃ files, s.data.Holds json files ∧ Valid (files.map Prod.snd) := by
    rintro m ⟨old, actions, log, hand, buffer, n, h⟩
    obtain ⟨files, lnames, done, rest, -, hstored⟩ := h.standing
    exact ⟨files, hstored.held, hstored.valid⟩
  cases h with
  | down _ h => exact hrests h
  | opening _ h => exact hrests h.rests
  | running _ h => exact hleaves _ (h.leaves (List.nil_sublist _) rfl)
  | failed _ _ h => exact hleaves _ h
  | closing _ h => exact hleaves _ h

/-- A database in the flush of its store. -/
theorem flushing (h : s.Tells json t) {db : Db} {who : Caller} {cut : Nat}
    {job : FlushJob} (hphase : s.phase = .running db)
    (hpc : db.pc = .flush who cut job) :
    ∃ g, Flushing json s.data db.state job g := by
  have hable : db.state.failed = false := by
    cases h with
    | running hphase' h =>
        rw [hphase] at hphase'
        cases hphase'
        exact h.able
    | failed hphase' hrefuses =>
        rw [hphase] at hphase'
        cases hphase'
        rw [hrefuses.pc] at hpc
        cases hpc
    | down hphase' | opening hphase' | closing hphase' =>
        rw [hphase] at hphase'
        cases hphase'
  obtain ⟨c, hc⟩ := h.works hphase hable
  cases hc.good with
  | failed hfailed _ =>
      rw [hable] at hfailed
      cases hfailed
  | settled hnot _ => exact absurd hpc (hnot _ _ _)
  | flushing hpc' h =>
      rw [hpc] at hpc'
      cases hpc'
      exact ⟨_, h⟩

/-- Any event. -/
theorem event (hjson : json.Lawful) (h : s.Tells json t)
    (hs : System.step json cfg e s = some s') : ∃ t', s'.Tells json t' := by
  by_cases he : ∃ removed, e = .crash removed
  · obtain ⟨removed, rfl⟩ := he
    obtain ⟨n, -, -, h'⟩ := h.crash hs
    exact ⟨_, h'⟩
  · exact ⟨_, h.step hjson (fun removed hcrash => he ⟨removed, hcrash⟩) hs⟩

/-- One step of the system makes one segment at most. -/
theorem tidy (h : s.Tells json t) (htidy : s.data.Tidy k)
    (hs : System.step json cfg e s = some s') :
    ∃ k', k ≤ k' ∧ k' ≤ k + 1 ∧ s'.data.Tidy k'
      ∧ s.data.Keeps s'.data k := by
  have hstep := Step.of_step hs
  by_cases he : ∃ n, e = .store n
  · obtain ⟨n, rfl⟩ := he
    cases hstep with
    | @store db db' _ data hphase hstore =>
        show ∃ k', k ≤ k' ∧ k' ≤ k + 1 ∧ data.Tidy k' ∧ s.data.Keeps data k
        unfold Db.storeStep at hstore
        split at hstore
        · rename_i who cut job store hpc hsome
          obtain ⟨g, hflush⟩ := h.flushing hphase hpc
          obtain ⟨⟨data₁, r⟩, hcall, heq⟩ := Option.map_eq_some_iff.mp hstore
          obtain rfl : data₁ = data := by
            cases r <;> (cases heq; rfl)
          exact hflush.tidy htidy hsome hcall
        · cases hstore
  · rw [hstep.data_eq fun n hn => he ⟨n, hn⟩]
    exact ⟨k, Nat.le_refl _, Nat.le_succ k, htidy, fun _ _ => rfl⟩

end Tells

/-- A run goes on, from what is told of it. -/
theorem tidy_run (hjson : json.Lawful) {events : List Event}
    (h : s.Tells json t) (htidy : s.data.Tidy k)
    (hrun : exec (System.step json cfg) events s = some s') :
    ∃ t' k', s'.Tells json t' ∧ k ≤ k' ∧ s'.data.Tidy k'
      ∧ s.data.Keeps s'.data k := by
  induction events generalizing s t k with
  | nil =>
      cases hrun
      exact ⟨t, k, h, Nat.le_refl _, htidy, fun _ _ => rfl⟩
  | cons e events ih =>
      obtain ⟨s₁, hs, hrest⟩ := Option.bind_eq_some_iff.mp hrun
      obtain ⟨k₁, hle, -, htidy₁, hkeeps⟩ := h.tidy htidy hs
      obtain ⟨t₁, h₁⟩ := h.event hjson hs
      obtain ⟨t', k', h', hle', htidy', hkeeps'⟩ := ih h₁ htidy₁ hrest
      refine ⟨t', k', h', Nat.le_trans hle hle', htidy', fun n hn => ?_⟩
      rw [hkeeps' n (Nat.lt_of_lt_of_le hn hle), hkeeps n hn]

end System

-- ============================================================= the counter

/-- The number a flush counts on to is that of no segment yet. -/
theorem Flushing.nextNumber {state : DbState} {job : FlushJob} {g : Ledger}
    (h : Flushing json data state job g) (htidy : data.Tidy k)
    {store store' : SegmentStore} (hsome : state.store = some store) {n : Nat}
    (hs : store.flushStep json n state.index data job
      = some (data', .inl store')) : store'.nextNumber = k := by
  have hstage := (SegmentStore.flushStep_last hs).mpr rfl
  obtain ⟨store₀, hsome₀, -, hstands⟩ := h.store
  rw [hsome] at hsome₀
  cases hsome₀
  have hnext : store'.nextNumber = store.nextNumber + 1 := by
    simp only [SegmentStore.flushStep, hstage, Option.map_eq_some_iff] at hs
    obtain ⟨ranges, -, heq⟩ := hs
    cases heq
    rfl
  rcases hstands with ⟨hnot, -⟩ | ⟨-, hheld⟩
  · exact absurd hstage hnot
  · -- the segment that has just got its name is the last
    have hnumbers := congrArg List.getLast? (htidy.numbers hheld)
    rw [List.map_append, List.map_singleton, List.getLast?_concat] at hnumbers
    cases k with
    | zero => cases hnumbers
    | succ k =>
        rw [List.range_succ, List.getLast?_concat] at hnumbers
        exact hnext.trans (congrArg (· + 1) (Option.some.inj hnumbers))

namespace System

variable {s s' : System} {t : Tale}

/-- The transition function, with the counter of the store checked: the last
number is an error of `open`, and of a flush that has made the segment. -/
def stepChecked (json : Json) (cfg : WalConfig) (e : Event) (s : System) :
    Option System :=
  match e, s.phase with
  | .openWith _ _, .down =>
      match SegmentStore.openChecked json s.data Index.new with
      | .ok _ => step json cfg e s
      | .error _ => some s
  | .store n, .running db =>
      match db.pc, db.state.store with
      | .flush _ _ job, some store =>
          match store.flushStepChecked json n db.state.index s.data job with
          | some (_, .error _) => step json cfg .fault s
          | _ => step json cfg e s
      | _, _ => none
  | _, _ => step json cfg e s

/-- With fewer segments than numbers it is the transition function: the next
number is the count of the segments at most, so the checked addition, in
`open` and at the end of a flush, does not overflow. -/
theorem Tells.checked (h : s.Tells json t) (htidy : s.data.Tidy k)
    (hk : k < 2 ^ 64) (e : Event) :
    stepChecked json cfg e s = System.step json cfg e s := by
  unfold stepChecked
  split
  · rename_i max reads hphase
    have hstep : System.step json cfg (.openWith max reads) s
        = some (s.openWith json max reads) := by
      simp only [System.step, hphase]
    rw [SegmentStore.openChecked_eq, hstep]
    cases hopen : SegmentStore.open_ json s.data Index.new with
    | error err =>
        simp only [Except.bind, System.openWith, hopen]
        split <;> rfl
    | ok r =>
        obtain ⟨store, index, latest⟩ := r
        obtain ⟨files, hheld, -, -, hstore⟩ :=
          SegmentStore.open_restored hopen
        have hlt : store.nextNumber < 2 ^ 64 := by
          rw [htidy.nextNumber hheld hstore]
          exact hk
        simp only [Except.bind, if_pos hlt]
  · rename_i n db hphase
    split
    · rename_i who cut job store hpc hsome
      rw [SegmentStore.flushStepChecked_eq]
      cases hcall : store.flushStep json n db.state.index s.data job with
      | none => rfl
      | some r =>
          obtain ⟨data, next⟩ := r
          cases next with
          | inr job' => rfl
          | inl store' =>
              obtain ⟨g, hflush⟩ := h.flushing hphase hpc
              have hlt : store'.nextNumber < 2 ^ 64 := by
                rw [hflush.nextNumber htidy hsome hcall]
                exact hk
              simp only [Option.map_some, if_pos hlt]
    · simp only [System.step, hphase, Db.storeStep]
      rfl
  · rfl

/-- So it is in every run that does not come to `2 ^ 64` events. -/
theorem exec_checked (hjson : json.Lawful) {events : List Event}
    (hfew : events.length ≤ 2 ^ 64) :
    exec (stepChecked json cfg) events {}
      = exec (step json cfg) events {} := by
  suffices hall : ∀ {events : List Event} {s : System} {t : Tale} {k : Nat},
      s.Tells json t → s.data.Tidy k → k + events.length ≤ 2 ^ 64 →
      exec (stepChecked json cfg) events s = exec (step json cfg) events s from
    hall (.empty json) .empty (by rwa [Nat.zero_add])
  intro events
  induction events with
  | nil => exact fun _ _ _ => rfl
  | cons e events ih =>
      intro s t k h htidy hle
      rw [List.length_cons] at hle
      rw [exec, exec, h.checked htidy (by omega)]
      refine Option.bind_congr fun s₁ hs => ?_
      obtain ⟨k₁, -, hmore, htidy₁, -⟩ := h.tidy htidy hs
      obtain ⟨t₁, h₁⟩ := h.event hjson hs
      exact ih h₁ htidy₁ (by omega)

end System

-- ============================================================ the segments

/-- The directory is a list of segments, each under its place in it, and
beside them there is at most the temporary file of the next. -/
structure DataDir.Is (json : Json) (data : DataDir) (segs : List Segment) :
    Prop where
  reads : ∀ n seg, segs[n]? = some seg →
    readSegment json data (.segment n) = .ok seg
  tidy : data.Tidy segs.length

theorem DataDir.Tidy.is (h : data.Tidy k) {files : List (Nat × Segment)}
    (hheld : data.Holds json files) : data.Is json (files.map Prod.snd) where
  reads n seg hseg := by
    rw [List.getElem?_map, Option.map_eq_some_iff] at hseg
    obtain ⟨f, hf, rfl⟩ := hseg
    have hnumber : (List.range k)[n]? = some f.1 := by
      rw [← h.numbers hheld, List.getElem?_map, hf]
      rfl
    obtain ⟨hlt, hat⟩ := List.getElem?_eq_some_iff.mp hnumber
    rw [List.getElem_range] at hat
    rw [hat]
    exact hheld.reads f (List.mem_of_getElem? hf)
  tidy := by
    have hlen := congrArg List.length (h.numbers hheld)
    rw [List.length_map, List.length_range] at hlen
    rw [List.length_map, hlen]
    exact h

/-- With the segments untouched the one list begins with the other. -/
theorem DataDir.Is.prefix_of {segs segs' : List Segment}
    (h : data.Is json segs) (h' : data'.Is json segs')
    (hle : segs.length ≤ segs'.length)
    (hkeeps : data.Keeps data' segs.length) : segs <+: segs' := by
  refine List.prefix_iff_getElem.mpr ⟨hle, fun n hn => ?_⟩
  have hread := h.reads n _ (List.getElem?_eq_getElem hn)
  have hread' := h'.reads n _
    (List.getElem?_eq_getElem (Nat.lt_of_lt_of_le hn hle))
  rw [readSegment_congr (hkeeps n hn), hread] at hread'
  exact Except.ok.inj hread'

/-- Segments are written once. At all times the directory is a list of
segments, each under its number, that `open` accepts, and at most one
temporary file; and whatever happens then, to the database and to its
process, no byte of them is changed, and what is added is added behind. -/
theorem segments_append_only (hjson : json.Lawful) {events more : List Event}
    {s s' : System} (hrun : exec (System.step json cfg) events {} = some s)
    (hmore : exec (System.step json cfg) more s = some s') :
    ∃ segs added, s.data.Is json segs ∧ s'.data.Is json (segs ++ added)
      ∧ Valid (segs ++ added) ∧ s.data.Keeps s'.data segs.length := by
  obtain ⟨t, k, h, -, htidy, -⟩ :=
    System.tidy_run hjson (.empty json) .empty hrun
  obtain ⟨t', k', h', hle, htidy', hkeeps⟩ :=
    System.tidy_run hjson h htidy hmore
  obtain ⟨files, hheld, -⟩ := h.held
  obtain ⟨files', hheld', hvalid⟩ := h'.held
  have his := htidy.is hheld
  have his' := htidy'.is hheld'
  have hlen : (files.map Prod.snd).length = k := by
    have hnumbers := congrArg List.length (htidy.numbers hheld)
    rwa [List.length_map, List.length_range, ← List.length_map] at hnumbers
  have hlen' : (files'.map Prod.snd).length = k' := by
    have hnumbers := congrArg List.length (htidy'.numbers hheld')
    rwa [List.length_map, List.length_range, ← List.length_map] at hnumbers
  rw [← hlen] at hkeeps hle
  rw [← hlen'] at hle
  obtain ⟨added, hadded⟩ := his.prefix_of his' hle hkeeps
  rw [← hadded] at his' hvalid
  exact ⟨_, added, his, his', hvalid, hkeeps⟩

/-- The first segment: a flush in front of its rename, then behind it. -/
theorem segments_append_only_once :
    ∃ (s s' : System) (segs added : List Segment),
      exec (System.step Json.sample ⟨100, 0⟩) (openEmpty 2
        ++ .write (writeAt 5) (.ok 70) :: .flush :: flushUpToList.take 25) {}
        = some s
      ∧ exec (System.step Json.sample ⟨100, 0⟩) [.store 0, .store 0] s
        = some s'
      ∧ s.data.Is Json.sample segs ∧ s'.data.Is Json.sample (segs ++ added)
      ∧ s.data.keys = [.temporary 0] ∧ s'.data.keys = [.segment 0] := by
  have hboth : ((exec (System.play Json.sample ⟨100, 0⟩)
      (.write (writeAt 5) (.ok 70) :: .flush :: flushUpToList.take 25)
      (.opened 2)).bind fun s =>
        (exec (System.step Json.sample ⟨100, 0⟩) [.store 0, .store 0] s).map
          fun s' => (s.data.keys, s'.data.keys))
      = some ([.temporary 0], [.segment 0]) := by decide +kernel
  obtain ⟨s, hbefore, hmap⟩ := Option.bind_eq_some_iff.mp hboth
  obtain ⟨s', hafter, hkeys⟩ := Option.map_eq_some_iff.mp hmap
  obtain ⟨hkeys, hkeys'⟩ := Prod.mk.inj hkeys
  have hrun := System.exec_opened Nat.zero_lt_two hbefore
  obtain ⟨segs, added, his, his', -, -⟩ :=
    segments_append_only Json.sample_lawful hrun hafter
  exact ⟨s, s', segs, added, hrun, hafter, his, his', hkeys, hkeys'⟩

-- ================================================================= the log

/-- There is a log behind the machine. -/
def Journaled (disk : Disk) (m : Machine) : Prop :=
  ∃ (old : List (List WalRecord)) (as : List Wal.Action) (log : Log)
    (hand rest : List WalRecord), Journal old as log hand rest disk m

theorem Leaves.journaled {t : Tale} {disk : Disk} {m : Machine}
    (h : Leaves json t data disk m) : Journaled disk m := by
  obtain ⟨old, as, log, hand, rest, n, h⟩ := h
  exact ⟨old, as, log, hand, rest, h.journal⟩

namespace System

variable {s s' : System} {e : Event} {t : Tale}

namespace Tells

theorem running_journaled (h : s.Tells json t) {db : Db}
    (hphase : s.phase = .running db) : Journaled s.log db.wal := by
  cases h with
  | running hphase' h =>
      rw [hphase] at hphase'
      cases hphase'
      exact ⟨_, _, _, _, _, h.journal⟩
  | failed hphase' _ h =>
      rw [hphase] at hphase'
      cases hphase'
      exact h.journaled
  | down hphase' | opening hphase' | closing hphase' =>
      rw [hphase] at hphase'
      cases hphase'

/-- A crash in `remove_through` takes files below the active segment. -/
theorem toRemove_lt (h : s.Tells json t) {db : Db}
    (hphase : s.phase = .running db) :
    ∀ id ∈ s.phase.toRemove, id < db.wal.shared.activeSegment := by
  intro id hid
  obtain ⟨old, as, log, hand, rest, hjournal⟩ := h.running_journaled hphase
  rw [hphase] at hid
  unfold Phase.toRemove at hid
  simp only at hid
  split at hid
  · rename_i bound todo done hcall
    obtain ⟨hlt, hle⟩ := hjournal.removal.todo _ _ _ _ hcall
    exact Nat.lt_of_le_of_lt (hle id hid) hlt
  · cases hid

/-- One step of the system. A step that does not touch the log leaves its
directory, the stages of `Wal::open` and the steps of a machine have their
own lemmas, and a crash takes away files that were on the list of a removal. -/
theorem files (h : s.Tells json t) (hin : s.log.InOrder)
    (hs : System.step json cfg e s = some s') :
    s.log.Becomes s'.log ∧ s'.log.InOrder := by
  have hsame : s'.log = s.log → s.log.Becomes s'.log ∧ s'.log.InOrder := by
    intro heq
    rw [heq]
    exact ⟨.refl _, hin⟩
  cases Step.of_step hs with
  | openWith hphase =>
      refine hsame ?_
      unfold System.openWith
      split
      · rfl
      · split
        · rfl
        · split <;> rfl
  | setLen hphase =>
      obtain ⟨g, lnames, done, rest, n, recs, h⟩ := h.telling hphase
      exact h.holds.files_setLen hin
  | syncAll hphase => exact Wal.Opening.Holds.files_syncAll hin _
  | create hphase hcreate =>
      obtain ⟨g, lnames, done, rest, n, recs, h⟩ := h.telling hphase
      exact h.holds.files_create hin hcreate
  | syncDir hphase =>
      exact hin.same (Disk.map_entry_syncDir _) (Disk.map_bytes_syncDir _)
  | write hphase hwrite => exact hsame (Db.write_cases hwrite).2.2.1
  | wal hphase hwal =>
      obtain ⟨old, as, log, hand, rest, hjournal⟩ := h.running_journaled hphase
      cases hwal with
      | goOn _ _ _ hstep => exact hjournal.files_step hin hstep
      | cut _ hstep _ => exact hjournal.files_step hin hstep
      | removed _ hstep => exact hjournal.files_step hin hstep
  | drain hphase _ hstep =>
      obtain ⟨old, as, log, hand, rest, hjournal⟩ :=
        (h.closes hphase).journaled
      exact hjournal.files_step hin hstep
  | closed hphase hstep =>
      obtain ⟨old, as, log, hand, rest, hjournal⟩ :=
        (h.closes hphase).journaled
      exact hjournal.files_step hin hstep
  | @crash removed log hremoved hlog =>
      by_cases hrunning : ∃ db, s.phase = .running db
      · obtain ⟨db, hphase⟩ := hrunning
        obtain ⟨old, as, log, hand, rest, hjournal⟩ :=
          h.running_journaled hphase
        refine hjournal.files_unlink hin (fun id hid => ?_) hlog
        exact h.toRemove_lt hphase id (hremoved.subset hid)
      · have hnone : s.phase.toRemove = [] := by
          unfold Phase.toRemove
          split
          · rename_i db hphase
            exact absurd ⟨db, hphase⟩ hrunning
          · rfl
        rw [hnone, List.sublist_nil] at hremoved
        subst hremoved
        cases hlog
        exact hsame rfl
  | flush | store | openFault | flushFault | removeFault | drop =>
      exact hsame rfl

end Tells

/-- A run goes on, from what is told of it. -/
theorem files_run (hjson : json.Lawful) {events : List Event}
    (h : s.Tells json t) (hin : s.log.InOrder)
    (hrun : exec (System.step json cfg) events s = some s') :
    ∃ t', s'.Tells json t' ∧ s.log.Becomes s'.log ∧ s'.log.InOrder := by
  induction events generalizing s t with
  | nil =>
      cases hrun
      exact ⟨t, h, .refl _, hin⟩
  | cons e events ih =>
      obtain ⟨s₁, hs, hrest⟩ := Option.bind_eq_some_iff.mp hrun
      obtain ⟨hbecomes, hin₁⟩ := h.files hin hs
      obtain ⟨t₁, h₁⟩ := h.event hjson hs
      obtain ⟨t', h', hbecomes', hin'⟩ := ih h₁ hin₁ hrest
      exact ⟨t', h', hbecomes.trans hbecomes', hin'⟩

end System

/-- The log loses whole files and nothing else. Whatever happens to the
database and its processes, a file keeps its id and, at its front, every
whole record it has had, and once there is a file behind it, all of its
bytes; ids ascend in the order of creation over all the files there have
ever been, and the newest file is never removed. -/
theorem log_append_only (hjson : json.Lawful) {events more : List Event}
    {s s' : System} (hrun : exec (System.step json cfg) events {} = some s)
    (hmore : exec (System.step json cfg) more s = some s') :
    s.log.Becomes s'.log ∧ s'.log.InOrder := by
  obtain ⟨t, h, -, hin⟩ := System.files_run hjson (.empty json) .nil hrun
  obtain ⟨-, -, hbecomes, hin'⟩ := System.files_run hjson h hin hmore
  exact ⟨hbecomes, hin'⟩

/-- A record in the first file, and a flush up to where its cut has created
the second. -/
theorem log_append_only_rotated :
    ∃ (s s' : System),
      exec (System.step Json.sample ⟨100, 0⟩) (openEmpty 2
        ++ .write (writeAt 5) (.ok 70)
          :: List.replicate 8 (.wal (.flusher 70))) {} = some s
      ∧ exec (System.step Json.sample ⟨100, 0⟩)
        (.flush :: flushUpToList.take 10) s = some s'
      ∧ s.log.map (fun f => (f.id, f.bytes.length)) = [(1, 70)]
      ∧ s'.log.map (fun f => (f.id, f.bytes.length)) = [(1, 70), (2, 0)]
      ∧ s.log.Becomes s'.log ∧ s'.log.InOrder := by
  let sizes : Disk → List (Nat × Nat) :=
    List.map fun f => (f.id, f.bytes.length)
  have hboth : ((exec (System.play Json.sample ⟨100, 0⟩)
      (.write (writeAt 5) (.ok 70) :: List.replicate 8 (.wal (.flusher 70)))
      (.opened 2)).bind fun s =>
        (exec (System.step Json.sample ⟨100, 0⟩)
          (.flush :: flushUpToList.take 10) s).map
            fun s' => (sizes s.log, sizes s'.log))
      = some ([(1, 70)], [(1, 70), (2, 0)]) := by decide +kernel
  obtain ⟨s, hbefore, hmap⟩ := Option.bind_eq_some_iff.mp hboth
  obtain ⟨s', hafter, hsizes⟩ := Option.map_eq_some_iff.mp hmap
  obtain ⟨hsize, hsize'⟩ := Prod.mk.inj hsizes
  have hrun := System.exec_opened Nat.zero_lt_two hbefore
  exact ⟨s, s', hrun, hafter, hsize, hsize',
    log_append_only Json.sample_lawful hrun hafter⟩

end Tsdb
