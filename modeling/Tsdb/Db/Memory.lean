/-
The state in memory as a view.

# What the index shows

`Index.Shows index names disk v`: the index has the label sets `names`,
and the history of each in `v` is what the segments hold for it, `disk`,
continued by the samples in memory. The last timestamp outlives the
samples, so appending to what is left in memory is the greedy run on the
whole (`SeriesState.Holds`), and a write of the database is a write of the
view (`Memory.commit`).

# What the log has been told

`Index.Logged`: `defined` are the label sets whose definition the log has
got in this generation. The record of a write (`RecordOf`) defines those
it is the first to write to, and no other. A flush starts a generation
anew, and then every series is to be defined again.

# A write

`Prepared.Inv` is the invariant of the loop in `prepare`. It goes over the
series of the batch, takes a label set in, and has two lists grow: the
definitions the log is to get, each once though the batch may name a
series twice, and the samples by series. Nothing of a history changes.
Then there are two ends. If the log refuses the record, the label sets are
there with empty histories (`Memory.refused`). If it takes it, the loop of
`commit` adds the entries one by one, each of them an addition to the
view (`appendEntry_all`), and marks the series the record has defined
(`mark_all`).

What is counted as buffered is what memory holds, over all series
(`counted`): each append counts what it took, and `Index.inMemory` is the
sum over the ids.

In memory nothing is ever flushed, and the database is the view
(`DbState.writes_in_memory`, in the module on queries).
-/
import Tsdb.Db.State

namespace Tsdb

open Lib (Ascending HashMap extend)
open Wal (SeriesEntry SamplesEntry WalRecord)

variable {index : Index} {names : List LabelSet}
  {disk : LabelSet → List Sample} {v : View}

-- ========================================================== ids and states

/-- An id that is not assigned has the fresh state. -/
theorem Index.Names.state_fresh (h : index.Names names) {id : SeriesId}
    (hid : names[id]? = none) : index.state id = {} := by
  have hnone := h.get_none hid
  rw [Index.get] at hnone
  simp only [Index.state, hnone]

theorem getElem?_touch_cases {ls l : LabelSet} {id : SeriesId}
    (h : (touch names ls)[id]? = some l) :
    names[id]? = some l ∨ (l = ls ∧ ls ∉ names ∧ names[id]? = none) := by
  by_cases hls : ls ∈ names
  · rw [touch_of_mem hls] at h
    exact .inl h
  · have htouch : touch names ls = names ++ [ls] := if_neg hls
    rw [htouch] at h
    rcases Nat.lt_or_ge id names.length with hlt | hge
    · rw [List.getElem?_append_left hlt] at h
      exact .inl h
    · rw [List.getElem?_append_right hge] at h
      exact .inr ⟨List.mem_singleton.mp (List.mem_of_getElem? h), hls,
        List.getElem?_eq_none hge⟩

/-- The number of samples in memory. -/
def Index.inMemory (index : Index) : Nat :=
  (index.allIds.map fun id => (index.state id).samples.length).sum

private theorem sum_range_modify {f g : Nat → Nat} {i : Nat}
    (h : ∀ j, j ≠ i → g j = f j) (n : Nat) :
    ((List.range n).map g).sum + (if i < n then f i else 0)
      = ((List.range n).map f).sum + (if i < n then g i else 0) := by
  induction n with
  | zero => simp
  | succ n ih =>
      simp only [List.range_succ, List.map_append, List.sum_append,
        List.map_singleton, List.sum_singleton]
      rcases Nat.lt_trichotomy i n with hlt | rfl | hgt
      · rw [if_pos hlt, if_pos hlt] at ih
        rw [if_pos (by omega), if_pos (by omega), h n (by omega)]
        omega
      · rw [if_neg (Nat.lt_irrefl _), if_neg (Nat.lt_irrefl _)] at ih
        rw [if_pos (Nat.lt_succ_self _), if_pos (Nat.lt_succ_self _)]
        omega
      · rw [if_neg (by omega), if_neg (by omega)] at ih
        rw [if_neg (by omega), if_neg (by omega), h n (by omega)]
        omega

theorem Index.Names.inMemory_modify (h : index.Names names) {id : Nat}
    (hid : id < names.length) (f : SeriesState → SeriesState) :
    (index.modify id f).inMemory + (index.state id).samples.length
      = index.inMemory + (f (index.state id)).samples.length := by
  have hsum := sum_range_modify (i := id)
    (f := fun j => (index.state j).samples.length)
    (g := fun j => ((index.modify id f).state j).samples.length)
    (fun j hj => by
      show ((index.modify id f).state j).samples.length = _
      rw [h.state_modify hid, if_neg hj]) names.length
  rw [if_pos hid, if_pos hid] at hsum
  have hat : (index.modify id f).state id = f (index.state id) := by
    rw [h.state_modify hid, if_pos rfl]
  rw [Index.inMemory, Index.inMemory, h.all, (h.modify id f).all]
  rw [hat] at hsum
  exact hsum

theorem Index.Names.inMemory_encode (h : index.Names names) (ls : LabelSet) :
    (index.encode ls).2.inMemory = index.inMemory := by
  rw [Index.inMemory, Index.inMemory, (h.encode ls).2.all, h.all,
    h.state_encode]
  by_cases hls : ls ∈ names
  · rw [touch_of_mem hls]
  · have htouch : touch names ls = names ++ [ls] := if_neg hls
    rw [htouch, List.length_append, List.length_singleton, List.range_succ,
      List.map_append, List.sum_append,
      List.map_singleton, h.state_fresh (List.getElem?_eq_none (Nat.le_refl _))]
    rfl

/-- Nothing in memory means nothing for any series. -/
theorem Index.Names.samples_nil (h : index.Names names)
    (hnone : index.inMemory = 0) (id : SeriesId) :
    (index.state id).samples = [] := by
  cases hid : names[id]? with
  | none => rw [h.state_fresh hid]
  | some ls =>
      obtain ⟨hlt, -⟩ := List.getElem?_eq_some_iff.mp hid
      rw [Index.inMemory, h.all, List.sum_eq_zero_iff_forall_eq_nat] at hnone
      exact List.length_eq_zero_iff.mp
        (hnone _ (List.mem_map_of_mem (List.mem_range.mpr hlt)))

-- ===================================================== what the index shows

structure Index.Shows (index : Index) (names : List LabelSet)
    (disk : LabelSet → List Sample) (v : View) : Prop where
  named : index.Names names
  holds : ∀ id ls, names[id]? = some ls → (index.state id).Holds (disk ls)
  hist : ∀ id ls, names[id]? = some ls →
    v.hist ls = disk ls ++ (index.state id).samples
  other : ∀ ls, ls ∉ names → disk ls = [] ∧ v.hist ls = []

namespace Index.Shows

theorem encode (h : index.Shows names disk v) (ls : LabelSet) :
    (index.encode ls).2.Shows (touch names ls) disk v := by
  have hstate := h.named.state_encode ls
  have hfresh : ∀ id, names[id]? = none → ls ∉ names →
      (index.state id).Holds (disk ls)
        ∧ v.hist ls = disk ls ++ (index.state id).samples := by
    intro id hid hls
    obtain ⟨hdisk, hhist⟩ := h.other ls hls
    rw [h.named.state_fresh hid, hdisk, hhist]
    exact ⟨.nil rfl rfl, rfl⟩
  refine ⟨(h.named.encode ls).2, fun id l hl => ?_, fun id l hl => ?_,
    fun l hl => ?_⟩
  · rw [hstate]
    rcases getElem?_touch_cases hl with hl | ⟨rfl, hls, hid⟩
    · exact h.holds id l hl
    · exact (hfresh id hid hls).1
  · rw [hstate]
    rcases getElem?_touch_cases hl with hl | ⟨rfl, hls, hid⟩
    · exact h.hist id l hl
    · exact (hfresh id hid hls).2
  · exact h.other l fun hin => hl (mem_touch.mpr (.inl hin))

/-- One series changes, with its part on disk and its history. For another
id the state is the one it had, and its label set is another, so its part
and its history are the ones they were. -/
theorem modify (h : index.Shows names disk v) {id : SeriesId}
    {ls : LabelSet} (hid : names[id]? = some ls)
    {f : SeriesState → SeriesState} {disk' : LabelSet → List Sample}
    {v' : View} (hholds : (f (index.state id)).Holds (disk' ls))
    (hhist : v'.hist ls = disk' ls ++ (f (index.state id)).samples)
    (hother : ∀ l, l ≠ ls → disk' l = disk l ∧ v'.hist l = v.hist l) :
    (index.modify id f).Shows names disk' v' := by
  obtain ⟨hlt, -⟩ := List.getElem?_eq_some_iff.mp hid
  have hat := h.named.state_modify hlt f
  have hcases : ∀ id' l, names[id']? = some l →
      (id' = id ∧ l = ls) ∨ (id' ≠ id ∧ l ≠ ls) := by
    intro id' l hl
    by_cases he : id' = id
    · subst he
      rw [hid] at hl
      exact .inl ⟨rfl, (Option.some.inj hl).symm⟩
    · refine .inr ⟨he, ?_⟩
      rintro rfl
      exact he (id_unique h.named.nodup hl hid)
  refine ⟨h.named.modify id f, fun id' l hl => ?_, fun id' l hl => ?_,
    fun l hl => ?_⟩
  · rw [hat]
    rcases hcases id' l hl with ⟨rfl, rfl⟩ | ⟨he, hne⟩
    · rw [if_pos rfl]
      exact hholds
    · rw [if_neg he, (hother l hne).1]
      exact h.holds id' l hl
  · rw [hat]
    rcases hcases id' l hl with ⟨rfl, rfl⟩ | ⟨he, hne⟩
    · rw [if_pos rfl]
      exact hhist
    · rw [if_neg he, (hother l hne).1, (hother l hne).2]
      exact h.hist id' l hl
  · have hne : l ≠ ls := by
      rintro rfl
      exact hl (List.mem_of_getElem? hid)
    rw [(hother l hne).1, (hother l hne).2]
    exact h.other l hl

/-- Appending to what is in memory is adding to the view. -/
theorem append (h : index.Shows names disk v) {id : SeriesId}
    {ls : LabelSet} (hid : names[id]? = some ls) (xs : List Sample) :
    (index.appendSamples id xs).1.Shows names disk (v.add ls xs) := by
  obtain ⟨hholds, hrun, -⟩ := (h.holds id ls hid).appendAll xs
  refine h.modify (f := fun st => (st.appendAll xs).1) hid hholds ?_
    (fun l hl => ⟨rfl, ?_⟩)
  · rw [View.hist_add, if_pos rfl, h.hist id ls hid]
    exact hrun.symm
  · rw [View.hist_add, if_neg hl]

theorem mark (h : index.Shows names disk v) {id : SeriesId}
    {ls : LabelSet} (hid : names[id]? = some ls) (generation : Nat) :
    (index.modify id (·.markLogged generation)).Shows names disk v := by
  obtain ⟨hasc, hnewest⟩ := h.holds id ls hid
  exact h.modify (f := (·.markLogged generation)) hid ⟨hasc, hnewest⟩
    (h.hist id ls hid) fun _ _ => ⟨rfl, rfl⟩

/-- What counts as taken is what memory grows by. -/
theorem inMemory_append (h : index.Shows names disk v) {id : SeriesId}
    {ls : LabelSet} (hid : names[id]? = some ls) (xs : List Sample) :
    (index.appendSamples id xs).1.inMemory
      = index.inMemory + (index.appendSamples id xs).2 := by
  obtain ⟨hlt, -⟩ := List.getElem?_eq_some_iff.mp hid
  obtain ⟨-, -, hlen⟩ := (h.holds id ls hid).appendAll xs
  have hsum := h.named.inMemory_modify hlt fun st => (st.appendAll xs).1
  show (index.modify id fun st => (st.appendAll xs).1).inMemory
    = index.inMemory + ((index.state id).appendAll xs).2
  omega

/-- With nothing in memory the segments hold all there is. -/
theorem hist_of_inMemory (h : index.Shows names disk v)
    (hnone : index.inMemory = 0) : v.hist = disk := by
  funext ls
  by_cases hls : ls ∈ names
  · obtain ⟨id, hlt, hid⟩ := List.mem_iff_getElem.mp hls
    have hat : names[id]? = some ls := by
      rw [List.getElem?_eq_getElem hlt, hid]
    rw [h.hist id ls hat, h.named.samples_nil hnone id, List.append_nil]
  · rw [(h.other ls hls).1, (h.other ls hls).2]

end Index.Shows

-- ================================================ what the log has been told

/-- In this generation the log has got the definitions of `defined`. -/
structure Index.Logged (index : Index) (names : List LabelSet)
    (generation : Nat) (defined : List LabelSet) : Prop where
  positive : 0 < generation
  logged : ∀ id ls, names[id]? = some ls →
    ((index.state id).isLogged generation = true ↔ ls ∈ defined)
  le : ∀ id, (index.state id).loggedGen ≤ generation
  known : ∀ ls ∈ defined, ls ∈ names

namespace Index.Logged

variable {generation : Nat} {defined : List LabelSet}

theorem encode (h : index.Logged names generation defined)
    (hnames : index.Names names) (ls : LabelSet) :
    (index.encode ls).2.Logged (touch names ls) generation defined := by
  have hstate := hnames.state_encode ls
  refine ⟨h.positive, fun id l hl => ?_, fun id => ?_, fun l hl => ?_⟩
  · rw [hstate]
    rcases getElem?_touch_cases hl with hl | ⟨rfl, hls, hid⟩
    · exact h.logged id l hl
    · -- a fresh state is logged in no generation
      rw [hnames.state_fresh hid]
      refine ⟨fun he => ?_, fun hin => absurd (h.known l hin) hls⟩
      have : (0 : Nat) = generation := by
        simpa [SeriesState.isLogged] using he
      have := h.positive
      omega
  · rw [hstate]
    exact h.le id
  · exact (prefix_touch names ls).subset (h.known l hl)

theorem mark (h : index.Logged names generation defined)
    (hnames : index.Names names) {id : SeriesId} {ls : LabelSet}
    (hid : names[id]? = some ls) :
    (index.modify id (·.markLogged generation)).Logged names generation
      (defined ++ [ls]) := by
  obtain ⟨hlt, -⟩ := List.getElem?_eq_some_iff.mp hid
  have hat := hnames.state_modify hlt (·.markLogged generation)
  refine ⟨h.positive, fun id' l hl => ?_, fun id' => ?_, fun l hl => ?_⟩
  · rw [hat, List.mem_append, List.mem_singleton]
    by_cases he : id' = id
    · subst he
      rw [hid] at hl
      cases hl
      simp [SeriesState.isLogged, SeriesState.markLogged]
    · have hne : l ≠ ls := by
        rintro rfl
        exact he (id_unique hnames.nodup hl hid)
      rw [if_neg he, h.logged id' l hl]
      simp [hne]
  · rw [hat]
    split
    · exact Nat.le_refl _
    · exact h.le id'
  · rcases List.mem_append.mp hl with hl | hl
    · exact h.known l hl
    · rw [List.mem_singleton.mp hl]
      exact List.mem_of_getElem? hid

/-- Taking samples in or out does not matter to the log. -/
theorem modify (h : index.Logged names generation defined)
    (hnames : index.Names names) {id : SeriesId} {ls : LabelSet}
    (hid : names[id]? = some ls) {f : SeriesState → SeriesState}
    (hf : ∀ st, (f st).loggedGen = st.loggedGen) :
    (index.modify id f).Logged names generation defined := by
  obtain ⟨hlt, -⟩ := List.getElem?_eq_some_iff.mp hid
  have hgen : ∀ id', ((index.modify id f).state id').loggedGen
      = (index.state id').loggedGen := by
    intro id'
    rw [hnames.state_modify hlt f]
    split
    · rename_i he
      rw [hf, he]
    · rfl
  refine ⟨h.positive, fun id' l hl => ?_, fun id' => ?_, h.known⟩
  · rw [← h.logged id' l hl, SeriesState.isLogged, SeriesState.isLogged, hgen]
  · rw [hgen]
    exact h.le id'

/-- In the next generation the log starts anew. -/
theorem next (h : index.Logged names generation defined) :
    index.Logged names (generation + 1) [] := by
  refine ⟨Nat.succ_pos _, fun id ls _ => ?_,
    fun id => Nat.le_succ_of_le (h.le id), by simp⟩
  have := h.le id
  simp only [SeriesState.isLogged, beq_iff_eq, List.not_mem_nil, iff_false]
  omega

end Index.Logged

-- ================================================================= a write

/-- The record of a write to the series of `es`: it defines the label sets
among them that are not `defined`, each once, and has the samples of
all. -/
structure RecordOf (names defined : List LabelSet)
    (es : List (LabelSet × List Sample)) (rec : WalRecord) : Prop where
  labels : rec.series.map SeriesEntry.labels
    = touchAll [] ((es.map Prod.fst).filter (· ∉ defined))
  series : ∀ e ∈ rec.series, names[e.id]? = some e.labels
  samples : List.Forall₂ (fun (e : SamplesEntry) b =>
    names[e.id]? = some b.1 ∧ e.samples = b.2) rec.samples es

/-- The database in memory: a view behind `disk`, and the label sets the
log knows. -/
structure DbState.Memory (db : DbState) (names : List LabelSet)
    (disk : LabelSet → List Sample) (v : View) (defined : List LabelSet) :
    Prop where
  shows : db.index.Shows names disk v
  logged : db.index.Logged names db.generation defined
  counted : db.bufferedSamples = db.index.inMemory

namespace Prepared

/-- The loop of `prepare` behind the series of `es`. -/
structure Inv (names₀ : List LabelSet) (disk : LabelSet → List Sample)
    (v : View) (generation : Nat) (defined : List LabelSet) (held : Nat)
    (es : List (LabelSet × List Sample)) (p : Prepared) : Prop where
  shows : p.index.Shows (touchAll names₀ (es.map Prod.fst)) disk v
  logged : p.index.Logged (touchAll names₀ (es.map Prod.fst)) generation
    defined
  held : p.index.inMemory = held
  record : RecordOf (touchAll names₀ (es.map Prod.fst)) defined es p.record
  logging : p.logging = p.newSeries.map SeriesEntry.id

variable {names₀ : List LabelSet} {generation held : Nat}
  {defined : List LabelSet} {es : List (LabelSet × List Sample)}
  {e : LabelSet × List Sample} {p : Prepared}

/-- What one series adds: its samples, and its definition if the log does
not know it and is not about to. The flag of the index tells whether the log
knows it, and the set of ids whether this record defines it. -/
private theorem add_eq (hnames' : (p.index.encode e.1).2.Names names)
    (hat : names[(p.index.encode e.1).1]? = some e.1)
    (hlogged' : (p.index.encode e.1).2.Logged names generation defined)
    (hseries : ∀ e ∈ p.newSeries, names[e.id]? = some e.labels)
    (hlabels : p.newSeries.map SeriesEntry.labels
      = touchAll [] ((es.map Prod.fst).filter (· ∉ defined)))
    (hlogging : p.logging = p.newSeries.map SeriesEntry.id)
    (hne : e.2 ≠ []) :
    ∃ more : List SeriesEntry, p.add generation e = {
        index := (p.index.encode e.1).2
        newSeries := p.newSeries ++ more
        logging := p.logging ++ more.map SeriesEntry.id
        entries := p.entries ++ [⟨(p.index.encode e.1).1, e.2⟩] }
      ∧ (∀ d ∈ more, d = ⟨(p.index.encode e.1).1, e.1⟩)
      ∧ touchAll [] (((es ++ [e]).map Prod.fst).filter (· ∉ defined))
        = p.newSeries.map SeriesEntry.labels
          ++ more.map SeriesEntry.labels := by
  rw [List.map_append, List.map_singleton, List.filter_append,
    touchAll_append, ← hlabels]
  unfold Prepared.add
  rw [if_neg hne]
  rcases henc : p.index.encode e.1 with ⟨id, index'⟩
  rw [henc] at hnames' hat hlogged'
  have hlog := hlogged'.logged id e.1 hat
  -- the set of ids tells what the label sets tell
  have hmem : id ∈ p.logging ↔ e.1 ∈ p.newSeries.map SeriesEntry.labels := by
    rw [hlogging, List.mem_map, List.mem_map]
    constructor
    · intro hin
      obtain ⟨d, hd, hid⟩ := hin
      have := hseries d hd
      rw [hid, hat] at this
      exact ⟨d, hd, (Option.some.inj this).symm⟩
    · intro hin
      obtain ⟨d, hd, hls⟩ := hin
      exact ⟨d, hd, id_unique hnames'.nodup (hls ▸ hseries d hd) hat⟩
  by_cases hdef : e.1 ∈ defined
  · refine ⟨[], ?_, by simp, ?_⟩
    · simp [hlog.mpr hdef]
    · rw [List.filter_cons_of_neg (by simp [hdef])]
      simp [touchAll]
  · have hnot : (index'.state id).isLogged generation = false := by
      cases hl : (index'.state id).isLogged generation with
      | false => rfl
      | true => exact absurd (hlog.mp hl) hdef
    rw [List.filter_cons_of_pos (by simp [hdef]), List.filter_nil]
    by_cases hin : id ∈ p.logging
    · refine ⟨[], ?_, by simp, ?_⟩
      · simp [hnot, hin]
      · rw [touchAll_known fun ls hls => by
          rw [List.mem_singleton.mp hls]
          exact hmem.mp hin]
        simp
    · refine ⟨[⟨id, e.1⟩], ?_, by simp, ?_⟩
      · simp [hnot, hin]
      · exact touchAll_new (List.nodup_singleton _) fun ls hls => by
          rw [List.mem_singleton.mp hls]
          exact fun h => hin (hmem.mpr h)

/-- The loop over the series of a write, one further. The names grow by the
label set of the series, if it is new, and everything else grows by what
`add_eq` says. -/
theorem Inv.add (h : p.Inv names₀ disk v generation defined held es)
    (hne : e.2 ≠ []) :
    (p.add generation e).Inv names₀ disk v generation defined held
      (es ++ [e]) := by
  have hnames : touchAll names₀ ((es ++ [e]).map Prod.fst)
      = touch (touchAll names₀ (es.map Prod.fst)) e.1 := by
    rw [List.map_append, touchAll_append]
    rfl
  have hpre := prefix_touch (touchAll names₀ (es.map Prod.fst)) e.1
  obtain ⟨hid, hnames'⟩ := h.shows.named.encode e.1
  have hat : (touch (touchAll names₀ (es.map Prod.fst)) e.1)[
      (p.index.encode e.1).1]? = some e.1 := by
    rw [hid]
    exact getElem?_touch_idxOf _ _
  obtain ⟨more, hadd, hmore, hlabels⟩ := add_eq hnames' hat
    (h.logged.encode h.shows.named e.1)
    (fun d hd => getElem?_mono hpre (h.record.series d hd))
    h.record.labels h.logging hne
  rw [hadd]
  refine ⟨?_, ?_, ?_, ⟨?_, fun d hd => ?_, ?_⟩, ?_⟩
  · rw [hnames]
    exact h.shows.encode e.1
  · rw [hnames]
    exact h.logged.encode h.shows.named e.1
  · exact (h.shows.named.inMemory_encode e.1).trans h.held
  · rw [hlabels]
    exact List.map_append
  · rw [hnames]
    rcases List.mem_append.mp hd with hd | hd
    · exact getElem?_mono hpre (h.record.series d hd)
    · rw [hmore d hd]
      exact hat
  · rw [hnames]
    refine List.rel_append ?_ (.cons ⟨hat, rfl⟩ .nil)
    exact h.record.samples.imp fun _ _ hd =>
      ⟨getElem?_mono hpre hd.1, hd.2⟩
  · rw [h.logging]
    exact List.map_append.symm

end Prepared

namespace DbState

variable {db : DbState} {defined : List LabelSet}

/-- `prepare` takes the label sets in, and nothing else shows; the record
is that of the write. -/
theorem Memory.prepare (h : db.Memory names disk v defined)
    (batch : WriteBatch) :
    (db.prepare batch).Inv names disk v db.generation defined
      db.bufferedSamples batch.nonempty := by
  have hloop : ∀ (es done : List (LabelSet × List Sample)) (p : Prepared),
      p.Inv names disk v db.generation defined db.bufferedSamples done →
      (es.foldl (Prepared.add db.generation) p).Inv names disk v
        db.generation defined db.bufferedSamples
        (done ++ es.filter (·.2 ≠ [])) := by
    intro es
    induction es with
    | nil =>
        intro done p hp
        rw [List.filter_nil, List.append_nil]
        exact hp
    | cons e es ih =>
        intro done p hp
        rw [List.foldl_cons]
        by_cases hne : e.2 = []
        · have hskip : p.add db.generation e = p := if_pos hne
          rw [hskip, List.filter_cons_of_neg (by simp [hne])]
          exact ih done p hp
        · rw [List.filter_cons_of_pos (by simp [hne]), ← List.singleton_append,
            ← List.append_assoc]
          exact ih _ _ (hp.add hne)
  refine hloop batch.series [] _ ?_
  exact ⟨h.shows, h.logged, h.counted.symm,
    ⟨rfl, by simp [Prepared.record], .nil⟩, rfl⟩

/-- A write the log has refused leaves only the label sets behind. -/
theorem Memory.refused (h : db.Memory names disk v defined)
    (batch : WriteBatch) :
    ({ db with index := (db.prepare batch).index } : DbState).Memory
      (touchAll names (batch.nonempty.map Prod.fst)) disk v defined := by
  have hp := h.prepare batch
  exact ⟨hp.shows, hp.logged, hp.held.symm⟩

private theorem mark_all (es : List SeriesEntry) {generation : Nat}
    (hshows : index.Shows names disk v)
    (hlogged : index.Logged names generation defined)
    (hes : ∀ e ∈ es, names[e.id]? = some e.labels) :
    let index' := es.foldl (fun index e =>
      index.modify e.id (·.markLogged generation)) index
    index'.Shows names disk v
      ∧ index'.Logged names generation
        (defined ++ es.map SeriesEntry.labels)
      ∧ index'.inMemory = index.inMemory := by
  induction es generalizing index defined with
  | nil =>
      rw [List.map_nil, List.append_nil]
      exact ⟨hshows, hlogged, rfl⟩
  | cons e es ih =>
      have hid := hes e List.mem_cons_self
      obtain ⟨hlt, -⟩ := List.getElem?_eq_some_iff.mp hid
      obtain ⟨hs, hl, hm⟩ := ih (hshows.mark hid generation)
        (hlogged.mark hshows.named hid)
        (fun e he => hes e (List.mem_cons_of_mem _ he))
      have hsum := hshows.named.inMemory_modify hlt (·.markLogged generation)
      refine ⟨hs, ?_, hm.trans ?_⟩
      · rw [List.append_assoc] at hl
        exact hl
      · exact Nat.add_right_cancel hsum

private theorem appendEntry_all (entries : List SamplesEntry)
    {es : List (LabelSet × List Sample)}
    (h : db.Memory names disk v defined)
    (hes : List.Forall₂ (fun (e : SamplesEntry) b =>
      names[e.id]? = some b.1 ∧ e.samples = b.2) entries es) :
    (entries.foldl appendEntry db).Memory names disk
      (v.addAll es) defined := by
  induction hes generalizing db v with
  | nil => exact h
  | @cons e b entries es hb _ ih =>
      refine ih ⟨?_, ?_, ?_⟩
      · show (db.index.appendSamples e.id e.samples).1.Shows names disk
          (v.add b.1 b.2)
        rw [← hb.2]
        exact h.shows.append hb.1 e.samples
      · exact h.logged.modify h.shows.named hb.1
          fun st => SeriesState.appendAll_loggedGen st e.samples
      · rw [appendEntry, h.counted]
        exact (h.shows.inMemory_append hb.1 e.samples).symm

/-- A write the log has taken is a write of the view, and the log knows
what its record defines. -/
theorem Memory.commit (h : db.Memory names disk v defined)
    (batch : WriteBatch) :
    (db.commit (db.prepare batch)).Memory
      (touchAll names (batch.nonempty.map Prod.fst)) disk (v.write batch)
      (defined ++ (db.prepare batch).newSeries.map SeriesEntry.labels) := by
  have hp := h.prepare batch
  obtain ⟨hshows, hlogged, hheld⟩ :=
    mark_all (db.prepare batch).newSeries hp.shows hp.logged hp.record.series
  refine appendEntry_all (db.prepare batch).entries ⟨hshows, hlogged, ?_⟩
    hp.record.samples
  exact (hheld.trans hp.held).symm

end DbState

end Tsdb
