/-
What the segments hold: the directory as a list of segments, and the
segments as a view.

# The reading of a directory

`View.loadAll` puts the series of the segments behind one another; a list
of segments is `Valid` if no series is empty, none occurs twice in a
segment, and each label set has its samples in order, from the first
segment to the last. A directory `Holds` a list of numbered segments if
they are what it has under the names `open` looks for. `open` succeeds
exactly if they are valid, with an index of the label sets in the view's
order and with the last timestamp of each history
(`Tsdb.Storage.Store`).

# Validity from the front

`Valid` speaks of all segments at once. What `open` and `flush` need is
the step: a list is valid exactly if its front is and the last segment
fits behind the view of the front (`valid_concat`, by `Segment.Fits`).
`open` goes through the files with the front growing, and a flush adds
one segment to a list that is already there, so neither looks back
further than at the histories.

# The store

The store of an open database is `StoreFor` the same list, under the ids
of the index: a range for each series of each file, its first and its
last timestamp (`RangesFor`). Ids come from a list of names that only
grows, so what is known of a file stays true when label sets are added
behind (`RangesFor.mono`, `Knows.mono`), and a new file is known under
the names there are then (`Knows.concat`). Two ids of one label set are
one id (`id_unique`), without which a range could belong to another
series.
-/
import Tsdb.Storage.Segment
import Tsdb.View

namespace Tsdb

open Lib (Ascending Bytes HashMap)

-- ======================================================= segments as a view

def DiskSeries.toSamples (s : DiskSeries) : List Sample :=
  s.samples.map fun x => ⟨x.1, x.2⟩

/-- What a segment holds for a label set. -/
def Segment.samplesOf (seg : Segment) (ls : LabelSet) : List Sample :=
  (seg.series.filter (·.labels = ls)).flatMap DiskSeries.toSamples

theorem Segment.mem_samplesOf {seg : Segment} {ls : LabelSet} {x : Sample} :
    x ∈ seg.samplesOf ls
      ↔ ∃ s ∈ seg.series, s.labels = ls ∧ x ∈ s.toSamples := by
  simp [samplesOf, and_assoc]

namespace View

/-- A series put behind what is there. -/
def put (v : View) (s : DiskSeries) : View where
  sets := touch v.sets s.labels
  hist := Function.update v.hist s.labels (v.hist s.labels ++ s.toSamples)

def load (v : View) (seg : Segment) : View := seg.series.foldl put v

theorem hist_put (v : View) (s : DiskSeries) (ls : LabelSet) :
    (v.put s).hist ls
      = if ls = s.labels then v.hist ls ++ s.toSamples else v.hist ls := by
  by_cases h : ls = s.labels
  · subst h
    simp [put]
  · simp [put, h]

theorem hist_foldl_put (v : View) (ss : List DiskSeries) (ls : LabelSet) :
    (ss.foldl put v).hist ls = v.hist ls
      ++ (ss.filter (·.labels = ls)).flatMap DiskSeries.toSamples := by
  induction ss generalizing v with
  | nil => simp
  | cons s ss ih =>
      rw [List.foldl_cons, ih, hist_put]
      by_cases h : ls = s.labels
      · rw [if_pos h, List.filter_cons_of_pos (by simp [h]),
          List.flatMap_cons, List.append_assoc]
      · rw [if_neg h, List.filter_cons_of_neg (by simpa using Ne.symm h)]

theorem hist_load (v : View) (seg : Segment) (ls : LabelSet) :
    (v.load seg).hist ls = v.hist ls ++ seg.samplesOf ls :=
  hist_foldl_put v seg.series ls

theorem sets_load (v : View) (seg : Segment) :
    (v.load seg).sets
      = touchAll v.sets (seg.series.map DiskSeries.labels) := by
  rw [load]
  induction seg.series generalizing v with
  | nil => rfl
  | cons s ss ih => exact ih (v.put s)

end View

/-- Every segment behind the one before. -/
def View.loadAll (v : View) (segs : List Segment) : View := segs.foldl load v

namespace View

@[simp] theorem loadAll_nil (v : View) : v.loadAll [] = v := rfl

@[simp] theorem loadAll_cons (v : View) (seg : Segment)
    (segs : List Segment) :
    v.loadAll (seg :: segs) = (v.load seg).loadAll segs := rfl

theorem loadAll_concat (v : View) (segs : List Segment) (seg : Segment) :
    v.loadAll (segs ++ [seg]) = (v.loadAll segs).load seg := by
  simp [loadAll]

theorem hist_loadAll (v : View) (segs : List Segment) (ls : LabelSet) :
    (v.loadAll segs).hist ls
      = v.hist ls ++ segs.flatMap (·.samplesOf ls) := by
  induction segs generalizing v with
  | nil => simp
  | cons seg segs ih =>
      rw [loadAll_cons, ih, hist_load, List.flatMap_cons, List.append_assoc]

theorem sets_loadAll (v : View) (segs : List Segment) :
    (v.loadAll segs).sets = touchAll v.sets
      (segs.flatMap fun seg => seg.series.map DiskSeries.labels) := by
  induction segs generalizing v with
  | nil => rfl
  | cons seg segs ih =>
      rw [loadAll_cons, ih, sets_load, List.flatMap_cons, touchAll_append]

end View

-- =============================================================== validity

/-- A series that goes behind what a view holds. -/
structure DiskSeries.Fits (s : DiskSeries) (v : View) : Prop where
  nonempty : s.samples ≠ []
  asc : Ascending Sample.timestamp (v.hist s.labels ++ s.toSamples)

/-- A segment that goes behind what a view holds. -/
structure Segment.Fits (seg : Segment) (v : View) : Prop where
  nonempty : ∀ s ∈ seg.series, s.samples ≠ []
  nodup : (seg.series.map DiskSeries.labels).Nodup
  asc : ∀ ls, Ascending Sample.timestamp (v.hist ls ++ seg.samplesOf ls)

/-- Segments that may stand behind one another: no series is empty, none
occurs twice in a segment, and the samples of each label set are in the
order of their timestamps, from the first segment to the last. -/
structure Valid (segs : List Segment) : Prop where
  nonempty : ∀ seg ∈ segs, ∀ s ∈ seg.series, s.samples ≠ []
  nodup : ∀ seg ∈ segs, (seg.series.map DiskSeries.labels).Nodup
  asc : ∀ ls, Ascending Sample.timestamp
    (segs.flatMap (·.samplesOf ls))

theorem Valid.nil : Valid [] where
  nonempty := nofun
  nodup := nofun
  asc _ := List.Pairwise.nil

/-- A valid list is built from its front: each segment fits behind those
before it. Of a series the samples of the list are those of its front and
those of the last segment, in this order. -/
theorem valid_concat {v : View} (hv : ∀ ls, v.hist ls = [])
    {segs : List Segment} {seg : Segment} :
    Valid (segs ++ [seg]) ↔ Valid segs ∧ seg.Fits (v.loadAll segs) := by
  have hhist : ∀ ls, (segs ++ [seg]).flatMap (·.samplesOf ls)
      = (v.loadAll segs).hist ls ++ seg.samplesOf ls := by
    intro ls
    rw [View.hist_loadAll, hv, List.flatMap_append]
    simp
  constructor
  · intro h
    refine ⟨⟨fun s hs => h.nonempty s (List.mem_append_left _ hs),
      fun s hs => h.nodup s (List.mem_append_left _ hs), fun ls => ?_⟩,
      h.nonempty seg (by simp), h.nodup seg (by simp), fun ls => ?_⟩
    · have := h.asc ls
      rw [List.flatMap_append] at this
      exact (List.pairwise_append.mp this).1
    · rw [← hhist]
      exact h.asc ls
  · intro h
    obtain ⟨hvalid, hfits⟩ := h
    constructor
    · intro s hs
      rcases List.mem_append.mp hs with hs | hs
      · exact hvalid.nonempty s hs
      · rw [List.mem_singleton.mp hs]
        exact hfits.nonempty
    · intro s hs
      rcases List.mem_append.mp hs with hs | hs
      · exact hvalid.nodup s hs
      · rw [List.mem_singleton.mp hs]
        exact hfits.nodup
    · intro ls
      rw [hhist]
      exact hfits.asc ls

/-- The histories of valid segments are ascending. -/
theorem Valid.asc_loadAll {segs : List Segment} (h : Valid segs) {v : View}
    (hv : ∀ ls, v.hist ls = []) (ls : LabelSet) :
    Ascending Sample.timestamp ((v.loadAll segs).hist ls) := by
  rw [View.hist_loadAll, hv, List.nil_append]
  exact h.asc ls

/-- The samples of each series are ascending. -/
theorem Valid.series {segs : List Segment} (h : Valid segs) {seg : Segment}
    (hseg : seg ∈ segs) {s : DiskSeries} (hs : s ∈ seg.series) :
    Ascending Sample.timestamp s.toSamples := by
  refine (h.asc s.labels).sublist ?_
  refine List.Sublist.trans ?_
    (List.sublist_flatten_of_mem (List.mem_map_of_mem hseg))
  exact List.sublist_flatten_of_mem (List.mem_map_of_mem
    (List.mem_filter.mpr ⟨hs, by simp⟩))

-- ========================================================= segments as files

/-- What was encoded, written whole and read again. The facts in front of
the last step are where each field of the file begins and ends: eight bytes
of magic, eight of length, four of checksum, and the payload behind them. -/
theorem readSegment_file {json : Json} (hjson : json.Lawful)
    {data : DataDir} {path : DataName} {seg : Segment} {payload : Bytes}
    (hvec : json.toVec seg = some payload)
    (h : data.lookup path = some (segmentFile payload)) :
    readSegment json data path = .ok seg := by
  have hmagic : magic.length = 8 := rfl
  have hlen : (Lib.toLE 8 payload.length).length = 8 := Lib.toLE_length 8 _
  have hcrc : (Lib.toLE 4 (Lib.Crc32.hash payload).toNat).length = 4 :=
    Lib.toLE_length 4 _
  have hhead : (magic ++ Lib.toLE 8 payload.length).length = 16 := by
    rw [List.length_append, hmagic, hlen]
  have hfront : (magic ++ Lib.toLE 8 payload.length
      ++ Lib.toLE 4 (Lib.Crc32.hash payload).toNat).length = 20 := by
    rw [List.length_append, hhead, hcrc]
  have htotal : ¬((segmentFile payload).length < 20
      ∨ (segmentFile payload).take 8 ≠ magic) := by
    rw [segmentFile, List.append_assoc, List.append_assoc,
      List.take_left' hmagic, ← List.append_assoc, ← List.append_assoc,
      List.length_append, hfront]
    simp
  have h₈ : ((segmentFile payload).drop 8).take 8
      = Lib.toLE 8 payload.length := by
    rw [segmentFile, List.append_assoc, List.append_assoc,
      List.drop_left' hmagic, List.take_left' hlen]
  have h₁₆ : ((segmentFile payload).drop 16).take 4
      = Lib.toLE 4 (Lib.Crc32.hash payload).toNat := by
    rw [segmentFile, List.append_assoc, List.drop_left' hhead,
      List.take_left' hcrc]
  have h₂₀ : (segmentFile payload).drop 20 = payload :=
    List.drop_left' hfront
  have hsum : Lib.ofLE (Lib.toLE 4 (Lib.Crc32.hash payload).toNat)
      = (Lib.Crc32.hash payload).toNat :=
    Lib.ofLE_toLE_of_lt (UInt32.toNat_lt _)
  rw [readSegment, h]
  simp only [if_neg htotal, h₈, h₁₆, h₂₀, hsum, Lib.ofLE_toLE]
  rw [if_neg (by simp), hjson seg payload hvec]

/-- Only the file itself matters to its reading. -/
theorem readSegment_congr {json : Json} {data data' : DataDir}
    {path : DataName} (h : data'.lookup path = data.lookup path) :
    readSegment json data' path = readSegment json data path := by
  rw [readSegment, readSegment, h]

/-- The directory has these segments under these numbers, ascending, and no
others. -/
structure DataDir.Holds (json : Json) (data : DataDir)
    (files : List (Nat × Segment)) : Prop where
  asc : Ascending Prod.fst files
  named : ∀ raw, data.lookup (.misnamed raw) = none
  found : ∀ n, (data.lookup (.segment n)).isSome ↔ n ∈ files.map Prod.fst
  reads : ∀ f ∈ files, readSegment json data (.segment f.1) = .ok f.2

namespace DataDir.Holds

variable {json : Json} {data data' : DataDir} {files : List (Nat × Segment)}

theorem empty (json : Json) : DataDir.Holds json ∅ [] where
  asc := List.Pairwise.nil
  named _ := AList.lookup_empty _
  found n := by simp
  reads := by simp

/-- Other names do not matter. -/
theorem congr (h : data.Holds json files)
    (hseg : ∀ n, data'.lookup (.segment n) = data.lookup (.segment n))
    (hmis : ∀ raw, data'.lookup (.misnamed raw)
      = data.lookup (.misnamed raw)) : data'.Holds json files where
  asc := h.asc
  named raw := (hmis raw).trans (h.named raw)
  found n := by
    rw [hseg]
    exact h.found n
  reads f hf := (readSegment_congr (hseg f.1)).trans (h.reads f hf)

/-- A new segment under a number above all others. The files named before
have the contents they had, and behind them comes the new one. -/
theorem concat (h : data.Holds json files) {n : Nat} {seg : Segment}
    (hn : ∀ f ∈ files, f.1 < n)
    (hseg : ∀ k, k ≠ n →
      data'.lookup (.segment k) = data.lookup (.segment k))
    (hmis : ∀ raw, data'.lookup (.misnamed raw)
      = data.lookup (.misnamed raw))
    (hread : readSegment json data' (.segment n) = .ok seg) :
    data'.Holds json (files ++ [(n, seg)]) where
  asc := List.pairwise_append.mpr ⟨h.asc, List.pairwise_singleton _ _,
    fun f hf g hg => by
      rw [List.mem_singleton.mp hg]
      exact hn f hf⟩
  named raw := (hmis raw).trans (h.named raw)
  found k := by
    rw [List.map_append, List.mem_append]
    by_cases hk : k = n
    · subst hk
      have hsome : (data'.lookup (.segment k)).isSome = true := by
        cases hl : data'.lookup (.segment k) with
        | none =>
            rw [readSegment, hl] at hread
            cases hread
        | some bytes => rfl
      simp [hsome]
    · rw [hseg k hk, h.found k]
      simp [hk]
  reads f hf := by
    rcases List.mem_append.mp hf with hf | hf
    · rw [readSegment_congr (hseg f.1 (Nat.ne_of_lt (hn f hf)))]
      exact h.reads f hf
    · rw [List.mem_singleton.mp hf]
      exact hread

end DataDir.Holds

-- =========================================================== opening the store

/-- The last timestamp of each history, by id. -/
def LatestOf (latest : HashMap SeriesId UInt64) (v : View) : Prop :=
  ∀ id, latest.lookup id
    = v.sets[id]?.bind fun ls => Lib.newest Sample.timestamp (v.hist ls)

/-- The first and the last timestamp of a series. -/
def DiskSeries.Spans (s : DiskSeries) (e : UInt64 × UInt64) : Prop :=
  s.samples.head?.map Prod.fst = some e.1
    ∧ s.samples.getLast?.map Prod.fst = some e.2

theorem DiskSeries.exists_spans {s : DiskSeries} (h : s.samples ≠ []) :
    ∃ e, s.Spans e := by
  obtain ⟨a, rest, hs⟩ := List.exists_cons_of_ne_nil h
  refine ⟨(a.1, (s.samples.getLast h).1), ?_, ?_⟩
  · exact congrArg (fun l => l.head?.map Prod.fst) hs
  · rw [List.getLast?_eq_some_getLast h]
    rfl

theorem DiskSeries.Spans.unique {s : DiskSeries} {e e' : UInt64 × UInt64}
    (h : s.Spans e) (h' : s.Spans e') : e = e' :=
  Prod.ext (Option.some.inj (h.1.symm.trans h'.1))
    (Option.some.inj (h.2.symm.trans h'.2))

/-- A series is within its first and its last timestamp. -/
theorem DiskSeries.Spans.bounds {s : DiskSeries} {e : UInt64 × UInt64}
    (h : s.Spans e) (hasc : Ascending Sample.timestamp s.toSamples)
    {x : Sample} (hx : x ∈ s.toSamples) :
    e.1 ≤ x.timestamp ∧ x.timestamp ≤ e.2 := by
  obtain ⟨hfirst, hlast⟩ := h
  constructor
  · obtain ⟨a, ha, hea⟩ := Option.map_eq_some_iff.mp hfirst
    obtain ⟨rest, hs⟩ := List.head?_eq_some_iff.mp ha
    rw [← hea]
    rw [DiskSeries.toSamples, hs, List.map_cons] at hx hasc
    rcases List.mem_cons.mp hx with rfl | hx
    · exact le_refl _
    · exact le_of_lt ((List.pairwise_cons.mp hasc).1 x hx)
  · have hnewest : Lib.newest Sample.timestamp s.toSamples = some e.2 := by
      rw [Lib.newest, DiskSeries.toSamples, List.getLast?_map, Option.map_map]
      exact hlast
    obtain ⟨n, hn, hle⟩ := hasc.le_newest x hx
    rw [hnewest, Option.some.injEq] at hn
    rw [hn]
    exact hle

/-- The ranges of some series under the ids of `names`: the first and the
last timestamp of each, and nothing else. -/
def RangesFor (names : List LabelSet) (ranges : Ranges)
    (series : List DiskSeries) : Prop :=
  ∀ id e, ranges.lookup id = some e
    ↔ ∃ s ∈ series, names[id]? = some s.labels ∧ s.Spans e

theorem getElem?_mono {α : Type} {l l' : List α} (h : l <+: l')
    {i : Nat} {a : α} (hi : l[i]? = some a) : l'[i]? = some a := by
  obtain ⟨more, rfl⟩ := h
  obtain ⟨hlt, -⟩ := List.getElem?_eq_some_iff.mp hi
  rw [List.getElem?_append_left hlt, hi]

/-- Two ids of one label set are one id. -/
theorem id_unique {names : List LabelSet} (hnd : names.Nodup)
    {i j : SeriesId} {ls : LabelSet} (hi : names[i]? = some ls)
    (hj : names[j]? = some ls) : i = j := by
  obtain ⟨hi, rfl⟩ := List.getElem?_eq_some_iff.mp hi
  obtain ⟨hj, he⟩ := List.getElem?_eq_some_iff.mp hj
  exact ((List.Nodup.getElem_inj_iff hnd).mp he).symm

/-- An id of a known label set is no other one's in a longer list. -/
theorem getElem?_prefix_iff {names names' : List LabelSet}
    (hpre : names <+: names') (hnd : names'.Nodup) {ls : LabelSet}
    (hls : ls ∈ names) (id : SeriesId) :
    names'[id]? = some ls ↔ names[id]? = some ls := by
  constructor
  · intro hid
    have hat : names[names.idxOf ls]? = some ls := List.getElem?_idxOf hls
    rw [id_unique hnd hid (getElem?_mono hpre hat)]
    exact hat
  · exact getElem?_mono hpre

theorem RangesFor.mono {names names' : List LabelSet} {ranges : Ranges}
    {series : List DiskSeries} (h : RangesFor names ranges series)
    (hin : ∀ s ∈ series, s.labels ∈ names) (hpre : names <+: names')
    (hnd : names'.Nodup) : RangesFor names' ranges series := by
  intro id e
  rw [h id e]
  refine exists_congr fun s => and_congr_right fun hs => ?_
  rw [getElem?_prefix_iff hpre hnd (hin s hs)]

/-- A series that is new to the segment, under its id. No other series of
the segment has the id, since no id names two label sets. -/
theorem RangesFor.insert {names : List LabelSet} {ranges : Ranges}
    {done : List DiskSeries} (h : RangesFor names ranges done)
    (hnd : names.Nodup) {s : DiskSeries} {id : SeriesId}
    (hid : names[id]? = some s.labels)
    (hnew : s.labels ∉ done.map DiskSeries.labels) {e : UInt64 × UInt64}
    (he : s.Spans e) :
    RangesFor names (ranges.insert id e) (done ++ [s]) := by
  intro id' e'
  rw [HashMap.lookup_insert_if]
  by_cases hsame : id' = id
  · rw [if_pos hsame, Option.some.injEq, hsame, hid]
    constructor
    · rintro rfl
      exact ⟨s, by simp, rfl, he⟩
    · intro hin
      obtain ⟨s', hs', hlabels, he'⟩ := hin
      rcases List.mem_append.mp hs' with hs' | hs'
      · refine absurd (List.mem_map.mpr ⟨s', hs', ?_⟩) hnew
        exact (Option.some.inj hlabels).symm
      · rw [List.mem_singleton.mp hs'] at he'
        exact he.unique he'
  · rw [if_neg hsame, h id' e']
    constructor
    · intro hin
      obtain ⟨s', hs', hrest⟩ := hin
      exact ⟨s', List.mem_append_left _ hs', hrest⟩
    · intro hin
      obtain ⟨s', hs', hlabels, he'⟩ := hin
      rcases List.mem_append.mp hs' with hs' | hs'
      · exact ⟨s', hs', hlabels, he'⟩
      · rw [List.mem_singleton.mp hs'] at hlabels
        exact absurd (id_unique hnd hlabels hid) hsame

namespace SegmentStore

/-- What the store knows of some files, under the ids of `names`. -/
def Knows (names : List LabelSet) (segments : List SegmentMeta)
    (files : List (Nat × Segment)) : Prop :=
  List.Forall₂ (fun known f =>
    known.number = f.1 ∧ RangesFor names known.ranges f.2.series)
    segments files

/-- The label sets of some files. -/
def labelsOf (files : List (Nat × Segment)) : List LabelSet :=
  files.flatMap fun f => f.2.series.map DiskSeries.labels

theorem mem_labelsOf {files : List (Nat × Segment)} {ls : LabelSet} :
    ls ∈ labelsOf files ↔ ∃ f ∈ files, ∃ s ∈ f.2.series, s.labels = ls := by
  simp [labelsOf]

theorem Knows.mono {names names' : List LabelSet}
    {segments : List SegmentMeta} {files : List (Nat × Segment)}
    (h : Knows names segments files)
    (hin : ∀ ls ∈ labelsOf files, ls ∈ names) (hpre : names <+: names')
    (hnd : names'.Nodup) : Knows names' segments files := by
  induction h with
  | nil => exact .nil
  | @cons known f knowns files hm _ ih =>
      refine .cons ⟨hm.1, hm.2.mono (fun s hs => ?_) hpre hnd⟩
        (ih fun ls hls => ?_)
      · exact hin _ (mem_labelsOf.mpr ⟨f, List.mem_cons_self, s, hs, rfl⟩)
      · obtain ⟨g, hg, hs⟩ := mem_labelsOf.mp hls
        exact hin _ (mem_labelsOf.mpr ⟨g, List.mem_cons_of_mem _ hg, hs⟩)

theorem Knows.concat {names : List LabelSet} {segments : List SegmentMeta}
    {files : List (Nat × Segment)} (h : Knows names segments files)
    {n : Nat} {seg : Segment} {ranges : Ranges}
    (hranges : RangesFor names ranges seg.series) :
    Knows names (segments ++ [⟨n, ranges⟩]) (files ++ [(n, seg)]) :=
  List.rel_append h (.cons ⟨rfl, hranges⟩ .nil)

/-- The store of an open database is for these files, under the ids of
`names`. -/
structure StoreFor (names : List LabelSet) (store : SegmentStore)
    (files : List (Nat × Segment)) : Prop where
  segments : Knows names store.segments files
  named : ∀ ls ∈ labelsOf files, ls ∈ names
  next : store.nextNumber
    = ((files.map Prod.fst).getLast?.map (· + 1)).getD 0

theorem StoreFor.mono {names names' : List LabelSet} {store : SegmentStore}
    {files : List (Nat × Segment)} (h : store.StoreFor names files)
    (hpre : names <+: names') (hnd : names'.Nodup) :
    store.StoreFor names' files where
  segments := h.segments.mono h.named hpre hnd
  named ls hls := hpre.subset (h.named ls hls)
  next := h.next

end SegmentStore

end Tsdb
