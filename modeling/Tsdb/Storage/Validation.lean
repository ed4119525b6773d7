/-
What `open` accepts, and what it then knows (`index_segment`).

The checks are local: two neighbours in a series, its first timestamp
against the running `latest`, an insertion that finds something. Together
they are the law of `Valid`, and the numbers the store keeps are the
extrema of what the segments hold.

# From local to global

That a series is in order is checked by its neighbours; it is ascending
because order is transitive. That it goes behind the segments before is
checked against one number, the last timestamp on record; it goes behind
all of them because that number is the greatest of the history
(`Tsdb.Storage.Store`, `latest_lookup`). That a label set occurs once is
checked by an insertion into the map of ranges, which are by id; it is
about label sets because ids and label sets correspond.

`index_segments_exact` states the result for segments indexed one behind
the other from an empty index, which is what `open` does with the files it
finds: the fold goes through exactly if the list is valid, and every
number it leaves is described by what the segments hold and by nothing
else. The proof is `indexFile_loop` of `Tsdb.Storage.Store` from the empty
view, with the spans read as least and greatest timestamps
(`DiskSeries.spans_iff`).
-/
import Tsdb.Storage.Store

namespace Tsdb

open Lib (Ascending HashMap)

-- =============================================================== extrema

/-- The span of an ascending series is its least and its greatest
timestamp. -/
theorem DiskSeries.spans_iff {s : DiskSeries}
    (h : Ascending Prod.fst s.samples) {lo hi : UInt64} :
    s.Spans (lo, hi) ↔ IsLeast {t | ∃ x ∈ s.samples, x.1 = t} lo
      ∧ IsGreatest {t | ∃ x ∈ s.samples, x.1 = t} hi :=
  and_congr h.head_eq_iff h.newest_eq_iff

-- ============================================================= exactness

namespace SegmentStore

/-- Segments indexed one behind the other, into an empty index, go through
exactly if they are valid. The ids then count the label sets as they first
occur, the ranges of a segment are the least and the greatest timestamp of
each of its series, and `latest` has the greatest of all.

The loop is `indexFile_loop`, from the empty index. What it says of ids,
ranges and `latest` is in terms of the histories; the rest is that an
ascending list has its least element in front and its greatest at the end. -/
theorem index_segments_exact (files : List (Nat × Segment)) :
    ((∃ r, files.foldlM indexFile ([], Index.new, ∅) = .ok r)
      ↔ Valid (files.map Prod.snd))
    ∧ ∀ segments index latest,
      files.foldlM indexFile ([], Index.new, ∅)
        = .ok (segments, index, latest) →
      (∀ ls, index.idFor ls = if ls ∈ touchAll [] (labelsOf files)
        then some ((touchAll [] (labelsOf files)).idxOf ls) else none)
      ∧ List.Forall₂ (fun (known : SegmentMeta) (f : Nat × Segment) =>
        known.number = f.1 ∧ ∀ id lo hi,
          known.ranges.lookup id = some (lo, hi)
            ↔ ∃ s ∈ f.2.series, index.idFor s.labels = some id
              ∧ IsLeast {t | ∃ x ∈ s.samples, x.1 = t} lo
              ∧ IsGreatest {t | ∃ x ∈ s.samples, x.1 = t} hi)
        segments files
      ∧ ∀ id last, latest.lookup id = some last
        ↔ ∃ ls, index.idFor ls = some id
          ∧ IsGreatest {t | ∃ f ∈ files, ∃ s ∈ f.2.series,
            s.labels = ls ∧ ∃ x ∈ s.samples, x.1 = t} last := by
  have hnil : ∀ ls, ({} : View).hist ls = [] := fun _ => rfl
  obtain ⟨hok, herror⟩ := indexFile_loop hnil Index.Names.new files
  by_cases hvalid : Valid (files.map Prod.snd)
  · obtain ⟨segments, latest, hloop, hloaded, hknows⟩ := hok hvalid
    refine ⟨⟨fun _ => hvalid, fun _ => ⟨_, hloop⟩⟩,
      fun segments' index' latest' hrun => ?_⟩
    rw [hloop] at hrun
    cases hrun
    have hsets : (({} : View).loadAll (files.map Prod.snd)).sets
        = touchAll [] (labelsOf files) := by
      rw [View.sets_loadAll, List.flatMap_map]
      rfl
    refine ⟨fun ls => ?_, ?_, fun id last => ?_⟩
    · rw [hloaded.names.inverted, hsets]
    · refine List.Forall₂.imp ?_ (List.forall₂_iff_zip.mpr
        ⟨hknows.length_eq, fun {known f} hin =>
          And.intro (List.of_mem_zip hin).2
            (List.forall₂_zip hknows hin)⟩)
      intro known f h
      obtain ⟨hf, hnumber, hranges⟩ := h
      refine ⟨hnumber, fun id lo hi => ?_⟩
      rw [hranges id (lo, hi)]
      refine exists_congr fun s => and_congr_right fun hs => ?_
      rw [hloaded.names.idFor_iff, DiskSeries.spans_iff]
      exact (asc_toSamples s).mp
        (hvalid.series (List.mem_map_of_mem hf) hs)
    · rw [hloaded.latest id, Option.bind_eq_some_iff]
      refine exists_congr fun ls => ?_
      rw [hloaded.names.idFor_iff, (hloaded.asc ls).newest_eq_iff]
      refine and_congr_right fun _ => ?_
      have hset : {t | ∃ x ∈ (({} : View).loadAll
            (files.map Prod.snd)).hist ls, x.timestamp = t}
          = {t | ∃ f ∈ files, ∃ s ∈ f.2.series,
            s.labels = ls ∧ ∃ x ∈ s.samples, x.1 = t} := by
        ext t
        rw [View.hist_loadAll, hnil, List.nil_append, List.flatMap_map]
        constructor
        · intro hin
          obtain ⟨x, hx, ht⟩ := hin
          obtain ⟨f, hf, hx⟩ := List.mem_flatMap.mp hx
          obtain ⟨s, hs, hls, hx⟩ := Segment.mem_samplesOf.mp hx
          obtain ⟨y, hy, rfl⟩ := List.mem_map.mp hx
          exact ⟨f, hf, s, hs, hls, y, hy, ht⟩
        · intro hin
          obtain ⟨f, hf, s, hs, hls, y, hy, ht⟩ := hin
          exact ⟨⟨y.1, y.2⟩, List.mem_flatMap.mpr ⟨f, hf,
            Segment.mem_samplesOf.mpr ⟨s, hs, hls,
              List.mem_map.mpr ⟨y, hy, rfl⟩⟩⟩, ht⟩
      rw [hset]
  · obtain ⟨f, hf, hloop⟩ := herror hvalid
    refine ⟨⟨fun hr => ?_, fun hv => absurd hv hvalid⟩,
      fun segments index latest hrun => ?_⟩
    · obtain ⟨r, hr⟩ := hr
      rw [hloop] at hr
      cases hr
    · rw [hloop] at hrun
      cases hrun

end SegmentStore

end Tsdb
