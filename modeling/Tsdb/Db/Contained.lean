/-
What can be told from the log alone.

A log is contained if every record uses ids that it or a record before it
has defined, and every definition is that of the label set with the id
(`Contained`). A write keeps it so, since it defines what the log has not
been told in this generation (`Contained.append`), and replaying such a
log resolves every id (`Contained.resolves`).

# Generations

`Contained names defined recs` has the list of what counts as defined, a
part of what is. A flush begins a new generation before anything is
removed, so nothing counts any more (`forget`), and the first write behind
it defines again what it uses. Then the files go. In the middle of this
the log may have lost a definition and still have a record that uses it;
once the removal is done the log is empty, which is contained, and what
is written next does not count on anything that is gone.

# The replay

`Resolving` is the resolver's half of the invariant: it has parked
nothing, and knows the ids that have been defined so far. A record that
uses only these parks nothing and is delivered at once
(`Resolving.apply`), and by induction on the records a contained log
leaves nothing unresolved. The counts of unknown series and dropped
samples that `open_with` logs are then zero. This is independent of what
the samples are, and whether the sink takes them.
-/
import Tsdb.Db.Recovery

namespace Tsdb

open Lib (HashMap)
open Wal (Resolver ReplaySink ResolveStats SeriesEntry SamplesEntry WalRecord)

-- ================================================================= contained

/-- The definitions in records. -/
def definitions (recs : List WalRecord) : List SeriesEntry :=
  recs.flatMap WalRecord.series

/-- The records use no id that is not defined, no definition is of another
label set than that of its id, and those of `defined` are there. -/
structure Contained (names defined : List LabelSet)
    (recs : List WalRecord) : Prop where
  uses : ∀ front rec back, recs = front ++ rec :: back → ∀ e ∈ rec.samples,
    ∃ d ∈ definitions (front ++ [rec]), d.id = e.id
  named : ∀ d ∈ definitions recs, names[d.id]? = some d.labels
  defined : ∀ ls ∈ defined, ∃ d ∈ definitions recs, d.labels = ls

variable {names names' defined : List LabelSet} {recs : List WalRecord}
  {rec : WalRecord}

theorem definitions_append (recs recs' : List WalRecord) :
    definitions (recs ++ recs') = definitions recs ++ definitions recs' :=
  List.flatMap_append

theorem definitions_singleton (rec : WalRecord) :
    definitions [rec] = rec.series :=
  List.flatMap_singleton _ _

namespace Contained

theorem nil (names : List LabelSet) : Contained names [] [] where
  uses front rec back h := absurd h (by simp)
  named d hd := by cases hd
  defined ls hls := by cases hls

theorem mono (h : Contained names defined recs) (hpre : names <+: names') :
    Contained names' defined recs where
  uses := h.uses
  named d hd := getElem?_mono hpre (h.named d hd)
  defined := h.defined

/-- In a new generation nothing counts as defined. -/
theorem forget (h : Contained names defined recs) :
    Contained names [] recs where
  uses := h.uses
  named := h.named
  defined ls hls := by cases hls

/-- The record of a write joins the log. Each series it has samples for is
defined already or in the record itself, and those it defines are new, so
that no id is defined as two series. -/
theorem append (h : Contained names defined recs) (hnd : names.Nodup)
    {es : List (LabelSet × List Sample)}
    (hrec : RecordOf names defined es rec) :
    Contained names (defined ++ rec.series.map SeriesEntry.labels)
      (recs ++ [rec]) := by
  have hall : definitions (recs ++ [rec]) = definitions recs ++ rec.series := by
    rw [definitions_append, definitions_singleton]
  have hnamed : ∀ d ∈ definitions (recs ++ [rec]),
      names[d.id]? = some d.labels := by
    intro d hd
    rw [hall] at hd
    rcases List.mem_append.mp hd with hd | hd
    · exact h.named d hd
    · exact hrec.series d hd
  refine ⟨fun front r back hcat e he => ?_, hnamed, fun ls hls => ?_⟩
  · rcases List.eq_nil_or_concat' back with rfl | ⟨back, last, rfl⟩
    · obtain ⟨rfl, hlast⟩ := List.append_inj' hcat rfl
      cases hlast
      -- a label set that is written to is defined, or is about to be
      obtain ⟨b, hb, hid, -⟩ := exists_of_forall₂ hrec.samples.flip he
      obtain ⟨d, hd, hlabels⟩ : ∃ d ∈ definitions (recs ++ [rec]),
          d.labels = b.1 := by
        rw [hall]
        by_cases hdef : b.1 ∈ defined
        · obtain ⟨d, hd, hlabels⟩ := h.defined b.1 hdef
          exact ⟨d, List.mem_append_left _ hd, hlabels⟩
        · have hin : b.1 ∈ rec.series.map SeriesEntry.labels := by
            rw [hrec.labels, mem_touchAll]
            exact .inr (List.mem_filter.mpr
              ⟨List.mem_map_of_mem hb, by simpa using hdef⟩)
          obtain ⟨d, hd, hlabels⟩ := List.mem_map.mp hin
          exact ⟨d, List.mem_append_right _ hd, hlabels⟩
      exact ⟨d, hd, id_unique hnd (hlabels ▸ hnamed d hd) hid⟩
    · rw [← List.cons_append, ← List.append_assoc] at hcat
      obtain ⟨hcat, -⟩ := List.append_inj' hcat rfl
      exact h.uses front r back hcat e he
  · rw [hall]
    rcases List.mem_append.mp hls with hls | hls
    · obtain ⟨d, hd, hlabels⟩ := h.defined ls hls
      exact ⟨d, List.mem_append_left _ hd, hlabels⟩
    · obtain ⟨d, hd, hlabels⟩ := List.mem_map.mp hls
      exact ⟨d, List.mem_append_right _ hd, hlabels⟩

end Contained

-- ============================================================== its resolving

/-- A resolver that has parked nothing, and knows the ids defined so far. -/
structure Resolving {σ : Type} (recs : List WalRecord)
    (acc : Resolver × σ) : Prop where
  ids : ∀ d ∈ definitions recs, ∃ j, acc.1.ids.lookup d.id = some j
  pending : acc.1.pending = ∅

namespace Resolving

variable {σ : Type} {ops : ReplaySink σ} {acc : Resolver × σ}

/-- With nothing parked, a definition gives its id a target, and leaves
nothing parked. The induction is on the definitions of one record. -/
private theorem define (ops : ReplaySink σ) (es : List SeriesEntry)
    {acc : Resolver × σ} (hpending : acc.1.pending = ∅) :
    (es.foldl (Resolver.applySeries ops) acc).1.pending = ∅
      ∧ ∀ i, ((∃ j, acc.1.ids.lookup i = some j) ∨ ∃ d ∈ es, d.id = i) →
        ∃ j, (es.foldl (Resolver.applySeries ops) acc).1.ids.lookup i
          = some j := by
  induction es generalizing acc with
  | nil =>
      refine ⟨hpending, fun i hi => ?_⟩
      rcases hi with hi | ⟨d, hd, -⟩
      · exact hi
      · cases hd
  | cons e es ih =>
      have hparked : acc.1.pending.lookup e.id = none := by
        rw [hpending]
        rfl
      have hstep : Resolver.applySeries ops acc e
          = ({ acc.1 with
              ids := acc.1.ids.insert e.id (ops.series e.labels acc.2).1 },
            (ops.series e.labels acc.2).2) := by
        simp only [Resolver.applySeries, hparked]
      rw [List.foldl_cons, hstep]
      obtain ⟨hnone, hids⟩ := @ih ({ acc.1 with
        ids := acc.1.ids.insert e.id (ops.series e.labels acc.2).1 },
        (ops.series e.labels acc.2).2) hpending
      refine ⟨hnone, fun i hi => hids i ?_⟩
      simp only [HashMap.lookup_insert_if]
      by_cases he : i = e.id
      · exact .inl ⟨_, if_pos he⟩
      · rw [if_neg he]
        rcases hi with hi | ⟨d, hd, hid⟩
        · exact .inl hi
        · rcases List.mem_cons.mp hd with rfl | hd
          · exact absurd hid.symm he
          · exact .inr ⟨d, hd, hid⟩

private theorem deliver (ops : ReplaySink σ) (es : List SamplesEntry)
    {acc : Resolver × σ} (hes : ∀ e ∈ es, ∃ j, acc.1.ids.lookup e.id = some j) :
    (es.foldl (Resolver.applySamples ops) acc).1 = acc.1 := by
  induction es generalizing acc with
  | nil => rfl
  | cons e es ih =>
      obtain ⟨j, hj⟩ := hes e List.mem_cons_self
      have hstep : Resolver.applySamples ops acc e
          = (acc.1, ops.samples j e.samples acc.2) := by
        simp only [Resolver.applySamples, hj]
      rw [List.foldl_cons, hstep]
      exact ih fun e he => hes e (List.mem_cons_of_mem _ he)

/-- A record that uses what is defined parks nothing. -/
theorem apply (h : Resolving recs acc)
    (huses : ∀ e ∈ rec.samples, ∃ d ∈ definitions (recs ++ [rec]),
      d.id = e.id) :
    Resolving (recs ++ [rec]) (Resolver.apply ops acc rec) := by
  obtain ⟨hpending, hids⟩ := define ops rec.series h.pending
  have hknown : ∀ d ∈ definitions (recs ++ [rec]), ∃ j,
      (rec.series.foldl (Resolver.applySeries ops) acc).1.ids.lookup d.id
        = some j := by
    intro d hd
    rw [definitions_append, definitions_singleton] at hd
    rcases List.mem_append.mp hd with hd | hd
    · exact hids d.id (.inl (h.ids d hd))
    · exact hids d.id (.inr ⟨d, hd, rfl⟩)
  have hsame : (rec.samples.foldl (Resolver.applySamples ops)
      (rec.series.foldl (Resolver.applySeries ops) acc)).1
        = (rec.series.foldl (Resolver.applySeries ops) acc).1 := by
    refine deliver ops rec.samples fun e he => ?_
    obtain ⟨d, hd, hid⟩ := huses e he
    rw [← hid]
    exact hknown d hd
  unfold Resolver.apply
  refine ⟨fun d hd => ?_, ?_⟩
  · rw [hsame]
    exact hknown d hd
  · rw [hsame]
    exact hpending

end Resolving

/-- Replaying a contained log leaves nothing unresolved. -/
theorem Contained.resolves {σ : Type} (h : Contained names defined recs)
    (ops : ReplaySink σ) (sink : σ) :
    (Resolver.applyAll ops ({}, sink) recs).1.finish.unknownSeries = 0
      ∧ (Resolver.applyAll ops ({}, sink) recs).1.finish.droppedSamples
        = 0 := by
  have hall : Resolving recs (Resolver.applyAll ops ({}, sink) recs) := by
    have hloop : ∀ (done more : List WalRecord), recs = done ++ more →
        Resolving done (Resolver.applyAll ops ({}, sink) done) := by
      intro done
      induction done using List.reverseRecOn with
      | nil =>
          intro more _
          exact ⟨fun d hd => absurd hd (List.not_mem_nil), rfl⟩
      | append_singleton done rec ih =>
          intro more hcat
          rw [List.append_assoc, List.singleton_append] at hcat
          rw [Resolver.applyAll_append]
          exact (ih _ hcat).apply (h.uses done rec more hcat)
    exact hloop recs [] (List.append_nil _).symm
  unfold Resolver.finish
  simp only [hall.pending]
  exact ⟨rfl, rfl⟩

end Tsdb
