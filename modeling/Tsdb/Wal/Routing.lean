/-
Where the resolver sends the samples of a log (`storage/wal/replay.rs`).

# The target

A samples entry is meant for the latest series entry of its id at or before
its own record and, if there is none, for the first one behind it. `placed`
tags each samples entry with the number of series entries up to its record,
which is all `target` needs to know of records.

# The invariant

`Routed` follows the two maps of the resolver through the log, one entry at
a time: `ids` is the latest series entry of each id, and `pending` is, id by
id, the samples entries without a target so far. A series entry gives a
target to exactly the entries `pending` holds for it, and to no entry that
had another (`target_snoc`), so that what has been delivered stays
delivered, once, and in the order of the log for each id.

# What the sink is told

The sink may do anything with what it is told, so it is listened to: a
sink that also keeps the calls (`ReplaySink.heard`) does the same as the
one it wraps (`applyAll_unheard`), and the theorem speaks of what was
heard. `Delivers` compares the calls with the entries that have a target.
Entries of different ids may come in another order than in the log, since
some had to wait, so it asks for an order of the entries that agrees with
the log on each id.

# The counts

At the end the ids still pending are those of the entries without a
target, and the statistics count them (`Routed.finish`). The only sum is
over the ids of a list, each id with its own entries (`sum_by_id`).
`late_series` counts ids with entries that came before their definition,
which is a set of ids that grows when one of them is defined
(`mem_late_snoc`).
-/
import Mathlib.Algebra.BigOperators.Group.List.Basic
import Mathlib.Data.Finset.Dedup
import Tsdb.Wal.Replay

namespace Tsdb.Wal

open Lib (HashMap)

variable {σ : Type}

-- ============================================================== listening

/-- What a sink has been told: the series, with the ids it has given them,
and the samples. -/
structure Heard where
  series : List (LabelSet × SeriesId) := []
  samples : List (SeriesId × List Sample) := []
deriving DecidableEq, Repr

/-- A sink that also keeps what it is told. -/
def ReplaySink.heard (ops : ReplaySink σ) : ReplaySink (σ × Heard) where
  series labels acc :=
    let (id, sink) := ops.series labels acc.1
    (id, sink, { acc.2 with series := acc.2.series ++ [(labels, id)] })
  samples id samples acc :=
    (ops.samples id samples acc.1,
      { acc.2 with samples := acc.2.samples ++ [(id, samples)] })

namespace Resolver

/-- Listening aside. -/
def unheard (acc : Resolver × (σ × Heard)) : Resolver × σ :=
  (acc.1, acc.2.1)

private theorem unheard_parked (ops : ReplaySink σ) (id : SeriesId)
    (parked : List (List Sample)) (s : σ × Heard) :
    (parked.foldl (fun s samples => ops.heard.samples id samples s) s).1
      = parked.foldl (fun sink samples => ops.samples id samples sink)
          s.1 := by
  induction parked generalizing s with
  | nil => rfl
  | cons samples parked ih => exact ih _

private theorem applySeries_unheard (ops : ReplaySink σ)
    (acc : Resolver × (σ × Heard)) (e : SeriesEntry) :
    applySeries ops (unheard acc) e
      = unheard (applySeries ops.heard acc e) := by
  simp only [applySeries, unheard]
  split
  · exact Prod.ext rfl (unheard_parked ops _ _
      (ops.heard.series e.labels acc.2).2).symm
  · rfl

private theorem applySamples_unheard (ops : ReplaySink σ)
    (acc : Resolver × (σ × Heard)) (e : SamplesEntry) :
    applySamples ops (unheard acc) e
      = unheard (applySamples ops.heard acc e) := by
  simp only [applySamples, unheard]
  split <;> rfl

/-- A sink does the same whether it is listened to or not. -/
theorem applyAll_unheard (ops : ReplaySink σ) (recs : List WalRecord)
    (acc : Resolver × (σ × Heard)) :
    applyAll ops (unheard acc) recs
      = unheard (applyAll ops.heard acc recs) := by
  refine List.foldl_hom unheard (fun acc rec => ?_)
  unfold apply
  rw [List.foldl_hom unheard (applySeries_unheard ops),
    List.foldl_hom unheard (applySamples_unheard ops)]

end Resolver

-- ================================================================ targets

/-- The samples entries of a log, each with the number of series entries in
the records up to its own. -/
def placed : Nat → List WalRecord → List (Nat × SamplesEntry)
  | _, [] => []
  | n, rec :: recs =>
      rec.samples.map ((n + rec.series.length, ·))
        ++ placed (n + rec.series.length) recs

/-- Where a samples entry belongs, `given` being the ids of the log's series
entries with the ids the sink gave for them: the latest series entry of its
id at or before its record, else the first one behind it. -/
def target (given : List (SeriesId × SeriesId)) (x : Nat × SamplesEntry) :
    Option SeriesId :=
  (((given.take x.1).reverse.find? (·.1 = x.2.id)).or
    ((given.drop x.1).find? (·.1 = x.2.id))).map (·.2)

/-- Its record comes before every series entry of its id. -/
def early (given : List (SeriesId × SeriesId)) (x : Nat × SamplesEntry) :
    Bool :=
  (given.take x.1).all (·.1 ≠ x.2.id)

variable {given : List (SeriesId × SeriesId)} {x : Nat × SamplesEntry}

theorem target_eq_none :
    target given x = none ↔ ∀ g ∈ given, g.1 ≠ x.2.id := by
  unfold target
  rw [Option.map_eq_none_iff, Option.or_eq_none_iff, List.find?_eq_none,
    List.find?_eq_none]
  constructor
  · intro h g hg
    rw [← List.take_append_drop x.1 given] at hg
    rcases List.mem_append.mp hg with hg | hg
    · simpa using h.1 g (List.mem_reverse.mpr hg)
    · simpa using h.2 g hg
  · intro h
    refine ⟨fun g hg => ?_, fun g hg => ?_⟩
    · simpa using h g (List.mem_of_mem_take (List.mem_reverse.mp hg))
    · simpa using h g (List.mem_of_mem_drop hg)

/-- A further series entry is a target for what had none, and for nothing
else. -/
theorem target_snoc (hx : x.1 ≤ given.length) (g : SeriesId × SeriesId) :
    target (given ++ [g]) x
      = (target given x).or (if g.1 = x.2.id then some g.2 else none) := by
  unfold target
  rw [List.take_append_of_le_length hx, List.drop_append_of_le_length hx,
    List.find?_append, ← Option.or_assoc]
  cases hold : ((given.take x.1).reverse.find? (·.1 = x.2.id)).or
      ((given.drop x.1).find? (·.1 = x.2.id)) with
  | some _ => rfl
  | none =>
      by_cases hg : g.1 = x.2.id
      · simp [hg]
      · simp [hg]

theorem early_snoc (hx : x.1 ≤ given.length) (g : SeriesId × SeriesId) :
    early (given ++ [g]) x = early given x := by
  unfold early
  rw [List.take_append_of_le_length hx]

/-- At its own place an entry can only look back. -/
theorem target_last (e : SamplesEntry) :
    target given (given.length, e)
      = (given.reverse.find? (·.1 = e.id)).map (·.2) := by
  unfold target
  rw [List.take_length, List.drop_length]
  simp

-- ========================================================== the invariant

/-- The entries of an id that have no target so far. -/
def waiting (given : List (SeriesId × SeriesId))
    (entries : List (Nat × SamplesEntry)) (id : SeriesId) :
    List (Nat × SamplesEntry) :=
  entries.filter fun x => x.2.id = id ∧ target given x = none

/-- The ids of the entries that had to wait for their target. -/
def late (given : List (SeriesId × SeriesId))
    (entries : List (Nat × SamplesEntry)) : List SeriesId :=
  (entries.filter fun x => early given x ∧ target given x ≠ none).map
    (·.2.id)

/-- The resolver between two entries of the log. -/
structure Routed (given : List (SeriesId × SeriesId))
    (entries : List (Nat × SamplesEntry)) (res : Resolver) : Prop where
  within : ∀ x ∈ entries, x.1 ≤ given.length
  ids : ∀ id, res.ids.lookup id
    = (given.reverse.find? (·.1 = id)).map (·.2)
  pending : ∀ id parked, res.pending.lookup id = some parked
    ↔ parked ≠ [] ∧ parked = (waiting given entries id).map (·.2.samples)
  counted : res.stats.lateSeries = (late given entries).toFinset.card

/-- What has been delivered: each entry that has a target, once, and for
each id in the order of the log. -/
def Delivers (given : List (SeriesId × SeriesId))
    (entries : List (Nat × SamplesEntry))
    (told : List (SeriesId × List Sample)) : Prop :=
  ∃ order : List (Nat × SamplesEntry),
    (∀ id, order.filter (·.2.id = id)
      = entries.filter fun x => x.2.id = id ∧ target given x ≠ none)
    ∧ order.map (fun x => (target given x, x.2.samples))
      = told.map fun d => (some d.1, d.2)

variable {entries : List (Nat × SamplesEntry)} {res : Resolver}
  {told : List (SeriesId × List Sample)}

theorem Routed.undefined (h : Routed given entries res) {id : SeriesId} :
    res.ids.lookup id = none ↔ ∀ g ∈ given, g.1 ≠ id := by
  rw [h.ids, Option.map_eq_none_iff, List.find?_eq_none]
  simp

/-- An id with entries waiting has no series entry so far. -/
theorem undefined_of_waiting {id : SeriesId}
    (h : waiting given entries id ≠ []) : ∀ g ∈ given, g.1 ≠ id := by
  obtain ⟨x, hx⟩ := List.exists_mem_of_ne_nil _ h
  have hx := (List.mem_filter.mp hx).2
  simp only [decide_eq_true_eq] at hx
  obtain ⟨rfl, hnone⟩ := hx
  exact target_eq_none.mp hnone

theorem Routed.pending_none (h : Routed given entries res) {id : SeriesId} :
    res.pending.lookup id = none ↔ waiting given entries id = [] := by
  constructor
  · intro hnone
    by_contra hne
    have := (h.pending id _).mpr ⟨by simpa using hne, rfl⟩
    rw [hnone] at this
    cases this
  · intro hnil
    cases hl : res.pending.lookup id with
    | none => rfl
    | some parked =>
        obtain ⟨hne, heq⟩ := (h.pending id parked).mp hl
        rw [hnil] at heq
        exact absurd heq hne

/-- An entry at its own place either has a target or has to wait: its id has
been looked back for, and nothing was behind it. -/
theorem late_last (e : SamplesEntry) :
    late given (entries ++ [(given.length, e)]) = late given entries := by
  have hnot : ¬ (early given (given.length, e)
      ∧ target given (given.length, e) ≠ none) := by
    intro ⟨hearly, hsome⟩
    refine hsome (target_eq_none.mpr fun g hg => ?_)
    unfold early at hearly
    rw [List.take_length, List.all_eq_true] at hearly
    simpa using hearly g hg
  unfold late
  rw [List.filter_append, List.filter_singleton, decide_eq_false hnot]
  simp

/-- What a samples entry does: it is delivered if its id is defined, and
waits otherwise. At its own place the entry can only look back, so its
target is what the resolver has for its id; if there is none it goes behind
those that wait for the same id. -/
theorem Routed.samples (h : Routed given entries res)
    (hd : Delivers given entries told) (ops : ReplaySink σ)
    (sink : σ) (series : List (LabelSet × SeriesId)) (e : SamplesEntry) :
    let next := Resolver.applySamples ops.heard
      (res, sink, ⟨series, told⟩) e
    Routed given (entries ++ [(given.length, e)]) next.1
      ∧ next.2.2.series = series
      ∧ Delivers given (entries ++ [(given.length, e)])
        next.2.2.samples := by
  intro next
  have hplaced : ∀ x ∈ entries ++ [(given.length, e)],
      x.1 ≤ given.length := by
    intro x hx
    rcases List.mem_append.mp hx with hx | hx
    · exact h.within x hx
    · rw [List.mem_singleton.mp hx]
  -- looking back from its own place is what the resolver does
  have htarget : target given (given.length, e)
      = (given.reverse.find? (·.1 = e.id)).map (·.2) := target_last e
  rw [← h.ids] at htarget
  cases hids : res.ids.lookup e.id with
  | some sid =>
      rw [hids] at htarget
      have hnext : next = (res, ops.samples sid e.samples sink,
          ⟨series, told ++ [(sid, e.samples)]⟩) := by
        show Resolver.applySamples ops.heard _ e = _
        simp only [Resolver.applySamples]
        rw [hids]
        rfl
      rw [hnext]
      refine ⟨⟨hplaced, h.ids, fun id parked => ?_, ?_⟩, rfl, ?_⟩
      · -- nobody waits who did not
        have hsame : waiting given (entries ++ [(given.length, e)]) id
            = waiting given entries id := by
          unfold waiting
          rw [List.filter_append, List.filter_singleton, htarget]
          simp
        rw [hsame]
        exact h.pending id parked
      · rw [late_last]
        exact h.counted
      · obtain ⟨order, hper, htold⟩ := hd
        refine ⟨order ++ [(given.length, e)], fun id => ?_, ?_⟩
        · rw [List.filter_append, List.filter_append, hper,
            List.filter_singleton, List.filter_singleton, htarget]
          simp
        · rw [List.map_append, List.map_append, htold, List.map_singleton,
            htarget]
          rfl
  | none =>
      rw [hids] at htarget
      have hnext : next = ({ res with
          pending := res.pending.insert e.id
            ((res.pending.lookup e.id).getD [] ++ [e.samples]) },
          sink, ⟨series, told⟩) := by
        show Resolver.applySamples ops.heard _ e = _
        simp only [Resolver.applySamples]
        rw [hids]
      rw [hnext]
      have hwaiting : ∀ id,
          waiting given (entries ++ [(given.length, e)]) id
            = waiting given entries id
              ++ if e.id = id then [(given.length, e)] else [] := by
        intro id
        unfold waiting
        rw [List.filter_append, List.filter_singleton, htarget]
        by_cases hid : e.id = id <;> simp [hid]
      refine ⟨⟨hplaced, h.ids, fun id parked => ?_, ?_⟩, rfl, ?_⟩
      · show (res.pending.insert e.id _).lookup id = some parked ↔ _
        rw [HashMap.lookup_insert_if, hwaiting]
        by_cases hid : id = e.id
        · -- the entry waits behind those that do
          have hold : (res.pending.lookup e.id).getD []
              = (waiting given entries e.id).map (·.2.samples) := by
            cases hl : res.pending.lookup e.id with
            | some parked => exact ((h.pending _ _).mp hl).2
            | none => rw [h.pending_none.mp hl]; rfl
          rw [if_pos hid, if_pos hid.symm, hold, hid, List.map_append,
            Option.some.injEq]
          constructor
          · intro heq
            exact ⟨by rw [← heq]; simp, heq.symm⟩
          · intro heq
            exact heq.2.symm
        · rw [if_neg hid, if_neg (Ne.symm hid), List.append_nil]
          exact h.pending id parked
      · rw [late_last]
        exact h.counted
      · obtain ⟨order, hper, htold⟩ := hd
        refine ⟨order, fun id => ?_, htold⟩
        rw [hper, List.filter_append, List.filter_singleton, htarget]
        simp

/-- Who waits for an id is served by its series entry, and nobody else. -/
theorem waiting_snoc (h : ∀ x ∈ entries, x.1 ≤ given.length)
    (g : SeriesId × SeriesId) (id : SeriesId) :
    waiting (given ++ [g]) entries id
      = if id = g.1 then [] else waiting given entries id := by
  unfold waiting
  by_cases hid : id = g.1
  · rw [if_pos hid, List.filter_eq_nil_iff]
    intro x hx
    rw [target_snoc (h x hx)]
    simp only [decide_eq_true_eq, Option.or_eq_none_iff]
    intro hwait
    obtain ⟨hxid, -, hnone⟩ := hwait
    rw [if_pos (hid.symm.trans hxid.symm)] at hnone
    cases hnone
  · rw [if_neg hid]
    refine List.filter_congr fun x hx => ?_
    rw [target_snoc (h x hx)]
    by_cases hxid : x.2.id = id
    · have hne : g.1 ≠ x.2.id := fun heq => hid (hxid.symm.trans heq.symm)
      simp [hne]
    · simp [hxid]

/-- An id is late once it is defined with entries waiting. -/
theorem mem_late_snoc (h : ∀ x ∈ entries, x.1 ≤ given.length)
    (g : SeriesId × SeriesId) (id : SeriesId) :
    id ∈ late (given ++ [g]) entries
      ↔ id ∈ late given entries
        ∨ (id = g.1 ∧ waiting given entries g.1 ≠ []) := by
  unfold late
  simp only [List.mem_map, List.mem_filter, decide_eq_true_eq]
  constructor
  · intro hin
    obtain ⟨x, ⟨hx, hearly, hsome⟩, rfl⟩ := hin
    rw [early_snoc (h x hx)] at hearly
    by_cases hold : target given x = none
    · rw [target_snoc (h x hx), hold, Option.none_or] at hsome
      have hid : g.1 = x.2.id := by
        by_contra hne
        exact hsome (if_neg hne)
      refine .inr ⟨hid.symm, List.ne_nil_of_mem (a := x) ?_⟩
      exact List.mem_filter.mpr ⟨hx, by simp [hid, hold]⟩
    · exact .inl ⟨x, ⟨hx, hearly, hold⟩, rfl⟩
  · intro hin
    rcases hin with ⟨x, ⟨hx, hearly, hsome⟩, rfl⟩ | ⟨rfl, hwaiting⟩
    · refine ⟨x, ⟨hx, ?_, ?_⟩, rfl⟩
      · rwa [early_snoc (h x hx)]
      · rw [target_snoc (h x hx)]
        exact fun hnone => hsome (Option.or_eq_none_iff.mp hnone).1
    · obtain ⟨x, hx⟩ := List.exists_mem_of_ne_nil _ hwaiting
      obtain ⟨hx, hwait⟩ := List.mem_filter.mp hx
      obtain ⟨hid, hnone⟩ := of_decide_eq_true hwait
      refine ⟨x, ⟨hx, ?_, ?_⟩, hid⟩
      · rw [early_snoc (h x hx), early, List.all_eq_true]
        intro g' hg'
        simpa using target_eq_none.mp hnone g' (List.mem_of_mem_take hg')
      · rw [target_snoc (h x hx), hnone, if_pos hid.symm]
        nofun

/-- Whether an entry of a given id waits is up to the id. -/
theorem target_of_undefined {id : SeriesId} (hid : ∀ g ∈ given, g.1 ≠ id)
    (h : x.2.id = id) : target given x = none :=
  target_eq_none.mpr fun g hg => h ▸ hid g hg

/-- The deliveries once those who wait for `g.1` are served. If the id had
no series entry so far, all of its entries wait, and they are delivered now,
in the order of the log; if it had one, none of them does. Entries of other
ids keep their targets and their places. -/
theorem Delivers.snoc (h : ∀ x ∈ entries, x.1 ≤ given.length)
    (hd : Delivers given entries told) (g : SeriesId × SeriesId) :
    Delivers (given ++ [g]) entries
      (told ++ (waiting given entries g.1).map fun x =>
        (g.2, x.2.samples)) := by
  obtain ⟨order, hper, htold⟩ := hd
  refine ⟨order ++ waiting given entries g.1, fun id => ?_, ?_⟩
  · rw [List.filter_append, hper]
    by_cases hid : id = g.1
    · subst hid
      have hall : (waiting given entries g.1).filter (·.2.id = g.1)
          = waiting given entries g.1 := by
        refine List.filter_eq_self.mpr fun x hx => ?_
        have := (List.mem_filter.mp hx).2
        simp only [decide_eq_true_eq] at this
        simpa using this.1
      have hnow : ∀ x ∈ entries, x.2.id = g.1 →
          target (given ++ [g]) x ≠ none := by
        intro x hx hxid
        rw [target_snoc (h x hx), if_pos hxid.symm]
        cases target given x <;> nofun
      rw [hall]
      -- has the id been defined before?
      by_cases hundef : ∀ g' ∈ given, g'.1 ≠ g.1
      · -- the first series entry of the id: all of its entries wait
        have hnil : (entries.filter fun x =>
            x.2.id = g.1 ∧ target given x ≠ none) = [] := by
          refine List.filter_eq_nil_iff.mpr fun x _ => ?_
          simp only [decide_eq_true_eq]
          intro ⟨hxid, hsome⟩
          exact hsome (target_of_undefined hundef hxid)
        rw [hnil, List.nil_append]
        refine List.filter_congr fun x hx => decide_eq_decide.mpr ?_
        constructor
        · intro hxid
          exact ⟨hxid.1, hnow x hx hxid.1⟩
        · intro hxid
          exact ⟨hxid.1, target_of_undefined hundef hxid.1⟩
      · have hnil : waiting given entries g.1 = [] := by
          by_contra hne
          exact hundef (undefined_of_waiting hne)
        rw [hnil, List.append_nil]
        refine List.filter_congr fun x hx => decide_eq_decide.mpr ?_
        constructor
        · intro hxid
          exact ⟨hxid.1, hnow x hx hxid.1⟩
        · intro hxid
          refine ⟨hxid.1, fun hnone => ?_⟩
          have : x ∈ waiting given entries g.1 :=
            List.mem_filter.mpr ⟨hx, by simp [hxid.1, hnone]⟩
          rw [hnil] at this
          cases this
    · have hnil : (waiting given entries g.1).filter (·.2.id = id) = [] := by
        refine List.filter_eq_nil_iff.mpr fun x hx => ?_
        have := (List.mem_filter.mp hx).2
        simp only [decide_eq_true_eq] at this ⊢
        exact fun hxid => hid (hxid.symm.trans this.1)
      rw [hnil, List.append_nil]
      refine List.filter_congr fun x hx => decide_eq_decide.mpr ?_
      rw [target_snoc (h x hx)]
      refine and_congr_right fun hxid => ?_
      have hne : g.1 ≠ x.2.id := fun heq => hid (hxid.symm.trans heq.symm)
      rw [if_neg hne, Option.or_none]
  · rw [List.map_append, List.map_append, ← htold, List.map_map]
    congr 1
    · refine List.map_congr_left fun x hx => ?_
      have hin : x ∈ entries.filter fun y =>
          y.2.id = x.2.id ∧ target given y ≠ none := by
        rw [← hper]
        exact List.mem_filter.mpr ⟨hx, by simp⟩
      obtain ⟨hx, hsome⟩ := List.mem_filter.mp hin
      simp only [decide_eq_true_eq, true_and] at hsome
      rw [target_snoc (h x hx)]
      cases ht : target given x with
      | some _ => rfl
      | none => exact absurd ht hsome
    · refine List.map_congr_left fun x hx => ?_
      obtain ⟨hx, hwait⟩ := List.mem_filter.mp hx
      obtain ⟨hid, hnone⟩ := of_decide_eq_true hwait
      rw [target_snoc (h x hx), hnone, if_pos hid.symm]
      rfl

/-- An id with entries that wait is one more that came late: it was none
before, as it had no target at all. -/
theorem card_late_snoc (h : ∀ x ∈ entries, x.1 ≤ given.length)
    (g : SeriesId × SeriesId) :
    (late (given ++ [g]) entries).toFinset.card
      = (late given entries).toFinset.card
        + if waiting given entries g.1 = [] then 0 else 1 := by
  have hlate := mem_late_snoc h g
  by_cases hnil : waiting given entries g.1 = []
  · have hset : (late (given ++ [g]) entries).toFinset
        = (late given entries).toFinset := by
      ext id
      rw [List.mem_toFinset, List.mem_toFinset, hlate]
      simp [hnil]
    rw [hset, if_pos hnil, Nat.add_zero]
  · have hfresh : g.1 ∉ (late given entries).toFinset := by
      rw [List.mem_toFinset]
      intro hin
      obtain ⟨x, hx, hid⟩ := List.mem_map.mp hin
      have hx := (List.mem_filter.mp hx).2
      simp only [decide_eq_true_eq] at hx
      exact hx.2 (target_of_undefined (undefined_of_waiting hnil) hid)
    have hset : (late (given ++ [g]) entries).toFinset
        = insert g.1 (late given entries).toFinset := by
      ext id
      rw [Finset.mem_insert, List.mem_toFinset, List.mem_toFinset, hlate]
      constructor
      · intro hin
        exact hin.symm.imp And.left (fun hin => hin)
      · intro hin
        exact hin.symm.imp (fun hin => hin) fun hid => ⟨hid, hnil⟩
    rw [hset, Finset.card_insert_of_notMem hfresh, if_neg hnil]

/-- The sink hears what was parked, in order. -/
theorem heard_parked (ops : ReplaySink σ) (sid : SeriesId)
    (parked : List (List Sample)) (s : σ × Heard) :
    (parked.foldl (fun s samples => ops.heard.samples sid samples s) s).2
      = ⟨s.2.series, s.2.samples ++ parked.map (sid, ·)⟩ := by
  induction parked generalizing s with
  | nil => simp
  | cons samples parked ih =>
      rw [List.foldl_cons, ih]
      simp [ReplaySink.heard]

/-- The ids once another is defined. -/
theorem Routed.insert (h : Routed given entries res) (g : SeriesId × SeriesId)
    (id : SeriesId) :
    (res.ids.insert g.1 g.2).lookup id
      = ((given ++ [g]).reverse.find? (·.1 = id)).map (·.2) := by
  rw [HashMap.lookup_insert_if, h.ids, List.reverse_append]
  by_cases hid : id = g.1
  · subst hid
    simp
  · have hne : ¬ g.1 = id := fun heq => hid heq.symm
    simp [hid, hne]

/-- What a series entry does: it defines its id, and serves who waits for
it. The sink is told of the series and then of what was parked, one after
the other. If anything was, the id is one of those that came late. -/
theorem Routed.series (h : Routed given entries res)
    (hd : Delivers given entries told) (ops : ReplaySink σ)
    (sink : σ) (series : List (LabelSet × SeriesId)) (e : SeriesEntry) :
    let next := Resolver.applySeries ops.heard
      (res, sink, ⟨series, told⟩) e
    ∃ sid, Routed (given ++ [(e.id, sid)]) entries next.1
      ∧ next.2.2.series = series ++ [(e.labels, sid)]
      ∧ Delivers (given ++ [(e.id, sid)]) entries next.2.2.samples := by
  intro next
  let sid := (ops.series e.labels sink).1
  have hplaced : ∀ x ∈ entries,
      x.1 ≤ (given ++ [(e.id, sid)]).length := by
    intro x hx
    rw [List.length_append]
    exact Nat.le_add_right_of_le (h.within x hx)
  have hids := h.insert (e.id, sid)
  have hdelivers := hd.snoc h.within (e.id, sid)
  have hwaiting := waiting_snoc h.within (e.id, sid)
  have hcard := card_late_snoc h.within (e.id, sid)
  refine ⟨sid, ?_⟩
  cases hl : res.pending.lookup e.id with
  | some parked =>
      obtain ⟨hne, hparked⟩ := (h.pending e.id parked).mp hl
      have hwait : waiting given entries e.id ≠ [] := by
        intro hnil
        rw [hnil] at hparked
        exact hne hparked
      have hnext : next = ({ res with
          ids := res.ids.insert e.id sid
          pending := res.pending.erase e.id
          stats := { res.stats with
            lateSeries := res.stats.lateSeries + 1 } },
          parked.foldl (fun s samples => ops.heard.samples sid samples s)
            ((ops.series e.labels sink).2,
              ⟨series ++ [(e.labels, sid)], told⟩)) := by
        show Resolver.applySeries ops.heard _ e = _
        simp only [Resolver.applySeries]
        rw [hl]
        rfl
      rw [hnext]
      refine ⟨⟨hplaced, hids, fun id parked' => ?_, ?_⟩,
        congrArg Heard.series (heard_parked ops sid _ _), ?_⟩
      · show (res.pending.erase e.id).lookup id = some parked' ↔ _
        rw [HashMap.lookup_erase_if, hwaiting]
        by_cases hid : id = e.id
        · rw [if_pos hid, if_pos hid]
          constructor
          · nofun
          · intro hboth
            exact absurd hboth.2 hboth.1
        · rw [if_neg hid, if_neg hid]
          exact h.pending id parked'
      · rw [hcard, if_neg hwait, ← h.counted]
      · rw [hparked, heard_parked, List.map_map]
        exact hdelivers
  | none =>
      have hnil := h.pending_none.mp hl
      have hnext : next = ({ res with ids := res.ids.insert e.id sid },
          (ops.series e.labels sink).2,
            ⟨series ++ [(e.labels, sid)], told⟩) := by
        show Resolver.applySeries ops.heard _ e = _
        simp only [Resolver.applySeries]
        rw [hl]
        rfl
      rw [hnext]
      refine ⟨⟨hplaced, hids, fun id parked => ?_, ?_⟩, rfl, ?_⟩
      · rw [hwaiting]
        by_cases hid : id = e.id
        · rw [if_pos hid, h.pending, hid, hnil]
        · rw [if_neg hid]
          exact h.pending id parked
      · rw [hcard, if_pos hnil]
        exact h.counted
      · rw [hnil, List.map_nil, List.append_nil] at hdelivers
        exact hdelivers

-- ============================================================= whole logs

/-- The resolver and its sink between two entries of the log. -/
structure Routes (given : List (SeriesId × SeriesId))
    (entries : List (Nat × SamplesEntry))
    (acc : Resolver × (σ × Heard)) : Prop where
  routed : Routed given entries acc.1
  delivers : Delivers given entries acc.2.2.samples

theorem Routes.samples_all {acc : Resolver × (σ × Heard)}
    (h : Routes given entries acc) (ops : ReplaySink σ)
    (es : List SamplesEntry) :
    Routes given (entries ++ es.map (given.length, ·))
        (es.foldl (Resolver.applySamples ops.heard) acc)
      ∧ (es.foldl (Resolver.applySamples ops.heard) acc).2.2.series
        = acc.2.2.series := by
  induction es generalizing entries acc with
  | nil => exact ⟨by simpa using h, rfl⟩
  | cons e es ih =>
      obtain ⟨hrouted, hseries, hdelivers⟩ :=
        h.routed.samples h.delivers ops acc.2.1 acc.2.2.series e
      obtain ⟨hall, hsame⟩ := ih ⟨hrouted, hdelivers⟩
      rw [List.append_assoc] at hall
      exact ⟨hall, hsame.trans hseries⟩

theorem Routes.series_all {acc : Resolver × (σ × Heard)}
    (h : Routes given entries acc) (ops : ReplaySink σ)
    (es : List SeriesEntry) :
    ∃ sids, sids.length = es.length
      ∧ Routes (given ++ (es.map (·.id)).zip sids) entries
        (es.foldl (Resolver.applySeries ops.heard) acc)
      ∧ (es.foldl (Resolver.applySeries ops.heard) acc).2.2.series
        = acc.2.2.series ++ (es.map (·.labels)).zip sids := by
  induction es generalizing given acc with
  | nil => exact ⟨[], rfl, by simpa using h, by simp⟩
  | cons e es ih =>
      obtain ⟨sid, hrouted, hseries, hdelivers⟩ :=
        h.routed.series h.delivers ops acc.2.1 acc.2.2.series e
      obtain ⟨sids, hlen, hall, hlast⟩ := ih ⟨hrouted, hdelivers⟩
      refine ⟨sid :: sids, by rw [List.length_cons, hlen, List.length_cons],
        ?_, ?_⟩
      · rw [List.append_assoc] at hall
        exact hall
      · rw [List.foldl_cons, hlast, hseries, List.append_assoc]
        rfl

theorem Routes.apply_all {acc : Resolver × (σ × Heard)}
    (h : Routes given entries acc) (ops : ReplaySink σ)
    (recs : List WalRecord) :
    ∃ sids, sids.length = (recs.flatMap (·.series)).length
      ∧ Routes (given ++ ((recs.flatMap (·.series)).map (·.id)).zip sids)
        (entries ++ placed given.length recs)
        (Resolver.applyAll ops.heard acc recs)
      ∧ (Resolver.applyAll ops.heard acc recs).2.2.series
        = acc.2.2.series
          ++ ((recs.flatMap (·.series)).map (·.labels)).zip sids := by
  induction recs generalizing given entries acc with
  | nil => exact ⟨[], rfl, by simpa [placed] using h, by simp⟩
  | cons rec recs ih =>
      obtain ⟨sids, hlen, hseries, hheard⟩ := h.series_all ops rec.series
      obtain ⟨hsamples, hsame⟩ := hseries.samples_all ops rec.samples
      obtain ⟨sids', hlen', hall, hlast⟩ := ih hsamples
      have hzip : (given ++ (rec.series.map (·.id)).zip sids).length
          = given.length + rec.series.length := by
        rw [List.length_append, List.length_zip, List.length_map, hlen,
          Nat.min_self]
      rw [hzip, List.append_assoc, List.append_assoc,
        ← List.zip_append (by rw [List.length_map, hlen])] at hall
      refine ⟨sids ++ sids', ?_, ?_, ?_⟩
      · rw [List.flatMap_cons, List.length_append, List.length_append, hlen,
          hlen']
      · rw [List.flatMap_cons, List.map_append]
        exact hall
      · refine Eq.trans hlast ?_
        rw [hsame, hheard, List.append_assoc,
          ← List.zip_append (by rw [List.length_map, hlen]),
          ← List.map_append, List.flatMap_cons]

-- =============================================================== the sums

/-- Sums over lists and over the ids of their entries. -/
theorem sum_by_id {ids : List SeriesId} (hids : ids.Nodup)
    {xs : List (Nat × SamplesEntry)} (hxs : ∀ x ∈ xs, x.2.id ∈ ids)
    (f : Nat × SamplesEntry → Nat) :
    (ids.map fun id => ((xs.filter (·.2.id = id)).map f).sum).sum
      = (xs.map f).sum := by
  induction xs with
  | nil => simp
  | cons x xs ih =>
      have hrest := ih fun y hy => hxs y (List.mem_cons_of_mem _ hy)
      have hone : (ids.map fun id => if x.2.id = id then f x else 0).sum
          = f x := by
        rw [List.sum_map_eq_nsmul_single x.2.id _ fun id hne _ =>
            if_neg hne.symm, List.count_eq_one_of_mem hids
          (hxs x List.mem_cons_self)]
        simp
      rw [List.map_cons, List.sum_cons, ← hrest, ← hone, ← List.sum_map_add]
      refine congrArg List.sum (List.map_congr_left fun id _ => ?_)
      rw [List.filter_cons]
      by_cases hid : x.2.id = id <;> simp [hid]

/-- The entries nobody is told of. -/
def lost (given : List (SeriesId × SeriesId))
    (entries : List (Nat × SamplesEntry)) : List (Nat × SamplesEntry) :=
  entries.filter fun x => target given x = none

private theorem waiting_eq (id : SeriesId) :
    waiting given entries id = (lost given entries).filter (·.2.id = id) := by
  unfold waiting lost
  rw [List.filter_filter]
  exact List.filter_congr fun x _ => Bool.decide_and _ _

/-- The ids still pending are the ids of the lost entries. -/
theorem Routed.mem_keys (h : Routed given entries res) (id : SeriesId) :
    id ∈ res.pending.keys ↔ id ∈ (lost given entries).map (·.2.id) := by
  have hkeys : id ∈ res.pending.keys ↔ waiting given entries id ≠ [] := by
    rw [← not_iff_not, not_not, ← h.pending_none, ← AList.mem_keys]
    exact AList.lookup_eq_none.symm
  rw [hkeys, waiting_eq, ne_eq, List.filter_eq_nil_iff, List.mem_map]
  simp

theorem Routed.values (h : Routed given entries res) :
    res.pending.values = res.pending.keys.map fun id =>
      (waiting given entries id).map (·.2.samples) := by
  unfold HashMap.values AList.keys List.keys
  rw [List.map_map]
  refine List.map_congr_left fun s hs => ?_
  exact ((h.pending s.1 s.2).mp (AList.mem_lookup_iff.mpr hs)).2

/-- The counts at the end of the log. -/
theorem Routed.finish (h : Routed given entries res) :
    res.finish = ⟨(late given entries).dedup.length,
      ((lost given entries).map (·.2.id)).dedup.length,
      ((lost given entries).map (·.2.samples.length)).sum⟩ := by
  have hlate := h.counted
  rw [List.card_toFinset] at hlate
  have hunknown : res.pending.keys.length
      = ((lost given entries).map (·.2.id)).dedup.length := by
    rw [← List.card_toFinset, ← List.toFinset_card_of_nodup
      res.pending.keys_nodup]
    congr 1
    ext id
    rw [List.mem_toFinset, List.mem_toFinset]
    exact h.mem_keys id
  have hdropped : (res.pending.values.flatten.map List.length).sum
      = ((lost given entries).map (·.2.samples.length)).sum := by
    have hin : ∀ x ∈ lost given entries, x.2.id ∈ res.pending.keys :=
      fun x hx => (h.mem_keys _).mpr (List.mem_map.mpr ⟨x, hx, rfl⟩)
    rw [h.values, List.map_flatten, List.sum_flatten, List.map_map,
      List.map_map, ← sum_by_id res.pending.keys_nodup hin]
    refine congrArg List.sum (List.map_congr_left fun id _ => ?_)
    rw [← waiting_eq]
    simp only [Function.comp_apply, List.map_map]
    rfl
  rw [Resolver.finish, hlate, hunknown, hdropped]

-- ============================================================ the routing

theorem routed_empty : Routed [] [] {} where
  within := nofun
  ids _ := rfl
  pending id parked := by
    constructor
    · nofun
    · intro hboth
      exact absurd hboth.2 hboth.1
  counted := rfl

/-- Over any log and any sink, listened to as it is fed: the sink is told of
every series entry, in order; it is told of each samples entry that has a
target exactly once, under the id it gave for the target, in the order of
the log for each id, and of no other; and `finish` counts the ids that had
to wait, the ids without a series entry, and their samples.

It is `Routes` of the whole log, by `Routes.apply_all` from the empty
resolver. That the order of delivery is a permutation of the entries with a
target follows from its agreeing with the log on every id. -/
theorem resolver_routes (ops : ReplaySink σ) (sink : σ)
    (recs : List WalRecord) :
    let run := Resolver.applyAll ops.heard ({}, sink, {}) recs
    let series := recs.flatMap (·.series)
    let given := (series.map (·.id)).zip (run.2.2.series.map (·.2))
    let entries := placed 0 recs
    Resolver.applyAll ops ({}, sink) recs = Resolver.unheard run
      ∧ run.2.2.series.map (·.1) = series.map (·.labels)
      ∧ (∃ order : List (Nat × SamplesEntry),
        order.Perm (entries.filter fun x => target given x ≠ none)
          ∧ (∀ id, order.filter (·.2.id = id)
            = entries.filter fun x => x.2.id = id ∧ target given x ≠ none)
          ∧ order.map (fun x => (target given x, x.2.samples))
            = run.2.2.samples.map fun told => (some told.1, told.2))
      ∧ run.1.finish = ⟨(late given entries).dedup.length,
        ((lost given entries).map (·.2.id)).dedup.length,
        ((lost given entries).map (·.2.samples.length)).sum⟩ := by
  intro run series given entries
  have hstart : Routes [] [] (({}, sink, {}) : Resolver × (σ × Heard)) :=
    ⟨routed_empty, [], fun _ => rfl, rfl⟩
  obtain ⟨sids, hlen, hroutes, hheard⟩ := hstart.apply_all ops recs
  have hsnd : run.2.2.series.map (·.2) = sids := by
    show List.map _ (Resolver.applyAll ops.heard _ recs).2.2.series = _
    rw [hheard, List.nil_append, List.map_snd_zip]
    rw [List.length_map, hlen]
  have hfst : run.2.2.series.map (·.1) = series.map (·.labels) := by
    show List.map _ (Resolver.applyAll ops.heard _ recs).2.2.series = _
    rw [hheard, List.nil_append, List.map_fst_zip]
    rw [List.length_map, hlen]
  have hgiven : given = (series.map (·.id)).zip sids := by
    show List.zip _ _ = _
    rw [hsnd]
  have hrouted : Routes given entries run := by
    rw [hgiven]
    exact hroutes
  refine ⟨Resolver.applyAll_unheard ops recs ({}, sink, {}), hfst, ?_,
    hrouted.routed.finish⟩
  obtain ⟨order, hper, htold⟩ := hrouted.delivers
  refine ⟨order, ?_, hper, htold⟩
  -- entry by entry, each as often as among the entries of its id
  rw [List.perm_iff_count]
  intro x
  have hself : ∀ l : List (Nat × SamplesEntry),
      l.count x = (l.filter (·.2.id = x.2.id)).count x := by
    intro l
    rw [List.count_filter]
    simp
  rw [hself, hself (entries.filter _), hper, List.filter_filter]
  congr 1
  exact List.filter_congr fun y _ => Bool.decide_and _ _

/-- Samples before their series, with it, and of an id that never gets
one. -/
example :
    let run := Resolver.applyAll recording.heard ({}, [], {})
      [⟨[], [⟨42, [⟨2, 0⟩]⟩]⟩, ⟨[⟨42, ⟨[]⟩⟩], [⟨42, [⟨1, 0⟩]⟩]⟩,
        ⟨[], [⟨9, [⟨1, 0⟩]⟩]⟩]
    run.2.2 = ⟨[(⟨[]⟩, 0)], [(0, [⟨2, 0⟩]), (0, [⟨1, 0⟩])]⟩
      ∧ run.1.finish = ⟨1, 1, 1⟩ := by
  decide

end Tsdb.Wal
