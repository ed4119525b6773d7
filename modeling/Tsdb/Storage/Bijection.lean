/-
The index is a bijection between the label sets it was given and the ids
`0..n` (`encode`, `id_for`, `labels_for`, `including_label`).

`Index.Bijection idx sets` says so in the terms of the index alone, with
`sets` the distinct label sets in order of first appearance. It follows
from `Reps`, which every `encode` keeps (`Names.encodeAll`): the four
structures are all fixed by `sets`.

# The parts

- The two maps are inverse to each other: an id is the place of its label
  set in `sets`, a label set occurs there once (`Names.idFor_iff`,
  `Names.idFor_iff_labelsFor`). The source keeps one `Arc` in both maps;
  here the inverted map has the id, and `Names.series` says that the
  series under it is of the same label set.
- The list of all ids is `0..n`, and a new set gets `n`.
- A posting list has the ids of the sets that carry the pair, each once
  and in order, and there is no list for a pair that no set carries
  (`Reps.posting_mem`).
- `including_label` is the union of the lists under one name
  (`Reps.including_mem`).

# Calls of `encode`

`Names` is kept by `encode` whatever the labels are; that the labels are
canonical is what the constructors of `LabelSet` promise. What a call
returns stays true: ids are never given away again, because `sets` only
grows at its end (`encodeAll_encode`, by induction on the calls behind
it). The counter is a `u64` in the source; there are at most as many ids
as calls (`nextId_encodeAll_le`).
-/
import Tsdb.Storage.Live

namespace Tsdb

open Lib (Ascending)

/-- The index numbers `sets` from zero on, and answers accordingly. -/
structure Index.Bijection (idx : Index) (sets : List LabelSet) : Prop where
  ids : idx.allIds = List.range sets.length
  next : idx.nextId = sets.length
  known : ∀ ls ∈ sets, idx.encode ls = (sets.idxOf ls, idx)
  distinct : ∀ ls ∈ sets, ∀ ls' ∈ sets,
    (idx.encode ls).1 = (idx.encode ls').1 → ls = ls'
  inverse : ∀ ls id, idx.idFor ls = some id ↔ idx.labelsFor id = some ls
  encoded : ∀ ls, (idx.idFor ls).isSome ↔ ls ∈ sets
  assigned : ∀ id, (idx.labelsFor id).isSome ↔ id ∈ idx.allIds
  /-- The forward map has the series of every entry of the inverted one. -/
  forward : ∀ ls id, idx.inverted.lookup ls = some id →
    ∃ s, idx.forward.lookup id = some s ∧ s.id = id ∧ s.labels = ls
  /-- The inverted map has an entry for every series of the forward one. -/
  inverted : ∀ id s, idx.forward.lookup id = some s →
    s.id = id ∧ idx.inverted.lookup s.labels = some id
  posting : ∀ name value,
    Ascending id (((idx.postingIndex.lookup name).bind
      (·.lookup value)).getD [])
    ∧ ∀ i, i ∈ ((idx.postingIndex.lookup name).bind
        (·.lookup value)).getD []
      ↔ ∃ ls, idx.labelsFor i = some ls ∧ ⟨name, value⟩ ∈ ls.labels
  including : ∀ name, Ascending id (idx.includingLabel name)
    ∧ ∀ i, i ∈ idx.includingLabel name
      ↔ ∃ ls, idx.labelsFor i = some ls
        ∧ ∃ value, ⟨name, value⟩ ∈ ls.labels

namespace Index

variable {idx : Index} {sets : List LabelSet}

-- ============================================================ the two maps

theorem Names.idFor_iff_labelsFor (h : idx.Names sets) (ls : LabelSet)
    (id : SeriesId) : idx.idFor ls = some id ↔ idx.labelsFor id = some ls := by
  rw [h.forward]
  exact h.idFor_iff

theorem Names.encode_injective (h : idx.Names sets) {ls ls' : LabelSet}
    (hls : ls ∈ sets) (hls' : ls' ∈ sets)
    (heq : (idx.encode ls).1 = (idx.encode ls').1) : ls = ls' := by
  rw [h.encode_known hls, h.encode_known hls'] at heq
  exact (List.idxOf_inj hls).mp heq

/-- An entry of the inverted map and the series of the forward map under
its id are of one label set. -/
theorem Names.series (h : idx.Names sets) {ls : LabelSet} {id : SeriesId}
    (hid : idx.inverted.lookup ls = some id) :
    ∃ s, idx.forward.lookup id = some s ∧ s.id = id ∧ s.labels = ls := by
  have hlabels := (h.idFor_iff_labelsFor ls id).mp hid
  obtain ⟨s, hs, hsl⟩ := Option.map_eq_some_iff.mp hlabels
  exact ⟨s, hs, h.forward_id id s hs, hsl⟩

theorem Names.entry (h : idx.Names sets) {id : SeriesId} {s : Series}
    (hs : idx.forward.lookup id = some s) :
    s.id = id ∧ idx.inverted.lookup s.labels = some id := by
  refine ⟨h.forward_id id s hs, ?_⟩
  have hlabels : idx.labelsFor id = some s.labels := by
    rw [labelsFor, hs]
    rfl
  exact (h.idFor_iff_labelsFor s.labels id).mpr hlabels

-- ============================================================ the postings

/-- The ids of the sets that carry a pair, ascending. -/
theorem Reps.posting_mem (h : idx.Reps sets) (name value : String) :
    Ascending id (((idx.postingIndex.lookup name).bind
      (·.lookup value)).getD [])
    ∧ ∀ i, i ∈ ((idx.postingIndex.lookup name).bind
        (·.lookup value)).getD []
      ↔ ∃ ls, idx.labelsFor i = some ls ∧ ⟨name, value⟩ ∈ ls.labels := by
  rw [h.posting_ids]
  refine ⟨idsWhere_ascending _ _, fun i => ?_⟩
  simp only [mem_idsWhere, h.forward, carries, decide_eq_true_eq]

/-- The ids of the sets that carry a name, ascending. -/
theorem Reps.including_mem (h : idx.Reps sets) (name : String) :
    Ascending id (idx.includingLabel name)
    ∧ ∀ i, i ∈ idx.includingLabel name
      ↔ ∃ ls, idx.labelsFor i = some ls
        ∧ ∃ value, ⟨name, value⟩ ∈ ls.labels := by
  rw [h.includingLabel]
  refine ⟨idsWhere_ascending _ _, fun i => ?_⟩
  rw [mem_idsWhere]
  simp only [h.forward]
  refine exists_congr fun ls => and_congr_right fun hls => ?_
  rw [Option.isSome_iff_exists]
  exact exists_congr fun value =>
    LabelSet.get_eq_some (h.canonical ls (List.mem_of_getElem? hls))

-- ============================================================ the bijection

theorem Reps.bijection (h : idx.Reps sets) : idx.Bijection sets where
  ids := h.all
  next := h.next
  known _ hls := h.names.encode_known hls
  distinct _ hls _ hls' := h.names.encode_injective hls hls'
  inverse := h.names.idFor_iff_labelsFor
  encoded ls := by
    rw [h.inverted]
    by_cases hls : ls ∈ sets
    · simp [hls]
    · simp [hls]
  assigned id := by
    rw [h.forward, h.all, List.mem_range, isSome_getElem?]
  forward _ _ := h.names.series
  inverted _ _ := h.names.entry
  posting := h.posting_mem
  including := h.including_mem

/-- A call returns the position of its set among those that ever appear. -/
theorem encodeAll_encode (pre post : List LabelSet) (ls : LabelSet) :
    ((new.encodeAll pre).encode ls).1
      = (touchAll [] (pre ++ ls :: post)).idxOf ls := by
  have hid := ((Names.new.encodeAll pre).encode ls).1
  have hin : ls ∈ touch (touchAll [] pre) ls := mem_touch.mpr (.inr rfl)
  have happend : touchAll [] (pre ++ ls :: post)
      = touchAll (touch (touchAll [] pre) ls) post := touchAll_append _ _ _
  obtain ⟨rest, hrest⟩ := prefix_touchAll (touch (touchAll [] pre) ls) post
  rw [hid, happend, ← hrest, List.idxOf_append_of_mem hin]

theorem nextId_encodeAll_le (sets : List LabelSet) :
    (new.encodeAll sets).nextId ≤ sets.length := by
  rw [(Names.new.encodeAll sets).next]
  have hlen : ∀ known : List LabelSet,
      (touchAll known sets).length ≤ known.length + sets.length := by
    induction sets with
    | nil => exact fun known => Nat.le_refl _
    | cons a sets ih =>
        intro known
        have htouch : (touch known a).length ≤ known.length + 1 := by
          unfold touch
          split
          · exact Nat.le_succ _
          · rw [List.length_append, List.length_singleton]
        have hrest := ih (touch known a)
        rw [List.length_cons]
        show (touchAll (touch known a) sets).length ≤ _
        omega
  simpa using hlen []

/-- Behind any calls of `encode` the index is a bijection between the sets
they were for and the ids from zero on, in order of first appearance, and
each call has returned the id of its set. The counter has not run over. -/
theorem encode_bijection (sets : List LabelSet)
    (hc : ∀ ls ∈ sets, ls.Canonical) (hfew : sets.length < 2 ^ 64) :
    (new.encodeAll sets).Bijection (touchAll [] sets)
      ∧ (∀ ls, ls ∈ touchAll [] sets ↔ ls ∈ sets)
      ∧ (∀ pre ls post, sets = pre ++ ls :: post →
        ((new.encodeAll pre).encode ls).1 = (touchAll [] sets).idxOf ls
        ∧ (ls ∉ pre → (touchAll [] sets).idxOf ls = (touchAll [] pre).length))
      ∧ (new.encodeAll sets).nextId < 2 ^ 64 := by
  have hmem : ∀ ls, ls ∈ touchAll [] sets ↔ ls ∈ sets := by
    intro ls
    rw [mem_touchAll]
    simp
  have hreps := (Names.new.encodeAll sets).reps
    fun ls hls => hc ls ((hmem ls).mp hls)
  refine ⟨hreps.bijection, hmem, fun pre ls post hsets => ⟨?_, fun hnew => ?_⟩,
    Nat.lt_of_le_of_lt (nextId_encodeAll_le sets) hfew⟩
  · rw [hsets]
    exact encodeAll_encode pre post ls
  · have hnot : ls ∉ touchAll [] pre := by
      rw [mem_touchAll]
      simpa using hnew
    rw [hsets, ← encodeAll_encode]
    exact ((Names.new.encodeAll pre).encode_new hnot).1

/-- A set that comes twice, with the empty one in between. -/
theorem encode_bijection_twice :
    (new.encodeAll [⟨[⟨"job", "api"⟩]⟩, .new, ⟨[⟨"job", "api"⟩]⟩]).Bijection
      [⟨[⟨"job", "api"⟩]⟩, .new] :=
  (encode_bijection [⟨[⟨"job", "api"⟩]⟩, .new, ⟨[⟨"job", "api"⟩]⟩]
    (by decide) (by decide)).1

end Index

end Tsdb
