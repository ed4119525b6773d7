/-
The index (`storage/index.rs`): label sets to series ids, ids to series,
postings from label pairs to ids, and matcher resolution over them.

# What it means

`Reps idx sets`: the index holds exactly the label sets `sets`, in order
of first appearance, so that a set's id is its position. All four
structures are fixed by `sets` up to the state of each series, and
`encode` is "append if new" on the list (`Reps.encode`).

`Names` is the half of it that does not speak of postings. It holds
whatever the labels are, also for a label set from a segment or from the
log that names a label twice; `Reps` adds the postings, which may be
relied on where the labels are canonical. Opening and replay carry
`Names`, and get `Reps` from what the writes were (`Names.reps`).

# The postings

A posting map is compared with `postingFor`, the list it must have under
a pair, through lookups only. One push changes one list
(`posting_push`); a batch over distinct labels appends the new id to the
list of each label, by induction on the labels
(`posting_foldl_push`). Ids are handed out in ascending order, so an
appended id keeps a list ascending.

# Resolution

It is a filter on positions: every operation of `candidates` is a set
operation on ids selected by a predicate of their label set (`idsWhere`),
and an ascending list is fixed by its members (`Ascending.ext`). The
union over the values of a name is over all of a map's values, in the
order the map yields them; `mem_values` says which lists these are, and
from there on iteration order is out of the picture. The loop over the
further matchers keeps a list of the form `idsWhere` (`resolveLoop`), and
its early exit on an empty list leaves one too. `Reps.resolve` is the
result.
-/
import Tsdb.Lib.HashMap
import Tsdb.Storage.Series
import Tsdb.Storage.SortedIds

namespace Tsdb

open Lib (Ascending HashMap)

-- ============================================================= the index

abbrev Postings := HashMap String (HashMap String (List SeriesId))

structure Index where
  inverted : HashMap LabelSet SeriesId := ∅
  forward : HashMap SeriesId Series := ∅
  postingIndex : Postings := ∅
  allIds : List SeriesId := []
  nextId : SeriesId := 0

/-- `.entry(name).or_default().entry(value).or_default().push(id)`. -/
def Postings.push (p : Postings) (id : SeriesId) (l : Label) : Postings :=
  let values := (p.lookup l.name).getD ∅
  let ids := (values.lookup l.value).getD []
  p.insert l.name (values.insert l.value (ids ++ [id]))

namespace Index

def new : Index := {}

def candidates (idx : Index) (m : Matcher) : List SeriesId :=
  match m.operator with
  | .equal =>
      ((idx.postingIndex.lookup m.name).bind (·.lookup m.value)).getD []
  | .notEqual =>
      let values := idx.postingIndex.lookup m.name
      let withLabel := (values.map fun v => unionAll v.values).getD []
      let withThisValue := (values.bind (·.lookup m.value)).getD []
      let result := differenceSorted withLabel withThisValue
      if m.value ≠ "" then
        unionSorted result (differenceSorted idx.allIds withLabel)
      else result

/-- `Index::encode`: the id of the series for `labels`, created if the
set is new. -/
def encode (idx : Index) (labels : LabelSet) : SeriesId × Index :=
  match idx.inverted.lookup labels with
  | some id => (id, idx)
  | none =>
      let id := idx.nextId
      (id, {
        nextId := id + 1
        inverted := idx.inverted.insert labels id
        forward := idx.forward.insert id { id := id, labels := labels }
        allIds := idx.allIds ++ [id]
        postingIndex :=
          labels.labels.foldl (fun p l => p.push id l) idx.postingIndex })

/-- The loop of `resolve` over the matchers behind the first. -/
def resolveLoop (idx : Index) (candidates : List SeriesId) :
    List Matcher → List SeriesId
  | [] => candidates
  | m :: rest =>
      let candidates := intersectInPlace candidates (idx.candidates m)
      if candidates = [] then [] else resolveLoop idx candidates rest

def resolve (idx : Index) (matchers : List Matcher) : List SeriesId :=
  match matchers with
  | [] => idx.allIds
  | m :: rest => resolveLoop idx (idx.candidates m) rest

def get (idx : Index) (id : SeriesId) : Option Series :=
  idx.forward.lookup id

def labelsFor (idx : Index) (id : SeriesId) : Option LabelSet :=
  (idx.forward.lookup id).map Series.labels

def idFor (idx : Index) (labels : LabelSet) : Option SeriesId :=
  idx.inverted.lookup labels

def includingLabel (idx : Index) (labelName : String) : List SeriesId :=
  ((idx.postingIndex.lookup labelName).map fun v => unionAll v.values).getD []

/-- Write through the shared series: `series.lock()` and an update of the
state behind it. -/
def modify (idx : Index) (id : SeriesId) (f : SeriesState → SeriesState) :
    Index :=
  match idx.forward.lookup id with
  | some s =>
      { idx with forward := idx.forward.insert id { s with state := f s.state } }
  | none => idx

/-- The state behind an id, the fresh one for an id not assigned. -/
def state (idx : Index) (id : SeriesId) : SeriesState :=
  match idx.forward.lookup id with
  | some s => s.state
  | none => {}

end Index

-- ========================================================= label matching

/-- What a matcher asks of a label set: to carry the pair, or to have
another value under the name, a missing label having the empty one. -/
def Matcher.satisfied (m : Matcher) (ls : LabelSet) : Bool :=
  match m.operator with
  | .equal => ls.get m.name == some m.value
  | .notEqual => (ls.get m.name).getD "" != m.value

def satisfiesAll (ms : List Matcher) (ls : LabelSet) : Bool :=
  ms.all (·.satisfied ls)

/-- The ids whose label set satisfies `p`, ascending. -/
def idsWhere (sets : List LabelSet) (p : LabelSet → Bool) :
    List SeriesId :=
  (List.range sets.length).filter fun id => (sets[id]?).any p

/-- Does the set carry the pair? -/
def carries (l : Label) (ls : LabelSet) : Bool := decide (l ∈ ls.labels)

theorem mem_idsWhere {sets : List LabelSet} {p : LabelSet → Bool}
    {id : SeriesId} :
    id ∈ idsWhere sets p ↔ ∃ ls, sets[id]? = some ls ∧ p ls = true := by
  rw [idsWhere, List.mem_filter, List.mem_range]
  cases h : sets[id]? with
  | none =>
      simp
  | some ls =>
      obtain ⟨hlt, -⟩ := List.getElem?_eq_some_iff.mp h
      simp [hlt]

theorem idsWhere_ascending (sets : List LabelSet) (p : LabelSet → Bool) :
    Ascending id (idsWhere sets p) :=
  Ascending.sublist (List.pairwise_lt_range) List.filter_sublist

theorem idsWhere_concat (sets : List LabelSet) (ls : LabelSet)
    (p : LabelSet → Bool) :
    idsWhere (sets ++ [ls]) p
      = idsWhere sets p ++ (if p ls then [sets.length] else []) := by
  rw [idsWhere, List.length_append, List.length_singleton,
    List.range_succ, List.filter_append]
  congr 1
  · refine List.filter_congr fun id hid => ?_
    rw [List.getElem?_append_left (List.mem_range.mp hid)]
  · by_cases hp : p ls = true <;> simp [hp]

theorem idsWhere_eq_range (sets : List LabelSet) :
    idsWhere sets (fun _ => true) = List.range sets.length := by
  rw [idsWhere, List.filter_eq_self.mpr]
  intro id hid
  simp [List.mem_range.mp hid]

-- ======================================================== representation

/-- A label set added to the list unless it is there. -/
def touch (sets : List LabelSet) (ls : LabelSet) : List LabelSet :=
  if ls ∈ sets then sets else sets ++ [ls]

/-- The posting list of a pair. -/
def Index.posting (p : Postings) (l : Label) : Option (List SeriesId) :=
  (p.lookup l.name).bind (·.lookup l.value)

/-- A posting map holds a list for exactly the pairs that occur. -/
def postingFor (sets : List LabelSet) (l : Label) : Option (List SeriesId) :=
  if idsWhere sets (carries l) = [] then none
  else some (idsWhere sets (carries l))

structure Index.Reps (idx : Index) (sets : List LabelSet) : Prop where
  nodup : sets.Nodup
  canonical : ∀ ls ∈ sets, ls.Canonical
  next : idx.nextId = sets.length
  all : idx.allIds = List.range sets.length
  inverted : ∀ ls, idx.idFor ls
    = if ls ∈ sets then some (sets.idxOf ls) else none
  forward : ∀ id, idx.labelsFor id = sets[id]?
  forward_id : ∀ id s, idx.get id = some s → s.id = id
  posting : ∀ l, Index.posting idx.postingIndex l = postingFor sets l

/-- The ids are the positions in `sets`, whatever the labels; what is
posted may be relied on where the labels are canonical. -/
structure Index.Names (idx : Index) (sets : List LabelSet) : Prop where
  nodup : sets.Nodup
  next : idx.nextId = sets.length
  all : idx.allIds = List.range sets.length
  inverted : ∀ ls, idx.idFor ls
    = if ls ∈ sets then some (sets.idxOf ls) else none
  forward : ∀ id, idx.labelsFor id = sets[id]?
  forward_id : ∀ id s, idx.get id = some s → s.id = id
  posting : (∀ ls ∈ sets, ls.Canonical) →
    ∀ l, Index.posting idx.postingIndex l = postingFor sets l

namespace Index

theorem Reps.names {idx : Index} {sets : List LabelSet}
    (h : idx.Reps sets) : idx.Names sets :=
  ⟨h.nodup, h.next, h.all, h.inverted, h.forward, h.forward_id,
    fun _ => h.posting⟩

theorem Names.reps {idx : Index} {sets : List LabelSet}
    (h : idx.Names sets) (hc : ∀ ls ∈ sets, ls.Canonical) : idx.Reps sets :=
  ⟨h.nodup, hc, h.next, h.all, h.inverted, h.forward, h.forward_id,
    h.posting hc⟩

theorem Names.new : Index.new.Names [] where
  nodup := List.nodup_nil
  next := rfl
  all := rfl
  inverted ls := by simp [idFor, Index.new]
  forward id := by simp [labelsFor, Index.new]
  forward_id id s h := by simp [get, Index.new] at h
  posting _ l := by
    simp [Index.posting, Index.new, postingFor, idsWhere]

theorem Reps.new : Index.new.Reps [] := Names.new.reps (by simp)

/-- The id of a label set is the place where it stands, and no other set
has it. -/
theorem Names.idFor_iff {idx : Index} {sets : List LabelSet}
    (h : idx.Names sets) {ls : LabelSet} {id : SeriesId} :
    idx.idFor ls = some id ↔ sets[id]? = some ls := by
  rw [h.inverted]
  by_cases hls : ls ∈ sets
  · rw [if_pos hls, Option.some.injEq]
    constructor
    · intro hid
      rw [← hid]
      exact List.getElem?_idxOf hls
    · intro hid
      obtain ⟨hlt, hat⟩ := List.getElem?_eq_some_iff.mp hid
      rw [← hat]
      exact h.nodup.idxOf_getElem id hlt
  · rw [if_neg hls]
    constructor
    · intro hid
      cases hid
    · intro hid
      exact absurd (List.mem_of_getElem? hid) hls

-- ----------------------------------------------------------- the postings

/-- One push moves exactly one pair. -/
private theorem posting_push (p : Postings) (id : SeriesId) (l l' : Label) :
    posting (p.push id l) l'
      = if l' = l then some ((posting p l).getD [] ++ [id])
        else posting p l' := by
  obtain ⟨name, value⟩ := l
  obtain ⟨name', value'⟩ := l'
  simp only [posting, Postings.push, HashMap.lookup_insert_if]
  by_cases hn : name' = name
  · subst hn
    simp only [if_true, Option.bind_some, HashMap.lookup_insert_if,
      Label.mk.injEq, true_and]
    cases hp : p.lookup name' with
    | none =>
        by_cases hv : value' = value <;> simp [hv]
    | some values =>
        by_cases hv : value' = value <;> simp [hv]
  · simp [hn]

/-- A batch of pushes over distinct labels appends the id to each of
their lists. -/
private theorem posting_foldl_push (ls : List Label) (hnd : ls.Nodup)
    (p : Postings) (id : SeriesId) (l : Label) :
    posting (ls.foldl (fun p l => p.push id l) p) l
      = if l ∈ ls then some ((posting p l).getD [] ++ [id])
        else posting p l := by
  induction ls generalizing p with
  | nil => simp
  | cons a rest ih =>
      obtain ⟨hna, hnd⟩ := List.nodup_cons.mp hnd
      rw [List.foldl_cons, ih hnd, posting_push]
      by_cases hl : l = a
      · subst hl
        simp [hna]
      · simp [hl]

private theorem postingFor_getD (sets : List LabelSet) (l : Label) :
    (postingFor sets l).getD [] = idsWhere sets (carries l) := by
  unfold postingFor
  split
  · rename_i h
    simp [h]
  · rfl

-- ---------------------------------------------------------------- encode

theorem Names.encode_known {idx : Index} {sets : List LabelSet}
    (h : idx.Names sets) {ls : LabelSet} (hls : ls ∈ sets) :
    idx.encode ls = (sets.idxOf ls, idx) := by
  have hinv := h.inverted ls
  rw [if_pos hls, idFor] at hinv
  rw [Index.encode, hinv]

/-- A new set gets the next id. Each lookup is that of an insertion: the new
label set or the new id answers with the new entry, and all others as
before, for the sets in front keep their places. -/
theorem Names.encode_new {idx : Index} {sets : List LabelSet}
    (h : idx.Names sets) {ls : LabelSet} (hls : ls ∉ sets) :
    (idx.encode ls).1 = sets.length
      ∧ (idx.encode ls).2.Names (sets ++ [ls]) := by
  have hinv := h.inverted ls
  rw [if_neg hls, idFor] at hinv
  rw [Index.encode, hinv]
  refine ⟨h.next, ?_, ?_, ?_, ?_, ?_, ?_, fun hc l => ?_⟩
  · exact List.nodup_append.mpr ⟨h.nodup, List.nodup_singleton _,
      fun a ha b hb hab => hls (by
        rw [← List.mem_singleton.mp hb, ← hab]
        exact ha)⟩
  · simp [h.next]
  · simp [h.all, h.next, List.range_succ]
  · intro l
    simp only [idFor, HashMap.lookup_insert_if, h.next]
    by_cases hl : l = ls
    · subst hl
      simp [List.idxOf_append_of_notMem hls]
    · rw [if_neg hl]
      have hold := h.inverted l
      rw [idFor] at hold
      rw [hold]
      by_cases hmem : l ∈ sets
      · simp [hmem, List.idxOf_append_of_mem hmem]
      · simp [hmem, hl]
  · intro id
    simp only [labelsFor, HashMap.lookup_insert_if, h.next]
    by_cases hid : id = sets.length
    · subst hid
      simp
    · rw [if_neg hid]
      have hold := h.forward id
      rw [labelsFor] at hold
      rw [hold]
      rcases Nat.lt_or_gt_of_ne hid with hlt | hgt
      · rw [List.getElem?_append_left hlt]
      · rw [List.getElem?_eq_none (by omega),
          List.getElem?_eq_none (by simp; omega)]
  · intro id s hs
    simp only [get, HashMap.lookup_insert_if] at hs
    by_cases hid : id = idx.nextId
    · rw [if_pos hid, Option.some.injEq] at hs
      rw [← hs, hid]
    · rw [if_neg hid] at hs
      exact h.forward_id id s hs
  · have hold := h.posting fun l hl => hc l (List.mem_append_left _ hl)
    have hnew := hc ls (List.mem_append_right _ List.mem_cons_self)
    rw [posting_foldl_push _ hnew.nodup, hold, postingFor_getD,
      postingFor, postingFor, idsWhere_concat, h.next]
    by_cases hl : l ∈ ls.labels
    · simp [carries, hl]
    · simp [carries, hl]

/-- `encode` appends the set if it is new, and returns its position. -/
theorem Names.encode {idx : Index} {sets : List LabelSet}
    (h : idx.Names sets) (ls : LabelSet) :
    (idx.encode ls).1 = (touch sets ls).idxOf ls
      ∧ (idx.encode ls).2.Names (touch sets ls) := by
  by_cases hls : ls ∈ sets
  · rw [h.encode_known hls, touch, if_pos hls]
    exact ⟨rfl, h⟩
  · obtain ⟨hid, hnames⟩ := h.encode_new hls
    rw [touch, if_neg hls]
    refine ⟨?_, hnames⟩
    rw [hid, List.idxOf_append_of_notMem hls]
    simp

/-- A series just created has the fresh state, as an id not assigned. -/
theorem Names.state_encode {idx : Index} {sets : List LabelSet}
    (h : idx.Names sets) (ls : LabelSet) :
    (idx.encode ls).2.state = idx.state := by
  by_cases hls : ls ∈ sets
  · rw [h.encode_known hls]
  · have hinv := h.inverted ls
    rw [if_neg hls, idFor] at hinv
    have hfresh : idx.forward.lookup sets.length = none := by
      have hf := h.forward sets.length
      rw [labelsFor, List.getElem?_eq_none (Nat.le_refl _)] at hf
      exact Option.map_eq_none_iff.mp hf
    rw [Index.encode, hinv]
    funext id
    simp only [state, HashMap.lookup_insert_if, h.next]
    by_cases hid : id = sets.length
    · subst hid
      simp [hfresh]
    · rw [if_neg hid]

/-- `encode` appends the set if it is new, returns its position, and
touches no series' state. -/
theorem Reps.encode {idx : Index} {sets : List LabelSet}
    (h : idx.Reps sets) {ls : LabelSet} (hc : ls.Canonical) :
    (idx.encode ls).1 = (touch sets ls).idxOf ls
      ∧ (idx.encode ls).2.Reps (touch sets ls)
      ∧ (idx.encode ls).2.state = idx.state := by
  obtain ⟨hid, hnames⟩ := h.names.encode ls
  refine ⟨hid, hnames.reps fun l hl => ?_, h.names.state_encode ls⟩
  rw [touch] at hl
  split at hl
  · exact h.canonical l hl
  · rcases List.mem_append.mp hl with hl | hl
    · exact h.canonical l hl
    · rw [List.mem_singleton.mp hl]
      exact hc

-- ---------------------------------------------------------------- modify

theorem Names.modify {idx : Index} {sets : List LabelSet}
    (h : idx.Names sets) (id : SeriesId) (f : SeriesState → SeriesState) :
    (idx.modify id f).Names sets := by
  unfold Index.modify
  split
  · rename_i s hs
    refine { h with forward := fun id' => ?_, forward_id := ?_ }
    · rw [← h.forward id', labelsFor, labelsFor, HashMap.lookup_insert_if]
      by_cases hid : id' = id
      · subst hid
        simp [hs]
      · rw [if_neg hid]
    · intro id' s' hs'
      simp only [get, HashMap.lookup_insert_if] at hs'
      by_cases hid : id' = id
      · subst hid
        rw [if_pos rfl, Option.some.injEq] at hs'
        rw [← hs']
        exact h.forward_id id' s hs
      · rw [if_neg hid] at hs'
        exact h.forward_id id' s' hs'
  · exact h

theorem Names.state_modify {idx : Index} {sets : List LabelSet}
    (h : idx.Names sets) {id : SeriesId} (hid : id < sets.length)
    (f : SeriesState → SeriesState) (id' : SeriesId) :
    (idx.modify id f).state id'
      = if id' = id then f (idx.state id) else idx.state id' := by
  have hlab := h.forward id
  rw [labelsFor, List.getElem?_eq_getElem hid] at hlab
  obtain ⟨s, hs, -⟩ := Option.map_eq_some_iff.mp hlab
  simp only [Index.modify, hs, state, HashMap.lookup_insert_if]
  by_cases he : id' = id <;> simp [he]

/-- A known id has a series, with the state `state` reads. -/
theorem Names.get {idx : Index} {sets : List LabelSet} (h : idx.Names sets)
    {id : SeriesId} {ls : LabelSet} (hls : sets[id]? = some ls) :
    idx.get id = some ⟨id, ls, idx.state id⟩ := by
  have hlab := h.forward id
  rw [hls, labelsFor] at hlab
  obtain ⟨s, hs, hsl⟩ := Option.map_eq_some_iff.mp hlab
  have hsid := h.forward_id id s hs
  rw [Index.get, hs, state, hs]
  cases s
  cases hsid
  cases hsl
  rfl

theorem Names.get_none {idx : Index} {sets : List LabelSet}
    (h : idx.Names sets) {id : SeriesId} (hid : sets[id]? = none) :
    idx.get id = none := by
  have hlab := h.forward id
  rw [hid, labelsFor] at hlab
  exact Option.map_eq_none_iff.mp hlab

-- --------------------------------------------------------------- resolve

/-- The posting list of a pair is the ids of the sets carrying it. -/
theorem Reps.posting_ids {idx : Index} {sets : List LabelSet}
    (h : idx.Reps sets) (name value : String) :
    ((idx.postingIndex.lookup name).bind (·.lookup value)).getD []
      = idsWhere sets (carries ⟨name, value⟩) := by
  rw [← postingFor_getD, ← h.posting ⟨name, value⟩]
  rfl

/-- `including_label` returns the ids of the sets carrying the name. Both
sides ascend, so it is enough that they have the same members: an id is in
one of the lists of the name exactly if its set has the name with that
value. -/
theorem Reps.includingLabel {idx : Index} {sets : List LabelSet}
    (h : idx.Reps sets) (name : String) :
    idx.includingLabel name
      = idsWhere sets (fun ls => (ls.get name).isSome) := by
  have hmem : ∀ value ids, (idx.postingIndex.lookup name).bind
      (·.lookup value) = some ids →
      ids = idsWhere sets (carries ⟨name, value⟩) := by
    intro value ids hl
    rw [← h.posting_ids, hl]
    rfl
  have hasc : Ascending id (idx.includingLabel name) := by
    unfold Index.includingLabel
    cases hv : idx.postingIndex.lookup name with
    | none => exact List.Pairwise.nil
    | some values =>
        refine (unionAll_spec fun ids hids => ?_).1
        obtain ⟨value, hl⟩ := HashMap.mem_values.mp hids
        rw [hmem value ids (by simp [hv, hl])]
        exact idsWhere_ascending _ _
  refine hasc.ext (idsWhere_ascending _ _) fun i => ?_
  -- a member of the union is a member of one of the lists
  have hiff : i ∈ idx.includingLabel name
      ↔ ∃ value, i ∈ idsWhere sets (carries ⟨name, value⟩) := by
    simp only [← h.posting_ids]
    unfold Index.includingLabel
    cases hv : idx.postingIndex.lookup name with
    | none => simp
    | some values =>
        have hall : ∀ ids ∈ values.values, Ascending id ids := by
          intro ids hids
          obtain ⟨value, hl⟩ := HashMap.mem_values.mp hids
          rw [hmem value ids (by simp [hv, hl])]
          exact idsWhere_ascending _ _
        simp only [Option.map_some, Option.getD_some, Option.bind_some,
          (unionAll_spec hall).2]
        constructor
        · rintro ⟨ids, hids, hi⟩
          obtain ⟨value, hl⟩ := HashMap.mem_values.mp hids
          exact ⟨value, by rw [hl]; exact hi⟩
        · rintro ⟨value, hi⟩
          cases hl : values.lookup value with
          | none => simp [hl] at hi
          | some ids =>
              rw [hl] at hi
              exact ⟨ids, HashMap.mem_values.mpr ⟨value, hl⟩, hi⟩
  rw [hiff, mem_idsWhere]
  constructor
  · rintro ⟨value, hi⟩
    obtain ⟨ls, hls, hcar⟩ := mem_idsWhere.mp hi
    have hc := h.canonical ls (List.mem_of_getElem? hls)
    exact ⟨ls, hls, by
      rw [(LabelSet.get_eq_some hc).mpr (of_decide_eq_true hcar)]
      rfl⟩
  · rintro ⟨ls, hls, hsome⟩
    have hc := h.canonical ls (List.mem_of_getElem? hls)
    obtain ⟨value, hval⟩ := Option.isSome_iff_exists.mp hsome
    exact ⟨value, mem_idsWhere.mpr ⟨ls, hls,
      decide_eq_true ((LabelSet.get_eq_some hc).mp hval)⟩⟩

/-- The candidates of a matcher are the ids it is satisfied by. `Equal`
reads one posting list. `NotEqual` takes the sets with another value and
those without the name, which it builds by union and difference of ascending
lists; what is left of the value is then a test on the label set, by the
value it has under the name or by its having none. -/
theorem Reps.candidates {idx : Index} {sets : List LabelSet}
    (h : idx.Reps sets) (m : Matcher) :
    idx.candidates m = idsWhere sets m.satisfied := by
  obtain ⟨name, value, op⟩ := m
  have hget : ∀ {id : SeriesId} {ls : LabelSet}, sets[id]? = some ls →
      (carries ⟨name, value⟩ ls = true ↔ ls.get name = some value) := by
    intro id ls hls
    rw [LabelSet.get_eq_some (h.canonical ls (List.mem_of_getElem? hls)),
      carries, decide_eq_true_iff]
  cases op with
  | equal =>
      rw [Index.candidates, h.posting_ids]
      refine (idsWhere_ascending _ _).ext (idsWhere_ascending _ _) fun id => ?_
      simp only [mem_idsWhere, Matcher.satisfied, beq_iff_eq]
      exact exists_congr fun ls => and_congr_right fun hls => hget hls
  | notEqual =>
      have hwith : ((idx.postingIndex.lookup name).map
          fun v => unionAll v.values).getD []
          = idsWhere sets (fun ls => (ls.get name).isSome) :=
        h.includingLabel name
      simp only [Index.candidates, hwith, h.posting_ids, h.all,
        ← idsWhere_eq_range]
      -- every operand is ascending, so the kernels are set operations
      have hdiff : ∀ p q, differenceSorted (idsWhere sets p) (idsWhere sets q)
          = (idsWhere sets p).filter (· ∉ idsWhere sets q) := fun p q =>
        differenceSorted_eq (idsWhere_ascending _ _) (idsWhere_ascending _ _)
      rw [hdiff, hdiff]
      have hasc₁ : Ascending id ((idsWhere sets
          (fun ls => (ls.get name).isSome)).filter
            (· ∉ idsWhere sets (carries ⟨name, value⟩))) :=
        (idsWhere_ascending _ _).sublist List.filter_sublist
      have hasc₂ : Ascending id ((idsWhere sets (fun _ => true)).filter
            (· ∉ idsWhere sets (fun ls => (ls.get name).isSome))) :=
        (idsWhere_ascending _ _).sublist List.filter_sublist
      -- an id stands for one label set
      have hmem : ∀ {id : SeriesId} {ls : LabelSet} {p : LabelSet → Bool},
          sets[id]? = some ls →
          (id ∈ idsWhere sets p ↔ p ls = true) := by
        intro id ls p hls
        rw [mem_idsWhere, hls]
        simp
      split
      · rename_i hne
        obtain ⟨hu, hum⟩ := unionSorted_spec hasc₁ hasc₂
        refine hu.ext (idsWhere_ascending _ _) fun id => ?_
        rw [hum]
        cases hls : sets[id]? with
        | none =>
            simp [mem_idsWhere, hls]
        | some ls =>
            simp only [List.mem_filter, hmem hls, decide_eq_true_iff,
              hget hls, Matcher.satisfied, bne_iff_ne]
            cases ls.get name with
            | none => simpa using Ne.symm hne
            | some v => simp
      · rename_i heq
        obtain rfl : value = "" := not_not.mp heq
        refine hasc₁.ext (idsWhere_ascending _ _) fun id => ?_
        cases hls : sets[id]? with
        | none =>
            simp [mem_idsWhere, hls]
        | some ls =>
            simp only [List.mem_filter, hmem hls, decide_eq_true_iff,
              hget hls, Matcher.satisfied, bne_iff_ne]
            cases ls.get name with
            | none => simp
            | some v => simp

private theorem Reps.resolveLoop {idx : Index} {sets : List LabelSet}
    (h : idx.Reps sets) (ms : List Matcher) (p : LabelSet → Bool) :
    idx.resolveLoop (idsWhere sets p) ms
      = idsWhere sets (fun ls => p ls && satisfiesAll ms ls) := by
  induction ms generalizing p with
  | nil => simp [Index.resolveLoop, satisfiesAll]
  | cons m rest ih =>
      have hand : intersectInPlace (idsWhere sets p) (idx.candidates m)
          = idsWhere sets (fun ls => p ls && m.satisfied ls) := by
        rw [h.candidates, intersectInPlace_eq (idsWhere_ascending _ _)
          (idsWhere_ascending _ _)]
        refine ((idsWhere_ascending _ _).sublist List.filter_sublist).ext
          (idsWhere_ascending _ _) fun id => ?_
        simp only [List.mem_filter, mem_idsWhere, decide_eq_true_iff,
          Bool.and_eq_true]
        constructor
        · rintro ⟨⟨ls, hls, hp⟩, ls', hls', hm⟩
          rw [hls] at hls'
          cases hls'
          exact ⟨ls, hls, hp, hm⟩
        · rintro ⟨ls, hls, hp, hm⟩
          exact ⟨⟨ls, hls, hp⟩, ls, hls, hm⟩
      rw [Index.resolveLoop]
      simp only [hand]
      split
      · -- nothing left: the early return agrees with the full conjunction
        rename_i hnil
        refine (List.filter_eq_nil_iff.mpr fun id hid hall => ?_).symm
        have hmem : id ∈ idsWhere sets (fun ls => p ls && m.satisfied ls) := by
          rw [mem_idsWhere]
          obtain ⟨ls, hls, hq⟩ := (Option.any_eq_true ..).mp hall
          simp only [satisfiesAll, List.all_cons, Bool.and_eq_true] at hq
          exact ⟨ls, hls, by simp [hq.1, hq.2.1]⟩
        rw [hnil] at hmem
        cases hmem
      · rw [ih]
        simp [satisfiesAll, Bool.and_assoc]

/-- `resolve` returns, ascending, exactly the ids of the series whose
label set satisfies every matcher. -/
theorem Reps.resolve {idx : Index} {sets : List LabelSet}
    (h : idx.Reps sets) (ms : List Matcher) :
    idx.resolve ms = idsWhere sets (satisfiesAll ms) := by
  cases ms with
  | nil =>
      rw [Index.resolve, h.all, ← idsWhere_eq_range]
      rfl
  | cons m rest =>
      rw [Index.resolve, h.candidates, h.resolveLoop]
      rfl

end Index

end Tsdb
