/-
Resolution over every history of an index (`Index::encode`,
`Index::resolve`).

`Reached sets idx`: `encode` has been called for `sets`, one after the
other, on an index that was empty, and between two calls the hash maps may
have come to iterate in any other order. The label sets are then those of
`sets`, and what `resolve` returns is a matter of these alone
(`resolve_exact`).

# Histories

A reordering changes no lookup, and what `Reps` says of an index it says
in lookups, so a reordered index represents the same label sets
(`Reps.reorder`). With that, `Reached.reps` is an induction over the
history with one case for each constructor, and the ids that resolution
returns are positions in the label sets, each once. `resolve` itself goes
through the maps in the order they have at that moment; `Reps.resolve` has
dealt with this, and here two indices with the same history resolve alike.

What a matcher asks is said twice: by `Matcher.satisfied`, a test on the
label set as the index sees it, and by `Matcher.Asks`, in terms of its
labels. `satisfied_iff` is the comparison, and the place where an empty
value comes in.

# The empty value

`NotEqual` takes a missing label for the empty value. `Equal` looks for the
posting list of the empty value, where a series without the label is not, so
the two leave such a series out together, and only then
(`resolve_complements`): for any other value the one list is the
complement of the other, and for the empty value it is if every series has
the label.
-/
import Tsdb.View

namespace Tsdb

open Lib (Ascending HashMap)

-- ============================================================== histories

/-- The same index, its maps in another order. -/
structure Index.Reordered (idx idx' : Index) : Prop where
  inverted : idx'.inverted.entries.Perm idx.inverted.entries
  forward : idx'.forward.entries.Perm idx.forward.entries
  posting : ∀ name, Option.Rel (fun values' values =>
    values'.entries.Perm values.entries)
      (idx'.postingIndex.lookup name) (idx.postingIndex.lookup name)
  allIds : idx'.allIds = idx.allIds
  nextId : idx'.nextId = idx.nextId

/-- `encode` has been called for `sets`, in this order. -/
inductive Index.Reached : List LabelSet → Index → Prop
  | new : Reached [] Index.new
  | encode {sets : List LabelSet} {idx : Index} {ls : LabelSet} :
      Reached sets idx → ls.Canonical →
      Reached (sets ++ [ls]) (idx.encode ls).2
  | reorder {sets : List LabelSet} {idx idx' : Index} :
      Reached sets idx → idx.Reordered idx' → Reached sets idx'

namespace Index

variable {idx idx' : Index} {sets names : List LabelSet}

/-- Lookups do not see the order. -/
theorem Reps.reorder (h : idx.Reps names) (hr : idx.Reordered idx') :
    idx'.Reps names := by
  have hinv : ∀ ls, idx'.inverted.lookup ls = idx.inverted.lookup ls :=
    fun ls => AList.perm_lookup hr.inverted
  have hfwd : ∀ id, idx'.forward.lookup id = idx.forward.lookup id :=
    fun id => AList.perm_lookup hr.forward
  refine ⟨h.nodup, h.canonical, ?_, ?_, fun ls => ?_, fun id => ?_,
    fun id s hs => ?_, fun l => ?_⟩
  · rw [hr.nextId]
    exact h.next
  · rw [hr.allIds]
    exact h.all
  · rw [← h.inverted ls]
    exact hinv ls
  · rw [← h.forward id, labelsFor, labelsFor, hfwd]
  · have hsame : idx'.get id = idx.get id := hfwd id
    rw [hsame] at hs
    exact h.forward_id id s hs
  · rw [← h.posting l, Index.posting, Index.posting]
    have hpost := hr.posting l.name
    revert hpost
    generalize idx'.postingIndex.lookup l.name = values'
    generalize idx.postingIndex.lookup l.name = values
    intro hpost
    cases hpost with
    | none => rfl
    | some hperm => exact AList.perm_lookup hperm

/-- The label sets of an index are those it was called for, each once. -/
theorem Reached.reps (h : idx.Reached sets) :
    idx.Reps (touchAll [] sets) := by
  induction h with
  | new => exact .new
  | encode _ hc ih =>
      rw [touchAll_append]
      exact (ih.encode hc).2.1
  | reorder _ hr ih => exact ih.reorder hr

end Index

-- ============================================================= resolution

/-- What a matcher asks of a label set, in terms of its labels. -/
def Matcher.Asks (m : Matcher) (ls : LabelSet) : Prop :=
  match m.operator with
  | .equal => ⟨m.name, m.value⟩ ∈ ls.labels
  | .notEqual => (∃ v, ⟨m.name, v⟩ ∈ ls.labels ∧ v ≠ m.value)
      ∨ ((∀ v, ⟨m.name, v⟩ ∉ ls.labels) ∧ "" ≠ m.value)

theorem Matcher.satisfied_iff {ls : LabelSet} (hc : ls.Canonical)
    (m : Matcher) : m.satisfied ls = true ↔ m.Asks ls := by
  obtain ⟨name, value, op⟩ := m
  cases op with
  | equal =>
      simp only [Matcher.satisfied, Matcher.Asks, beq_iff_eq]
      exact LabelSet.get_eq_some hc
  | notEqual =>
      simp only [Matcher.satisfied, Matcher.Asks, bne_iff_ne,
        ← LabelSet.get_eq_some hc]
      cases ls.get name with
      | none => simp
      | some v => simp

namespace Index

variable {idx idx' : Index} {sets : List LabelSet}

/-- An id stands for the label set at its place. -/
private theorem Reached.resolve_mem (h : idx.Reached sets)
    (matchers : List Matcher) (id : SeriesId) :
    id ∈ idx.resolve matchers
      ↔ ∃ ls, idx.labelsFor id = some ls ∧ ∀ m ∈ matchers, m.Asks ls := by
  rw [h.reps.resolve, mem_idsWhere, h.reps.forward]
  refine exists_congr fun ls => and_congr_right fun hls => ?_
  have hc := h.reps.canonical ls (List.mem_of_getElem? hls)
  rw [satisfiesAll, List.all_eq_true]
  exact forall₂_congr fun m _ => m.satisfied_iff hc

/-- Whatever `encode` was called for, `resolve` returns, ascending, the ids
of the series that every matcher asks for; each label set it was called for
has one id, and no other has any; and neither the order nor the multiplicity
of the matchers matters, nor the order of any map.

The index represents its sets, `Reps`, and by this the members of the result
are known; two ascending lists with the same members are the same, and so
the last part follows from the first two. -/
theorem resolve_exact (h : idx.Reached sets) (matchers : List Matcher) :
    Ascending id (idx.resolve matchers)
    ∧ (∀ id, id ∈ idx.resolve matchers
        ↔ ∃ ls, idx.labelsFor id = some ls ∧ ∀ m ∈ matchers, m.Asks ls)
    ∧ (∀ ls, ls ∈ sets ↔ ∃ id, idx.labelsFor id = some ls)
    ∧ (∀ ls id, idx.labelsFor id = some ls ↔ idx.idFor ls = some id)
    ∧ ∀ (idx' : Index) (matchers' : List Matcher), idx'.Reached sets →
        (∀ m, m ∈ matchers' ↔ m ∈ matchers) →
        idx'.resolve matchers' = idx.resolve matchers := by
  have hreps := h.reps
  refine ⟨?_, h.resolve_mem matchers, fun ls => ?_, fun ls id => ?_,
    fun idx' matchers' h' hsame => ?_⟩
  · rw [hreps.resolve]
    exact idsWhere_ascending _ _
  · simp only [hreps.forward]
    rw [← List.mem_iff_getElem?, mem_touchAll]
    simp
  · rw [hreps.forward, hreps.inverted]
    constructor
    · intro hid
      have hin := List.mem_of_getElem? hid
      have hat := List.getElem?_idxOf hin
      rw [if_pos hin, Option.some.injEq]
      exact (List.getElem?_inj (List.getElem?_eq_some_iff.mp hat).1
        hreps.nodup).mp (hat.trans hid.symm)
    · intro hid
      split at hid
      · rename_i hin
        cases hid
        exact List.getElem?_idxOf hin
      · cases hid
  · rw [hreps.resolve, h'.reps.resolve]
    congr 1
    funext ls
    rw [satisfiesAll, satisfiesAll, Bool.eq_iff_iff, List.all_eq_true,
      List.all_eq_true]
    exact forall_congr' fun m => by rw [hsame]

/-- Two series, one of them without a label. -/
theorem resolve_exact_twice :
    let a : LabelSet := ⟨[⟨"host", "a"⟩]⟩
    let b : LabelSet := ⟨[⟨"name", "b"⟩]⟩
    let idx := (((Index.new.encode a).2.encode b).2.encode a).2
    idx.Reached [a, b, a]
      ∧ Ascending id (idx.resolve [⟨"host", "x", .notEqual⟩])
      ∧ idx.resolve [⟨"host", "x", .notEqual⟩, ⟨"name", "b", .equal⟩]
        = [1] := by
  intro a b idx
  have h : idx.Reached [a, b, a] :=
    .encode (.encode (.encode .new (by decide)) (by decide)) (by decide)
  exact ⟨h, (resolve_exact h [⟨"host", "x", .notEqual⟩]).1, by decide +kernel⟩

-- ======================================================== the empty value

/-- The two operators share the series out between them, a label that is
missing having the empty value for both. -/
structure Complements (idx : Index) (name value : String) : Prop where
  disjoint : ∀ id, id ∈ idx.resolve [⟨name, value, .equal⟩] →
    id ∉ idx.resolve [⟨name, value, .notEqual⟩]
  cover : ∀ id ls, idx.labelsFor id = some ls →
    id ∈ idx.resolve [⟨name, value, .equal⟩]
      ∨ id ∈ idx.resolve [⟨name, value, .notEqual⟩]
  missing : ∀ id ls, idx.labelsFor id = some ls →
    (∀ v, ⟨name, v⟩ ∉ ls.labels) →
    (id ∈ idx.resolve [⟨name, value, .equal⟩] ↔ value = "")
      ∧ (id ∈ idx.resolve [⟨name, value, .notEqual⟩] ↔ value ≠ "")

/-- They do for every value but the empty one, and for that if no series is
without the label.

A series has one value of a name or none. With one, it is in the half that
its comparison with the value says; with none, `NotEqual` takes it, unless
the value is empty, and `Equal` never does. -/
theorem resolve_complements (h : idx.Reached sets) (name value : String) :
    idx.Complements name value
      ↔ (value = "" → ∀ ls ∈ sets, ∃ v, ⟨name, v⟩ ∈ ls.labels) := by
  have hreps := h.reps
  have hequal : ∀ id, id ∈ idx.resolve [⟨name, value, .equal⟩]
      ↔ ∃ ls, idx.labelsFor id = some ls ∧ ⟨name, value⟩ ∈ ls.labels := by
    intro id
    rw [h.resolve_mem]
    simp [Matcher.Asks]
  have hnotEqual : ∀ id, id ∈ idx.resolve [⟨name, value, .notEqual⟩]
      ↔ ∃ ls, idx.labelsFor id = some ls
        ∧ ((∃ v, ⟨name, v⟩ ∈ ls.labels ∧ v ≠ value)
          ∨ ((∀ v, ⟨name, v⟩ ∉ ls.labels) ∧ "" ≠ value)) := by
    intro id
    rw [h.resolve_mem]
    simp [Matcher.Asks]
  have hlabels : ∀ ls, ls ∈ sets ↔ ∃ id, idx.labelsFor id = some ls :=
    (resolve_exact h []).2.2.1
  constructor
  · -- a series without the label would be in neither half
    intro hcomp hempty ls hls
    by_contra hno
    have hmissing : ∀ v, ⟨name, v⟩ ∉ ls.labels := fun v hv => hno ⟨v, hv⟩
    obtain ⟨id, hid⟩ := (hlabels ls).mp hls
    obtain ⟨ls', hid', hin⟩ := (hequal id).mp
      ((hcomp.missing id ls hid hmissing).1.mpr hempty)
    rw [hid, Option.some.injEq] at hid'
    subst hid'
    exact hmissing value hin
  · intro hall
    have hvalue : ∀ id ls, idx.labelsFor id = some ls →
        (∀ v, ⟨name, v⟩ ∉ ls.labels) → value ≠ "" := by
      intro id ls hid hmissing hempty
      obtain ⟨v, hv⟩ := hall hempty ls ((hlabels ls).mpr ⟨id, hid⟩)
      exact hmissing v hv
    refine ⟨fun id heq hne => ?_, fun id ls hid => ?_,
      fun id ls hid hmissing => ⟨?_, ?_⟩⟩
    · rw [hequal] at heq
      rw [hnotEqual] at hne
      obtain ⟨ls, hid, hin⟩ := heq
      obtain ⟨ls', hid', hcase⟩ := hne
      rw [hid, Option.some.injEq] at hid'
      subst hid'
      rcases hcase with ⟨v, hv, hdiff⟩ | ⟨hmissing, -⟩
      · have hc : ls.Canonical := by
          rw [hreps.forward] at hid
          exact hreps.canonical ls (List.mem_of_getElem? hid)
        have hsame := hc.eq_of_name hv hin rfl
        injection hsame with _ hsame
        exact hdiff hsame
      · exact hmissing value hin
    · rw [hequal, hnotEqual]
      by_cases hex : ∃ v, ⟨name, v⟩ ∈ ls.labels
      · obtain ⟨v, hv⟩ := hex
        by_cases hsame : v = value
        · exact .inl ⟨ls, hid, hsame ▸ hv⟩
        · exact .inr ⟨ls, hid, .inl ⟨v, hv, hsame⟩⟩
      · have hmissing : ∀ v, ⟨name, v⟩ ∉ ls.labels :=
          fun v hv => hex ⟨v, hv⟩
        exact .inr ⟨ls, hid, .inr ⟨hmissing,
          (hvalue id ls hid hmissing).symm⟩⟩
    · rw [hequal]
      constructor
      · intro hin
        obtain ⟨ls', hid', hin⟩ := hin
        rw [hid, Option.some.injEq] at hid'
        subst hid'
        exact absurd hin (hmissing value)
      · exact fun he => absurd he (hvalue id ls hid hmissing)
    · rw [hnotEqual]
      constructor
      · exact fun _ => hvalue id ls hid hmissing
      · exact fun hne => ⟨ls, hid, .inr ⟨hmissing, hne.symm⟩⟩

/-- A series that has the label, with the empty value. -/
theorem resolve_complements_present :
    let idx := (Index.new.encode ⟨[⟨"host", ""⟩]⟩).2
    idx.Reached [⟨[⟨"host", ""⟩]⟩] ∧ idx.Complements "host" "" := by
  intro idx
  have h : idx.Reached [⟨[⟨"host", ""⟩]⟩] := .encode .new (by decide)
  exact ⟨h, (resolve_complements h "host" "").mpr (by simp)⟩

/-- A series without the label is found under neither operator. -/
theorem resolve_empty_value :
    let idx := (Index.new.encode ⟨[⟨"name", "cpu"⟩]⟩).2
    idx.Reached [⟨[⟨"name", "cpu"⟩]⟩]
      ∧ idx.resolve [] = [0]
      ∧ idx.resolve [⟨"host", "", .equal⟩] = []
      ∧ idx.resolve [⟨"host", "", .notEqual⟩] = []
      ∧ ¬idx.Complements "host" "" := by
  intro idx
  have hequal : idx.resolve [⟨"host", "", .equal⟩] = [] := by decide +kernel
  have hnotEqual : idx.resolve [⟨"host", "", .notEqual⟩] = [] := by
    decide +kernel
  have hlabels : idx.labelsFor 0 = some ⟨[⟨"name", "cpu"⟩]⟩ := by
    decide +kernel
  refine ⟨.encode .new (by decide), by decide +kernel, hequal, hnotEqual,
    fun h => ?_⟩
  rcases h.cover 0 _ hlabels with hin | hin
  · rw [hequal] at hin
    cases hin
  · rw [hnotEqual] at hin
    cases hin

end Index

end Tsdb
