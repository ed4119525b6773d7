/-
The data model (`model.rs`): labels and label sets, samples, time ranges
and matchers.

# How the types are carried

Strings are compared as the source compares them: `str` orders by bytes,
and byte order of UTF-8 is code point order, which is `String`'s `<`. A
sample's `f64` is carried as its 64 bits; nothing in the storage engine
computes with it, and every path that stores it does so through
`to_bits`/`to_le_bytes`. A timestamp is a `UInt64`, compared and never
added to.

A `LabelSet` is a plain vector of labels, so that what the decoder of the
log accepts without looking (`from_sorted_unchecked`) is a label set here
as well. The public constructors keep it `Canonical`, strictly ascending
by name. `Canonical` is a predicate and not a field for that reason:
whoever needs it has it from the constructor it went through, or from an
invariant of the index.

# What is proved here

`fromLabels` is the identity on a canonical list
(`fromLabels_canonical`): a sorted list without equal neighbours passes
through the stable sort and through `dedup_by` untouched, by induction on
the list. This is what makes a label set survive a trip through the log,
and with it `get` is membership (`get_eq_some`). What the constructors
make of any other list is the subject of `Tsdb.Labels`.

The greedy subsequence that a series keeps of its samples is
`Lib.Ascending`'s, at the timestamps.
-/
import Mathlib.Order.Basic
import Mathlib.Data.String.Basic
import Tsdb.Lib.Ascending

namespace Tsdb

-- ================================================================ labels

structure Label where
  name : String
  value : String
deriving DecidableEq, Repr

structure LabelSet where
  labels : List Label
deriving DecidableEq, Repr

namespace LabelSet

/-- `LabelSet::new`. -/
def new : LabelSet := ⟨[]⟩

/-- `LabelSet::from_sorted_unchecked`. -/
def fromSortedUnchecked (labels : List Label) : LabelSet := ⟨labels⟩

/-- `Vec::dedup_by` with the closure of `from_labels`, behind the element
`kept` retained last: an equal name swaps the newcomer into the retained
slot, so the last duplicate wins. -/
def dedupAfter (kept : Label) : List Label → List Label
  | [] => [kept]
  | a :: rest =>
      if a.name = kept.name then dedupAfter a rest
      else kept :: dedupAfter a rest

def dedup : List Label → List Label
  | [] => []
  | a :: rest => dedupAfter a rest

/-- `LabelSet::from_labels`: stable sort by name, then keep the last of
each run of equal names. -/
def fromLabels (labels : List Label) : LabelSet :=
  fromSortedUnchecked (dedup (labels.mergeSort (fun a b => a.name ≤ b.name)))

/-- `binary_search_by` on names: the index of the match, or the index at
which the name would be inserted. -/
def binarySearch (labels : List Label) (name : String) : Except Nat Nat :=
  let i := (labels.takeWhile (·.name < name)).length
  if (labels[i]?).any (·.name = name) then .ok i else .error i

/-- `LabelSet::get`. -/
def get (ls : LabelSet) (name : String) : Option String :=
  match binarySearch ls.labels name with
  | .ok i => ls.labels[i]?.map Label.value
  | .error _ => none

/-- `LabelSet::insert_label`. -/
def insertLabel (ls : LabelSet) (label : Label) : LabelSet :=
  match binarySearch ls.labels label.name with
  | .ok i =>
      if ls.labels[i]? = some label then ls
      else ⟨ls.labels.set i label⟩
  | .error i => ⟨ls.labels.insertIdx i label⟩

/-- What `from_labels` and `insert_label` build: names strictly
ascending. -/
def Canonical (ls : LabelSet) : Prop := Lib.Ascending Label.name ls.labels

instance (ls : LabelSet) : Decidable ls.Canonical :=
  inferInstanceAs (Decidable (Lib.Ascending _ _))

-- --------------------------------------------------- canonical label sets

/-- A run without equal neighbours loses nothing. -/
private theorem dedupAfter_ascending (kept : Label) (rest : List Label)
    (h : Lib.Ascending Label.name (kept :: rest)) :
    dedupAfter kept rest = kept :: rest := by
  induction rest generalizing kept with
  | nil => rfl
  | cons a rest ih =>
      have hne : a.name ≠ kept.name :=
        ne_of_gt ((List.pairwise_cons.mp h).1 a List.mem_cons_self)
      rw [dedupAfter, if_neg hne, ih a (List.pairwise_cons.mp h).2]

/-- `from_labels` returns a canonical list unchanged. -/
theorem fromLabels_canonical {ls : LabelSet} (h : ls.Canonical) :
    fromLabels ls.labels = ls := by
  have hsorted : ls.labels.Pairwise
      (fun a b => decide (a.name ≤ b.name) = true) :=
    List.Pairwise.imp (fun hab => by simpa using le_of_lt hab) h
  rw [fromLabels, List.mergeSort_of_pairwise hsorted]
  cases hl : ls.labels with
  | nil => rw [dedup, fromSortedUnchecked, ← hl]
  | cons a rest =>
      rw [dedup, dedupAfter_ascending a rest (by rw [← hl]; exact h),
        fromSortedUnchecked, ← hl]

/-- Two labels of a canonical set with one name are one label. -/
theorem Canonical.eq_of_name {ls : LabelSet} (h : ls.Canonical)
    {a b : Label} (ha : a ∈ ls.labels) (hb : b ∈ ls.labels)
    (hn : a.name = b.name) : a = b := by
  have hnodup : (ls.labels.map Label.name).Nodup :=
    (List.pairwise_map.mpr h).imp ne_of_lt
  exact List.inj_on_of_nodup_map hnodup ha hb hn

theorem Canonical.nodup {ls : LabelSet} (h : ls.Canonical) :
    ls.labels.Nodup :=
  List.Pairwise.imp (fun hab he => absurd (congrArg Label.name he)
    (ne_of_lt hab)) h

/-- On a canonical set `get` is membership. The names ascend, so those below
`name` are the ones in front, where the binary search makes its cut; what
stands at the cut is at `name` or above it, and above is not the name. -/
theorem get_eq_some {ls : LabelSet} (h : ls.Canonical) {name v : String} :
    ls.get name = some v ↔ ⟨name, v⟩ ∈ ls.labels := by
  have hcut : ls.labels.takeWhile (·.name < name)
      = ls.labels.filter (·.name < name) :=
    Lib.Ascending.takeWhile_eq_filter
      (fun a b hab hb => by simpa using lt_trans hab (by simpa using hb)) h
  -- the element behind the cut is the first one at or above `name`
  have hsplit := List.takeWhile_append_dropWhile
    (p := fun l : Label => decide (l.name < name)) (l := ls.labels)
  have hidx := Lib.getElem?_takeWhile_length
    (fun l : Label => decide (l.name < name)) ls.labels
  have hasc : Lib.Ascending Label.name
      (ls.labels.dropWhile (·.name < name)) :=
    Lib.Ascending.sublist h (List.dropWhile_sublist _)
  have hmem : ∀ l : Label, l.name = name →
      (l ∈ ls.labels ↔ l ∈ ls.labels.dropWhile (·.name < name)) := by
    intro l hl
    constructor
    · intro hin
      rw [← hsplit, List.mem_append, hcut, List.mem_filter] at hin
      rcases hin with ⟨-, hlt⟩ | hin
      · simp [hl] at hlt
      · exact hin
    · exact fun hin => (List.dropWhile_sublist _).subset hin
  rw [hmem ⟨name, v⟩ rfl, get, binarySearch]
  simp only [hidx]
  cases hd : ls.labels.dropWhile (·.name < name) with
  | nil => simp
  | cons a rest =>
      rw [hd] at hasc
      simp only [List.head?_cons, Option.any_some, decide_eq_true_eq]
      by_cases ha : a.name = name
      · rw [if_pos ha]
        simp only [hidx, hd, List.head?_cons, Option.map_some,
          Option.some.injEq, List.mem_cons]
        constructor
        · intro hv
          exact Or.inl (by cases a; simp_all)
        · rintro (he | hin)
          · rw [← he]
          · have := (List.pairwise_cons.mp hasc).1 _ hin
            simp [ha] at this
      · rw [if_neg ha]
        simp only [reduceCtorEq, List.mem_cons, false_iff, not_or]
        refine ⟨fun he => ha (by rw [← he]), fun hin => ?_⟩
        -- `a` is at or above `name`, and everything behind it above `a`
        have hge : ¬a.name < name := by
          have hnot := List.head?_dropWhile_not
            (fun l : Label => decide (l.name < name)) ls.labels
          rw [hd] at hnot
          exact of_decide_eq_false hnot
        exact hge ((List.pairwise_cons.mp hasc).1 _ hin)

end LabelSet

-- ==================================================== samples and queries

/-- A sample: milliseconds since the epoch, and the bits of the value. -/
structure Sample where
  timestamp : UInt64
  value : UInt64
deriving DecidableEq, Repr

/-- `TimeRange`, inclusive at both ends. -/
structure TimeRange where
  start : UInt64
  end_ : UInt64
deriving DecidableEq, Repr

/-- `Sample::in_timerange`. -/
def Sample.inTimerange (s : Sample) (range : TimeRange) : Bool :=
  decide (range.start ≤ s.timestamp) && decide (s.timestamp ≤ range.end_)

inductive MatcherOperator
  | equal
  | notEqual
deriving DecidableEq, Repr

structure Matcher where
  name : String
  value : String
  operator : MatcherOperator
deriving DecidableEq, Repr

/-- `SeriesId`. The source counts ids up from 0 in a `u64`; each id is
held by a live map entry, so the counter cannot reach the end of its
range and is a `Nat` here. -/
abbrev SeriesId := Nat

end Tsdb
