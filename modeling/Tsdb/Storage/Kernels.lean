/-
The loops of the sorted id list kernels pass by pass
(`storage/index.rs`), with every subscript and every slice checked: out of
range it panics.

# What is shown

At its head a loop has still to do what `unionLoop`, `differenceLoop` and
`intersectLoop` do from its cursors, which no pass changes; and the cursors
are inside the vectors, so that no check fails, the one behind the loop
included, and a pass leaves less to read. So with a pass for each element
the loops end, with what those functions return (`sorted_kernels`).

The in-place loop moreover has the rest of `a` as it was from the read
cursor on at every head (`Narrowing.Kept`): what it overwrites it has read.

# How it is proved

The locals of a loop are a structure (`Merging`, `Narrowing`), the body is
a function that may fail (`unionPass`, `differencePass`,
`intersectPass`), and the loop is `Lib.While` with fuel. The rule for it
is used with the invariant at the head (`Inside`, with `Kept` for the loop
that writes) and the number of unread elements as the measure. Each body
has three cases, and each moves one cursor or both. A subscript is in
range by the test of the loop, and the write of the in-place loop by its
cursor being at most the read cursor.

Nothing here needs the lists to ascend: out of order the loops return
something else, and panic as little. That they ascend is used once, at the
end, when the results are the ones of `Tsdb.Storage.SortedIds`.
-/
import Tsdb.Lib.While
import Tsdb.Storage.SortedIds

namespace Tsdb

open Lib (Ascending Outcome whileLoop Heads Passes)

/-- `&v[i..]`. -/
def sliceFrom (v : List SeriesId) (i : Nat) : Option (List SeriesId) :=
  if i ≤ v.length then some (v.drop i) else none

/-- `v[i] = x`. -/
def assign (v : List SeriesId) (i : Nat) (x : SeriesId) :
    Option (List SeriesId) :=
  if i < v.length then some (v.set i x) else none

theorem sliceFrom_of_le {v : List SeriesId} {i : Nat} (h : i ≤ v.length) :
    sliceFrom v i = some (v.drop i) := if_pos h

theorem assign_of_lt {v : List SeriesId} {i : Nat} (h : i < v.length)
    (x : SeriesId) : assign v i x = some (v.set i x) := if_pos h

-- ============================================== the union, the difference

/-- The locals of `union_sorted` and of `difference_sorted`. -/
structure Merging where
  i : Nat := 0
  j : Nat := 0
  result : List SeriesId := []

namespace Merging

variable (a b : List SeriesId)

def unread (s : Merging) : Bool := s.i < a.length && s.j < b.length

/-- The body of the loop of `union_sorted`. -/
def unionPass (s : Merging) : Option Merging := do
  match compare (← a[s.i]?) (← b[s.j]?) with
  | .lt => return { s with result := s.result ++ [← a[s.i]?], i := s.i + 1 }
  | .gt => return { s with result := s.result ++ [← b[s.j]?], j := s.j + 1 }
  | .eq =>
      return { result := s.result ++ [← a[s.i]?], i := s.i + 1, j := s.j + 1 }

/-- The leftovers, of which one side has none. -/
def unionRest (s : Merging) : Option (List SeriesId) := do
  let result := s.result ++ (← sliceFrom a s.i)
  return result ++ (← sliceFrom b s.j)

/-- The body of the loop of `difference_sorted`. -/
def differencePass (s : Merging) : Option Merging := do
  match compare (← a[s.i]?) (← b[s.j]?) with
  | .lt => return { s with result := s.result ++ [← a[s.i]?], i := s.i + 1 }
  | .gt => return { s with j := s.j + 1 }
  | .eq => return { s with i := s.i + 1, j := s.j + 1 }

def differenceRest (s : Merging) : Option (List SeriesId) := do
  return s.result ++ (← sliceFrom a s.i)

/-- What there is still to read. -/
def unreadCount (s : Merging) : Nat := (a.length - s.i) + (b.length - s.j)

/-- The cursors are inside, and what is to do comes to the same list. -/
structure Inside (loop : Merging → List SeriesId) (s : Merging) : Prop where
  left : s.i ≤ a.length
  right : s.j ≤ b.length
  remains : loop s = loop {}

end Merging

/-- `union_sorted`, for at most `fuel` passes. -/
def unionSortedIn (fuel : Nat) (a b : List SeriesId) :
    Outcome (List SeriesId) :=
  (whileLoop (Merging.unread a b) (Merging.unionPass a b) fuel {}).andThen
    (Merging.unionRest a b)

/-- `difference_sorted`, for at most `fuel` passes. -/
def differenceSortedIn (fuel : Nat) (a b : List SeriesId) :
    Outcome (List SeriesId) :=
  (whileLoop (Merging.unread a b) (Merging.differencePass a b) fuel {}).andThen
    (Merging.differenceRest a)

namespace Merging

variable {a b : List SeriesId}

/-- The test of the loop puts both cursors on an element. -/
theorem unread_iff {s : Merging} :
    unread a b s = true ↔ s.i < a.length ∧ s.j < b.length := by
  rw [unread, Bool.and_eq_true, decide_eq_true_eq, decide_eq_true_eq]

theorem not_unread_iff {s : Merging} :
    unread a b s = false ↔ ¬ (s.i < a.length ∧ s.j < b.length) := by
  rw [← unread_iff, Bool.not_eq_true]

theorem union_passes :
    Passes (unread a b) (unionPass a b)
      (Inside a b fun s => unionLoop a b s.i s.j s.result)
      (unreadCount a b) where
  pass s hs htest := by
    have h := unread_iff.mp htest
    have hloop := hs.remains
    rw [unionLoop, dif_pos h] at hloop
    simp only [unionPass, List.getElem?_eq_getElem h.1,
      List.getElem?_eq_getElem h.2, Option.pure_def, Option.bind_eq_bind,
      Option.bind_some]
    cases hcmp : compare a[s.i] b[s.j] with
    | lt =>
        rw [hcmp] at hloop
        refine ⟨_, rfl, ⟨h.1, hs.right, hloop⟩, ?_⟩
        simp only [unreadCount]
        omega
    | gt =>
        rw [hcmp] at hloop
        refine ⟨_, rfl, ⟨hs.left, h.2, hloop⟩, ?_⟩
        simp only [unreadCount]
        omega
    | eq =>
        rw [hcmp] at hloop
        refine ⟨_, rfl, ⟨h.1, h.2, hloop⟩, ?_⟩
        simp only [unreadCount]
        omega

theorem difference_passes :
    Passes (unread a b) (differencePass a b)
      (Inside a b fun s => differenceLoop a b s.i s.j s.result)
      (unreadCount a b) where
  pass s hs htest := by
    have h := unread_iff.mp htest
    have hloop := hs.remains
    rw [differenceLoop, dif_pos h] at hloop
    simp only [differencePass, List.getElem?_eq_getElem h.1,
      List.getElem?_eq_getElem h.2, Option.pure_def, Option.bind_eq_bind,
      Option.bind_some]
    cases hcmp : compare a[s.i] b[s.j] with
    | lt =>
        rw [hcmp] at hloop
        refine ⟨_, rfl, ⟨h.1, hs.right, hloop⟩, ?_⟩
        simp only [unreadCount]
        omega
    | gt =>
        rw [hcmp] at hloop
        refine ⟨_, rfl, ⟨hs.left, h.2, hloop⟩, ?_⟩
        simp only [unreadCount]
        omega
    | eq =>
        rw [hcmp] at hloop
        refine ⟨_, rfl, ⟨h.1, h.2, hloop⟩, ?_⟩
        simp only [unreadCount]
        omega

/-- Before the first pass. -/
theorem inside_start (loop : Merging → List SeriesId) :
    Inside a b loop {} where
  left := Nat.zero_le _
  right := Nat.zero_le _
  remains := rfl

end Merging

theorem unionSortedIn_eq {fuel : Nat} {a b : List SeriesId}
    (h : a.length + b.length ≤ fuel) :
    unionSortedIn fuel a b = .done (unionSorted a b) := by
  refine Lib.whileLoop_andThen Merging.union_passes (Merging.inside_start _) h
    fun s hs htest => ?_
  have hloop := hs.remains
  rw [unionLoop, dif_neg (Merging.not_unread_iff.mp htest)] at hloop
  rw [Merging.unionRest, sliceFrom_of_le hs.left, sliceFrom_of_le hs.right]
  exact congrArg some hloop

theorem differenceSortedIn_eq {fuel : Nat} {a b : List SeriesId}
    (h : a.length + b.length ≤ fuel) :
    differenceSortedIn fuel a b = .done (differenceSorted a b) := by
  refine Lib.whileLoop_andThen Merging.difference_passes
    (Merging.inside_start _) h fun s hs htest => ?_
  have hloop := hs.remains
  rw [differenceLoop, dif_neg (Merging.not_unread_iff.mp htest)] at hloop
  rw [Merging.differenceRest, sliceFrom_of_le hs.left]
  exact congrArg some hloop

-- ======================================================= the intersection

/-- The locals of `intersect_in_place`, and the vector it is handed. -/
structure Narrowing where
  a : List SeriesId
  write : Nat := 0
  i : Nat := 0
  j : Nat := 0

namespace Narrowing

def unread (b : List SeriesId) (s : Narrowing) : Bool :=
  s.i < s.a.length && s.j < b.length

/-- The body of the loop of `intersect_in_place`. -/
def intersectPass (b : List SeriesId) (s : Narrowing) : Option Narrowing := do
  match compare (← s.a[s.i]?) (← b[s.j]?) with
  | .lt => return { s with i := s.i + 1 }
  | .gt => return { s with j := s.j + 1 }
  | .eq =>
      let a ← assign s.a s.write (← s.a[s.i]?)
      return { a := a, write := s.write + 1, i := s.i + 1, j := s.j + 1 }

def unreadCount (b : List SeriesId) (s : Narrowing) : Nat :=
  (s.a.length - s.i) + (b.length - s.j)

/-- The write cursor is not in front of the read cursor, and what there is
from there on is `a` as it was handed over. -/
structure Kept (a : List SeriesId) (s : Narrowing) : Prop where
  length : s.a.length = a.length
  behind : s.write ≤ s.i
  unread : s.a.drop s.i = a.drop s.i

structure Inside (a b : List SeriesId) (s : Narrowing) : Prop
    extends Kept a s where
  left : s.i ≤ s.a.length
  right : s.j ≤ b.length
  remains : intersectLoop b s.a s.write s.i s.j = intersectLoop b a 0 0 0

end Narrowing

/-- `intersect_in_place`, for at most `fuel` passes. -/
def intersectInPlaceIn (fuel : Nat) (a b : List SeriesId) :
    Outcome (List SeriesId) :=
  (whileLoop (Narrowing.unread b) (Narrowing.intersectPass b) fuel
    { a := a }).andThen fun s => some (s.a.take s.write)

namespace Narrowing

variable {a b : List SeriesId}

theorem unread_iff {s : Narrowing} :
    unread b s = true ↔ s.i < s.a.length ∧ s.j < b.length := by
  rw [unread, Bool.and_eq_true, decide_eq_true_eq, decide_eq_true_eq]

/-- Behind the read cursor there is less of what there was. -/
theorem Kept.step {s : Narrowing} (h : Kept a s) :
    s.a.drop (s.i + 1) = a.drop (s.i + 1) := by
  rw [← List.drop_drop, h.unread, List.drop_drop]

/-- One pass of `intersect_sorted_into` on the array: it stays inside the
bounds, leaves fewer elements unread, and does what the loop on lists does.
The cases are the three outcomes of the comparison, and only an equal pair
writes; the write cursor is not ahead of the read cursor, so what it
overwrites has been read. -/
theorem passes :
    Passes (unread b) (intersectPass b) (Inside a b) (unreadCount b) where
  pass s hs htest := by
    have h := unread_iff.mp htest
    have hloop := hs.remains
    rw [intersectLoop, dif_pos h] at hloop
    simp only [intersectPass, List.getElem?_eq_getElem h.1,
      List.getElem?_eq_getElem h.2, Option.pure_def, Option.bind_eq_bind,
      Option.bind_some]
    cases hcmp : compare s.a[s.i] b[s.j] with
    | lt =>
        rw [hcmp] at hloop
        have hkept : Kept a { s with i := s.i + 1 } :=
          ⟨hs.length, Nat.le_succ_of_le hs.behind, hs.step⟩
        refine ⟨_, rfl, ⟨hkept, h.1, hs.right, hloop⟩, ?_⟩
        simp only [unreadCount]
        omega
    | gt =>
        rw [hcmp] at hloop
        have hkept : Kept a { s with j := s.j + 1 } :=
          ⟨hs.length, hs.behind, hs.unread⟩
        refine ⟨_, rfl, ⟨hkept, hs.left, h.2, hloop⟩, ?_⟩
        simp only [unreadCount]
        omega
    | eq =>
        rw [hcmp] at hloop
        have hwrite : s.write < s.a.length := Nat.lt_of_le_of_lt hs.behind h.1
        -- the element under the read cursor may go, and none behind it does
        have hkept : Kept a
            ⟨s.a.set s.write s.a[s.i], s.write + 1, s.i + 1, s.j + 1⟩ := by
          refine ⟨?_, Nat.succ_le_succ hs.behind, ?_⟩
          · rw [List.length_set]
            exact hs.length
          · rw [← hs.step]
            exact List.drop_set_of_lt (Nat.lt_succ_of_le hs.behind)
        refine ⟨_, by simp only [assign_of_lt hwrite, Option.bind_some],
          ⟨hkept, ?_, h.2, hloop⟩, ?_⟩
        · rw [List.length_set]
          exact h.1
        · simp only [unreadCount, List.length_set]
          omega

theorem inside_start (a b : List SeriesId) : Inside a b { a := a } where
  length := rfl
  behind := Nat.le_refl _
  unread := rfl
  left := Nat.zero_le _
  right := Nat.zero_le _
  remains := rfl

end Narrowing

theorem intersectInPlaceIn_eq {fuel : Nat} {a b : List SeriesId}
    (h : a.length + b.length ≤ fuel) :
    intersectInPlaceIn fuel a b = .done (intersectInPlace a b) := by
  refine Lib.whileLoop_andThen Narrowing.passes (Narrowing.inside_start a b) h
    fun s hs htest => ?_
  have hloop := hs.remains
  have hnot : ¬ (s.i < s.a.length ∧ s.j < b.length) := by
    rw [← Narrowing.unread_iff, htest]
    simp
  rw [intersectLoop, dif_neg hnot] at hloop
  exact congrArg some hloop

-- ========================================================= all three of them

/-- On ascending lists the three loops end without a panic, the ascending
lists of the ids in either, in the first alone and in both behind them; and
the one that writes into the list it reads leaves what it has not read. -/
theorem sorted_kernels {a b : List SeriesId} (ha : Ascending id a)
    (hb : Ascending id b) (fuel : Nat) (hfuel : a.length + b.length ≤ fuel) :
    (∃ ids, unionSortedIn fuel a b = .done ids ∧ Ascending id ids
      ∧ ∀ x, x ∈ ids ↔ x ∈ a ∨ x ∈ b)
    ∧ (∃ ids, differenceSortedIn fuel a b = .done ids ∧ Ascending id ids
      ∧ ∀ x, x ∈ ids ↔ x ∈ a ∧ x ∉ b)
    ∧ (∃ ids, intersectInPlaceIn fuel a b = .done ids ∧ Ascending id ids
      ∧ ∀ x, x ∈ ids ↔ x ∈ a ∧ x ∈ b)
    ∧ ∀ s, Heads (Narrowing.unread b) (Narrowing.intersectPass b) { a := a } s →
      s.Kept a := by
  obtain ⟨hunion, hmem⟩ := unionSorted_spec ha hb
  refine ⟨⟨_, unionSortedIn_eq hfuel, hunion, hmem⟩,
    ⟨_, differenceSortedIn_eq hfuel, ?_⟩, ⟨_, intersectInPlaceIn_eq hfuel, ?_⟩,
    fun s hs => ?_⟩
  · rw [differenceSorted_eq ha hb]
    refine ⟨ha.sublist List.filter_sublist, fun x => ?_⟩
    rw [List.mem_filter, decide_eq_true_eq]
  · rw [intersectInPlace_eq ha hb]
    refine ⟨ha.sublist List.filter_sublist, fun x => ?_⟩
    rw [List.mem_filter, decide_eq_true_eq]
  · exact (hs.invariant Narrowing.passes (Narrowing.inside_start a b)).toKept

theorem sorted_kernels_overlap :
    ∃ ids, intersectInPlaceIn 5 [1, 3, 4] [3, 4] = .done ids
      ∧ Ascending id ids ∧ ∀ x, x ∈ ids ↔ x ∈ [1, 3, 4] ∧ x ∈ [3, 4] :=
  (sorted_kernels (a := [1, 3, 4]) (b := [3, 4]) (by decide) (by decide)
    5 (by decide)).2.2.1

end Tsdb
