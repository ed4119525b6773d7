/-
The sorted id list kernels of the index (`storage/index.rs`):
`union_sorted`, `difference_sorted`, `intersect_in_place` and
`union_all`.

Each loop is the source's loop over two cursors; the in-place
intersection has a third cursor writing into the vector it reads, which
is modelled by updating the list at that index. Every subscript carries
its bound, so an out-of-range index cannot be written, and the measure
`(a.len() - i) + (b.len() - j)` is the termination argument.

# The closed forms

What a loop has still to do depends on the unread suffixes alone:
`differenceLoop` and `intersectLoop` equal what they have produced so far
followed by a filter of `a[i..]` against `b[j..]`. For the in-place loop
the two facts that make this true are that the write cursor never passes
the read cursor, so a write never touches `a[i..]`
(`List.drop_set_of_lt`), and that the produced prefix is read back only
by the final `truncate`.

The union has no closed form as short. Its invariant is stated instead:
the result so far ascends and lies below both suffixes, and with them it
has the members of both lists (`unionLoop_spec`). One step moves one
element from a suffix, or the same element from both, and the element is
smaller than what is left of either.

# The inductions

All three follow the recursion of the loop, with the cases of its
comparison: less, equal, greater, and the two in which one list is
exhausted. In each case the step drops elements from the front of a
suffix, and ascending order says what dropping them means for
membership behind (`lt_of_mem_drop`, `mem_drop_of_ne`).

`Tsdb.Storage.Kernels` states what the loops never do, and
`Tsdb.Storage.Resolve` uses the closed forms for the matchers.
-/
import Tsdb.Model

namespace Tsdb

open Lib (Ascending)

-- ============================================================= the loops

def unionLoop (a b : List SeriesId) (i j : Nat) (result : List SeriesId) :
    List SeriesId :=
  if h : i < a.length ∧ j < b.length then
    match compare a[i] b[j] with
    | .lt => unionLoop a b (i + 1) j (result ++ [a[i]])
    | .gt => unionLoop a b i (j + 1) (result ++ [b[j]])
    | .eq => unionLoop a b (i + 1) (j + 1) (result ++ [a[i]])
  else result ++ a.drop i ++ b.drop j
termination_by (a.length - i) + (b.length - j)

def unionSorted (a b : List SeriesId) : List SeriesId :=
  unionLoop a b 0 0 []

def differenceLoop (a b : List SeriesId) (i j : Nat)
    (result : List SeriesId) : List SeriesId :=
  if h : i < a.length ∧ j < b.length then
    match compare a[i] b[j] with
    | .lt => differenceLoop a b (i + 1) j (result ++ [a[i]])
    | .gt => differenceLoop a b i (j + 1) result
    | .eq => differenceLoop a b (i + 1) (j + 1) result
  else result ++ a.drop i
termination_by (a.length - i) + (b.length - j)

def differenceSorted (a b : List SeriesId) : List SeriesId :=
  differenceLoop a b 0 0 []

/-- `intersect_in_place` from cursors `(write, i, j)`; the vector `a` is
both read and written. -/
def intersectLoop (b : List SeriesId) (a : List SeriesId)
    (write i j : Nat) : List SeriesId :=
  if h : i < a.length ∧ j < b.length then
    match compare a[i] b[j] with
    | .lt => intersectLoop b a write (i + 1) j
    | .gt => intersectLoop b a write i (j + 1)
    | .eq => intersectLoop b (a.set write a[i]) (write + 1) (i + 1) (j + 1)
  else a.take write
termination_by (a.length - i) + (b.length - j)
decreasing_by all_goals (try rw [List.length_set]); omega

def intersectInPlace (a b : List SeriesId) : List SeriesId :=
  intersectLoop b a 0 0 0

/-- `union_all` over the values of a posting map, in the order the map
yields them. -/
def unionAll (values : List (List SeriesId)) : List SeriesId :=
  values.foldl unionSorted []

-- ===================================================== ascending suffixes

private theorem drop_cons {l : List SeriesId} {i : Nat} (h : i < l.length) :
    l.drop i = l[i] :: l.drop (i + 1) :=
  List.drop_eq_getElem_cons h

private theorem mem_drop_of_succ {l : List SeriesId} {i : Nat}
    (h : i < l.length) {x : SeriesId} (hx : x ∈ l.drop (i + 1)) :
    x ∈ l.drop i := by
  rw [drop_cons h]
  exact List.mem_cons_of_mem _ hx

/-- Behind position `i` of an ascending list everything is larger. -/
private theorem lt_of_mem_drop {l : List SeriesId} (hl : Ascending id l)
    {i : Nat} (h : i < l.length) {x : SeriesId}
    (hx : x ∈ l.drop (i + 1)) : l[i] < x := by
  have hd : Ascending id (l.drop i) := hl.sublist (List.drop_sublist _ _)
  rw [drop_cons h] at hd
  exact (List.pairwise_cons.mp hd).1 x hx

/-- What is below the head is below all that is left. -/
private theorem lt_of_lt_getElem {l : List SeriesId} (hl : Ascending id l)
    {j : Nat} (h : j < l.length) {x y : SeriesId} (hlt : x < l[j])
    (hy : y ∈ l.drop j) : x < y := by
  rw [drop_cons h] at hy
  rcases List.mem_cons.mp hy with rfl | hy
  · exact hlt
  · exact lt_trans hlt (lt_of_mem_drop hl h hy)

private theorem notMem_drop_of_lt {l : List SeriesId}
    (hl : Ascending id l) {j : Nat} (h : j < l.length) {x : SeriesId}
    (hx : x < l[j]) : x ∉ l.drop j :=
  fun hmem => lt_irrefl x (lt_of_lt_getElem hl h hx hmem)

/-- Past an element that is not `x`, the suffix answers alike. -/
private theorem mem_drop_of_ne {l : List SeriesId} {j : Nat}
    (h : j < l.length) {x : SeriesId} (hne : x ≠ l[j]) :
    x ∈ l.drop (j + 1) ↔ x ∈ l.drop j := by
  rw [drop_cons h, List.mem_cons, or_iff_right hne]

private theorem getElem_mem_drop {l : List SeriesId} {j : Nat}
    (h : j < l.length) : l[j] ∈ l.drop j := by
  rw [drop_cons h]
  exact List.mem_cons_self

-- ============================================================= the union

/-- One union step moves an element from the suffixes to the result: one that
is below all that is left of them. -/
private theorem move_spec {result as bs as' bs' : List SeriesId}
    {x : SeriesId} (hr : Ascending id result)
    (hbelow : ∀ r ∈ result, ∀ y, y ∈ as ∨ y ∈ bs → r < y)
    (hx : x ∈ as ∨ x ∈ bs) (has : ∀ y ∈ as', y ∈ as ∧ x < y)
    (hbs : ∀ y ∈ bs', y ∈ bs ∧ x < y) :
    Ascending id (result ++ [x])
      ∧ ∀ r ∈ result ++ [x], ∀ y, y ∈ as' ∨ y ∈ bs' → r < y := by
  constructor
  · refine List.pairwise_append.mpr
      ⟨hr, List.pairwise_singleton _ _, fun r hrr y hy => ?_⟩
    rw [List.mem_singleton.mp hy]
    exact hbelow r hrr x hx
  · intro r hrr y hy
    rcases List.mem_append.mp hrr with hrr | hrr
    · exact hbelow r hrr y (hy.imp (fun hy => (has y hy).1)
        fun hy => (hbs y hy).1)
    · rw [List.mem_singleton.mp hrr]
      exact hy.elim (fun hy => (has y hy).2) fun hy => (hbs y hy).2

/-- The invariant of the loop is that the result is ascending and lies below
both suffixes. The induction is the loop's own, and each of its first three
cases takes the smaller head, which is below all that is left; where one list
is at its end the other follows as it is. -/
private theorem unionLoop_spec {a b : List SeriesId}
    (ha : Ascending id a) (hb : Ascending id b) (i j : Nat)
    (result : List SeriesId) (hr : Ascending id result)
    (hbelow : ∀ r ∈ result, ∀ x, x ∈ a.drop i ∨ x ∈ b.drop j → r < x) :
    Ascending id (unionLoop a b i j result)
      ∧ ∀ x, x ∈ unionLoop a b i j result
        ↔ x ∈ result ∨ x ∈ a.drop i ∨ x ∈ b.drop j := by
  induction i, j, result using unionLoop.induct a b with
  | case1 i j result h hcmp ih =>
      have hlt : a[i] < b[j] := Nat.compare_eq_lt.mp hcmp
      obtain ⟨hr', hbelow'⟩ := move_spec hr hbelow
        (.inl (getElem_mem_drop h.1))
        (fun y hy => ⟨mem_drop_of_succ h.1 hy, lt_of_mem_drop ha h.1 hy⟩)
        (fun y hy => ⟨hy, lt_of_lt_getElem hb h.2 hlt hy⟩)
      obtain ⟨hasc, hmem⟩ := ih hr' hbelow'
      rw [unionLoop, dif_pos h, hcmp]
      refine ⟨hasc, fun x => (hmem x).trans ?_⟩
      rw [drop_cons h.1]
      simp only [List.mem_append, List.mem_cons, List.not_mem_nil, or_false]
      tauto
  | case2 i j result h hcmp ih =>
      have hlt : b[j] < a[i] := Nat.compare_eq_gt.mp hcmp
      obtain ⟨hr', hbelow'⟩ := move_spec hr hbelow
        (.inr (getElem_mem_drop h.2))
        (fun y hy => ⟨hy, lt_of_lt_getElem ha h.1 hlt hy⟩)
        (fun y hy => ⟨mem_drop_of_succ h.2 hy, lt_of_mem_drop hb h.2 hy⟩)
      obtain ⟨hasc, hmem⟩ := ih hr' hbelow'
      rw [unionLoop, dif_pos h, hcmp]
      refine ⟨hasc, fun x => (hmem x).trans ?_⟩
      rw [drop_cons h.2]
      simp only [List.mem_append, List.mem_cons, List.not_mem_nil, or_false]
      tauto
  | case3 i j result h hcmp ih =>
      have heq : a[i] = b[j] := Nat.compare_eq_eq.mp hcmp
      obtain ⟨hr', hbelow'⟩ := move_spec hr hbelow
        (.inl (getElem_mem_drop h.1))
        (fun y hy => ⟨mem_drop_of_succ h.1 hy, lt_of_mem_drop ha h.1 hy⟩)
        (fun y hy => ⟨mem_drop_of_succ h.2 hy,
          heq ▸ lt_of_mem_drop hb h.2 hy⟩)
      obtain ⟨hasc, hmem⟩ := ih hr' hbelow'
      rw [unionLoop, dif_pos h, hcmp]
      refine ⟨hasc, fun x => (hmem x).trans ?_⟩
      rw [drop_cons h.1, drop_cons h.2, ← heq]
      simp only [List.mem_append, List.mem_cons, List.not_mem_nil, or_false]
      tauto
  | case4 i j result h =>
      rw [unionLoop, dif_neg h]
      -- one of the suffixes is empty, so the other follows alone
      have hda : Ascending id (a.drop i) := ha.sublist (List.drop_sublist _ _)
      have hdb : Ascending id (b.drop j) := hb.sublist (List.drop_sublist _ _)
      refine ⟨?_, fun x => by simp only [List.mem_append, or_assoc]⟩
      refine List.pairwise_append.mpr
        ⟨List.pairwise_append.mpr ⟨hr, hda,
          fun r hrr x hx => hbelow r hrr x (Or.inl hx)⟩, hdb, ?_⟩
      intro x hx y hy
      rcases List.mem_append.mp hx with hx | hx
      · exact hbelow x hx y (Or.inr hy)
      · have hi := List.length_pos_of_mem hx
        have hj := List.length_pos_of_mem hy
        rw [List.length_drop] at hi hj
        exact absurd ⟨by omega, by omega⟩ h

/-- `union_sorted` returns the ascending list of the ids in either. -/
theorem unionSorted_spec {a b : List SeriesId} (ha : Ascending id a)
    (hb : Ascending id b) :
    Ascending id (unionSorted a b)
      ∧ ∀ x, x ∈ unionSorted a b ↔ x ∈ a ∨ x ∈ b := by
  obtain ⟨hasc, hmem⟩ := unionLoop_spec ha hb 0 0 [] List.Pairwise.nil
    (fun r hr => absurd hr (by simp))
  refine ⟨hasc, fun x => (hmem x).trans ?_⟩
  simp

/-- `union_all` returns the ascending list of the ids in any of the
lists, in whatever order the lists come. -/
theorem unionAll_spec {values : List (List SeriesId)}
    (h : ∀ ids ∈ values, Ascending id ids) :
    Ascending id (unionAll values)
      ∧ ∀ x, x ∈ unionAll values ↔ ∃ ids ∈ values, x ∈ ids := by
  suffices hgen : ∀ acc : List SeriesId, Ascending id acc →
      Ascending id (values.foldl unionSorted acc)
        ∧ ∀ x, x ∈ values.foldl unionSorted acc
          ↔ x ∈ acc ∨ ∃ ids ∈ values, x ∈ ids by
    simpa [unionAll] using hgen [] List.Pairwise.nil
  intro acc hacc
  induction values generalizing acc with
  | nil => exact ⟨hacc, by simp⟩
  | cons ids rest ih =>
      obtain ⟨hu, hum⟩ := unionSorted_spec hacc (h ids List.mem_cons_self)
      obtain ⟨hasc, hmem⟩ := ih (fun l hl => h l (List.mem_cons_of_mem _ hl))
        (unionSorted acc ids) hu
      refine ⟨hasc, fun x => (hmem x).trans ?_⟩
      rw [hum]
      simp only [List.exists_mem_cons_iff, or_assoc]

-- ======================================================== the difference

/-- What the loop of `difference_sorted` returns: what it has, and those of
the unread suffix of `a` that are not in the unread suffix of `b`. The
smaller of the two heads decides: that of `a` is in no `b` any more, that of
`b` is in no `a`. -/
private theorem differenceLoop_eq {a b : List SeriesId}
    (ha : Ascending id a) (hb : Ascending id b) (i j : Nat)
    (result : List SeriesId) :
    differenceLoop a b i j result
      = result ++ (a.drop i).filter (· ∉ b.drop j) := by
  induction i, j, result using differenceLoop.induct a b with
  | case1 i j result h hcmp ih =>
      -- the head of `a` is kept: no `b` is as small
      have hno := notMem_drop_of_lt hb h.2 (Nat.compare_eq_lt.mp hcmp)
      rw [differenceLoop, dif_pos h, hcmp, drop_cons h.1,
        List.filter_cons_of_pos (by simpa using hno)]
      simp [ih]
  | case2 i j result h hcmp ih =>
      have hlt : b[j] < a[i] := Nat.compare_eq_gt.mp hcmp
      rw [differenceLoop, dif_pos h, hcmp]
      simp only [ih]
      congr 1
      refine List.filter_congr fun x hx => ?_
      -- `b[j]` lies below the whole suffix of `a`
      have hne : x ≠ b[j] := ne_of_gt (lt_of_lt_getElem ha h.1 hlt hx)
      simp only [mem_drop_of_ne h.2 hne]
  | case3 i j result h hcmp ih =>
      have heq : a[i] = b[j] := Nat.compare_eq_eq.mp hcmp
      rw [differenceLoop, dif_pos h, hcmp, drop_cons h.1,
        List.filter_cons_of_neg (by
          rw [heq]
          simpa using getElem_mem_drop h.2)]
      simp only [ih]
      congr 1
      refine List.filter_congr fun x hx => ?_
      have hne : x ≠ b[j] := by
        rw [← heq]
        exact ne_of_gt (lt_of_mem_drop ha h.1 hx)
      simp only [mem_drop_of_ne h.2 hne]
  | case4 i j result h =>
      rw [differenceLoop, dif_neg h]
      congr 1
      -- one of the lists has been read to its end
      rcases not_and_or.mp h with hi | hj
      · rw [List.drop_eq_nil_of_le (Nat.not_lt.mp hi)]
        rfl
      · rw [List.drop_eq_nil_of_le (Nat.not_lt.mp hj)]
        simp

/-- `difference_sorted` keeps the ids of `a` that are not in `b`. -/
theorem differenceSorted_eq {a b : List SeriesId} (ha : Ascending id a)
    (hb : Ascending id b) :
    differenceSorted a b = a.filter (· ∉ b) := by
  rw [differenceSorted, differenceLoop_eq ha hb]
  simp

-- ====================================================== the intersection

/-- The in-place loop: what it has written, then the unread suffix of `a`
filtered by membership in the unread suffix of `b`. The write cursor
stays at or behind the read cursor. -/
private theorem intersectLoop_eq {b : List SeriesId}
    (hb : Ascending id b) (a : List SeriesId) (write i j : Nat)
    (ha : Ascending id (a.drop i)) (hw : write ≤ i) :
    intersectLoop b a write i j
      = a.take write ++ (a.drop i).filter (· ∈ b.drop j) := by
  induction a, write, i, j using intersectLoop.induct b with
  | case1 a write i j h hcmp ih =>
      have hno := notMem_drop_of_lt hb h.2 (Nat.compare_eq_lt.mp hcmp)
      have ha' : Ascending id (a.drop (i + 1)) := by
        rw [drop_cons h.1] at ha
        exact (List.pairwise_cons.mp ha).2
      rw [intersectLoop, dif_pos h, hcmp, drop_cons h.1,
        List.filter_cons_of_neg (by simpa using hno)]
      exact ih ha' (by omega)
  | case2 a write i j h hcmp ih =>
      have hlt : b[j] < a[i] := Nat.compare_eq_gt.mp hcmp
      rw [intersectLoop, dif_pos h, hcmp]
      simp only [ih ha hw]
      congr 1
      refine List.filter_congr fun x hx => ?_
      have hne : x ≠ b[j] := by
        rw [drop_cons h.1] at hx ha
        rcases List.mem_cons.mp hx with rfl | hx
        · exact ne_of_gt hlt
        · exact ne_of_gt (lt_trans hlt ((List.pairwise_cons.mp ha).1 x hx))
      simp only [mem_drop_of_ne h.2 hne]
  | case3 a write i j h hcmp ih =>
      have heq : a[i] = b[j] := Nat.compare_eq_eq.mp hcmp
      have hda := drop_cons h.1
      have hset : (a.set write a[i]).drop (i + 1) = a.drop (i + 1) :=
        List.drop_set_of_lt (by omega)
      have htake : (a.set write a[i]).take (write + 1)
          = a.take write ++ [a[i]] := by
        have hlen : write < (a.set write a[i]).length := by
          rw [List.length_set]
          omega
        rw [List.take_succ_eq_append_getElem hlen, List.take_set_of_le (Nat.le_refl _),
          List.getElem_set_self]
      have ha' : Ascending id (a.drop (i + 1)) := by
        rw [hda] at ha
        exact (List.pairwise_cons.mp ha).2
      rw [intersectLoop, dif_pos h, hcmp]
      simp only
      rw [ih (by rw [hset]; exact ha') (by omega), htake, hset, hda,
        List.filter_cons_of_pos (by
          rw [heq]
          simpa using getElem_mem_drop h.2),
        List.append_assoc, List.singleton_append]
      congr 2
      refine List.filter_congr fun x hx => ?_
      have hne : x ≠ b[j] := by
        rw [hda] at ha
        rw [← heq]
        exact ne_of_gt ((List.pairwise_cons.mp ha).1 x hx)
      simp only [mem_drop_of_ne h.2 hne]
  | case4 a write i j h =>
      rw [intersectLoop, dif_neg h]
      have hnil : (a.drop i).filter (· ∈ b.drop j) = [] := by
        rcases not_and_or.mp h with hi | hj
        · rw [List.drop_eq_nil_of_le (Nat.not_lt.mp hi)]
          rfl
        · rw [List.drop_eq_nil_of_le (Nat.not_lt.mp hj)]
          simp
      rw [hnil, List.append_nil]

/-- `intersect_in_place` keeps the ids of `a` that are in `b`. -/
theorem intersectInPlace_eq {a b : List SeriesId} (ha : Ascending id a)
    (hb : Ascending id b) :
    intersectInPlace a b = a.filter (· ∈ b) := by
  rw [intersectInPlace, intersectLoop_eq hb a 0 0 0 (by simpa using ha)
    (Nat.le_refl 0)]
  simp

end Tsdb
