/-
Lists ascending in a key, over any linear order: the shape every
append-only time series keeps, and the shape a two-pointer merge
consumes.

# The cuts

In an ascending list a threshold predicate is true on a prefix and false
on the rest, so a cut at the first failure is a filter
(`takeWhile_eq_filter`, `dropWhile_eq_filter`): behind a failure
everything fails (`all_fail`), which is the one induction of this half. A
binary search for a partition point returns the length of that prefix,
and the window between two such cuts is the filter for both conditions
(`window_eq_filter`), also where they cross.

# The greedy subsequence

`extend key acc xs` walks `xs` and keeps each element whose key is
strictly above the last one kept. What is kept depends on `acc` only
through its last key (`extend_eq_append`), so an accumulator may be moved
elsewhere as long as its last key stays; and an element at or below the
last key is a no-op (`extend_stale`), so replaying what is already there
changes nothing. The mark only rises (`newest_extend_le`), hence what is
stale once stays so (`Stale.extend`), and what a run has been through is
stale for it (`stale_extend_self`).

The two together are what a log that is replayed over stored data needs:
the first says where a record may be, the second that it may come twice.
All inductions go along the list that is walked, with the accumulator
general.
-/
import Mathlib.Order.Basic
import Mathlib.Order.Bounds.Basic
import Mathlib.Order.Lattice
import Mathlib.Data.List.Basic
import Mathlib.Data.List.Sort
import Mathlib.Data.List.TakeWhile

/-- Machine words under their unsigned order. -/
instance UInt64.linearOrder : LinearOrder UInt64 where
  le_refl := UInt64.le_refl
  le_trans _ _ _ := UInt64.le_trans
  le_antisymm _ _ := UInt64.le_antisymm
  le_total := UInt64.le_total
  lt_iff_le_not_ge a b := by
    simp only [UInt64.le_iff_toNat_le, UInt64.lt_iff_toNat_lt]
    omega
  toDecidableLE := inferInstance
  toDecidableEq := inferInstance
  toDecidableLT := inferInstance

namespace Lib

variable {α τ : Type} [LinearOrder τ] (key : α → τ)

-- ============================================================== the cuts

/-- Strictly ascending in the key. -/
def Ascending (xs : List α) : Prop := xs.Pairwise (key · < key ·)

instance (xs : List α) : Decidable (Ascending key xs) :=
  inferInstanceAs (Decidable (List.Pairwise _ _))

/-- A predicate that never becomes true again once it has failed. -/
def DownClosed (p : α → Bool) : Prop :=
  ∀ a b, key a < key b → p b = true → p a = true

variable {key}

theorem Ascending.sublist {xs ys : List α} (h : Ascending key ys)
    (hs : xs.Sublist ys) : Ascending key xs :=
  List.Pairwise.sublist hs h

/-- Sorted by keys that differ, a list is strictly ascending. -/
theorem ascending_mergeSort {xs : List α} (h : (xs.map key).Nodup) :
    Ascending key (xs.mergeSort fun a b => key a ≤ key b) := by
  have htrans : ∀ a b c : α, decide (key a ≤ key b) = true →
      decide (key b ≤ key c) = true → decide (key a ≤ key c) = true := by
    intro a b c hab hbc
    exact decide_eq_true
      (le_trans (of_decide_eq_true hab) (of_decide_eq_true hbc))
  have htotal : ∀ a b : α,
      (decide (key a ≤ key b) || decide (key b ≤ key a)) = true := by
    intro a b
    rw [Bool.or_eq_true, decide_eq_true_eq, decide_eq_true_eq]
    exact le_total (key a) (key b)
  have hsorted := List.pairwise_mergeSort htrans htotal xs
  have hle := hsorted.imp (S := fun a b => key a ≤ key b) of_decide_eq_true
  have hne : (xs.mergeSort fun a b => key a ≤ key b).Pairwise
      fun a b => key a ≠ key b :=
    List.pairwise_map.mp
      (((List.mergeSort_perm xs _).map key).nodup_iff.mpr h)
  exact hle.imp₂ (fun _ _ => lt_of_le_of_ne) hne

/-- Behind a failure of a down-closed predicate everything fails. -/
theorem Ascending.all_fail {p : α → Bool} (hp : DownClosed key p) {a : α}
    {xs : List α} (h : Ascending key (a :: xs)) (ha : p a = false) :
    ∀ b ∈ xs, p b = false := by
  intro b hb
  have hab : key a < key b := (List.pairwise_cons.mp h).1 b hb
  by_contra hpb
  have := hp a b hab (by simpa using hpb)
  rw [ha] at this
  cases this

/-- A cut at the first failure keeps exactly what satisfies the
predicate. -/
theorem Ascending.takeWhile_eq_filter {p : α → Bool}
    (hp : DownClosed key p) :
    ∀ {xs : List α}, Ascending key xs → xs.takeWhile p = xs.filter p
  | [], _ => rfl
  | a :: xs, h => by
      cases ha : p a with
      | false =>
          have hall := h.all_fail hp ha
          rw [List.takeWhile_cons_of_neg (by simp [ha]),
            List.filter_cons_of_neg (by simp [ha]),
            List.filter_eq_nil_iff.mpr]
          intro b hb
          simp [hall b hb]
      | true =>
          have ih := takeWhile_eq_filter hp (List.pairwise_cons.mp h).2
          rw [List.takeWhile_cons_of_pos ha, List.filter_cons_of_pos ha, ih]

/-- And drops exactly what satisfies it. -/
theorem Ascending.dropWhile_eq_filter {p : α → Bool}
    (hp : DownClosed key p) :
    ∀ {xs : List α}, Ascending key xs →
      xs.dropWhile p = xs.filter (fun a => !p a)
  | [], _ => rfl
  | a :: xs, h => by
      cases ha : p a with
      | false =>
          have hall := h.all_fail hp ha
          rw [List.dropWhile_cons_of_neg (by simp [ha]),
            List.filter_cons_of_pos (by simp [ha]),
            List.filter_eq_self.mpr]
          intro b hb
          simp [hall b hb]
      | true =>
          have ih := dropWhile_eq_filter hp (List.pairwise_cons.mp h).2
          rw [List.dropWhile_cons_of_pos ha,
            List.filter_cons_of_neg (by simp [ha]), ih]

/-- The element at the cut is the first one behind it. -/
theorem getElem?_takeWhile_length (p : α → Bool) (xs : List α) :
    xs[(xs.takeWhile p).length]? = (xs.dropWhile p).head? := by
  induction xs with
  | nil => rfl
  | cons a xs ih =>
      cases ha : p a with
      | false => simp [ha]
      | true => simpa [List.takeWhile_cons, List.dropWhile_cons, ha] using ih

/-- The window between two cuts, empty when they cross, is the filter for
"past the first and not past the second". What `q` holds of is in front, so
dropping it is a filter, and of the rest what `p` holds of is in front
again. If the cuts cross, something is past the second and not past the
first, and so is all behind it. -/
theorem Ascending.window_eq_filter {p q : α → Bool}
    (hp : DownClosed key p) (hq : DownClosed key q) {xs : List α}
    (h : Ascending key xs) :
    (xs.take (max (xs.takeWhile p).length (xs.takeWhile q).length)).drop
        (xs.takeWhile q).length
      = xs.filter (fun a => !q a && p a) := by
  have hdrop : xs.drop (xs.takeWhile q).length = xs.dropWhile q := by
    have hs := List.takeWhile_append_dropWhile (p := q) (l := xs)
    calc xs.drop (xs.takeWhile q).length
        = (xs.takeWhile q ++ xs.dropWhile q).drop (xs.takeWhile q).length := by
          rw [hs]
      _ = xs.dropWhile q := List.drop_left
  have hasc : Ascending key (xs.dropWhile q) :=
    h.sublist (List.dropWhile_sublist _)
  rw [List.drop_take, hdrop]
  have hfilter : xs.filter (fun a => !q a && p a)
      = (xs.dropWhile q).filter p := by
    rw [h.dropWhile_eq_filter hq, List.filter_filter]
    exact List.filter_congr fun a _ => Bool.and_comm _ _
  rw [hfilter]
  by_cases hall : ∀ a ∈ xs.takeWhile q, p a = true
  · -- the first cut lies before the second
    have hlen : (xs.takeWhile p).length
        = (xs.takeWhile q).length + ((xs.dropWhile q).takeWhile p).length := by
      conv_lhs => rw [← List.takeWhile_append_dropWhile (p := q) (l := xs)]
      rw [List.takeWhile_append_of_pos hall, List.length_append]
    rw [hlen, Nat.max_eq_left (by omega), Nat.add_sub_cancel_left,
      ← hasc.takeWhile_eq_filter hp]
    exact (List.prefix_iff_eq_take.mp (List.takeWhile_prefix p)).symm
  · -- something before the first cut is past the second: no window
    simp only [not_forall, Bool.not_eq_true] at hall
    obtain ⟨a, ha, hpa⟩ := hall
    have hnone : (xs.dropWhile q).filter p = [] := by
      refine List.filter_eq_nil_iff.mpr fun b hb => ?_
      have hab : key a < key b := by
        have hs := List.takeWhile_append_dropWhile (p := q) (l := xs)
        have hpw : Ascending key (xs.takeWhile q ++ xs.dropWhile q) := by
          rw [hs]
          exact h
        exact (List.pairwise_append.mp hpw).2.2 a ha b hb
      intro hpb
      rw [hp a b hab hpb] at hpa
      cases hpa
    have hle : (xs.takeWhile p).length ≤ (xs.takeWhile q).length := by
      by_contra hlt
      have hpre : xs.takeWhile q <+: xs.takeWhile p :=
        List.prefix_of_prefix_length_le (List.takeWhile_prefix q)
          (List.takeWhile_prefix p) (by omega)
      have := List.mem_takeWhile_imp (hpre.subset ha)
      rw [hpa] at this
      cases this
    rw [hnone, Nat.max_eq_right hle, Nat.sub_self, List.take_zero]

/-- Two ascending lists with the same members are the same list. -/
theorem Ascending.ext {xs ys : List τ} (hx : Ascending id xs)
    (hy : Ascending id ys) (h : ∀ a, a ∈ xs ↔ a ∈ ys) : xs = ys :=
  List.Pairwise.eq_of_mem_iff hx hy h

-- ================================================ the greedy subsequence

variable (key)

/-- The last key of a list. -/
def newest (xs : List α) : Option τ := xs.getLast?.map key

/-- Is `a` strictly above the mark? -/
def above (n : Option τ) (a : α) : Bool := n.all (· < key a)

/-- One greedy step: keep `a` if it is above everything kept so far. -/
def push (acc : List α) (a : α) : List α :=
  if above key (newest key acc) a then acc ++ [a] else acc

/-- The greedy run over `xs`, starting from what `acc` holds. -/
def extend (acc xs : List α) : List α := xs.foldl (push key) acc

/-- What a greedy run keeps when the last key so far is `n`. -/
def kept : Option τ → List α → List α
  | _, [] => []
  | n, a :: xs =>
      if above key n a then a :: kept (some (key a)) xs else kept n xs

/-- `xs` holds nothing above the mark. -/
def Stale (n : Option τ) (xs : List α) : Prop :=
  ∀ a ∈ xs, above key n a = false

omit [LinearOrder τ] in
@[simp] theorem newest_nil : newest key ([] : List α) = none := rfl

omit [LinearOrder τ] in
@[simp] theorem newest_concat (xs : List α) (a : α) :
    newest key (xs ++ [a]) = some (key a) := by
  simp [newest]

@[simp] theorem extend_nil (acc : List α) : extend key acc [] = acc := rfl

@[simp] theorem extend_cons (acc : List α) (a : α) (xs : List α) :
    extend key acc (a :: xs) = extend key (push key acc a) xs := rfl

theorem extend_append (acc xs ys : List α) :
    extend key acc (xs ++ ys) = extend key (extend key acc xs) ys :=
  List.foldl_append

/-- A greedy run only appends, and what it appends is fixed by the last
key it starts from. -/
theorem extend_eq_append (acc xs : List α) :
    extend key acc xs = acc ++ kept key (newest key acc) xs := by
  induction xs generalizing acc with
  | nil => simp [kept]
  | cons a xs ih =>
      rw [extend_cons, ih, push, kept]
      by_cases ha : above key (newest key acc) a = true
      · rw [if_pos ha, if_pos ha, newest_concat, List.append_assoc]
        rfl
      · rw [if_neg ha, if_neg ha]

/-- Elements at or below the mark change nothing. -/
theorem extend_stale {acc xs : List α}
    (h : Stale key (newest key acc) xs) : extend key acc xs = acc := by
  induction xs with
  | nil => rfl
  | cons a xs ih =>
      have ha : ¬above key (newest key acc) a = true := by
        simp [h a List.mem_cons_self]
      rw [extend_cons, push, if_neg ha]
      exact ih fun b hb => h b (List.mem_cons_of_mem _ hb)

/-- Behind a nonempty run there is something. -/
theorem extend_ne_nil (acc : List α) {xs : List α} (h : xs ≠ []) :
    extend key acc xs ≠ [] := by
  rw [extend_eq_append]
  cases acc with
  | cons a acc => simp
  | nil =>
      cases xs with
      | nil => exact absurd rfl h
      | cons a xs => simp [kept, above]

variable {key}

/-- In an ascending list every key is at most the last one. -/
theorem Ascending.le_newest {xs : List α} (h : Ascending key xs) :
    ∀ a ∈ xs, ∃ n, newest key xs = some n ∧ key a ≤ n := by
  intro a ha
  obtain ⟨l, hl⟩ : ∃ l, xs.getLast? = some l :=
    Option.isSome_iff_exists.mp (by
      rw [List.getLast?_isSome]
      exact List.ne_nil_of_mem ha)
  refine ⟨key l, by simp [newest, hl], ?_⟩
  obtain ⟨ys, rfl⟩ := List.getLast?_eq_some_iff.mp hl
  rcases List.mem_append.mp ha with hy | hy
  · exact le_of_lt ((List.pairwise_append.mp h).2.2 a hy l (by simp))
  · rw [List.mem_singleton.mp hy]

/-- In an ascending list the first key is the least. -/
theorem Ascending.head_eq_iff {xs : List α} (h : Ascending key xs) {t : τ} :
    xs.head?.map key = some t ↔ IsLeast {t | ∃ x ∈ xs, key x = t} t := by
  cases xs with
  | nil =>
      constructor
      · nofun
      · intro hleast
        obtain ⟨x, hx, -⟩ := hleast.1
        cases hx
  | cons a rest =>
      have hmin : IsLeast {t | ∃ x ∈ a :: rest, key x = t} (key a) := by
        refine ⟨⟨a, List.mem_cons_self, rfl⟩, fun t ht => ?_⟩
        obtain ⟨x, hx, rfl⟩ := ht
        rcases List.mem_cons.mp hx with rfl | hx
        · exact le_refl _
        · exact le_of_lt ((List.pairwise_cons.mp h).1 x hx)
      rw [List.head?_cons, Option.map_some, Option.some.injEq]
      constructor
      · rintro rfl
        exact hmin
      · exact hmin.unique

/-- And the last is the greatest. -/
theorem Ascending.newest_eq_iff {xs : List α} (h : Ascending key xs) {t : τ} :
    newest key xs = some t ↔ IsGreatest {t | ∃ x ∈ xs, key x = t} t := by
  have hmax : ∀ t, newest key xs = some t →
      IsGreatest {t | ∃ x ∈ xs, key x = t} t := by
    intro t ht
    obtain ⟨x, hx, rfl⟩ := Option.map_eq_some_iff.mp ht
    refine ⟨⟨x, List.mem_of_getLast? hx, rfl⟩, fun t' ht' => ?_⟩
    obtain ⟨y, hy, rfl⟩ := ht'
    obtain ⟨n, hn, hle⟩ := h.le_newest y hy
    rw [ht, Option.some.injEq] at hn
    rw [hn]
    exact hle
  refine ⟨hmax t, fun hgreatest => ?_⟩
  obtain ⟨x, hx, -⟩ := hgreatest.1
  obtain ⟨n, hn, -⟩ := h.le_newest x hx
  rw [hn, (hmax n hn).unique hgreatest]

/-- An ascending list continued above its last key is ascending. -/
theorem Ascending.concat {xs : List α} {a : α} (h : Ascending key xs)
    (ha : above key (newest key xs) a = true) :
    Ascending key (xs ++ [a]) := by
  refine List.pairwise_append.mpr ⟨h, List.pairwise_singleton _ _, ?_⟩
  intro b hb c hc
  rw [List.mem_singleton.mp hc]
  obtain ⟨n, hn, hbn⟩ := h.le_newest b hb
  rw [hn] at ha
  simp only [above, Option.all_some, decide_eq_true_eq] at ha
  exact lt_of_le_of_lt hbn ha

theorem Ascending.push {acc : List α} (h : Ascending key acc) (a : α) :
    Ascending key (push key acc a) := by
  unfold Lib.push
  split
  · exact h.concat ‹_›
  · exact h

/-- A greedy run keeps its accumulator ascending. -/
theorem Ascending.extend {acc : List α} (h : Ascending key acc)
    (xs : List α) : Ascending key (extend key acc xs) := by
  induction xs generalizing acc with
  | nil => exact h
  | cons a xs ih => exact ih (h.push a)

/-- The mark of a greedy run never falls. -/
theorem newest_push_le {acc : List α} (a : α) :
    ∀ k ∈ newest key acc, ∃ m ∈ newest key (push key acc a), k ≤ m := by
  intro k hk
  unfold push
  split
  · rename_i ha
    refine ⟨key a, by simp, ?_⟩
    rw [Option.mem_def.mp hk] at ha
    simp only [above, Option.all_some, decide_eq_true_eq] at ha
    exact le_of_lt ha
  · exact ⟨k, hk, le_refl k⟩

theorem newest_extend_le (acc xs : List α) :
    ∀ k ∈ newest key acc, ∃ m ∈ newest key (extend key acc xs), k ≤ m := by
  induction xs generalizing acc with
  | nil => exact fun k hk => ⟨k, hk, le_refl k⟩
  | cons a xs ih =>
      intro k hk
      obtain ⟨m, hm, hkm⟩ := newest_push_le a k hk
      obtain ⟨m', hm', hmm⟩ := ih _ m hm
      exact ⟨m', hm', le_trans hkm hmm⟩

/-- Stale stays stale while the accumulator grows. -/
theorem Stale.extend {acc xs : List α}
    (h : Stale key (newest key acc) xs) (ys : List α) :
    Stale key (newest key (extend key acc ys)) xs := by
  intro a ha
  have hold := h a ha
  cases hn : newest key acc with
  | none => simp [hn, above] at hold
  | some n =>
      rw [hn] at hold
      obtain ⟨m, hm, hnm⟩ := newest_extend_le acc ys n hn
      rw [Option.mem_def.mp hm]
      simp only [above, Option.all_some, decide_eq_false_iff_not, not_lt]
        at hold ⊢
      exact le_trans hold hnm

/-- What a run has been through is stale for it, kept or not. -/
theorem stale_extend_self (acc xs : List α) :
    Stale key (newest key (extend key acc xs)) xs := by
  induction xs generalizing acc with
  | nil => exact fun a ha => absurd ha (by simp)
  | cons a xs ih =>
      intro b hb
      rcases List.mem_cons.mp hb with rfl | hb
      · have hstep : Stale key (newest key (push key acc b)) [b] := by
          intro c hc
          rw [List.mem_singleton.mp hc]
          unfold push
          split
          · simp [above]
          · rename_i hno
            simpa using hno
        exact hstep.extend xs b (by simp)
      · exact ih _ b hb

end Lib
