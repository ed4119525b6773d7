/-
A label set is a finite map from names to values (`LabelSet` of
`model.rs`), and its vector is a canonical form of it.

`from_labels` sorts, stably, and keeps the last of each run; `insert_label`
searches, and overwrites or inserts. Either way a name ends up with the
last value it was given (`get_fromLabels`, `get_insertLabel`) and the names
ascend, and there is one ascending vector for a map (`Canonical.ext`). So
the two agree, whatever the order and the repetitions
(`labelSet_finite_map`).

# The two constructions

`insert_label` first. On a canonical vector the binary search cuts the
labels in front of the first name that is not smaller
(`Canonical.cut`), and whatever the search finds there, the result is
the smaller names, the label, and the larger names (`insertLabel_eq`).
Order and values are read off that one form.

`from_labels` has two halves. The sort is stable, and stability is used
in one shape only: filtering by a name commutes with it
(`filter_mergeSort`), so the labels of one name keep their order. Behind
the sort equal names are neighbours, and `dedup_by` keeps of each run the
one that came last (`dedupAfter_spec`, by induction on the list, with
the retained element as a parameter, as the source's closure has it).

# Together

Both constructions give each name `lastValue` of the labels, and both
give a canonical vector. Two canonical vectors that answer every `get`
alike are equal (`Canonical.ext`): their heads are the smallest names, so
the heads agree, and the induction goes on behind them. Hence
`from_labels` is a fold of `insert_label` (`get_fromLabels` against
`get_insertLabel`), and no order or repetition of the input matters
beyond the last value of each name.
-/
import Mathlib.Data.List.Induction
import Tsdb.Model

namespace Tsdb

open Lib (Ascending)

namespace LabelSet

variable {ls : LabelSet} {labels : List Label} {l : Label} {name v : String}

/-- The value of the last label with the name. -/
def lastValue (labels : List Label) (name : String) : Option String :=
  (labels.filter (·.name = name)).getLast?.map Label.value

theorem lastValue_concat (labels : List Label) (l : Label) (name : String) :
    lastValue (labels ++ [l]) name
      = if l.name = name then some l.value else lastValue labels name := by
  unfold lastValue
  rw [List.filter_append]
  by_cases h : l.name = name
  · simp [h]
  · simp [h]

-- ============================================================== as a map

/-- Label sets that give each name the same value are the same. -/
theorem Canonical.ext {s t : LabelSet} (hs : s.Canonical) (ht : t.Canonical)
    (h : ∀ name, s.get name = t.get name) : s = t := by
  have hmem : ∀ l : Label, l ∈ s.labels ↔ l ∈ t.labels := by
    intro l
    obtain ⟨name, v⟩ := l
    rw [← get_eq_some hs, ← get_eq_some ht, h]
  have hperm : s.labels.Perm t.labels :=
    (List.perm_ext_iff_of_nodup hs.nodup ht.nodup).mpr hmem
  have heq : s.labels = t.labels :=
    hperm.eq_of_pairwise (fun _ _ _ _ hab hba => absurd hba (lt_asymm hab))
      hs ht
  cases s
  cases t
  exact congrArg LabelSet.mk heq

-- ========================================================== `insert_label`

/-- The search cuts the labels in front of the first name that is not
smaller. -/
theorem Canonical.cut (h : ls.Canonical) (name : String) :
    ∃ front back, ls.labels = front ++ back
      ∧ (∀ b ∈ front, b.name < name) ∧ (∀ b ∈ back, name ≤ b.name)
      ∧ binarySearch ls.labels name
        = if back.head?.any (·.name = name) then .ok front.length
          else .error front.length := by
  refine ⟨ls.labels.takeWhile (·.name < name),
    ls.labels.dropWhile (·.name < name),
    List.takeWhile_append_dropWhile.symm, ?_, ?_, ?_⟩
  · intro b hb
    have hlt := List.mem_takeWhile_imp hb
    exact of_decide_eq_true hlt
  · have hasc : Ascending Label.name (ls.labels.dropWhile (·.name < name)) :=
      Ascending.sublist h (List.dropWhile_sublist _)
    have hhead := List.head?_dropWhile_not
      (fun l : Label => decide (l.name < name)) ls.labels
    cases hback : ls.labels.dropWhile (·.name < name) with
    | nil =>
        intro b hb
        cases hb
    | cons a rest =>
        rw [hback] at hasc hhead
        have ha : name ≤ a.name := not_lt.mp (of_decide_eq_false hhead)
        intro b hb
        rcases List.mem_cons.mp hb with rfl | hb
        · exact ha
        · exact le_trans ha (le_of_lt ((List.pairwise_cons.mp hasc).1 b hb))
  · simp only [binarySearch, Lib.getElem?_takeWhile_length]

/-- Insertion behind a prefix. -/
private theorem insertIdx_append (front back : List Label) (l : Label) :
    (front ++ back).insertIdx front.length l = front ++ l :: back := by
  induction front with
  | nil => rfl
  | cons a front ih =>
      rw [List.cons_append, List.length_cons, List.insertIdx_succ_cons, ih]
      rfl

/-- The label goes between the smaller names and the larger ones. The search
cuts the labels at the first name not below; whether the element there is
replaced or pushed back is whether it has the name, and in either case what
is behind it has a larger one. -/
theorem insertLabel_eq (h : ls.Canonical) (l : Label) :
    (ls.insertLabel l).labels
      = ls.labels.filter (·.name < l.name)
        ++ l :: ls.labels.filter (l.name < ·.name) := by
  obtain ⟨front, back, hcut, hfront, hback, hsearch⟩ := h.cut l.name
  have hasc : Ascending Label.name back :=
    Ascending.sublist h (hcut ▸ List.sublist_append_right front back)
  have hsmaller : ls.labels.filter (·.name < l.name) = front := by
    rw [hcut, List.filter_append, List.filter_eq_self.mpr,
      List.filter_eq_nil_iff.mpr, List.append_nil]
    · intro b hb hlt
      exact absurd (of_decide_eq_true hlt) (not_lt.mpr (hback b hb))
    · intro b hb
      exact decide_eq_true (hfront b hb)
  have hlarger : ls.labels.filter (l.name < ·.name)
      = back.filter (l.name < ·.name) := by
    rw [hcut, List.filter_append, List.filter_eq_nil_iff.mpr, List.nil_append]
    intro b hb hlt
    exact lt_asymm (hfront b hb) (of_decide_eq_true hlt)
  rw [hsmaller, hlarger, insertLabel, hsearch]
  cases back with
  | nil =>
      show (ls.labels.insertIdx front.length l) = front ++ [l]
      rw [hcut, List.append_nil]
      exact List.insertIdx_length_self
  | cons a rest =>
      have hrest : rest.filter (l.name < ·.name) = rest := by
        refine List.filter_eq_self.mpr fun b hb => ?_
        rw [decide_eq_true_eq]
        exact lt_of_le_of_lt (hback a List.mem_cons_self)
          ((List.pairwise_cons.mp hasc).1 b hb)
      by_cases ha : a.name = l.name
      · have hat : ls.labels[front.length]? = some a := by
          rw [hcut, List.getElem?_append_right (Nat.le_refl _), Nat.sub_self]
          rfl
        rw [List.filter_cons_of_neg (by simp [ha]), hrest]
        simp only [List.head?_cons, Option.any_some, ha, decide_true, if_true]
        split
        · rename_i hsame
          rw [hat, Option.some.injEq] at hsame
          rw [hcut, hsame]
        · show ls.labels.set front.length l = front ++ l :: rest
          rw [hcut, List.set_append_right _ _ (Nat.le_refl _), Nat.sub_self]
          rfl
      · have hlt : l.name < a.name :=
          lt_of_le_of_ne (hback a List.mem_cons_self) (Ne.symm ha)
        rw [List.filter_cons_of_pos (by simpa using hlt), hrest]
        simp only [List.head?_cons, Option.any_some, ha, decide_false,
          Bool.false_eq_true, if_false]
        rw [hcut, insertIdx_append]

theorem canonical_insertLabel (h : ls.Canonical) (l : Label) :
    (ls.insertLabel l).Canonical := by
  unfold Canonical Ascending
  rw [insertLabel_eq h l]
  refine List.pairwise_append.mpr ⟨Ascending.sublist h List.filter_sublist,
    List.pairwise_cons.mpr ⟨fun b hb => ?_,
      Ascending.sublist h List.filter_sublist⟩, fun a ha b hb => ?_⟩
  · rw [List.mem_filter, decide_eq_true_eq] at hb
    exact hb.2
  · rw [List.mem_filter, decide_eq_true_eq] at ha
    rw [List.mem_cons, List.mem_filter, decide_eq_true_eq] at hb
    rcases hb with rfl | hb
    · exact ha.2
    · exact lt_trans ha.2 hb.2

/-- The name has the value then, and the others have theirs. -/
theorem get_insertLabel (h : ls.Canonical) (l : Label) (name : String) :
    (ls.insertLabel l).get name
      = if l.name = name then some l.value else ls.get name := by
  refine Option.ext fun v => ?_
  rw [get_eq_some (canonical_insertLabel h l), insertLabel_eq h l,
    List.mem_append, List.mem_cons, List.mem_filter, List.mem_filter]
  by_cases hname : l.name = name
  · rw [if_pos hname, Option.some.injEq]
    subst hname
    constructor
    · intro hin
      rcases hin with hin | hin | hin
      · simp at hin
      · rw [← hin]
      · simp at hin
    · intro hv
      exact .inr (.inl (by rw [← hv]))
  · rw [if_neg hname, get_eq_some h]
    constructor
    · intro hin
      rcases hin with hin | hin | hin
      · exact hin.1
      · exact absurd (congrArg Label.name hin).symm hname
      · exact hin.1
    · intro hin
      rcases lt_or_gt_of_ne hname with hlt | hgt
      · exact .inr (.inr ⟨hin, by simpa using hlt⟩)
      · exact .inl ⟨hin, by simpa using hgt⟩

-- ============================================================ `from_labels`

private theorem le_name_trans (a b c : Label)
    (hab : decide (a.name ≤ b.name) = true)
    (hbc : decide (b.name ≤ c.name) = true) :
    decide (a.name ≤ c.name) = true :=
  decide_eq_true (le_trans (of_decide_eq_true hab) (of_decide_eq_true hbc))

private theorem le_name_total (a b : Label) :
    (decide (a.name ≤ b.name) || decide (b.name ≤ a.name)) = true := by
  rw [Bool.or_eq_true, decide_eq_true_eq, decide_eq_true_eq]
  exact le_total _ _

/-- A stable sort keeps the labels of one name in their order. -/
theorem filter_mergeSort (labels : List Label) (name : String) :
    (labels.mergeSort (fun a b => a.name ≤ b.name)).filter (·.name = name)
      = labels.filter (·.name = name) := by
  have hsame : (labels.filter (·.name = name)).Pairwise
      fun a b => decide (a.name ≤ b.name) = true := by
    refine List.pairwise_of_forall_mem_list fun a ha b hb => ?_
    rw [List.mem_filter, decide_eq_true_eq] at ha hb
    rw [decide_eq_true_eq, ha.2, hb.2]
  have hsub := (List.sublist_mergeSort le_name_trans le_name_total hsame
    List.filter_sublist).filter fun l : Label => decide (l.name = name)
  rw [List.filter_filter] at hsub
  simp only [Bool.and_self] at hsub
  refine (hsub.eq_of_length ?_).symm
  exact ((List.mergeSort_perm labels _).filter _).length_eq.symm

private theorem mem_dedupAfter (kept : Label) (rest : List Label) :
    ∀ l ∈ dedupAfter kept rest, l = kept ∨ l ∈ rest := by
  induction rest generalizing kept with
  | nil =>
      intro l hl
      exact .inl (List.mem_singleton.mp hl)
  | cons a rest ih =>
      intro l hl
      rw [dedupAfter] at hl
      split at hl
      · exact .inr (List.mem_cons.mpr (ih a l hl))
      · rcases List.mem_cons.mp hl with rfl | hl
        · exact .inl rfl
        · exact .inr (List.mem_cons.mpr (ih a l hl))

/-- Of sorted labels `dedup_by` keeps the last of each name. The induction
carries the label that is kept so far: the next one takes its place if it
has the name, and puts it down if it has another, which is then larger. -/
private theorem dedupAfter_spec (kept : Label) (rest : List Label)
    (h : (kept :: rest).Pairwise (·.name ≤ ·.name)) :
    Ascending Label.name (dedupAfter kept rest)
      ∧ ∀ name, (dedupAfter kept rest).filter (·.name = name)
        = ((kept :: rest).filter (·.name = name)).getLast?.toList := by
  induction rest generalizing kept with
  | nil =>
      refine ⟨List.pairwise_singleton _ _, fun name => ?_⟩
      rw [dedupAfter]
      by_cases hname : kept.name = name
      · simp [hname]
      · simp [hname]
  | cons a rest ih =>
      obtain ⟨hkept, hrest⟩ := List.pairwise_cons.mp h
      obtain ⟨hasc, hlast⟩ := ih a hrest
      have hle : ∀ b ∈ a :: rest, a.name ≤ b.name := by
        intro b hb
        rcases List.mem_cons.mp hb with rfl | hb
        · exact le_refl _
        · exact (List.pairwise_cons.mp hrest).1 b hb
      rw [dedupAfter]
      by_cases hsame : a.name = kept.name
      · rw [if_pos hsame]
        refine ⟨hasc, fun name => (hlast name).trans ?_⟩
        by_cases hname : kept.name = name
        · -- the last of the name is not the one that is dropped
          rw [List.filter_cons_of_pos (a := kept) (by simpa using hname),
            List.filter_cons_of_pos (by simpa using hsame.trans hname),
            List.getLast?_cons_cons]
        · rw [List.filter_cons_of_neg (a := kept) (by simpa using hname)]
      · rw [if_neg hsame]
        have hlt : kept.name < a.name :=
          lt_of_le_of_ne (hkept a List.mem_cons_self) (Ne.symm hsame)
        refine ⟨List.pairwise_cons.mpr ⟨fun b hb => ?_, hasc⟩, fun name => ?_⟩
        · exact lt_of_lt_of_le hlt
            (hle b (List.mem_cons.mpr (mem_dedupAfter a rest b hb)))
        · by_cases hname : kept.name = name
          · have hnone : (a :: rest).filter (·.name = name) = [] := by
              refine List.filter_eq_nil_iff.mpr fun b hb heq => ?_
              have := lt_of_lt_of_le hlt (hle b hb)
              rw [of_decide_eq_true heq, hname] at this
              exact lt_irrefl _ this
            rw [List.filter_cons_of_pos (by simpa using hname),
              List.filter_cons_of_pos (by simpa using hname), hlast, hnone]
            rfl
          · rw [List.filter_cons_of_neg (by simpa using hname),
              List.filter_cons_of_neg (a := kept) (by simpa using hname),
              hlast]

/-- The labels of `from_labels`, and what there is under a name. -/
private theorem fromLabels_spec (labels : List Label) :
    (fromLabels labels).Canonical
      ∧ ∀ name, (fromLabels labels).labels.filter (·.name = name)
        = (labels.filter (·.name = name)).getLast?.toList := by
  have hsorted := List.pairwise_mergeSort le_name_trans le_name_total labels
  have hfilter := filter_mergeSort labels
  unfold fromLabels fromSortedUnchecked
  cases hsort : labels.mergeSort (fun a b => a.name ≤ b.name) with
  | nil =>
      rw [hsort] at hfilter
      refine ⟨List.Pairwise.nil, fun name => ?_⟩
      rw [← hfilter]
      rfl
  | cons a rest =>
      rw [hsort] at hsorted hfilter
      obtain ⟨hasc, hlast⟩ :=
        dedupAfter_spec a rest (hsorted.imp of_decide_eq_true)
      refine ⟨hasc, fun name => ?_⟩
      rw [← hfilter]
      exact hlast name

theorem canonical_fromLabels (labels : List Label) :
    (fromLabels labels).Canonical :=
  (fromLabels_spec labels).1

/-- Each name has its last value. -/
theorem get_fromLabels (labels : List Label) (name : String) :
    (fromLabels labels).get name = lastValue labels name := by
  obtain ⟨hcanonical, hlast⟩ := fromLabels_spec labels
  refine Option.ext fun v => ?_
  have hunder : ⟨name, v⟩ ∈ (fromLabels labels).labels
      ↔ ⟨name, v⟩ ∈ (fromLabels labels).labels.filter (·.name = name) := by
    rw [List.mem_filter]
    exact ⟨fun hin => ⟨hin, decide_eq_true rfl⟩, fun hin => hin.1⟩
  rw [get_eq_some hcanonical, hunder, hlast, Option.mem_toList, lastValue,
    Option.map_eq_some_iff]
  constructor
  · intro hin
    exact ⟨_, hin, rfl⟩
  · intro hin
    obtain ⟨l, hl, rfl⟩ := hin
    have hname := (List.mem_filter.mp (List.mem_of_getLast? hl)).2
    rw [hl, ← of_decide_eq_true hname]

/-- So `from_labels` is a sequence of inserts. -/
theorem fromLabels_eq_foldl (labels : List Label) :
    fromLabels labels = labels.foldl insertLabel new := by
  have hfold : (labels.foldl insertLabel new).Canonical
      ∧ ∀ name, (labels.foldl insertLabel new).get name
        = lastValue labels name := by
    induction labels using List.reverseRecOn with
    | nil => exact ⟨List.Pairwise.nil, fun name => rfl⟩
    | append_singleton labels l ih =>
        obtain ⟨hcanonical, hget⟩ := ih
        rw [List.foldl_concat]
        refine ⟨canonical_insertLabel hcanonical l, fun name => ?_⟩
        rw [get_insertLabel hcanonical, hget, lastValue_concat]
  refine (canonical_fromLabels labels).ext hfold.1 fun name => ?_
  rw [get_fromLabels, hfold.2]

/-- What `from_labels` and `insert_label` build. -/
inductive Built : LabelSet → Prop
  | fromLabels (labels : List Label) : Built (fromLabels labels)
  | insertLabel {ls : LabelSet} (h : Built ls) (label : Label) :
      Built (ls.insertLabel label)

theorem Built.canonical (h : Built ls) : ls.Canonical := by
  induction h with
  | fromLabels labels => exact canonical_fromLabels labels
  | insertLabel _ label ih => exact canonical_insertLabel ih label

/-- Whatever the order and the repetitions: `from_labels` is one
`insert_label` after the other, the names ascend strictly, each has the
value it was given last, and label sets are equal when they say the same of
every name. -/
theorem labelSet_finite_map (labels : List Label) :
    fromLabels labels = labels.foldl insertLabel new
      ∧ ((fromLabels labels).labels.map Label.name).Pairwise (· < ·)
      ∧ (∀ name, (fromLabels labels).get name = lastValue labels name)
      ∧ ∀ s t, Built s → Built t →
        (s = t ↔ ∀ name, s.get name = t.get name) := by
  refine ⟨fromLabels_eq_foldl labels,
    List.pairwise_map.mpr (canonical_fromLabels labels),
    get_fromLabels labels, fun s t hs ht => ⟨?_, hs.canonical.ext ht.canonical⟩⟩
  intro heq name
  rw [heq]

end LabelSet

end Tsdb
