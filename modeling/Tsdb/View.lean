/-
What the database is for: the label sets in the order they were first
written to, and for each of them its history, the samples kept of all that
were ever written to it. Nothing is said about ids, segments, logs or
buffers, or about when anything moves between them.

This is the abstract model. The faithful one is `Tsdb.Db.State` and its
users, and `Tsdb.Db.Invariant` connects the two: a database in any state
of any run shows one `View`, and `query` on the database is `View.query`
on what it shows.

# The answer

A history is the greedy subsequence of what was written, strictly
ascending in time (`hist_writeAll`), so an answer is a matter of the
writes alone: for each matching label set, in order of its first write,
its history cut to the range (`query`).

# Order of the label sets

A database numbers its series as it meets them, and after a restart it
meets them in another way: first those of the segments, by number and
then by label set, then those that only the log knows. `touchAll` is the
order of first occurrence, with the lemmas by which two such orders are
compared. What is known already adds nothing (`touchAll_known`), what is
new is appended (`touchAll_new`), and a second listing of the same sets
changes nothing (`touchAll_touchAll`). `Tsdb.Db.Stored` uses them to say
which order a restart ends in.

# What every view satisfies

`View.Ok` is the invariant of views that come from writes: histories
ascend, and a set is listed exactly if its history is not empty. It is
kept by one series of one write (`Ok.add`) and from there by any number
of writes, by induction on the lists.
-/
import Mathlib.Logic.Function.Basic
import Tsdb.Storage.Index

namespace Tsdb

open Lib (Ascending extend)

-- ================================================ what goes in, and comes out

/-- `WriteBatch`; its label sets are what the constructors build. -/
structure WriteBatch where
  series : List (LabelSet × List Sample)
  canonical : ∀ e ∈ series, e.1.Canonical
deriving DecidableEq

/-- `SeriesResult`. -/
structure SeriesResult where
  labels : LabelSet
  samples : List Sample
deriving DecidableEq, Repr

namespace WriteBatch

/-- The series a write looks at: those with samples. -/
def nonempty (batch : WriteBatch) : List (LabelSet × List Sample) :=
  batch.series.filter (·.2 ≠ [])

/-- The samples a batch writes to one label set. -/
def samplesOf (batch : WriteBatch) (ls : LabelSet) : List Sample :=
  (batch.series.filter (·.1 = ls)).flatMap Prod.snd

theorem canonical_of_nonempty {batch : WriteBatch}
    {e : LabelSet × List Sample} (he : e ∈ batch.nonempty) :
    e.1.Canonical :=
  batch.canonical e (List.mem_of_mem_filter he)

theorem ne_nil_of_nonempty {batch : WriteBatch}
    {e : LabelSet × List Sample} (he : e ∈ batch.nonempty) : e.2 ≠ [] := by
  simpa using (List.mem_filter.mp he).2

end WriteBatch

/-- All samples ever written to a label set. -/
def written (writes : List WriteBatch) (ls : LabelSet) : List Sample :=
  writes.flatMap (·.samplesOf ls)

-- ====================================================== label sets in order

/-- Label sets added one after the other, unless they are there. -/
def touchAll (sets : List LabelSet) (more : List LabelSet) : List LabelSet :=
  more.foldl touch sets

theorem mem_touch {sets : List LabelSet} {ls l : LabelSet} :
    l ∈ touch sets ls ↔ l ∈ sets ∨ l = ls := by
  unfold touch
  split
  · rename_i h
    exact ⟨Or.inl, fun hl => hl.elim id fun he => he ▸ h⟩
  · simp

@[simp] theorem touch_of_mem {sets : List LabelSet} {ls : LabelSet}
    (h : ls ∈ sets) : touch sets ls = sets := if_pos h

theorem prefix_touch (sets : List LabelSet) (ls : LabelSet) :
    sets <+: touch sets ls := by
  unfold touch
  split
  · exact List.prefix_rfl
  · exact List.prefix_append _ _

theorem mem_touchAll {sets more : List LabelSet} {l : LabelSet} :
    l ∈ touchAll sets more ↔ l ∈ sets ∨ l ∈ more := by
  induction more generalizing sets with
  | nil => simp [touchAll]
  | cons a more ih =>
      show l ∈ touchAll (touch sets a) more ↔ _
      rw [ih, mem_touch, List.mem_cons, or_assoc]

theorem prefix_touchAll (sets more : List LabelSet) :
    sets <+: touchAll sets more := by
  induction more generalizing sets with
  | nil => exact List.prefix_rfl
  | cons a more ih => exact (prefix_touch sets a).trans (ih _)

theorem touchAll_append (sets more more' : List LabelSet) :
    touchAll sets (more ++ more') = touchAll (touchAll sets more) more' :=
  List.foldl_append

/-- What is there already adds nothing. -/
theorem touchAll_known {sets more : List LabelSet}
    (h : ∀ ls ∈ more, ls ∈ sets) : touchAll sets more = sets := by
  induction more with
  | nil => rfl
  | cons a more ih =>
      show touchAll (touch sets a) more = sets
      rw [touch_of_mem (h a List.mem_cons_self)]
      exact ih fun ls hls => h ls (List.mem_cons_of_mem _ hls)

/-- Sets that are all new are appended. -/
theorem touchAll_new {sets more : List LabelSet} (hnd : more.Nodup)
    (h : ∀ ls ∈ more, ls ∉ sets) : touchAll sets more = sets ++ more := by
  induction more generalizing sets with
  | nil => simp [touchAll]
  | cons a more ih =>
      obtain ⟨hna, hnd⟩ := List.nodup_cons.mp hnd
      have ha : touch sets a = sets ++ [a] :=
        if_neg (h a List.mem_cons_self)
      show touchAll (touch sets a) more = _
      rw [ha, ih hnd, List.append_assoc, List.singleton_append]
      intro ls hls hin
      rcases List.mem_append.mp hin with hin | hin
      · exact h ls (List.mem_cons_of_mem _ hls) hin
      · exact hna (List.mem_singleton.mp hin ▸ hls)

/-- What is listed twice is added once. -/
theorem touchAll_touchAll (sets more more' : List LabelSet) :
    touchAll sets (touchAll more more') = touchAll sets (more ++ more') := by
  induction more' generalizing more with
  | nil => rw [List.append_nil]; rfl
  | cons a more' ih =>
      show touchAll sets (touchAll (touch more a) more') = _
      rw [ih]
      by_cases ha : a ∈ more
      · have hin : a ∈ touchAll sets more := mem_touchAll.mpr (.inr ha)
        rw [touch_of_mem ha, touchAll_append, touchAll_append]
        show _ = touchAll (touch (touchAll sets more) a) more'
        rw [touch_of_mem hin]
      · have htouch : touch more a = more ++ [a] := if_neg ha
        rw [htouch, List.append_assoc, List.singleton_append]

/-- Leaving out sets that are there already changes nothing. -/
theorem touchAll_filter {sets more : List LabelSet} (p : LabelSet → Bool)
    (h : ∀ ls ∈ more, p ls = false → ls ∈ sets) :
    touchAll sets (more.filter p) = touchAll sets more := by
  induction more generalizing sets with
  | nil => rfl
  | cons a more ih =>
      have hrest : ∀ ls ∈ more, p ls = false → ls ∈ touch sets a :=
        fun ls hls hp => (prefix_touch sets a).subset
          (h ls (List.mem_cons_of_mem _ hls) hp)
      cases hp : p a with
      | true =>
          rw [List.filter_cons_of_pos hp]
          exact ih hrest
      | false =>
          rw [List.filter_cons_of_neg (by simp [hp])]
          show _ = touchAll (touch sets a) more
          have ha := touch_of_mem (h a List.mem_cons_self hp)
          rw [ha] at hrest ⊢
          exact ih hrest

/-- Sets in the order of `names`, with all of those that are not there yet,
complete it. -/
theorem touchAll_sublist {sets more names : List LabelSet}
    (hpre : sets <+: names) (hsub : more.Sublist names) (hnd : names.Nodup)
    (hall : ∀ ls ∈ names, ls ∉ sets → ls ∈ more) :
    touchAll sets more = names := by
  obtain ⟨tail, rfl⟩ := hpre
  obtain ⟨-, htail, hdisjoint⟩ := List.nodup_append.mp hnd
  have hnew : ∀ ls ∈ tail, ls ∉ sets := fun ls hls hin =>
    hdisjoint ls hin ls hls rfl
  have hfilter : (sets ++ tail).filter (· ∉ sets) = tail := by
    rw [List.filter_append, List.filter_eq_nil_iff.mpr (by simp),
      List.nil_append, List.filter_eq_self]
    intro ls hls
    simpa using hnew ls hls
  have hless : (more.filter (· ∉ sets)).Sublist tail := by
    have := hsub.filter (· ∉ sets)
    rwa [hfilter] at this
  -- nothing of `tail` is missing
  have hmore : tail.length ≤ (more.filter (· ∉ sets)).length := by
    refine (List.subperm_of_subset htail fun ls hls => ?_).length_le
    refine List.mem_filter.mpr ⟨hall ls (List.mem_append_right _ hls)
      (hnew ls hls), by simpa using hnew ls hls⟩
  rw [← touchAll_filter (fun ls => decide (ls ∉ sets))
    fun ls _ hls => by simpa using hls, hless.eq_of_length_le hmore,
    touchAll_new htail hnew]

-- ================================================================ the view

structure View where
  sets : List LabelSet := []
  hist : LabelSet → List Sample := fun _ => []

namespace View

/-- One series of a write. -/
def add (v : View) (ls : LabelSet) (samples : List Sample) : View where
  sets := touch v.sets ls
  hist := Function.update v.hist ls
    (extend Sample.timestamp (v.hist ls) samples)

/-- Series one after the other. -/
def addAll (v : View) (es : List (LabelSet × List Sample)) : View :=
  es.foldl (fun v e => v.add e.1 e.2) v

def write (v : View) (batch : WriteBatch) : View := v.addAll batch.nonempty

def writeAll (v : View) (writes : List WriteBatch) : View :=
  writes.foldl write v

def query (v : View) (matchers : List Matcher) (range : TimeRange) :
    List SeriesResult :=
  (v.sets.filter (satisfiesAll matchers)).map fun ls =>
    ⟨ls, (v.hist ls).filter (·.inTimerange range)⟩

@[simp] theorem sets_add (v : View) (ls : LabelSet) (xs : List Sample) :
    (v.add ls xs).sets = touch v.sets ls := rfl

theorem hist_add (v : View) (ls l : LabelSet) (xs : List Sample) :
    (v.add ls xs).hist l = if l = ls
      then extend Sample.timestamp (v.hist l) xs else v.hist l := by
  by_cases h : l = ls
  · subst h
    simp [add]
  · simp [add, h]

@[simp] theorem writeAll_nil (v : View) : v.writeAll [] = v := rfl

theorem writeAll_append (v : View) (ws ws' : List WriteBatch) :
    v.writeAll (ws ++ ws') = (v.writeAll ws).writeAll ws' :=
  List.foldl_append

theorem writeAll_concat (v : View) (ws : List WriteBatch)
    (batch : WriteBatch) :
    v.writeAll (ws ++ [batch]) = (v.writeAll ws).write batch := by
  rw [writeAll_append]
  rfl

-- -------------------------------------------------- histories by label set

/-- Series added one after the other extend each history by what is meant
for it. -/
theorem hist_addAll (v : View) (es : List (LabelSet × List Sample))
    (ls : LabelSet) :
    (v.addAll es).hist ls
      = extend Sample.timestamp (v.hist ls)
          ((es.filter (·.1 = ls)).flatMap Prod.snd) := by
  induction es generalizing v with
  | nil => rfl
  | cons e es ih =>
      show ((v.add e.1 e.2).addAll es).hist ls = _
      rw [ih, hist_add]
      by_cases h : ls = e.1
      · rw [if_pos h, List.filter_cons_of_pos (by simp [h]),
          List.flatMap_cons, Lib.extend_append]
      · rw [if_neg h, List.filter_cons_of_neg (by simpa using Ne.symm h)]

theorem sets_addAll (v : View) (es : List (LabelSet × List Sample)) :
    (v.addAll es).sets = touchAll v.sets (es.map Prod.fst) := by
  induction es generalizing v with
  | nil => rfl
  | cons e es ih => exact ih _

theorem sets_write (v : View) (batch : WriteBatch) :
    (v.write batch).sets
      = touchAll v.sets (batch.nonempty.map Prod.fst) :=
  sets_addAll v batch.nonempty

theorem hist_write (v : View) (batch : WriteBatch) (ls : LabelSet) :
    (v.write batch).hist ls
      = extend Sample.timestamp (v.hist ls) (batch.samplesOf ls) := by
  rw [write, hist_addAll, WriteBatch.samplesOf, WriteBatch.nonempty]
  congr 1
  -- entries without samples contribute none
  induction batch.series with
  | nil => rfl
  | cons e es ih =>
      by_cases hne : e.2 = []
      · rw [List.filter_cons_of_neg (by simp [hne]), ih]
        by_cases h : e.1 = ls
        · rw [List.filter_cons_of_pos (by simp [h]), List.flatMap_cons, hne,
            List.nil_append]
        · rw [List.filter_cons_of_neg (by simp [h])]
      · rw [List.filter_cons_of_pos (by simp [hne])]
        by_cases h : e.1 = ls
        · rw [List.filter_cons_of_pos (by simp [h]),
            List.filter_cons_of_pos (by simp [h]), List.flatMap_cons,
            List.flatMap_cons, ih]
        · rw [List.filter_cons_of_neg (by simp [h]),
            List.filter_cons_of_neg (by simp [h]), ih]

/-- A history is the greedy subsequence of everything written. -/
theorem hist_writeAll (v : View) (ws : List WriteBatch) (ls : LabelSet) :
    (v.writeAll ws).hist ls
      = extend Sample.timestamp (v.hist ls) (written ws ls) := by
  induction ws generalizing v with
  | nil => rfl
  | cons batch ws ih =>
      show ((v.write batch).writeAll ws).hist ls = _
      rw [ih, hist_write, ← Lib.extend_append]
      rfl

/-- The label sets of a view are those written to, in order. -/
theorem sets_writeAll (v : View) (ws : List WriteBatch) :
    (v.writeAll ws).sets
      = touchAll v.sets (ws.flatMap fun b => b.nonempty.map Prod.fst) := by
  induction ws generalizing v with
  | nil => rfl
  | cons batch ws ih =>
      show ((v.write batch).writeAll ws).sets = _
      rw [ih, sets_write, List.flatMap_cons, touchAll_append]

/-- What is written to has canonical labels. -/
theorem canonical_writeAll (ws : List WriteBatch) :
    ∀ ls ∈ (View.writeAll {} ws).sets, ls.Canonical := by
  intro ls hls
  rw [sets_writeAll, mem_touchAll] at hls
  rcases hls with hls | hls
  · cases hls
  · obtain ⟨batch, -, hls⟩ := List.mem_flatMap.mp hls
    obtain ⟨e, he, rfl⟩ := List.mem_map.mp hls
    exact WriteBatch.canonical_of_nonempty he

-- ------------------------------------------------- what holds of every view

/-- What writes keep: every history ascends, and a label set is there
exactly if it has one. -/
structure Ok (v : View) : Prop where
  asc : ∀ ls, Ascending Sample.timestamp (v.hist ls)
  mem : ∀ ls, ls ∈ v.sets ↔ v.hist ls ≠ []

theorem Ok.empty : Ok {} := by
  constructor
  · exact fun _ => List.Pairwise.nil
  · intro ls
    simp

theorem Ok.add {v : View} (h : v.Ok) {ls : LabelSet} {xs : List Sample}
    (hne : xs ≠ []) : (v.add ls xs).Ok := by
  have hhist := hist_add v ls
  constructor
  · intro l
    rw [hhist]
    split
    · exact (h.asc l).extend xs
    · exact h.asc l
  · intro l
    rw [sets_add, mem_touch, hhist, h.mem l]
    by_cases hl : l = ls
    · rw [if_pos hl]
      exact ⟨fun _ => Lib.extend_ne_nil Sample.timestamp _ hne,
        fun _ => .inr hl⟩
    · rw [if_neg hl]
      simp [hl]

theorem Ok.write {v : View} (h : v.Ok) (batch : WriteBatch) :
    (v.write batch).Ok := by
  have hall : ∀ es : List (LabelSet × List Sample), (∀ e ∈ es, e.2 ≠ []) →
      ∀ v : View, v.Ok → (v.addAll es).Ok := by
    intro es
    induction es with
    | nil => exact fun _ _ h => h
    | cons e es ih =>
        intro hes v hv
        exact ih (fun e he => hes e (List.mem_cons_of_mem _ he)) _
          (hv.add (hes e List.mem_cons_self))
  exact hall _ (fun _ he => WriteBatch.ne_nil_of_nonempty he) v h

theorem Ok.writeAll {v : View} (h : v.Ok) (ws : List WriteBatch) :
    (v.writeAll ws).Ok := by
  induction ws generalizing v with
  | nil => exact h
  | cons batch ws ih => exact ih (h.write batch)

end View

end Tsdb
