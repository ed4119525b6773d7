/-
Self-delimiting frames: a file read as one frame after another, up to
the end or to the first thing that is not a frame.

# Locality

The one law a `Framing` has to obey is that a frame is recognised by the
tokens it consists of, whatever follows them (`next_frame`). That no
frame is a proper prefix of another is then automatic
(`IsFrame.torn_bad`), and it is what makes a torn tail detectable: cut
anywhere strictly inside a frame, the leftover is refused.

# Scanning

`scan` reads the maximal prefix of frames. What it used is a
concatenation of frames (`scan_framed`), it passes over any such
concatenation (`scan_append`), and so scanning what a scan used finds the
same frames and nothing else (`Framed.scan`): truncating a file to what was
used is an idempotent repair. A longer input only adds to what was used
of a shorter one (`used_mono`).

# Torn tails

`scan_take` is the torn tail in full: scanning a file of whole frames cut
at `n` yields the frames wholly below `n`, their number being
`wholeBelow`, and is stopped exactly if the cut has left something of the
next one. The induction is on the frames; a frame below the cut is passed
over, and the first that is not is either gone or torn.

The reader is well founded on the tokens left, since a frame is never
empty. Proofs go by the three equations of `scan` and not by unfolding
it.
-/
import Mathlib.Data.List.Basic
import Mathlib.Data.List.Forall2

namespace Lib

/-- What stands at the front of the input. -/
inductive Next (τ α ε : Type)
  | done
  | frame (item : α) (rest : List τ)
  | bad (why : ε)
deriving DecidableEq

/-- A frame reader whose verdict on a frame depends on the frame only. -/
structure Framing (τ α ε : Type) where
  next : List τ → Next τ α ε
  next_nil : next [] = .done
  next_cons : ∀ t ts, next (t :: ts) ≠ .done
  next_frame : ∀ {ts a rest}, next ts = .frame a rest →
    ∃ used, used ≠ [] ∧ ts = used ++ rest
      ∧ ∀ rest', next (used ++ rest') = .frame a rest'

namespace Framing

variable {τ α ε : Type} (F : Framing τ α ε)

/-- `used` is a frame holding `a`. -/
def IsFrame (used : List τ) (a : α) : Prop :=
  used ≠ [] ∧ ∀ rest, F.next (used ++ rest) = .frame a rest

/-- `ts` is a concatenation of frames holding `items`. -/
inductive Framed : List τ → List α → Prop
  | nil : Framed [] []
  | cons {used ts : List τ} {a : α} {items : List α} :
      F.IsFrame used a → Framed ts items → Framed (used ++ ts) (a :: items)

variable {F}

-- ============================================================== locality

theorem next_eq_done {ts : List τ} : F.next ts = .done ↔ ts = [] := by
  constructor
  · cases ts with
    | nil => exact fun _ => rfl
    | cons t ts => exact fun h => absurd h (F.next_cons t ts)
  · rintro rfl
    exact F.next_nil

theorem rest_length_lt {ts rest : List τ} {a : α}
    (h : F.next ts = .frame a rest) : rest.length < ts.length := by
  obtain ⟨used, hne, rfl, -⟩ := F.next_frame h
  have := List.length_pos_iff.mpr hne
  rw [List.length_append]
  omega

/-- What a nonempty input does not complete, it breaks: a proper prefix
of a frame is refused. -/
theorem IsFrame.torn_bad {used p : List τ} {a : α} (h : F.IsFrame used a)
    (hp : p <+: used) (hne : p ≠ []) (hlt : p ≠ used) :
    ∃ e, F.next p = .bad e := by
  cases hn : F.next p with
  | done => exact absurd (next_eq_done.mp hn) hne
  | bad e => exact ⟨e, rfl⟩
  | frame b rest =>
      -- a frame found in `p` would be found in `used`, and leave more
      obtain ⟨used', -, rfl, hloc⟩ := F.next_frame hn
      obtain ⟨t, rfl⟩ := hp
      have hlong : F.next (used' ++ (rest ++ t)) = .frame b (rest ++ t) :=
        hloc _
      have hwhole := h.2 []
      rw [List.append_nil, List.append_assoc, hlong] at hwhole
      obtain ⟨-, hnil⟩ : b = a ∧ rest ++ t = [] := by
        injection hwhole with h₁ h₂
        exact ⟨h₁, h₂⟩
      obtain ⟨-, rfl⟩ := List.append_eq_nil_iff.mp hnil
      exact absurd (List.append_nil _).symm hlt

-- ============================================================== scanning

/-- The frames found, the tokens they took, and what stopped the scan. -/
structure Scan (τ α ε : Type) where
  items : List α
  used : List τ
  stop : Option ε
deriving DecidableEq

variable (F)

/-- Read frames until the end of the input or the first refusal. -/
def scan (ts : List τ) : Scan τ α ε :=
  match _h : F.next ts with
  | .done => ⟨[], [], none⟩
  | .bad e => ⟨[], [], some e⟩
  | .frame a rest =>
      let s := scan rest
      ⟨a :: s.items, ts.take (ts.length - rest.length) ++ s.used, s.stop⟩
termination_by ts.length
decreasing_by exact rest_length_lt _h

variable {F}

@[simp] theorem scan_nil : F.scan [] = ⟨[], [], none⟩ := by
  rw [scan]
  split
  · rfl
  · rename_i h
    rw [F.next_nil] at h
    cases h
  · rename_i h
    rw [F.next_nil] at h
    cases h

theorem scan_bad {ts : List τ} {e : ε} (h : F.next ts = .bad e) :
    F.scan ts = ⟨[], [], some e⟩ := by
  rw [scan]
  split
  · rename_i h'
    rw [h] at h'
    cases h'
  · rename_i h'
    rw [h] at h'
    cases h'
    rfl
  · rename_i h'
    rw [h] at h'
    cases h'

theorem scan_frame {used : List τ} {a : α} (h : F.IsFrame used a)
    (ts : List τ) :
    F.scan (used ++ ts)
      = ⟨a :: (F.scan ts).items, used ++ (F.scan ts).used,
          (F.scan ts).stop⟩ := by
  have hn := h.2 ts
  rw [scan]
  split
  · rename_i h'
    rw [hn] at h'
    cases h'
  · rename_i h'
    rw [hn] at h'
    cases h'
  · rename_i h'
    rw [hn] at h'
    cases h'
    simp

/-- The tokens used are frames holding the items found. -/
theorem scan_framed (ts : List τ) :
    F.Framed (F.scan ts).used (F.scan ts).items := by
  induction hn : ts.length using Nat.strongRecOn generalizing ts with
  | ind n ih =>
      cases h : F.next ts with
      | done =>
          rw [next_eq_done.mp h, scan_nil]
          exact .nil
      | bad e =>
          rw [scan_bad h]
          exact .nil
      | frame a rest =>
          have hlt := rest_length_lt h
          obtain ⟨used, hne, rfl, hloc⟩ := F.next_frame h
          rw [scan_frame ⟨hne, hloc⟩]
          exact .cons ⟨hne, hloc⟩ (ih _ (hn ▸ hlt) rest rfl)

/-- They are the front of the input, all of it unless the scan was
stopped, and then the rest is refused. -/
theorem scan_split (ts : List τ) :
    ∃ rest, ts = (F.scan ts).used ++ rest
      ∧ ((F.scan ts).stop = none ↔ rest = [])
      ∧ ∀ e, (F.scan ts).stop = some e → F.next rest = .bad e := by
  induction hn : ts.length using Nat.strongRecOn generalizing ts with
  | ind n ih =>
      cases h : F.next ts with
      | done =>
          rw [next_eq_done.mp h, scan_nil]
          exact ⟨[], by simp⟩
      | bad e =>
          rw [scan_bad h]
          refine ⟨ts, by simp, ?_, by intro _ hcase; cases hcase; exact h⟩
          simp only [reduceCtorEq, false_iff]
          rintro rfl
          rw [F.next_nil] at h
          cases h
      | frame a rest =>
          have hlt := rest_length_lt h
          obtain ⟨used, hne, rfl, hloc⟩ := F.next_frame h
          obtain ⟨tail, hsplit, hstop, hbad⟩ := ih _ (hn ▸ hlt) rest rfl
          rw [scan_frame ⟨hne, hloc⟩]
          refine ⟨tail, ?_, hstop, hbad⟩
          show used ++ rest = used ++ (F.scan rest).used ++ tail
          rw [List.append_assoc, ← hsplit]

theorem used_prefix (ts : List τ) : (F.scan ts).used <+: ts := by
  obtain ⟨rest, h, -⟩ := F.scan_split ts
  exact ⟨rest, h.symm⟩

/-- Unless something was refused, the whole input was used. -/
theorem stop_eq_none {ts : List τ} :
    (F.scan ts).stop = none ↔ (F.scan ts).used = ts := by
  obtain ⟨rest, h, hstop, -⟩ := F.scan_split ts
  rw [hstop]
  constructor
  · rintro rfl
    simpa using h.symm
  · intro he
    rw [he] at h
    simpa using h

/-- Whole frames in front are read first. -/
theorem scan_append {us : List τ} {items : List α} (h : F.Framed us items)
    (ts : List τ) :
    F.scan (us ++ ts)
      = ⟨items ++ (F.scan ts).items, us ++ (F.scan ts).used,
          (F.scan ts).stop⟩ := by
  induction h with
  | nil => rfl
  | cons hf _ ih =>
      rw [List.append_assoc, scan_frame hf, ih, List.append_assoc]
      rfl

theorem Framed.scan {us : List τ} {items : List α} (h : F.Framed us items) :
    F.scan us = ⟨items, us, none⟩ := by
  have := scan_append h []
  simpa using this

/-- What was used of the front of an input is used of all of it. -/
theorem used_mono (ts us : List τ) :
    (F.scan ts).used <+: (F.scan (ts ++ us)).used := by
  obtain ⟨rest, hts, -, -⟩ := F.scan_split ts
  have hall := scan_append (F.scan_framed ts) (rest ++ us)
  rw [← List.append_assoc, ← hts] at hall
  rw [hall]
  exact List.prefix_append _ _

theorem Framed.append {us vs : List τ} {as bs : List α}
    (h : F.Framed us as) (h' : F.Framed vs bs) :
    F.Framed (us ++ vs) (as ++ bs) := by
  induction h with
  | nil => exact h'
  | cons hf _ ih =>
      rw [List.append_assoc]
      exact .cons hf ih

/-- The items split, and the tokens with them. -/
theorem Framed.split {us : List τ} {as bs : List α}
    (h : F.Framed us (as ++ bs)) :
    ∃ ts vs, us = ts ++ vs ∧ F.Framed ts as ∧ F.Framed vs bs := by
  induction as generalizing us with
  | nil => exact ⟨[], us, rfl, .nil, h⟩
  | cons a as ih =>
      cases h with
      | @cons used _ _ _ hf hrest =>
          obtain ⟨ts, vs, rfl, hts, hvs⟩ := ih hrest
          exact ⟨used ++ ts, vs, by rw [List.append_assoc],
            .cons hf hts, hvs⟩

/-- One frame after another. -/
theorem Framed.of_forall₂ {chunks : List (List τ)} {items : List α}
    (h : List.Forall₂ F.IsFrame chunks items) :
    F.Framed chunks.flatten items := by
  induction h with
  | nil => exact .nil
  | cons hf _ ih => exact .cons hf ih

-- ============================================================= torn tails

/-- How many of the chunks lie wholly below `n`. -/
def wholeBelow : List (List τ) → Nat → Nat
  | [], _ => 0
  | c :: cs, n =>
      if c.length ≤ n then wholeBelow cs (n - c.length) + 1 else 0

theorem wholeBelow_le (cs : List (List τ)) (n : Nat) :
    wholeBelow cs n ≤ cs.length := by
  induction cs generalizing n with
  | nil => exact Nat.le_refl 0
  | cons c cs ih =>
      have := ih (n - c.length)
      rw [wholeBelow, List.length_cons]
      split <;> omega

/-- They end at or below `n`, and the next one ends above. -/
theorem wholeBelow_spec (cs : List (List τ)) (n : Nat) :
    (cs.take (wholeBelow cs n)).flatten.length ≤ n
      ∧ (wholeBelow cs n < cs.length →
          n < (cs.take (wholeBelow cs n + 1)).flatten.length) := by
  induction cs generalizing n with
  | nil => simp [wholeBelow]
  | cons c cs ih =>
      obtain ⟨hle, hlt⟩ := ih (n - c.length)
      rw [wholeBelow]
      by_cases hc : c.length ≤ n
      · rw [if_pos hc]
        simp only [List.take_succ_cons, List.flatten_cons,
          List.length_append, List.length_cons]
        exact ⟨by omega, fun hk => by have := hlt (by omega); omega⟩
      · rw [if_neg hc]
        simp only [List.take_zero, List.flatten_nil, List.length_nil,
          Nat.zero_add, List.take_succ_cons, List.flatten_cons,
          List.length_append]
        exact ⟨by omega, fun _ => by omega⟩

/-- Frames cut at `n`: the whole ones below `n` are found, and the scan is
stopped exactly if something of the next one is left. The induction is along
the frames: the first is whole, and the scan goes on behind it with the cut
that much nearer, or the cut falls into it. -/
theorem scan_take {chunks : List (List τ)} {items : List α}
    (h : List.Forall₂ F.IsFrame chunks items) (n : Nat) :
    let k := wholeBelow chunks n
    (F.scan (chunks.flatten.take n)).items = items.take k
      ∧ (F.scan (chunks.flatten.take n)).used = (chunks.take k).flatten
      ∧ ((F.scan (chunks.flatten.take n)).stop = none
          ↔ (chunks.flatten.take n).length
            = (chunks.take k).flatten.length) := by
  induction h generalizing n with
  | nil => simp [wholeBelow]
  | @cons c a cs as hf hrest ih =>
      rw [wholeBelow]
      by_cases hc : c.length ≤ n
      · -- the first frame is whole
        obtain ⟨hi, hu, hs⟩ := ih (n - c.length)
        have htake : (c :: cs).flatten.take n
            = c ++ cs.flatten.take (n - c.length) := by
          rw [List.flatten_cons, List.take_append,
            List.take_of_length_le hc]
        rw [if_pos hc, htake, scan_frame hf]
        refine ⟨?_, ?_, ?_⟩
        · simp [hi]
        · simp [hu]
        · simpa using hs
      · -- the cut falls into the first frame
        have htake : (c :: cs).flatten.take n = c.take n := by
          rw [List.flatten_cons, List.take_append_of_le_length (by omega)]
        rw [if_neg hc, htake]
        by_cases hz : c.take n = []
        · rw [hz, scan_nil]
          simp
        · have hne : c.take n ≠ c := fun he => hc (by
            have := congrArg List.length he
            simp only [List.length_take] at this
            omega)
          obtain ⟨e, he⟩ := hf.torn_bad (List.take_prefix n c) hz hne
          rw [scan_bad he]
          have hlen : 0 < (c.take n).length := List.length_pos_iff.mpr hz
          refine ⟨by simp, by simp, ?_⟩
          simp only [reduceCtorEq, List.take_zero, List.flatten_nil,
            List.length_nil, false_iff]
          omega

end Framing

end Lib
