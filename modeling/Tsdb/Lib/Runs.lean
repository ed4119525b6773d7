/-
Runs of a labelled transition function.

A system is a partial function from a label and a state to the next
state; a label the state does not allow has no next state. `Run` collects
the labels of a run, newest last, so that a property of runs may speak of
what happened before what.

# The rules

- `Run.invariant` is the induction: what holds at the start and is kept
  by every step of a run holds after every run. The step may use the run
  that led to it, so an invariant may be stated over the labels so far
  and rest on another that has been proved before.
- `Run.split`, `Run.append`, `Run.uncons` and `Run.last` cut runs and
  paste them; the labels determine the state (`Run.unique`).
- `Run.bounded` is termination: labels that each take something off a
  measure are no more than the measure says, while other labels do not
  occur.
- `exec` computes a run. A run to look at is computed (`Run.of_exec`),
  a theorem about runs is proved over `Run`, or over `exec` where the
  labels are given as a list.

Two systems run in lockstep if their steps have related results
(`Option.Rel`); the rules for it are those of a partial function, one for
a result, one for `bind` and one for `map`.
-/
import Mathlib.Data.List.Induction

namespace Lib

variable {S A : Type} (step : A → S → Option S)

/-- The runs from `start`, by their labels and the state reached. -/
inductive Run (start : S) : List A → S → Prop
  | nil : Run start [] start
  | snoc {as : List A} {s s' : S} {a : A} :
      Run start as s → step a s = some s' → Run start (as ++ [a]) s'

/-- The run with the given labels, if they are allowed. -/
def exec : List A → S → Option S
  | [], s => some s
  | a :: as, s => (step a s).bind (exec as)

variable {step}

theorem exec_append {as bs : List A} {s₀ s₁ s₂ : S}
    (h₁ : exec step as s₀ = some s₁) (h₂ : exec step bs s₁ = some s₂) :
    exec step (as ++ bs) s₀ = some s₂ := by
  induction as generalizing s₀ with
  | nil =>
      rw [exec, Option.some.injEq] at h₁
      rw [h₁]
      exact h₂
  | cons a as ih =>
      rw [exec, Option.bind_eq_some_iff] at h₁
      obtain ⟨s, hs, hrest⟩ := h₁
      rw [List.cons_append, exec, hs]
      exact ih hrest

theorem exec_split {as bs : List A} {s₀ s₂ : S}
    (h : exec step (as ++ bs) s₀ = some s₂) :
    ∃ s₁, exec step as s₀ = some s₁ ∧ exec step bs s₁ = some s₂ := by
  induction as generalizing s₀ with
  | nil => exact ⟨s₀, rfl, h⟩
  | cons a as ih =>
      obtain ⟨s, hs, hrest⟩ := Option.bind_eq_some_iff.mp h
      obtain ⟨s₁, has, hbs⟩ := ih hrest
      exact ⟨s₁, by rw [exec, hs]; exact has, hbs⟩

/-- What holds at the start and is preserved by every step of a run holds
after every run. -/
theorem Run.invariant {start : S} {P : List A → S → Prop}
    (init : P [] start)
    (next : ∀ {as s a s'}, Run step start as s → P as s →
      step a s = some s' → P (as ++ [a]) s') :
    ∀ {as s}, Run step start as s → P as s := by
  intro as s h
  induction h with
  | nil => exact init
  | snoc hrun hstep ih => exact next hrun ih hstep

/-- The labels determine the state. -/
theorem Run.unique {start s s' : S} {as : List A}
    (h : Run step start as s) (h' : Run step start as s') : s = s' := by
  generalize hl : as = l at h'
  induction h generalizing l s' with
  | nil =>
      cases h' with
      | nil => rfl
      | snoc => simp at hl
  | snoc _ hs ih =>
      cases h' with
      | nil => simp at hl
      | snoc hrun' hs' =>
          obtain ⟨rfl, ha⟩ := List.append_inj' hl rfl
          cases ha
          rw [ih _ rfl hrun', hs'] at hs
          exact Option.some.inj hs.symm

theorem Run.cons {s₀ s₁ s : S} {a : A} {as : List A}
    (hstep : step a s₀ = some s₁) (h : Run step s₁ as s) :
    Run step s₀ (a :: as) s := by
  induction h with
  | nil =>
      show Run step s₀ ([] ++ [a]) s₁
      exact .snoc .nil hstep
  | @snoc as _ s' b _ hs ih =>
      show Run step s₀ ((a :: as) ++ [b]) s'
      exact .snoc ih hs

theorem Run.append {s₀ s₁ s₂ : S} {as bs : List A}
    (h₁ : Run step s₀ as s₁) (h₂ : Run step s₁ bs s₂) :
    Run step s₀ (as ++ bs) s₂ := by
  induction h₂ with
  | nil =>
      rw [List.append_nil]
      exact h₁
  | snoc _ hs ih =>
      rw [← List.append_assoc]
      exact .snoc ih hs

/-- Every cut of a run's labels is a state it went through. -/
theorem Run.split {s₀ s : S} {as bs : List A}
    (h : Run step s₀ (as ++ bs) s) :
    ∃ s₁, Run step s₀ as s₁ ∧ Run step s₁ bs s := by
  induction bs using List.reverseRecOn generalizing s with
  | nil =>
      rw [List.append_nil] at h
      exact ⟨s, h, .nil⟩
  | append_singleton bs b ih =>
      rw [← List.append_assoc] at h
      generalize hl : as ++ bs ++ [b] = l at h
      cases h with
      | nil => simp at hl
      | snoc hrun hs =>
          obtain ⟨rfl, hb⟩ := List.append_inj' hl rfl
          cases hb
          obtain ⟨s₁, h₁, h₂⟩ := ih hrun
          exact ⟨s₁, h₁, .snoc h₂ hs⟩

/-- A run that begins with `a` has `a` as its first step. -/
theorem Run.uncons {s₀ s : S} {a : A} {as : List A}
    (h : Run step s₀ (a :: as) s) :
    ∃ s₁, step a s₀ = some s₁ ∧ Run step s₁ as s := by
  have hcat : Run step s₀ ([a] ++ as) s := h
  obtain ⟨s₁, h₁, h₂⟩ := hcat.split
  generalize hl : [a] = l at h₁
  cases h₁ with
  | nil => cases hl
  | @snoc as' s' _ b hrun hs =>
      cases as' with
      | nil =>
          cases hl
          generalize hnil : ([] : List A) = l at hrun
          cases hrun with
          | nil => exact ⟨s₁, hs, h₂⟩
          | snoc => simp at hnil
      | cons c cs => simp at hl

/-- A run that ends in `a` has `a` as its last step. -/
theorem Run.last {s₀ s : S} {as : List A} {a : A}
    (h : Run step s₀ (as ++ [a]) s) :
    ∃ s₁, Run step s₀ as s₁ ∧ step a s₁ = some s := by
  generalize hl : as ++ [a] = l at h
  cases h with
  | nil => simp at hl
  | snoc hrun hs =>
      obtain ⟨rfl, ha⟩ := List.append_inj' hl rfl
      cases ha
      exact ⟨_, hrun, hs⟩

/-- Labels that each take something off a measure do so in a run of them,
which has no more steps than the measure says. -/
theorem Run.bounded (P : S → Prop) (own : A → Prop) (left : S → Nat)
    (next : ∀ {s a s'}, P s → own a → step a s = some s' →
      P s' ∧ left s' < left s)
    {s₀ s : S} {as : List A} (h : Run step s₀ as s) (hown : ∀ a ∈ as, own a)
    (init : P s₀) : P s ∧ as.length + left s ≤ left s₀ := by
  induction h with
  | nil => exact ⟨init, Nat.le_of_eq (Nat.zero_add _)⟩
  | @snoc as s s' a _ hs ih =>
      obtain ⟨hP, hleft⟩ := ih fun b hb => hown b (List.mem_append_left _ hb)
      obtain ⟨hP', hless⟩ :=
        next hP (hown a (List.mem_append_right _ List.mem_cons_self)) hs
      refine ⟨hP', ?_⟩
      rw [List.length_append, List.length_singleton]
      omega

/-- What is computed is a run. -/
theorem Run.of_exec {s₀ s : S} {as : List A}
    (h : exec step as s₀ = some s) : Run step s₀ as s := by
  induction as generalizing s₀ with
  | nil =>
      rw [exec, Option.some.injEq] at h
      rw [h]
      exact .nil
  | cons a as ih =>
      rw [exec, Option.bind_eq_some_iff] at h
      obtain ⟨s₁, hs, hrest⟩ := h
      exact .cons hs (ih hrest)

-- =========================================================== steps in lockstep

section Lockstep

variable {α β γ δ : Type} {r : α → β → Prop} {p : γ → δ → Prop}
  {x : Option α} {y : Option β}

/-- What a step does, one in lockstep with it does too. -/
theorem rel_some (h : Option.Rel r x y) {a : α} (ha : x = some a) :
    ∃ b, y = some b ∧ r a b := by
  cases h with
  | some hr =>
      cases ha
      exact ⟨_, rfl, hr⟩
  | none => cases ha

theorem rel_bind (h : Option.Rel r x y) {f : α → Option γ}
    {g : β → Option δ} (hfg : ∀ a b, r a b → Option.Rel p (f a) (g b)) :
    Option.Rel p (x.bind f) (y.bind g) := by
  cases h with
  | some hr => exact hfg _ _ hr
  | none => exact .none

theorem rel_map (h : Option.Rel r x y) {f : α → γ} {g : β → δ}
    (hfg : ∀ a b, r a b → p (f a) (g b)) :
    Option.Rel p (x.map f) (y.map g) := by
  cases h with
  | some hr => exact .some (hfg _ _ hr)
  | none => exact .none

end Lockstep

end Lib
