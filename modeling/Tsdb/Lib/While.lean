/-
`while` loops whose body may panic.

A loop is a test and a body on the state of its locals; a body that
panics has no next state. `whileLoop` runs it with as many passes as it
has fuel for, and `Heads` are the states in which the test is evaluated.

# The rule

An invariant with a variant is all a loop needs: the pass keeps the one
and makes the other smaller (`Passes`). Then with the variant as fuel the
loop is done, it has not panicked, and the invariant holds behind it
together with the failed test (`whileLoop_done`); and it holds at every
head (`Heads.invariant`), which is what a claim about every access inside
the loop, panicking or not, is drawn from.

The fuel is no part of a result: enough of it always gives one, and no
statement behind a loop (`whileLoop_andThen`) mentions how much there
was.
-/

namespace Lib

variable {S T : Type}

/-- What has become of a computation. -/
inductive Outcome (S : Type) where
  | done (s : S)
  | panicked
  | running
deriving DecidableEq, Repr

/-- The statements behind a loop. -/
def Outcome.andThen : Outcome S → (S → Option T) → Outcome T
  | .done s, rest =>
      match rest s with
      | some t => .done t
      | none => .panicked
  | .panicked, _ => .panicked
  | .running, _ => .running

theorem Outcome.andThen_done {rest : S → Option T} {s : S} {t : T}
    (h : rest s = some t) : (Outcome.done s).andThen rest = .done t := by
  rw [andThen, h]

variable (test : S → Bool) (body : S → Option S)

/-- The loop, for at most `fuel` passes. -/
def whileLoop : Nat → S → Outcome S
  | 0, s => if test s then .running else .done s
  | fuel + 1, s =>
      if test s then
        match body s with
        | some s' => whileLoop fuel s'
        | none => .panicked
      else .done s

/-- The states a loop comes by at its head. -/
inductive Heads (start : S) : S → Prop
  | start : Heads start start
  | pass {s s' : S} : Heads start s → test s = true → body s = some s' →
      Heads start s'

/-- A pass goes through, keeps the invariant and comes closer to the
end. -/
structure Passes (inv : S → Prop) (variant : S → Nat) : Prop where
  pass : ∀ s, inv s → test s = true →
    ∃ s', body s = some s' ∧ inv s' ∧ variant s' < variant s

variable {test body} {inv : S → Prop} {variant : S → Nat}

theorem Heads.invariant (h : Passes test body inv variant) {start s : S}
    (hstart : inv start) (hs : Heads test body start s) : inv s := by
  induction hs with
  | start => exact hstart
  | pass _ htest hbody ih =>
      obtain ⟨s', hs', hinv, -⟩ := h.pass _ ih htest
      rw [hbody, Option.some.injEq] at hs'
      rw [hs']
      exact hinv

theorem whileLoop_done (h : Passes test body inv variant) {fuel : Nat} {s : S}
    (hs : inv s) (hfuel : variant s ≤ fuel) :
    ∃ t, whileLoop test body fuel s = .done t ∧ inv t ∧ test t = false := by
  induction fuel generalizing s with
  | zero =>
      cases htest : test s with
      | false => exact ⟨s, by simp [whileLoop, htest], hs, htest⟩
      | true =>
          obtain ⟨s', -, -, hlt⟩ := h.pass s hs htest
          omega
  | succ fuel ih =>
      cases htest : test s with
      | false => exact ⟨s, by simp [whileLoop, htest], hs, htest⟩
      | true =>
          obtain ⟨s', hbody, hinv, hlt⟩ := h.pass s hs htest
          obtain ⟨t, ht, hrest⟩ := ih hinv (by omega)
          exact ⟨t, by simpa [whileLoop, htest, hbody] using ht, hrest⟩

/-- The statements behind the loop find the invariant and the test
failed. -/
theorem whileLoop_andThen (h : Passes test body inv variant) {fuel : Nat}
    {s : S} {rest : S → Option T} {t : T} (hs : inv s)
    (hfuel : variant s ≤ fuel)
    (hrest : ∀ s', inv s' → test s' = false → rest s' = some t) :
    (whileLoop test body fuel s).andThen rest = .done t := by
  obtain ⟨s', hloop, hinv, htest⟩ := whileLoop_done h hs hfuel
  rw [hloop]
  exact Outcome.andThen_done (hrest s' hinv htest)

end Lib
