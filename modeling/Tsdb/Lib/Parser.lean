/-
Prefix parsers: state-passing readers over a list of tokens, failing with
an error.

# What is written is read

`Parses p a ts` says that `p` reads exactly `ts` as `a`, whatever
follows. It composes along `bind` (`Parses.bind`), so the round trip of a
nested format is assembled from the round trips of its parts, in the
order in which the reader is written. A parser may look at how much input
is left and give up early; such a guard is discharged by
`Parses.guarded` when the tokens it guards are long enough to pass it,
whatever follows them.

# What is read was written so

`Reads p G` is the converse: whatever `p` reads is described by `G`, a
relation between a value and the tokens it was read from. Here a guard
can only help (`Reads.guarded`), for it lets no more through.

The two together say exactly what `p` accepts. Counted repetitions are
`many`, with the rules `Parses.many_map` and `Reads.many`; both go by
induction on the count, and the second has to give back the items with
the tokens of each, which is what `List.Forall₂` is for.
-/
import Mathlib.Data.List.Forall2

namespace Lib

variable {τ ε α β : Type}

/-- A reader over tokens `τ`. -/
abbrev Parser (τ ε α : Type) := StateT (List τ) (Except ε) α

namespace Parser

/-- The next `n` tokens. -/
def take (eof : ε) (n : Nat) : Parser τ ε (List τ) := fun ts =>
  if n ≤ ts.length then .ok (ts.take n, ts.drop n) else .error eof

/-- How many tokens are left. -/
def remaining : Parser τ ε Nat := fun ts => .ok (ts.length, ts)

/-- `n` items in a row. -/
def many (p : Parser τ ε α) : Nat → Parser τ ε (List α)
  | 0 => pure []
  | n + 1 => do
      let a ← p
      let as ← many p n
      pure (a :: as)

end Parser

/-- `p` reads exactly `ts` as `a`, whatever follows. -/
def Parses (p : Parser τ ε α) (a : α) (ts : List τ) : Prop :=
  ∀ rest, p.run (ts ++ rest) = .ok (a, rest)

theorem Parses.pure (a : α) : Parses (pure a : Parser τ ε α) a [] :=
  fun _ => rfl

theorem Parses.bind {p : Parser τ ε α} {f : α → Parser τ ε β} {a : α}
    {b : β} {ts us : List τ} (hp : Parses p a ts)
    (hf : Parses (f a) b us) : Parses (p >>= f) b (ts ++ us) := by
  intro rest
  rw [StateT.run_bind, List.append_assoc, hp]
  exact hf rest

/-- A continuation that reads nothing. -/
theorem Parses.bind_nil {p : Parser τ ε α} {f : α → Parser τ ε β} {a : α}
    {b : β} {ts : List τ} (hp : Parses p a ts) (hf : Parses (f a) b []) :
    Parses (p >>= f) b ts := by
  have := hp.bind hf
  rwa [List.append_nil] at this

theorem Parses.map {p : Parser τ ε α} {a : α} {ts : List τ} (f : α → β)
    (hp : Parses p a ts) : Parses (f <$> p) (f a) ts := by
  intro rest
  rw [StateT.run_map, hp]
  rfl

theorem Parses.take (eof : ε) (ts : List τ) :
    Parses (Parser.take eof ts.length) ts ts := by
  intro rest
  show (if ts.length ≤ (ts ++ rest).length then _ else _) = _
  rw [if_pos (by simp)]
  simp

theorem Parses.many {p : Parser τ ε α} {as : List α}
    {tss : List (List τ)} (h : List.Forall₂ (Parses p) as tss) :
    Parses (Parser.many p as.length) as tss.flatten := by
  induction h with
  | nil => exact Parses.pure []
  | @cons a ts as tss ha _ ih =>
      have htail : Parses (do
          let rest ← Parser.many p as.length
          Pure.pure (a :: rest)) (a :: as) tss.flatten :=
        ih.bind_nil (Parses.pure _)
      exact ha.bind htail

/-- One item's tokens for each item. -/
theorem Parses.many_map {p : Parser τ ε α} {γ : Type} {g : γ → α}
    {enc : γ → List τ} {xs : List γ}
    (h : ∀ x ∈ xs, Parses p (g x) (enc x)) :
    Parses (Parser.many p xs.length) (xs.map g) (xs.map enc).flatten := by
  have hall : List.Forall₂ (Parses p) (xs.map g) (xs.map enc) := by
    rw [List.forall₂_map_left_iff, List.forall₂_map_right_iff,
      List.forall₂_same]
    exact h
  have := Parses.many hall
  rwa [List.length_map] at this

/-- Where items are read as they are. -/
theorem Parses.many_same {p : Parser τ ε α} {enc : α → List τ}
    {xs : List α} (h : ∀ x ∈ xs, Parses p x (enc x)) :
    Parses (Parser.many p xs.length) xs (xs.map enc).flatten := by
  have hmany := Parses.many_map (g := id) h
  rwa [List.map_id] at hmany

/-- A guard on the input left passes when the tokens it guards are long
enough to pass it. -/
theorem Parses.guarded {p : Parser τ ε α} {a : α} {ts : List τ}
    {bad : Nat → Prop} [DecidablePred bad] {e : ε}
    (hbad : ∀ n, ts.length ≤ n → ¬bad n) (hp : Parses p a ts) :
    Parses (do
      let n ← Parser.remaining
      if bad n then throw e else p) a ts := by
  intro rest
  have hn : ¬bad (ts ++ rest).length := hbad _ (by simp)
  have hrem : (Parser.remaining : Parser τ ε Nat).run (ts ++ rest)
      = .ok ((ts ++ rest).length, ts ++ rest) := rfl
  rw [StateT.run_bind, hrem]
  show StateT.run (if bad (ts ++ rest).length then throw e else p) _ = _
  rw [if_neg hn]
  exact hp rest

-- ============================================================ the converse

/-- Whatever `p` reads is described by `G`. -/
def Reads (p : Parser τ ε α) (G : α → List τ → Prop) : Prop :=
  ∀ ts a rest, p.run ts = .ok (a, rest) → ∃ used, ts = used ++ rest ∧ G a used

namespace Reads

theorem mono {p : Parser τ ε α} {G G' : α → List τ → Prop}
    (h : Reads p G) (hG : ∀ a used, G a used → G' a used) : Reads p G' := by
  intro ts a rest hrun
  obtain ⟨used, hts, hused⟩ := h ts a rest hrun
  exact ⟨used, hts, hG a used hused⟩

theorem pure (a : α) :
    Reads (pure a : Parser τ ε α) (fun b used => b = a ∧ used = []) := by
  intro ts b rest hrun
  cases hrun
  exact ⟨[], rfl, rfl, rfl⟩

theorem throw (e : ε) : Reads (throw e : Parser τ ε α) (fun _ _ => False) := by
  intro ts b rest hrun
  cases hrun

theorem bind {p : Parser τ ε α} {f : α → Parser τ ε β}
    {G : α → List τ → Prop} {H : α → β → List τ → Prop} (hp : Reads p G)
    (hf : ∀ a, Reads (f a) (H a)) :
    Reads (p >>= f) (fun b used =>
      ∃ a u v, used = u ++ v ∧ G a u ∧ H a b v) := by
  intro ts b rest hrun
  rw [StateT.run_bind] at hrun
  cases hfirst : p.run ts with
  | error e =>
      rw [hfirst] at hrun
      cases hrun
  | ok r =>
      obtain ⟨a, mid⟩ := r
      rw [hfirst] at hrun
      obtain ⟨u, hu, hGu⟩ := hp ts a mid hfirst
      obtain ⟨v, hv, hHv⟩ := hf a mid b rest hrun
      exact ⟨u ++ v, by rw [hu, hv, List.append_assoc], a, u, v, rfl, hGu, hHv⟩

theorem map {p : Parser τ ε α} {G : α → List τ → Prop} (f : α → β)
    (hp : Reads p G) :
    Reads (f <$> p) (fun b used => ∃ a, b = f a ∧ G a used) := by
  intro ts b rest hrun
  rw [StateT.run_map] at hrun
  cases hfirst : p.run ts with
  | error e =>
      rw [hfirst] at hrun
      cases hrun
  | ok r =>
      rw [hfirst] at hrun
      cases hrun
      obtain ⟨used, hts, hused⟩ := hp ts r.1 r.2 hfirst
      exact ⟨used, hts, r.1, rfl, hused⟩

theorem take (eof : ε) (n : Nat) :
    Reads (Parser.take eof n : Parser τ ε (List τ))
      (fun a used => a = used ∧ used.length = n) := by
  intro ts a rest hrun
  have heq : (Parser.take eof n : Parser τ ε (List τ)).run ts
      = if n ≤ ts.length then .ok (ts.take n, ts.drop n) else .error eof := rfl
  rw [heq] at hrun
  split at hrun
  · rename_i hle
    cases hrun
    exact ⟨ts.take n, (List.take_append_drop n ts).symm, rfl,
      List.length_take_of_le hle⟩
  · cases hrun

/-- Items in a row, each read from the tokens of some `x`. -/
theorem many {γ : Type} {p : Parser τ ε α} {P : γ → Prop}
    {enc : γ → List τ} {val : γ → α}
    (hp : Reads p (fun a used => ∃ x, a = val x ∧ P x ∧ used = enc x))
    (n : Nat) :
    Reads (Parser.many p n) (fun as used => ∃ xs : List γ,
      as = xs.map val ∧ xs.length = n ∧ (∀ x ∈ xs, P x)
        ∧ used = (xs.map enc).flatten) := by
  induction n with
  | zero =>
      refine (Reads.pure []).mono fun as used h => ?_
      exact ⟨[], h.1, rfl, by simp, h.2⟩
  | succ n ih =>
      refine (hp.bind fun a => ih.bind fun as => Reads.pure (a :: as)).mono ?_
      intro as used h
      obtain ⟨a, u, v, rfl, ⟨x, rfl, hx, rfl⟩, as', u', v', rfl,
        ⟨xs, rfl, hn, hxs, rfl⟩, rfl, rfl⟩ := h
      refine ⟨x :: xs, rfl, congrArg (· + 1) hn, fun y hy => ?_, by simp⟩
      rcases List.mem_cons.mp hy with rfl | hy
      · exact hx
      · exact hxs y hy

/-- A guard on the input left lets no more through. -/
theorem guarded {p : Parser τ ε α} {G : α → List τ → Prop}
    {bad : Nat → Prop} [DecidablePred bad] {e : ε} (hp : Reads p G) :
    Reads (do
      let n ← Parser.remaining
      if bad n then MonadExcept.throw e else p) G := by
  intro ts a rest hrun
  have hrem : (Parser.remaining : Parser τ ε Nat).run ts
      = .ok (ts.length, ts) := rfl
  rw [StateT.run_bind, hrem] at hrun
  replace hrun : StateT.run
      (if bad ts.length then MonadExcept.throw e else p) ts
      = .ok (a, rest) := hrun
  split at hrun
  · cases hrun
  · exact hp ts a rest hrun

end Reads

end Lib
