/-
Decimal numbers in text: `{:0width}` as it writes them, an unsigned
`from_str` as it reads them, and the affixes of a string.

# Writing and reading

A text is the list of its characters. The writer writes one text for a
number (`padded`); the reader takes every digit string, with leading
zeros or without, and a plus sign in front of it, as long as the number
fits (`parseUnsigned_eq_some`). Its loop is kept as the library has it,
one checked multiplication and one checked addition a digit; that a
number which fits at the end has fitted at every digit is
`accumulate_eq_some`, by induction on the digits with the accumulator
general.

# Between the two

`Digits.eq_padded_iff` is the bridge: a digit string is what the writer
writes for its number if it has the width, and no leading zero beyond it.
A digit string of a given length is fixed by its number
(`Digits.eq_of_decimal`), and without a leading zero there are no more
digits than the number takes (`Digits.length_toDigits`). So whether a
reader that writes its number back has read its own text is a question
about the width only.
-/
import Mathlib.Algebra.Ring.Nat
import Mathlib.Data.List.Basic

namespace Lib

-- ================================================================ digits

/-- Decimal digits, any number of them. -/
def Digits (cs : List Char) : Prop := ∀ c ∈ cs, c.isDigit = true

instance (cs : List Char) : Decidable (Digits cs) :=
  List.decidableBAll _ cs

/-- The number they stand for. -/
def decimal (cs : List Char) : Nat := Nat.ofDigitChars 10 cs 0

theorem Digits.tail {c : Char} {cs : List Char} (h : Digits (c :: cs)) :
    Digits cs := fun d hd => h d (List.mem_cons_of_mem _ hd)

/-- A digit is below ten, and fixed by its place among them. -/
theorem isDigit_iff {c : Char} :
    c.isDigit = true ↔ 48 ≤ c.toNat ∧ c.toNat ≤ 57 := by
  rw [Char.isDigit, Bool.and_eq_true, decide_eq_true_eq, decide_eq_true_eq]
  exact Iff.rfl

theorem decimal_cons (c : Char) (cs : List Char) :
    decimal (c :: cs) = 10 ^ cs.length * (c.toNat - 48) + decimal cs := by
  rw [decimal, Nat.ofDigitChars_cons, Nat.ofDigitChars_eq_ofDigitChars_zero,
    Nat.mul_zero, Nat.zero_add]
  rfl

theorem Digits.decimal_lt {cs : List Char} (h : Digits cs) :
    decimal cs < 10 ^ cs.length := by
  induction cs with
  | nil => exact Nat.one_pos
  | cons c cs ih =>
      have hc := isDigit_iff.mp (h c List.mem_cons_self)
      have hcs := ih h.tail
      rw [decimal_cons, List.length_cons, Nat.pow_succ']
      calc 10 ^ cs.length * (c.toNat - 48) + decimal cs
          < 10 ^ cs.length * (c.toNat - 48) + 10 ^ cs.length := by omega
        _ = 10 ^ cs.length * (c.toNat - 48 + 1) := by rw [Nat.mul_succ]
        _ ≤ 10 ^ cs.length * 10 := Nat.mul_le_mul_left _ (by omega)
        _ = 10 * 10 ^ cs.length := Nat.mul_comm _ _

/-- Digit strings of one length that stand for one number are one string. -/
theorem Digits.eq_of_decimal {cs ds : List Char} (hcs : Digits cs)
    (hds : Digits ds) (hlen : cs.length = ds.length)
    (heq : decimal cs = decimal ds) : cs = ds := by
  induction cs generalizing ds with
  | nil => exact (List.length_eq_zero_iff.mp hlen.symm).symm
  | cons c cs ih =>
      cases ds with
      | nil => cases hlen
      | cons d ds =>
          have hlen' : cs.length = ds.length := Nat.succ.inj hlen
          have hc := isDigit_iff.mp (hcs c List.mem_cons_self)
          have hd := isDigit_iff.mp (hds d List.mem_cons_self)
          have hcs' := hcs.tail.decimal_lt
          have hds' := hds.tail.decimal_lt
          rw [decimal_cons, decimal_cons, hlen'] at heq
          rw [hlen'] at hcs'
          -- quotient and remainder by the weight of the first digit
          have hquot : c.toNat - 48 = d.toNat - 48 := by
            have := congrArg (· / 10 ^ ds.length) heq
            simp only [Nat.mul_add_div (Nat.pow_pos (by decide : 0 < 10)),
              Nat.div_eq_of_lt hcs', Nat.div_eq_of_lt hds'] at this
            omega
          have hrest : decimal cs = decimal ds := by
            rw [hquot] at heq
            omega
          have hchar : c = d := Char.toNat_inj.mp (by omega)
          rw [hchar, ih hcs.tail hds.tail hlen' hrest]

-- ============================================================== formatting

/-- `format!("{n:0width}")`. -/
def padded (width n : Nat) : List Char :=
  List.replicate (width - (Nat.toDigits 10 n).length) '0' ++ Nat.toDigits 10 n

theorem digits_padded (width n : Nat) : Digits (padded width n) := by
  intro c hc
  rcases List.mem_append.mp hc with hc | hc
  · rw [List.eq_of_mem_replicate hc]
    rfl
  · exact Nat.isDigit_of_mem_toDigits (by decide) (by decide) hc

theorem decimal_padded (width n : Nat) : decimal (padded width n) = n := by
  rw [decimal, padded, Nat.ofDigitChars_append,
    Nat.ofDigitChars_replicate_zero, Nat.mul_zero,
    Nat.ofDigitChars_ten_toDigits]

theorem length_padded (width n : Nat) :
    (padded width n).length = max width (Nat.toDigits 10 n).length := by
  rw [padded, List.length_append, List.length_replicate]
  omega

theorem padded_ne_nil (width n : Nat) : padded width n ≠ [] := by
  rw [padded]
  simp

/-- Without a leading zero there are no more digits than it takes: a digit
in front that is not zero makes the number at least the power of ten that
the digits behind it stay under. -/
theorem Digits.length_toDigits {c : Char} {cs : List Char}
    (h : Digits (c :: cs)) :
    (Nat.toDigits 10 (decimal (c :: cs))).length = (c :: cs).length
      ↔ c ≠ '0' ∨ cs = [] := by
  have hc := isDigit_iff.mp (h c List.mem_cons_self)
  have hlt := h.decimal_lt
  have hle := (Nat.length_toDigits_le_iff (by decide : 1 < 10)
    (Nat.succ_pos cs.length)).mpr hlt
  cases cs with
  | nil =>
      have hpos := Nat.length_toDigits_pos (b := 10) (n := decimal [c])
      refine ⟨fun _ => .inr rfl, fun _ => ?_⟩
      simp only [List.length_cons, List.length_nil] at hle ⊢
      omega
  | cons d cs =>
      have hiff := Nat.length_toDigits_le_iff (n := decimal (c :: d :: cs))
        (by decide : 1 < 10) (Nat.succ_pos cs.length)
      have hrest := h.tail.decimal_lt
      rw [List.length_cons] at hle
      constructor
      · intro hlen
        refine .inl fun hzero => ?_
        have hsmall : decimal (c :: d :: cs) < 10 ^ (cs.length + 1) := by
          rw [decimal_cons, hzero]
          simpa using hrest
        have := hiff.mpr hsmall
        rw [hlen, List.length_cons, List.length_cons] at this
        omega
      · intro hne
        have hzero : c ≠ '0' := hne.resolve_right (List.cons_ne_nil _ _)
        have hpos : 1 ≤ c.toNat - 48 := by
          have : c.toNat ≠ 48 := fun h48 => hzero (Char.toNat_inj.mp h48)
          omega
        have hlarge : 10 ^ (cs.length + 1) ≤ decimal (c :: d :: cs) := by
          rw [decimal_cons]
          exact Nat.le_trans (Nat.le_mul_of_pos_right _ hpos)
            (Nat.le_add_right _ _)
        have : ¬ (Nat.toDigits 10 (decimal (c :: d :: cs))).length
            ≤ cs.length + 1 := by
          rw [hiff]
          omega
        rw [List.length_cons, List.length_cons]
        omega

/-- A digit string is the one written for its number if it has the width,
and beyond it no leading zero. Two digit strings of one number are the same
if they have the same length, so all that is compared is lengths. -/
theorem Digits.eq_padded_iff {width : Nat} (hwidth : 0 < width)
    {cs : List Char} (h : Digits cs) :
    cs = padded width (decimal cs)
      ↔ width ≤ cs.length ∧ (width < cs.length → cs.head? ≠ some '0') := by
  have hlen : cs = padded width (decimal cs)
      ↔ cs.length = max width (Nat.toDigits 10 (decimal cs)).length := by
    rw [← length_padded]
    constructor
    · intro heq
      rw [← heq]
    · intro hlen
      exact h.eq_of_decimal (digits_padded _ _) hlen (decimal_padded _ _).symm
  rw [hlen]
  cases cs with
  | nil =>
      simp only [List.length_nil]
      omega
  | cons c cs =>
      have hdigits := h.length_toDigits
      have hle := (Nat.length_toDigits_le_iff (by decide : 1 < 10)
        (Nat.succ_pos cs.length)).mpr h.decimal_lt
      simp only [List.length_cons, List.head?_cons, ne_eq,
        Option.some.injEq] at hdigits hle ⊢
      constructor
      · intro hmax
        refine ⟨by omega, fun hlt hzero => ?_⟩
        rcases hdigits.mp (by omega) with hne | hnil
        · exact hne hzero
        · rw [hnil, List.length_nil] at hlt
          omega
      · intro hcond
        by_cases hlt : width < cs.length + 1
        · have := hdigits.mpr (.inl (hcond.2 hlt))
          omega
        · omega

-- ================================================================ parsing

/-- A checked operation on numbers below `bound`. -/
def checked (bound n : Nat) : Option Nat :=
  if n < bound then some n else none

/-- The loop of `from_str`: `checked_mul` by ten, `checked_add` of the
digit. -/
def accumulate (bound : Nat) : List Char → Nat → Option Nat
  | [], acc => some acc
  | c :: cs, acc =>
      if c.isDigit then
        (checked bound (10 * acc)).bind fun v =>
          (checked bound (v + (c.toNat - '0'.toNat))).bind
            (accumulate bound cs)
      else none

/-- `from_str` of an unsigned integer type with `bound` values. -/
def parseUnsigned (bound : Nat) : List Char → Option Nat
  | [] => none
  | ['+'] => none
  | ['-'] => none
  | '+' :: cs => accumulate bound cs 0
  | cs => accumulate bound cs 0

theorem le_ofDigitChars (cs : List Char) (acc : Nat) :
    acc ≤ Nat.ofDigitChars 10 cs acc := by
  rw [Nat.ofDigitChars_eq_ofDigitChars_zero]
  exact Nat.le_trans (Nat.le_mul_of_pos_left _ (Nat.pow_pos (by decide)))
    (Nat.le_add_right _ _)

/-- The loop of `parse` reads digits whose number stays below the bound. The
number grows with every digit read, so an overflow on the way would also be
one at the end. -/
theorem accumulate_eq_some {bound : Nat} {cs : List Char} {acc n : Nat}
    (hacc : acc < bound) :
    accumulate bound cs acc = some n
      ↔ Digits cs ∧ Nat.ofDigitChars 10 cs acc = n ∧ n < bound := by
  induction cs generalizing acc with
  | nil =>
      rw [accumulate, Option.some.injEq, Nat.ofDigitChars_nil]
      constructor
      · intro h
        subst h
        exact ⟨fun c hc => by simp at hc, rfl, hacc⟩
      · intro h
        exact h.2.1
  | cons c cs ih =>
      have hmono := le_ofDigitChars cs (10 * acc + (c.toNat - '0'.toNat))
      rw [accumulate, Nat.ofDigitChars_cons]
      constructor
      · intro h
        split at h
        · rename_i hdigit
          obtain ⟨v, hv, h⟩ := Option.bind_eq_some_iff.mp h
          obtain ⟨w, hw, h⟩ := Option.bind_eq_some_iff.mp h
          unfold checked at hv hw
          split at hv
          · cases hv
            split at hw
            · rename_i hlt
              cases hw
              obtain ⟨hdigits, hrest⟩ := (ih hlt).mp h
              refine ⟨fun d hd => ?_, hrest⟩
              rcases List.mem_cons.mp hd with rfl | hd
              · exact hdigit
              · exact hdigits d hd
            · cases hw
          · cases hv
        · cases h
      · intro h
        obtain ⟨hdigits, hvalue, hlt⟩ := h
        have hsum : 10 * acc + (c.toNat - '0'.toNat) < bound := by omega
        have hten : 10 * acc < bound := by omega
        rw [if_pos (hdigits c List.mem_cons_self), checked, if_pos hten,
          Option.bind_some, checked, if_pos hsum, Option.bind_some]
        exact (ih hsum).mpr ⟨hdigits.tail, hvalue, hlt⟩

/-- What is read: digits, at least one, with a plus sign or without. A sign
alone is not read, and a sign is no digit, so it is clear which of the two
forms a text has. -/
theorem parseUnsigned_eq_some {bound : Nat} (hbound : 0 < bound)
    {cs : List Char} {n : Nat} :
    parseUnsigned bound cs = some n
      ↔ ∃ ds, (cs = ds ∨ cs = '+' :: ds) ∧ ds ≠ [] ∧ Digits ds
        ∧ decimal ds = n ∧ n < bound := by
  constructor
  · intro h
    unfold parseUnsigned at h
    split at h
    · cases h
    · cases h
    · cases h
    · rename_i ds hne
      exact ⟨ds, .inr rfl, fun hnil => hne (by rw [hnil]),
        (accumulate_eq_some hbound).mp h⟩
    · rename_i hnil _ _ _
      exact ⟨cs, .inl rfl, hnil, (accumulate_eq_some hbound).mp h⟩
  · intro h
    obtain ⟨ds, hcs, hne, hrest⟩ := h
    have hacc := (accumulate_eq_some hbound).mpr hrest
    rcases hcs with rfl | rfl
    · unfold parseUnsigned
      split
      · exact absurd rfl hne
      · exact absurd (hrest.1 '+' List.mem_cons_self) (by decide)
      · exact absurd (hrest.1 '-' List.mem_cons_self) (by decide)
      · exact absurd (hrest.1 '+' List.mem_cons_self) (by decide)
      · exact hacc
    · unfold parseUnsigned
      split
      · rename_i heq
        cases heq
      · rename_i heq
        cases heq
        exact absurd rfl hne
      · rename_i heq
        cases heq
      · rename_i heq
        cases heq
        exact hacc
      · rename_i hplus
        exact absurd rfl (hplus ds)

-- ================================================================ affixes

/-- `strip_prefix`. -/
def stripPrefix (front cs : List Char) : Option (List Char) :=
  if front <+: cs then some (cs.drop front.length) else none

/-- `strip_suffix`. -/
def stripSuffix (back cs : List Char) : Option (List Char) :=
  if back <:+ cs then some (cs.take (cs.length - back.length)) else none

theorem stripPrefix_eq_some {front cs rest : List Char} :
    stripPrefix front cs = some rest ↔ cs = front ++ rest := by
  unfold stripPrefix
  constructor
  · intro h
    split at h
    · rename_i hpre
      obtain ⟨rest', rfl⟩ := hpre
      rw [List.drop_left, Option.some.injEq] at h
      rw [h]
    · cases h
  · intro h
    rw [h, if_pos (List.prefix_append _ _), List.drop_left]

theorem stripSuffix_eq_some {back cs rest : List Char} :
    stripSuffix back cs = some rest ↔ cs = rest ++ back := by
  unfold stripSuffix
  have htake : ∀ rest' : List Char,
      (rest' ++ back).take ((rest' ++ back).length - back.length) = rest' := by
    intro rest'
    rw [List.length_append, Nat.add_sub_cancel]
    exact List.take_left
  constructor
  · intro h
    split at h
    · rename_i hsuf
      obtain ⟨rest', rfl⟩ := hsuf
      rw [htake, Option.some.injEq] at h
      rw [h]
    · cases h
  · intro h
    rw [h, if_pos (List.suffix_append _ _), htake]

end Lib
